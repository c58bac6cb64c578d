/-
  Subject:   `Float128::remainder`, exact for all operands.

  * `remainderSteps_toNat`: the loop leaves the remainder of the significands, the first one
    shifted by the difference of the exponents;
  * `Parts.dvd`: a subnormal significand ends in zeros, and so does the remainder of two;
  * `pack_exact`: the three ways of packing lose no digit, and no assertion fails;
  * `remainder_exact`: `n - d * trunc (n / d)` under the sign of `n`;
  * **`integer_operations_exact`** -- the remainder and the five roundings to an integer.
-/
import Trustme.Numeric.Float128Integers

namespace Trustme.Numeric.Float128

open Lib (truncated halfAway halfEven)

/-! ## 1. As the code computes it -/

/-- The loop of `remainder`. -/
def remainderSteps (divisor : BitVec 128) : Nat → BitVec 128 → BitVec 128
  | 0, rem => rem
  | n + 1, rem => remainderSteps divisor n ((if rem ≥ divisor then rem - divisor else rem) <<< 1)

/-- The remainder of the significands, packed with the exponent of the divisor. -/
def packRemainder (negative : Bool) (exponent : Int) (rem : BitVec 128) : Option Float128 := do
  if rem = 0 then return packZero negative
  let shortfall := significandBits + 1 - (← bitLength128 rem)
  if exponent - shortfall < minExponent then
    if exponent ≥ minExponent then
      packFinite negative minExponent (rem <<< (exponent - minExponent).toNat)
    else
      let shift := (minExponent - exponent).toNat
      if shift ≥ 128 ∨ rem &&& (1#128 <<< shift - 1) = 0 then
        packFinite negative minExponent (rem >>> shift)
      else none
  else packFinite negative (exponent - shortfall) (rem <<< shortfall)

/-- `remainder`. -/
def remainder (numerator denominator : Float128) : Option Float128 := do
  let a ← unpack numerator
  let b ← unpack denominator
  if a.kind = .notANumber ∨ b.kind = .notANumber then return canonicalNan
  if a.kind = .infinity ∨ b.kind = .zero then return canonicalNan
  if a.kind = .zero ∨ b.kind = .infinity then return numerator
  if a.exponent < b.exponent then return numerator
  let rem := remainderSteps b.significand (a.exponent - b.exponent).toNat a.significand
  let rem := if rem ≥ b.significand then rem - b.significand else rem
  packRemainder a.negative b.exponent rem

/-! ## 2. The loop -/

/-- Twice the divisor bounds what the loop holds; the last subtraction makes it the remainder. -/
theorem remainderSteps_toNat {divisor : BitVec 128} (hd : 0 < divisor.toNat)
    (hd' : divisor.toNat < 2 ^ 113) : ∀ (n : Nat) (rem : BitVec 128),
    rem.toNat < 2 * divisor.toNat →
    (if remainderSteps divisor n rem ≥ divisor then remainderSteps divisor n rem - divisor
      else remainderSteps divisor n rem).toNat = rem.toNat * 2 ^ n % divisor.toNat
  | 0, rem, h => by
    rw [remainderSteps, pow_zero, Nat.mul_one]
    simp only [ge_iff_le, BitVec.le_def]
    split
    · next hc =>
        rw [BitVec.toNat_sub_of_le hc, Nat.mod_eq_sub_mod hc, Nat.mod_eq_of_lt (by omega)]
    · next hc => rw [Nat.mod_eq_of_lt (by omega)]
  | n + 1, rem, h => by
    have hstep : (if rem ≥ divisor then rem - divisor else rem).toNat < divisor.toNat ∧
        (if rem ≥ divisor then rem - divisor else rem).toNat % divisor.toNat =
          rem.toNat % divisor.toNat := by
      simp only [ge_iff_le, BitVec.le_def]
      split
      · next hc =>
          rw [BitVec.toNat_sub_of_le hc]
          exact ⟨by omega, (Nat.mod_eq_sub_mod hc).symm⟩
      · next hc => exact ⟨by omega, rfl⟩
    have hshift (v : BitVec 128) (hv : v.toNat < divisor.toNat) :
      (v <<< 1).toNat = v.toNat * 2 := by
      rw [BitVec.toNat_shiftLeft, Nat.shiftLeft_eq, pow_one]
      exact Nat.mod_eq_of_lt (by omega)
    have hone := hshift _ hstep.1
    rw [remainderSteps, remainderSteps_toNat hd hd' n _ (by omega), hone, Nat.mul_assoc,
      ← pow_succ', Nat.mul_mod, hstep.2, ← Nat.mul_mod]

/-! ## 3. Packing -/

/-- A significand below the smallest exponent ends in zeros. -/
theorem Parts.dvd {f : Float128} {u : Unpacked} (h : Parts f u) {n : Nat}
    (hn : u.exponent + n = minExponent) : 2 ^ n ∣ u.significand.toNat := by
  obtain ⟨m, q, hq, hm⟩ : ∃ (m : ℕ) (q : ℤ), -16494 ≤ q ∧ f.magnitude = m * 2 ^ q := by
    unfold Float128.magnitude
    split
    · exact ⟨_, _, Int.le_refl _, rfl⟩
    · exact ⟨_, _, by omega, rfl⟩
  unfold minExponent at hn
  obtain ⟨j, hj⟩ : ∃ j : ℕ, q = u.exponent - 112 + j := ⟨(q - (u.exponent - 112)).toNat, by omega⟩
  have hu := Lib.two_zpow_pos (K := ℚ) (u.exponent - 112)
  rw [h.magnitude, hj, Lib.two_zpow_add_nat, mul_comm ((2 : ℚ) ^ _) (2 ^ j), ← mul_assoc,
    mul_left_inj' hu.ne'] at hm
  have hm : u.significand.toNat = m * 2 ^ j := by exact_mod_cast hm
  rw [hm]
  exact Dvd.dvd.mul_left (Nat.pow_dvd_pow 2 (by omega)) _

/-- A remainder that fits under the divisor's exponent is packed as the number it is. -/
theorem pack_exact (negative : Bool) {exponent : Int} (rem : BitVec 128) (hlt : rem.toNat < 2 ^ 113)
    (hlo : -16494 ≤ exponent) (hhi : exponent ≤ 16383)
    (hdvd : ∀ n : Nat, exponent + n = minExponent → 2 ^ n ∣ rem.toNat) :
    ∃ r, packRemainder negative exponent rem = some r ∧ r.IsFinite ∧ r.sign = negative ∧
      r.magnitude = rem.toNat * 2 ^ (exponent - 112) := by
  unfold packRemainder
  by_cases hz : rem = 0
  · obtain ⟨h1, h2, h3, -⟩ := packZero_fields negative
    have hz' : rem.toNat = 0 := by rw [hz]; rfl
    rw [if_pos hz]
    exact ⟨_, rfl, h1, h2, by rw [h3, hz', Nat.cast_zero, zero_mul]⟩
  have hne : rem.toNat ≠ 0 := fun h => hz (BitVec.eq_of_toNat_eq h)
  have hl : rem.toNat.log2 < 113 := (Nat.log2_lt hne).mpr hlt
  have hlow := Nat.log2_self_le hne
  have hhigh := Nat.lt_log2_self (n := rem.toNat)
  obtain ⟨k, hk⟩ : ∃ k, rem.toNat.log2 + k = 112 := ⟨112 - rem.toNat.log2, by omega⟩
  have hshortfall : significandBits + 1 - (rem.toNat.log2 + 1) = k := by
    unfold significandBits
    omega
  -- up to the shortfall a shift to the left loses nothing
  have hshift {n : Nat} (hn : n ≤ k) : (rem <<< n).toNat = rem.toNat * 2 ^ n ∧
      rem.toNat * 2 ^ n < 2 ^ (113 - (k - n)) := by
    have hpow : rem.toNat * 2 ^ n < 2 ^ (113 - (k - n)) := by
      calc rem.toNat * 2 ^ n < 2 ^ (rem.toNat.log2 + 1) * 2 ^ n :=
            Nat.mul_lt_mul_of_pos_right hhigh (Nat.two_pow_pos n)
        _ = 2 ^ (113 - (k - n)) := by rw [← pow_add]; congr 1; omega
    have hle : 2 ^ (113 - (k - n)) ≤ 2 ^ 113 := Nat.pow_le_pow_right (by decide) (by omega)
    refine ⟨?_, hpow⟩
    rw [BitVec.toNat_shiftLeft, Nat.shiftLeft_eq]
    exact Nat.mod_eq_of_lt (by omega)
  have hscale (m n : Nat) (e : ℤ) : ((m * 2 ^ n : ℕ) : ℚ) * 2 ^ (e - n - 112) =
    m * 2 ^ (e - 112) := by
    rw [show e - 112 = e - n - 112 + n by ring, Lib.two_zpow_add_nat]
    push_cast
    ring
  rw [if_neg hz, bitLength128_eq hz]
  simp only [Option.bind_eq_bind, Option.bind_some, hshortfall]
  by_cases hc : exponent - k < minExponent
  · rw [if_pos hc]
    by_cases he : exponent ≥ minExponent
    · obtain ⟨n, hn⟩ : ∃ n : ℕ, exponent = minExponent + n :=
        ⟨(exponent - minExponent).toNat, by omega⟩
      obtain ⟨hs, hb⟩ := hshift (n := n) (by omega)
      have hle : 2 ^ (113 - (k - n)) ≤ 2 ^ 112 := Nat.pow_le_pow_right (by decide) (by omega)
      rw [if_pos he, show (exponent - minExponent).toNat = n by omega]
      obtain ⟨r, hr, h1, h2, h3, -⟩ := packFinite_val negative minExponent (rem <<< n) (by omega)
        (Int.le_refl _) (by decide) fun _ => rfl
      refine ⟨r, hr, h1, h2, ?_⟩
      rw [h3, hs, hn, ← hscale rem.toNat n, add_sub_cancel_right]
    · obtain ⟨n, hn⟩ : ∃ n : ℕ, exponent + n = minExponent :=
        ⟨(minExponent - exponent).toNat, by omega⟩
      have hn112 : n ≤ 112 := by
        unfold minExponent at hn
        omega
      have hmask := toNat_and_low rem (show n < 128 by omega)
      have hzero : rem &&& (1#128 <<< n - 1) = 0 := by
        apply BitVec.eq_of_toNat_eq
        rw [hmask, Nat.mod_eq_zero_of_dvd (hdvd n hn)]
        rfl
      have hdiv : (rem >>> n).toNat * 2 ^ n = rem.toNat := by
        rw [BitVec.toNat_ushiftRight, Nat.shiftRight_eq_div_pow]
        exact Nat.div_mul_cancel (hdvd n hn)
      have hn1 : 2 ^ 1 ≤ 2 ^ n := Nat.pow_le_pow_right (by decide) (by omega)
      have hsmall : (rem >>> n).toNat < 2 ^ 112 := by
        by_contra hge
        have := Nat.mul_le_mul (not_lt.mp hge) hn1
        omega
      rw [if_neg he, show (minExponent - exponent).toNat = n by omega]
      rw [if_pos (.inr hzero)]
      obtain ⟨r, hr, h1, h2, h3, -⟩ := packFinite_val negative minExponent (rem >>> n) (by omega)
        (Int.le_refl _) (by decide) fun _ => rfl
      refine ⟨r, hr, h1, h2, ?_⟩
      rw [h3, ← hscale _ n, hdiv, show minExponent - (n : ℤ) = exponent by omega]
  · obtain ⟨hs, hb⟩ := hshift (Nat.le_refl k)
    have hge : 2 ^ 112 ≤ rem.toNat * 2 ^ k := by
      rw [← hk, pow_add]
      exact Nat.mul_le_mul_right _ hlow
    have hb : rem.toNat * 2 ^ k < 2 ^ 113 := by rwa [Nat.sub_self] at hb
    rw [if_neg hc]
    obtain ⟨r, hr, h1, h2, h3, -⟩ := packFinite_val negative (exponent - k) (rem <<< k) (by omega)
      (by omega) (by unfold maxExponent; omega) (by omega)
    exact ⟨r, hr, h1, h2, by rw [h3, hs, hscale]⟩

/-! ## 4. The remainder -/

/-- The remainder of a division that truncates. -/
def rationalRemainder (n d : ℚ) : ℚ := n - d * truncated (n / d)

/-- It is one of magnitudes, under the sign of the first number. -/
theorem rationalRemainder_signed (x y : ℚ) (s t : Bool) :
    rationalRemainder (if s then -x else x) (if t then -y else y) =
      if s then -rationalRemainder x y else rationalRemainder x y := by
  unfold rationalRemainder
  cases s <;> cases t <;>
    simp [div_neg, neg_div, Lib.truncated_neg, sub_eq_add_neg, add_comm]

/-- Of two numbers of units, it is the remainder of the numbers. -/
theorem rationalRemainder_units (m : Nat) {n : Nat} (hn : 0 < n) {unit : ℚ} (hu : unit ≠ 0) :
    rationalRemainder (m * unit) (n * unit) = (m % n : ℕ) * unit := by
  have h : (n : ℚ) * (m / n : ℕ) + (m % n : ℕ) = m := by exact_mod_cast Nat.div_add_mod m n
  unfold rationalRemainder
  rw [mul_div_mul_right _ _ hu, Lib.truncated_div _ hn, Int.cast_natCast, ← h]
  ring

/-- The remainder of two encodings, under the sign of the first. -/
def RemainderResult (n d r : Float128) : Prop :=
  r.IsFinite ∧ r.sign = n.sign ∧ r.val = rationalRemainder n.val d.val

theorem remainder_exact {n d : Float128} (hn : n.IsFinite) (hd : d.IsFinite) (hd' : ¬ d.IsZero) :
    ∃ r, remainder n d = some r ∧ RemainderResult n d r := by
  obtain ⟨a, ha, hclass⟩ := unpack_class n
  obtain ⟨b, hb, hclass'⟩ := unpack_class d
  have hsigned {r : Float128} (hs : r.sign = n.sign)
      (hm : r.magnitude = rationalRemainder n.magnitude d.magnitude) :
      r.val = rationalRemainder n.val d.val := by
    rw [val_of_sign hs, hm, val_of_sign (f := n) rfl, val_of_sign (f := d) rfl,
      rationalRemainder_signed]
  have hparts : Parts d b := by
    cases hclass' with
    | nan h => exact absurd hd h.not_finite
    | infinite h => exact absurd hd h.not_finite
    | zero h => exact absurd h hd'
    | parts h => exact h
  have hbpos : 0 < b.significand.toNat := by
    have := hparts.le_significand
    omega
  unfold remainder
  rw [ha, hb]
  simp only [Option.bind_eq_bind, Option.bind_some]
  cases hclass with
  | nan h => exact absurd hn h.not_finite
  | infinite h => exact absurd hn h.not_finite
  | zero h =>
    refine ⟨n, by simp [hparts.kind], hn, rfl, hsigned rfl ?_⟩
    rw [h.magnitude_eq, rationalRemainder, zero_div]
    simp [truncated]
  | parts h =>
    have hapos := h.le_significand
    simp only [h.kind, hparts.kind, reduceCtorEq, or_self, if_false, h.negative]
    by_cases hc : a.exponent < b.exponent
    · -- the first number is the smaller one
      obtain ⟨j, hj⟩ : ∃ j : ℕ, b.exponent = a.exponent + (j + 1 : ℕ) :=
        ⟨(b.exponent - a.exponent - 1).toNat, by omega⟩
      have hlt : a.significand.toNat < b.significand.toNat * 2 ^ (j + 1) := by
        have h1 := h.significand_lt
        have h2 := Nat.mul_le_mul hparts.le_significand (Nat.pow_le_pow_right (n := 2) (by decide)
          (show 1 ≤ j + 1 by omega))
        omega
      have hd : d.magnitude = (b.significand.toNat * 2 ^ (j + 1) : ℕ) * 2 ^ (a.exponent - 112) := by
        rw [hparts.magnitude, hj, add_sub_right_comm, Lib.two_zpow_add_nat]
        push_cast
        ring
      rw [if_pos hc]
      refine ⟨n, rfl, hn, rfl, hsigned rfl ?_⟩
      rw [h.magnitude, hd, rationalRemainder_units _ (Nat.mul_pos hbpos (Nat.two_pow_pos _))
        (Lib.two_zpow_pos _).ne', Nat.mod_eq_of_lt hlt]
    · obtain ⟨j, hj⟩ : ∃ j : ℕ, a.exponent = b.exponent + j :=
        ⟨(a.exponent - b.exponent).toNat, by omega⟩
      have hrem := remainderSteps_toNat hbpos hparts.significand_lt j a.significand (by
        have := h.significand_lt
        have := hparts.le_significand
        omega)
      have hmag : n.magnitude = (a.significand.toNat * 2 ^ j : ℕ) * 2 ^ (b.exponent - 112) := by
        rw [h.magnitude, hj, add_sub_right_comm, Lib.two_zpow_add_nat]
        push_cast
        ring
      rw [if_neg hc, show (a.exponent - b.exponent).toNat = j by omega]
      generalize (if remainderSteps b.significand j a.significand ≥ b.significand then
        remainderSteps b.significand j a.significand - b.significand else
        remainderSteps b.significand j a.significand) = rem at hrem
      have hlt := Nat.mod_lt (a.significand.toNat * 2 ^ j) hbpos
      have hb := hparts.significand_lt
      obtain ⟨r, hr, h1, h2, h3⟩ := pack_exact n.sign rem (by omega) hparts.le_exponent
        hparts.exponent_le fun k hk => by
          rw [hrem, Nat.dvd_mod_iff (hparts.dvd hk)]
          rcases Nat.lt_or_ge j k with hjk | hjk
          · obtain ⟨i, rfl⟩ := Nat.exists_eq_add_of_lt hjk
            have hi := h.dvd (n := i + 1) (by omega)
            rw [show j + i + 1 = i + 1 + j by omega, pow_add]
            exact Nat.mul_dvd_mul_right hi _
          · exact Dvd.dvd.mul_left (Nat.pow_dvd_pow 2 hjk) _
      refine ⟨r, hr, h1, h2, hsigned h2 ?_⟩
      rw [h3, hrem, hmag, hparts.magnitude, rationalRemainder_units _ hbpos
        (Lib.two_zpow_pos _).ne']

/-- **Remainders and integers**: the remainder of finite numbers is exact, the five roundings give
    the integer under the sign of the number, and no assertion fails. -/
theorem integer_operations_exact (x d : Float128) :
    (x.IsFinite → d.IsFinite → ¬ d.IsZero →
      ∃ r, remainder x d = some r ∧ RemainderResult x d r) ∧
    (∃ r, trunc x = some r ∧ IntegerResult truncated x r) ∧
    (∃ r, floor x = some r ∧ IntegerResult (⌊·⌋) x r) ∧
    (∃ r, ceil x = some r ∧ IntegerResult (⌈·⌉) x r) ∧
    (∃ r, round x = some r ∧ IntegerResult halfAway x r) ∧
    ∃ r, roundEven x = some r ∧ IntegerResult halfEven x r :=
  ⟨remainder_exact, trunc_result x, floor_result x, ceil_result x, round_result x,
    roundEven_result x⟩

end Trustme.Numeric.Float128
