/-
  Subject:   The integers that a `Float128` is rounded to: `trunc`, `floor`, `ceil`, `round` and
             `roundEven`.

  * `trunc_exact`: the mask leaves the integer part;
  * `away_exact`: 1 is added or subtracted without a rounding;
  * `IntegerResult`: the integer, or the encoding itself where there is none;
  * `floor_result`, `roundEven_result`: all encodings, and no packing assertion fails.
-/
import Mathlib.Data.Nat.Bitwise
import Trustme.Lib.IntegerRounding
import Trustme.Numeric.Float128Arithmetic
import Trustme.Numeric.Float128Narrowing

namespace Trustme.Numeric.Float128

open Lib (truncated halfAway halfEven Format)

/-! ## 1. As the code computes it -/

/-- `operator==`. -/
def operatorEq (x y : Float128) : Option Bool := do
  let a ← unpack x
  let b ← unpack y
  if a.kind = .notANumber ∨ b.kind = .notANumber then return false
  if a.kind = .zero ∧ b.kind = .zero then return true
  return x.hi == y.hi && x.lo == y.lo

/-- What the five functions begin with: an encoding without digits after the point is the
    result. -/
def unlessIntegral (f : Float128) (rest : Unpacked → Option Float128) : Option Float128 := do
  let value ← unpack f
  if value.kind ≠ .finite ∨ value.exponent ≥ significandBits then return f
  rest value

/-- `Float128(1.0)`. -/
def one : Option Float128 := ofDouble 0x3FF0000000000000

/-- `Float128(-1.0)`. -/
def minusOne : Option Float128 := ofDouble 0xBFF0000000000000

/-- `negative ? truncated - 1 : truncated + 1`. -/
def away (negative : Bool) (truncated : Float128) : Option Float128 := do
  let i ← one
  if negative then operatorSub truncated i else operatorAdd truncated i

/-- `trunc`. -/
def trunc (f : Float128) : Option Float128 :=
  unlessIntegral f fun value =>
    if value.exponent < 0 then some (packZero value.negative)
    else
      let mask := 1#128 <<< (significandBits - value.exponent).toNat - 1
      packFinite value.negative value.exponent (value.significand &&& ~~~mask)

/-- `floor`. -/
def floor (f : Float128) : Option Float128 :=
  unlessIntegral f fun value => do
    let truncated ← trunc f
    if !value.negative || (← operatorEq f truncated) then return truncated
    operatorSub truncated (← one)

/-- `ceil`. -/
def ceil (f : Float128) : Option Float128 :=
  unlessIntegral f fun value => do
    let truncated ← trunc f
    if value.negative || (← operatorEq f truncated) then return truncated
    operatorAdd truncated (← one)

/-- `round`. -/
def round (f : Float128) : Option Float128 :=
  unlessIntegral f fun value => do
    if value.exponent < -1 then return packZero value.negative
    if value.exponent = -1 then if value.negative then minusOne else one
    else
      let half := 1#128 <<< (significandBits - value.exponent - 1).toNat
      let fraction := value.significand &&& (half * 2 - 1)
      let truncated ← trunc f
      if fraction < half then return truncated
      away value.negative truncated

/-- `roundEven`. -/
def roundEven (f : Float128) : Option Float128 :=
  unlessIntegral f fun value => do
    if value.exponent < -1 then return packZero value.negative
    if value.exponent = -1 then
      if value.significand = implicitBit then return packZero value.negative
      if value.negative then minusOne else one
    else
      let half := 1#128 <<< (significandBits - value.exponent - 1).toNat
      let fraction := value.significand &&& (half * 2 - 1)
      let truncated ← trunc f
      let roundAway : Bool :=
        if fraction < half then false
        else if fraction > half then true
        else value.significand &&& (half * 2) != 0
      if !roundAway then return truncated
      away value.negative truncated

/-! ## 2. Equal encodings -/

def binary128 : Format := ⟨112, 15, by decide, by decide⟩

/-- The two fields below the sign, as a pattern of the format. -/
theorem magnitude_pattern (f : Float128) :
    f.magnitude = binary128.magnitude (f.biased * 2 ^ 112 + f.fraction) := by
  obtain ⟨h1, h2, -⟩ := binary128.fields (b := f.biased) (m := f.fraction) f.biased_lt f.fraction_lt
  have hunit : binary128.minUnit = -16494 := rfl
  have h1 : binary128.biased (f.biased * 2 ^ 112 + f.fraction) = f.biased := h1
  have h2 : binary128.fraction (f.biased * 2 ^ 112 + f.fraction) = f.fraction := h2
  unfold magnitude Format.magnitude
  rw [h1, h2, hunit, show (f.biased : ℤ) - 1 + -16494 = f.biased - 16495 by ring]
  rfl

variable {f : Float128}

/-- Encodings of one sign and one magnitude are the same. -/
theorem eq_of_magnitude {g : Float128} (hs : f.sign = g.sign) (hm : f.magnitude = g.magnitude) :
    f = g := by
  have hf := f.fraction_lt
  have hg := g.fraction_lt
  have hpattern : f.biased * 2 ^ 112 + f.fraction = g.biased * 2 ^ 112 + g.fraction := by
    have hlt (h : Float128) : h.biased * 2 ^ 112 + h.fraction <
        2 ^ (binary128.fractionBits + binary128.exponentBits) := by
      show _ < 2 ^ 127
      have := h.fraction_lt
      have := h.biased_lt
      omega
    rw [magnitude_pattern, magnitude_pattern] at hm
    rcases Nat.lt_trichotomy (f.biased * 2 ^ 112 + f.fraction)
      (g.biased * 2 ^ 112 + g.fraction) with
      h | h | h
    · exact absurd hm (binary128.magnitude_lt h (hlt g)).ne
    · exact h
    · exact absurd hm (binary128.magnitude_lt h (hlt f)).ne'
  have hb : f.biased = g.biased := by omega
  have hr : f.fraction = g.fraction := by omega
  unfold sign at hs
  unfold biased at hb
  unfold fraction at hr
  rw [decide_eq_decide] at hs
  have hf1 := f.hi.isLt
  have hg1 := g.hi.isLt
  have hf2 := f.lo.isLt
  have hg2 := g.lo.isLt
  have hhi : f.hi = g.hi := BitVec.eq_of_toNat_eq (by omega)
  have hlo : f.lo = g.lo := BitVec.eq_of_toNat_eq (by omega)
  exact congrArg₂ Float128.mk hhi hlo

/-! ## 3. Exact sums -/

theorem val_of_sign {negative : Bool} (hs : f.sign = negative) :
    f.val = if negative then -f.magnitude else f.magnitude := by
  unfold val
  rw [hs]

theorem magnitude_nonneg (f : Float128) : 0 ≤ f.magnitude := by
  unfold magnitude
  split
  · exact mul_nonneg (Nat.cast_nonneg _) (Lib.two_zpow_pos _).le
  · exact mul_nonneg (Nat.cast_nonneg _) (Lib.two_zpow_pos _).le

/-- A number that has an encoding is rounded to itself. -/
theorem RoundsTo.exact {r g : Float128} (h : RoundsTo g.val r) (hg : g.IsFinite) :
    r.IsFinite ∧ r.sign = decide (g.val < 0) ∧ r.val = g.val := by
  have hlt : |g.val| < overflowLimit := by
    have habs : |g.val| = g.magnitude := by
      unfold val
      cases g.sign
      · exact abs_of_nonneg g.magnitude_nonneg
      · exact (abs_neg _).trans (abs_of_nonneg g.magnitude_nonneg)
    rw [habs]
    exact magnitude_lt hg
  obtain ⟨hfin, hs, hnear⟩ := h.2 hlt
  have hle := (hnear g hg).1
  rw [sub_self, abs_zero, abs_nonpos_iff, sub_eq_zero] at hle
  exact ⟨hfin, hs, hle⟩

/-- An integer of at most 113 digits has an encoding. -/
theorem exists_natCast (negative : Bool) {k : Nat} (hk : k ≠ 0) (hle : k ≤ 2 ^ 112) :
    ∃ g : Float128, g.IsFinite ∧ g.sign = negative ∧ g.magnitude = k := by
  have hl : k.log2 ≤ 112 := by
    have h : k.log2 < 113 := (Nat.log2_lt hk).mpr (by omega)
    omega
  obtain ⟨n, hn⟩ : ∃ n, k.log2 + n = 112 := ⟨112 - k.log2, by omega⟩
  have hlo := Nat.mul_le_mul_right (2 ^ n) (Nat.log2_self_le hk)
  have hhi := Nat.mul_lt_mul_of_pos_right (Nat.lt_log2_self (n := k)) (Nat.two_pow_pos n)
  rw [← pow_add, hn] at hlo
  rw [← pow_add, Nat.add_right_comm, hn] at hhi
  have hs : (BitVec.ofNat 128 (k * 2 ^ n)).toNat = k * 2 ^ n := Nat.mod_eq_of_lt (by omega)
  obtain ⟨g, -, hfin, hsign, hmag, -⟩ := packFinite_val negative (k.log2 : ℤ)
    (BitVec.ofNat 128 (k * 2 ^ n)) (by omega) (by unfold minExponent; omega)
    (by unfold maxExponent; omega) (by omega)
  refine ⟨g, hfin, hsign, ?_⟩
  have hunit : (2 : ℚ) ^ n * 2 ^ ((k.log2 : ℤ) - 112) = 1 := by
    rw [mul_comm, ← Lib.two_zpow_add_nat, show (k.log2 : ℤ) - 112 + n = 0 by omega, zpow_zero]
  rw [hmag, hs, Nat.cast_mul, Nat.cast_pow, Nat.cast_ofNat, mul_assoc, hunit, mul_one]

/-- The number 1 under a sign. -/
theorem unit_eq (negative : Bool) : ∃ r, (if negative then minusOne else one) = some r ∧
    r.IsFinite ∧ r.sign = negative ∧ r.magnitude = 1 := by
  have hone : (if (16383 : ℕ) = 0 then ((0 : ℕ) : ℚ) * 2 ^ (-16494 : ℤ) else
      ((2 ^ 112 + 0 : ℕ) : ℚ) * 2 ^ (((16383 : ℕ) : ℤ) - 16495)) = 1 := by norm_num
  cases negative
  · exact ⟨⟨0x3FFF000000000000, 0⟩, rfl, by unfold IsFinite; decide, rfl, hone⟩
  · exact ⟨⟨0xBFFF000000000000, 0⟩, rfl, by unfold IsFinite; decide, rfl, hone⟩

/-- An integer of at most 112 digits, and 1 away from zero: no digit is lost. -/
theorem away_exact {t : Float128} {k : Nat} (ht : t.IsFinite) (hm : t.magnitude = k)
    (hk : k < 2 ^ 112) : ∃ r, away t.sign t = some r ∧ r.IsFinite ∧ r.sign = t.sign ∧
      r.magnitude = (k + 1 : ℕ) := by
  obtain ⟨i, hie, hi, hi', hone⟩ := unit_eq false
  rw [if_neg Bool.false_ne_true] at hie
  obtain ⟨g, hg, hs, hgm⟩ := exists_natCast t.sign (Nat.succ_ne_zero k) hk
  have hpos : (0 : ℚ) < (k + 1 : ℕ) := by exact_mod_cast Nat.succ_pos k
  have htv := val_of_sign (f := t) rfl
  have hgv := val_of_sign hs
  have hiv := val_of_sign hi'
  rw [if_neg Bool.false_ne_true, hone] at hiv
  rw [hm] at htv
  rw [hgm] at hgv
  unfold away
  rw [hie]
  simp only [Option.bind_eq_bind, Option.bind_some]
  cases hneg : t.sign
  · rw [hneg] at htv hgv
    have hsum : t.val + i.val = g.val := by
      rw [htv, hiv, hgv]
      push_cast
      rfl
    obtain ⟨r, hr, -, -, -, -, hadd⟩ := operatorAdd_result t i
    have hne : t.val + i.val ≠ 0 := by rw [hsum, hgv]; exact hpos.ne'
    have hround := (hadd ht hi).1 hne
    rw [hsum] at hround
    obtain ⟨hfin, hrs, hrv⟩ := hround.exact hg
    have hrs : r.sign = false := hrs.trans (decide_eq_false (by rw [hgv]; exact not_lt.mpr hpos.le))
    refine ⟨r, hr, hfin, hrs, ?_⟩
    have hrm := val_of_sign hrs
    rw [hrv, hgv] at hrm
    exact hrm.symm
  · rw [hneg] at htv hgv
    have hdiff : t.val - i.val = g.val := by
      rw [htv, hiv, hgv, if_pos rfl, if_pos rfl]
      push_cast
      ring
    obtain ⟨r, hr, -, -, -, -, hsub⟩ := operatorSub_result t i
    have hne : t.val - i.val ≠ 0 := by
      rw [hdiff, hgv, if_pos rfl]
      exact (neg_lt_zero.mpr hpos).ne
    have hround := (hsub ht hi).1 hne
    rw [hdiff] at hround
    obtain ⟨hfin, hrs, hrv⟩ := hround.exact hg
    have hrs : r.sign = true :=
      hrs.trans (decide_eq_true (by rw [hgv, if_pos rfl]; exact neg_lt_zero.mpr hpos))
    refine ⟨r, hr, hfin, hrs, ?_⟩
    have hrm := val_of_sign hrs
    rw [hrv, hgv, if_pos rfl, if_pos rfl] at hrm
    exact (neg_injective hrm).symm

/-! ## 4. The integer part -/

/-- The digits above a mask. -/
theorem toNat_and_high (v : BitVec 128) {n : Nat} (hn : n < 128) :
    (v &&& ~~~(1#128 <<< n - 1)).toNat = v.toNat / 2 ^ n * 2 ^ n := by
  have hlow := toNat_and_low v hn
  have hzero : (v &&& (1#128 <<< n - 1)) &&& (v &&& ~~~(1#128 <<< n - 1)) = 0#128 := by
    generalize 1#128 <<< n - 1 = mask
    ext i hi
    simp only [BitVec.getElem_and, BitVec.getElem_not, BitVec.getElem_zero]
    cases v[i] <;> cases mask[i] <;> rfl
  have hsum : (v &&& (1#128 <<< n - 1)) + (v &&& ~~~(1#128 <<< n - 1)) = v := by
    rw [BitVec.add_eq_or_of_and_eq_zero _ _ hzero]
    generalize 1#128 <<< n - 1 = mask
    ext i hi
    simp only [BitVec.getElem_and, BitVec.getElem_not, BitVec.getElem_or]
    cases v[i] <;> cases mask[i] <;> rfl
  have hadd := BitVec.toNat_add_of_and_eq_zero hzero
  have hdm := Nat.div_add_mod' v.toNat (2 ^ n)
  rw [hsum, hlow] at hadd
  omega

/-- A number with digits after the point, as a quotient; the integer part has 112 digits. -/
structure Fractional (f : Float128) (u : Unpacked) (k : Nat) : Prop where
  parts : Parts f u
  exponent : u.exponent = 112 - k
  pos : 0 < k

section Fractional

variable {f : Float128} {u : Unpacked} {k : Nat} (h : Fractional f u k)

include h

theorem Fractional.magnitude_eq : f.magnitude = u.significand.toNat / (2 ^ k : ℕ) := by
  have hk := Lib.two_zpow_pos (K := ℚ) k
  rw [h.parts.magnitude, h.exponent, show (112 - k - 112 : ℤ) = -k by ring, zpow_neg, zpow_natCast,
    Nat.cast_pow, Nat.cast_ofNat, div_eq_mul_inv]

theorem Fractional.quotient_lt : u.significand.toNat / 2 ^ k < 2 ^ 112 := by
  have hlt := h.parts.significand_lt
  have hk : 2 ^ 1 ≤ 2 ^ k := Nat.pow_le_pow_right (by decide) h.pos
  rw [Nat.div_lt_iff_lt_mul (Nat.two_pow_pos k)]
  omega

theorem Fractional.exponent_lt : ¬ (u.kind ≠ .finite ∨ u.exponent ≥ significandBits) := by
  have he := h.exponent
  have hk := h.pos
  rintro (hc | hc)
  · exact hc h.parts.kind
  · unfold significandBits at hc
    omega

/-- A number below 1 has no integer part. -/
theorem Fractional.quotient_small (he : u.exponent < 0) : u.significand.toNat / 2 ^ k = 0 := by
  have hk := h.exponent
  exact Nat.div_eq_of_lt (h.parts.significand_lt.trans_le
    (Nat.pow_le_pow_right (by decide) (by omega)))

theorem Fractional.unlessIntegral_eq (hu : unpack f = some u) (rest : Unpacked → Option Float128) :
    unlessIntegral f rest = rest u := by
  unfold unlessIntegral
  rw [hu]
  simp only [Option.bind_eq_bind, Option.bind_some, if_neg h.exponent_lt]

theorem trunc_exact (hu : unpack f = some u) : ∃ t, trunc f = some t ∧ t.IsFinite ∧
    t.sign = f.sign ∧ t.magnitude = (u.significand.toNat / 2 ^ k : ℕ) := by
  have hexp := h.exponent
  have hlo := h.parts.le_significand
  have hhi := h.parts.significand_lt
  unfold trunc
  rw [h.unlessIntegral_eq hu]
  by_cases he : u.exponent < 0
  · obtain ⟨h1, h2, h3, -⟩ := packZero_fields u.negative
    rw [if_pos he, h.quotient_small he, Nat.cast_zero]
    exact ⟨_, rfl, h1, h2.trans h.parts.negative, h3⟩
  · have hk : ((significandBits : ℤ) - u.exponent).toNat = k := by
      unfold significandBits
      omega
    have hmask := toNat_and_high u.significand (show k < 128 by omega)
    have hpow : 2 ^ 112 = 2 ^ (112 - k) * 2 ^ k := by
      rw [← pow_add]
      congr 1
      omega
    have hge : 2 ^ 112 ≤ u.significand.toNat / 2 ^ k * 2 ^ k := by
      rw [hpow] at hlo ⊢
      exact Nat.mul_le_mul_right _ ((Nat.le_div_iff_mul_le (Nat.two_pow_pos k)).mpr hlo)
    have hle := Nat.div_mul_le_self u.significand.toNat (2 ^ k)
    rw [if_neg he]
    dsimp only
    rw [hk]
    obtain ⟨t, ht, h1, h2, h3, -⟩ := packFinite_val u.negative u.exponent
      (u.significand &&& ~~~(1#128 <<< k - 1)) (by omega) (by unfold minExponent; omega)
      (by unfold maxExponent; omega) (by omega)
    refine ⟨t, ht, h1, h2.trans h.parts.negative, ?_⟩
    have hunit : (2 : ℚ) ^ k * 2 ^ (u.exponent - 112) = 1 := by
      rw [mul_comm, ← Lib.two_zpow_add_nat, show u.exponent - 112 + (k : ℤ) = 0 by omega, zpow_zero]
    rw [h3, hmask, Nat.cast_mul, Nat.cast_pow, Nat.cast_ofNat, mul_assoc, hunit, mul_one]

end Fractional

/-! ## 5. The five functions -/

/-- The integer that an encoding is rounded to, under its sign; what is not finite stays. -/
def IntegerResult (rnd : ℚ → ℤ) (f r : Float128) : Prop :=
  (f.IsFinite → r.IsFinite ∧ r.val = rnd f.val ∧ (r.val = 0 → r.sign = f.sign)) ∧
  (¬ f.IsFinite → r = f)

/-- A number without digits after the point is an integer. -/
theorem val_natCast {m : ℕ} (hm : f.magnitude = m) {rnd : ℚ → ℤ}
    (hint : ∀ k : ℤ, rnd k = k) : f.val = rnd f.val := by
  have hval : f.val = ((if f.sign then -m else m : ℤ) : ℚ) := by
    unfold val
    rw [hm]
    split <;> simp
  rw [hval, hint]

/-- What is left to show of such a function: the numbers with digits after the point. -/
theorem unlessIntegral_result {rnd : ℚ → ℤ} (hint : ∀ k : ℤ, rnd k = k) (f : Float128)
    {rest : Unpacked → Option Float128}
    (h : ∀ u k, unpack f = some u → Fractional f u k → ∃ r, rest u = some r ∧ r.IsFinite ∧
      r.val = rnd f.val ∧ (r.val = 0 → r.sign = f.sign)) :
    ∃ r, unlessIntegral f rest = some r ∧ IntegerResult rnd f r := by
  obtain ⟨u, hu, hclass⟩ := unpack_class f
  have hself {m : ℕ} (hm : f.magnitude = m) : IntegerResult rnd f f :=
    ⟨fun hfin => ⟨hfin, val_natCast hm hint, fun _ => rfl⟩, fun _ => rfl⟩
  unfold unlessIntegral
  rw [hu]
  simp only [Option.bind_eq_bind, Option.bind_some]
  cases hclass with
  | nan hc => exact ⟨f, by simp, fun hfin => absurd hfin hc.not_finite, fun _ => rfl⟩
  | infinite hc => exact ⟨f, by simp, fun hfin => absurd hfin hc.not_finite, fun _ => rfl⟩
  | zero hc => exact ⟨f, by simp, hself (m := 0) (by rw [hc.magnitude_eq, Nat.cast_zero])⟩
  | parts hc =>
    by_cases he : u.exponent ≥ significandBits
    · rw [if_pos (.inr he)]
      obtain ⟨n, hn⟩ : ∃ n : ℕ, u.exponent = 112 + n := by
        unfold significandBits at he
        exact ⟨(u.exponent - 112).toNat, by omega⟩
      refine ⟨f, rfl, hself (m := u.significand.toNat * 2 ^ n) ?_⟩
      rw [hc.magnitude, hn, add_sub_cancel_left, zpow_natCast]
      push_cast
      rfl
    · rw [if_neg (not_or.mpr ⟨not_not.mpr hc.kind, he⟩)]
      unfold significandBits at he
      obtain ⟨r, hr, h1, h2⟩ := h u (112 - u.exponent).toNat hu ⟨hc, by omega, by omega⟩
      exact ⟨r, hr, fun _ => ⟨h1, h2⟩, fun hfin => absurd hc.finite hfin⟩

/-- A rounding that does not depend on the sign is one of magnitudes. -/
theorem odd_result {rnd : ℚ → ℤ} (hodd : ∀ x, rnd (-x) = -rnd x) {r : Float128}
    (hs : r.sign = f.sign) (hm : r.magnitude = rnd f.magnitude) :
    r.val = rnd f.val ∧ (r.val = 0 → r.sign = f.sign) := by
  refine ⟨?_, fun _ => hs⟩
  unfold val
  rw [hs, hm]
  split
  · rw [hodd, Int.cast_neg]
  · rfl

theorem truncated_intCast (k : ℤ) : truncated (k : ℚ) = k :=
  Lib.intCast_of_odd Lib.truncated_neg Lib.truncated_natCast k

theorem trunc_result (f : Float128) : ∃ r, trunc f = some r ∧ IntegerResult truncated f r := by
  refine unlessIntegral_result truncated_intCast f fun u k hu h => ?_
  obtain ⟨t, ht, h1, h2, h3⟩ := trunc_exact h hu
  refine ⟨t, (h.unlessIntegral_eq hu _).symm.trans ht, h1, odd_result Lib.truncated_neg h2 ?_⟩
  rw [h3, h.magnitude_eq, Lib.truncated_div _ (Nat.two_pow_pos k), Int.cast_natCast]

/-- `operator==` between a number other than zero and a finite one. -/
theorem operatorEq_finite {t : Float128} {u : Unpacked} (hu : unpack f = some u) (h : Parts f u)
    (ht : t.IsFinite) : operatorEq f t = some (decide (f = t)) := by
  obtain ⟨v, hv, hclass⟩ := unpack_class t
  have hsame : (f.hi == t.hi && f.lo == t.lo) = decide (f = t) := by
    rw [Bool.eq_iff_iff, Bool.and_eq_true, beq_iff_eq, beq_iff_eq, decide_eq_true_iff,
      Float128.mk.injEq]
  unfold operatorEq
  rw [hu, hv]
  simp only [Option.bind_eq_bind, Option.bind_some, h.kind, hsame]
  cases hclass with
  | nan hc => exact absurd ht hc.not_finite
  | infinite hc => exact absurd ht hc.not_finite
  | zero hc => simp
  | parts hc => simp [hc.kind]

section Fractional

variable {f : Float128} {u : Unpacked} {k : Nat} (h : Fractional f u k) {t : Float128}
  (hs : t.sign = f.sign) (hm : t.magnitude = (u.significand.toNat / 2 ^ k : ℕ))

include h hs hm

/-- The integer part is the number exactly if no digit after the point is set. -/
theorem eq_trunc_iff : f = t ↔ u.significand.toNat % 2 ^ k = 0 := by
  have hp : ((2 ^ k : ℕ) : ℚ) ≠ 0 := by exact_mod_cast (Nat.two_pow_pos k).ne'
  have hdm := Nat.div_add_mod' u.significand.toNat (2 ^ k)
  constructor
  · intro heq
    have hmag := h.magnitude_eq
    rw [heq, hm, eq_div_iff hp] at hmag
    have hmag : u.significand.toNat / 2 ^ k * 2 ^ k = u.significand.toNat := by exact_mod_cast hmag
    omega
  · intro hz
    refine eq_of_magnitude hs.symm ?_
    rw [hz, Nat.add_zero] at hdm
    rw [hm, h.magnitude_eq, div_eq_iff hp]
    exact_mod_cast hdm.symm

/-- The step of `floor` and of `ceil` on the side where the integer part is not the result. -/
theorem ceil_magnitude (ht : t.IsFinite) :
    ∃ r, (if f = t then some t else away f.sign t) = some r ∧ r.IsFinite ∧ r.sign = f.sign ∧
      r.magnitude = ⌈f.magnitude⌉ := by
  have hceil := Lib.ceil_div (K := ℚ) u.significand.toNat (Nat.two_pow_pos k)
  rw [← h.magnitude_eq] at hceil
  rw [hceil]
  by_cases hc : f = t
  · rw [if_pos hc, if_pos ((eq_trunc_iff h hs hm).mp hc)]
    exact ⟨t, rfl, ht, hs, by rw [hm, add_zero, Int.cast_natCast]⟩
  · rw [if_neg hc, if_neg (mt (eq_trunc_iff h hs hm).mpr hc)]
    obtain ⟨r, hr, h1, h2, h3⟩ := away_exact ht hm h.quotient_lt
    rw [hs] at hr h2
    exact ⟨r, hr, h1, h2, by rw [h3]; push_cast; rfl⟩

end Fractional

theorem floor_result (f : Float128) : ∃ r, floor f = some r ∧ IntegerResult (⌊·⌋) f r := by
  refine unlessIntegral_result Int.floor_intCast f fun u k hu h => ?_
  obtain ⟨t, ht, h1, hs, hm⟩ := trunc_exact h hu
  have heq := operatorEq_finite hu h.parts h1
  have hval := val_of_sign hs
  have hfval := val_of_sign (f := f) rfl
  rw [ht]
  simp only [Option.bind_eq_bind, Option.bind_some, heq, h.parts.negative]
  cases hneg : f.sign
  · rw [hneg, if_neg Bool.false_ne_true] at hval hfval
    refine ⟨t, by simp, h1, ?_, fun _ => hs.trans hneg⟩
    rw [hval, hm, hfval, h.magnitude_eq, Lib.floor_div _ (Nat.two_pow_pos k), Int.cast_natCast]
  · rw [hneg, if_pos rfl] at hfval
    obtain ⟨r, hr, h2, hrs, hrm⟩ := ceil_magnitude h hs hm h1
    have hrval := val_of_sign (hrs.trans hneg)
    rw [if_pos rfl] at hrval
    refine ⟨r, ?_, h2, ?_, fun _ => hrs.trans hneg⟩
    · rw [← hr, hneg]
      simp [away]
    · rw [hrval, hrm, hfval, Int.floor_neg, Int.cast_neg]

theorem ceil_result (f : Float128) : ∃ r, ceil f = some r ∧ IntegerResult (⌈·⌉) f r := by
  refine unlessIntegral_result Int.ceil_intCast f fun u k hu h => ?_
  obtain ⟨t, ht, h1, hs, hm⟩ := trunc_exact h hu
  have heq := operatorEq_finite hu h.parts h1
  have hval := val_of_sign hs
  have hfval := val_of_sign (f := f) rfl
  rw [ht]
  simp only [Option.bind_eq_bind, Option.bind_some, heq, h.parts.negative]
  cases hneg : f.sign
  · rw [hneg, if_neg Bool.false_ne_true] at hfval
    obtain ⟨r, hr, h2, hrs, hrm⟩ := ceil_magnitude h hs hm h1
    have hrval := val_of_sign (hrs.trans hneg)
    rw [if_neg Bool.false_ne_true] at hrval
    refine ⟨r, ?_, h2, ?_, fun _ => hrs.trans hneg⟩
    · rw [← hr, hneg]
      simp [away]
    · rw [hrval, hrm, hfval]
  · rw [hneg, if_pos rfl] at hval hfval
    refine ⟨t, by simp, h1, ?_, fun _ => hs.trans hneg⟩
    rw [hval, hm, hfval, h.magnitude_eq, Int.ceil_neg, Lib.floor_div _ (Nat.two_pow_pos k),
      Int.cast_neg, Int.cast_natCast]

section Fractional

variable {f : Float128} {u : Unpacked} {k : Nat} (h : Fractional f u k)

include h

/-- Half a unit, and the digits after the point, as `round` and `roundEven` compute them. -/
theorem half_toNat (he : 0 ≤ u.exponent) :
    (1#128 <<< (significandBits - u.exponent - 1).toNat).toNat * 2 = 2 ^ k ∧
    (u.significand &&& (1#128 <<< (significandBits - u.exponent - 1).toNat * 2 - 1)).toNat =
      u.significand.toNat % 2 ^ k ∧
    (u.significand &&& (1#128 <<< (significandBits - u.exponent - 1).toNat * 2) != 0) =
      decide (u.significand.toNat / 2 ^ k % 2 = 1) := by
  have hexp := h.exponent
  obtain ⟨n, rfl⟩ : ∃ n, k = n + 1 := ⟨k - 1, by have := h.pos; omega⟩
  have hn : ((significandBits : ℤ) - u.exponent - 1).toNat = n := by
    unfold significandBits
    omega
  have hone := toNat_bit (show n < 128 by omega)
  have hnext := toNat_bit (show n + 1 < 128 by omega)
  have hdouble : 1#128 <<< n * 2 = 1#128 <<< (n + 1) := by
    apply BitVec.eq_of_toNat_eq
    have hlt : 2 ^ (n + 1) < 2 ^ 128 := Nat.pow_lt_pow_right (by decide) (by omega)
    rw [BitVec.toNat_mul, hone, hnext]
    exact Nat.mod_eq_of_lt (by rwa [pow_succ] at hlt)
  rw [hn, hdouble, hone, toNat_and_low _ (show n + 1 < 128 by omega)]
  refine ⟨(pow_succ 2 n).symm, rfl, ?_⟩
  have hand : (u.significand &&& 1#128 <<< (n + 1)).toNat =
      (u.significand.toNat.testBit (n + 1)).toNat * 2 ^ (n + 1) := by
    rw [BitVec.toNat_and, hnext, Nat.and_two_pow]
  have hp := Nat.two_pow_pos (n + 1)
  rw [Bool.eq_iff_iff, bne_iff_ne, decide_eq_true_iff, ne_eq, BitVec.toNat_eq, hand,
    Nat.testBit_eq_decide_div_mod_eq]
  show ¬ _ = 0 ↔ _
  by_cases hc : u.significand.toNat / 2 ^ (n + 1) % 2 = 1
  · rw [decide_eq_true hc]
    simp [hc]
  · rw [decide_eq_false hc]
    simp [hc]

/-- Below one half, and from one half up to 1. -/
theorem small_digits : (u.exponent < -1 → u.significand.toNat / 2 ^ k = 0 ∧
      2 * (u.significand.toNat % 2 ^ k) < 2 ^ k) ∧
    (u.exponent = -1 → u.significand.toNat / 2 ^ k = 0 ∧ u.significand.toNat % 2 ^ k =
      u.significand.toNat ∧ 2 ^ k = 2 ^ 112 * 2) := by
  have hexp := h.exponent
  have hhi := h.parts.significand_lt
  constructor
  · intro he
    have hk : 2 ^ 114 ≤ 2 ^ k := Nat.pow_le_pow_right (by decide) (by omega)
    rw [Nat.mod_eq_of_lt (by omega)]
    exact ⟨h.quotient_small (by omega), by omega⟩
  · intro he
    obtain rfl : k = 113 := by omega
    exact ⟨h.quotient_small (by omega), Nat.mod_eq_of_lt hhi, rfl⟩

end Fractional

theorem halfAway_intCast (k : ℤ) : halfAway (k : ℚ) = k :=
  Lib.intCast_of_odd Lib.halfAway_neg Lib.halfAway_natCast k

theorem halfEven_intCast (k : ℤ) : halfEven (k : ℚ) = k :=
  Lib.intCast_of_odd Lib.halfEven_neg Lib.halfEven_natCast k

theorem round_result (f : Float128) : ∃ r, round f = some r ∧ IntegerResult halfAway f r := by
  refine unlessIntegral_result halfAway_intCast f fun u k hu h => ?_
  have hround := Lib.halfAway_div (K := ℚ) u.significand.toNat (Nat.two_pow_pos k)
  rw [← h.magnitude_eq] at hround
  have hlo := h.parts.le_significand
  obtain ⟨hbelow, hunit⟩ := small_digits h
  rw [h.parts.negative]
  by_cases h1 : u.exponent < -1
  · obtain ⟨hq, hr⟩ := hbelow h1
    obtain ⟨hfin, hs, hm, -⟩ := packZero_fields f.sign
    rw [if_pos h1]
    refine ⟨_, rfl, hfin, odd_result Lib.halfAway_neg hs ?_⟩
    rw [hround, hq, if_neg (not_le.mpr hr), hm]
    rfl
  rw [if_neg h1]
  by_cases h2 : u.exponent = -1
  · obtain ⟨hq, hr, hk⟩ := hunit h2
    obtain ⟨r, hr', hfin, hs, hm⟩ := unit_eq f.sign
    rw [if_pos h2]
    refine ⟨r, hr', hfin, odd_result Lib.halfAway_neg hs ?_⟩
    rw [hround, hq, hr, if_pos (by omega), hm]
    rfl
  rw [if_neg h2]
  obtain ⟨t, ht, hfin, hs, hm⟩ := trunc_exact h hu
  obtain ⟨hhalf, hfraction, -⟩ := half_toNat h (by omega)
  rw [ht]
  simp only [Option.bind_eq_bind, Option.bind_some, BitVec.lt_def, hfraction]
  by_cases hc : u.significand.toNat % 2 ^ k <
      (1#128 <<< (significandBits - u.exponent - 1).toNat).toNat
  · rw [if_pos hc]
    refine ⟨t, rfl, hfin, odd_result Lib.halfAway_neg hs ?_⟩
    rw [hround, if_neg (by omega), hm, add_zero, Int.cast_natCast]
  · rw [if_neg hc]
    obtain ⟨r, hr, h4, h5, h6⟩ := away_exact hfin hm h.quotient_lt
    rw [hs] at hr h5
    refine ⟨r, hr, h4, odd_result Lib.halfAway_neg h5 ?_⟩
    rw [hround, if_pos (by omega), h6]
    push_cast
    rfl

theorem roundEven_result (f : Float128) :
    ∃ r, roundEven f = some r ∧ IntegerResult halfEven f r := by
  refine unlessIntegral_result halfEven_intCast f fun u k hu h => ?_
  have hround := Lib.halfEven_div (K := ℚ) u.significand.toNat (Nat.two_pow_pos k)
  rw [← h.magnitude_eq] at hround
  have hlo := h.parts.le_significand
  obtain ⟨hbelow, hunit⟩ := small_digits h
  rw [h.parts.negative]
  by_cases h1 : u.exponent < -1
  · obtain ⟨hq, hr⟩ := hbelow h1
    obtain ⟨hfin, hs, hm, -⟩ := packZero_fields f.sign
    rw [if_pos h1]
    refine ⟨_, rfl, hfin, odd_result Lib.halfEven_neg hs ?_⟩
    rw [hround, hq, if_neg (by omega), hm]
    rfl
  rw [if_neg h1]
  by_cases h2 : u.exponent = -1
  · obtain ⟨hq, hr, hk⟩ := hunit h2
    have himplicit : u.significand = implicitBit ↔ u.significand.toNat = 2 ^ 112 := by
      rw [BitVec.toNat_eq, toNat_implicitBit]
    rw [if_pos h2]
    by_cases h3 : u.significand = implicitBit
    · -- one half goes to the even zero
      obtain ⟨hfin, hs, hm, -⟩ := packZero_fields f.sign
      have h3' := himplicit.mp h3
      rw [if_pos h3]
      refine ⟨_, rfl, hfin, odd_result Lib.halfEven_neg hs ?_⟩
      rw [hround, hq, hr, if_neg (by omega), hm]
      rfl
    · obtain ⟨r, hr', hfin, hs, hm⟩ := unit_eq f.sign
      have h3' := mt himplicit.mpr h3
      rw [if_neg h3]
      refine ⟨r, hr', hfin, odd_result Lib.halfEven_neg hs ?_⟩
      rw [hround, hq, hr, if_pos (by omega), hm]
      rfl
  rw [if_neg h2]
  obtain ⟨t, ht, hfin, hs, hm⟩ := trunc_exact h hu
  obtain ⟨hhalf, hfraction, hodd⟩ := half_toNat h (by omega)
  rw [ht]
  simp only [Option.bind_eq_bind, Option.bind_some, BitVec.lt_def, gt_iff_lt, hfraction, hodd]
  generalize (1#128 <<< (significandBits - u.exponent - 1).toNat).toNat = half at hhalf
  have hup : (if u.significand.toNat % 2 ^ k < half then false
      else if half < u.significand.toNat % 2 ^ k then true
      else decide (u.significand.toNat / 2 ^ k % 2 = 1)) =
      decide (2 ^ k < 2 * (u.significand.toNat % 2 ^ k) ∨
        2 ^ k = 2 * (u.significand.toNat % 2 ^ k) ∧ u.significand.toNat / 2 ^ k % 2 = 1) := by
    split_ifs with c1 c2
    · exact (decide_eq_false (by omega)).symm
    · exact (decide_eq_true (by omega)).symm
    · exact decide_eq_decide.mpr (by omega)
  rw [hup]
  by_cases hc : 2 ^ k < 2 * (u.significand.toNat % 2 ^ k) ∨
      2 ^ k = 2 * (u.significand.toNat % 2 ^ k) ∧ u.significand.toNat / 2 ^ k % 2 = 1
  · rw [decide_eq_true hc]
    obtain ⟨r, hr, h4, h5, h6⟩ := away_exact hfin hm h.quotient_lt
    rw [hs] at hr h5
    refine ⟨r, hr, h4, odd_result Lib.halfEven_neg h5 ?_⟩
    rw [hround, if_pos hc, h6]
    push_cast
    rfl
  · rw [decide_eq_false hc]
    refine ⟨t, rfl, hfin, odd_result Lib.halfEven_neg hs ?_⟩
    rw [hround, if_neg hc, hm, add_zero, Int.cast_natCast]

end Trustme.Numeric.Float128
