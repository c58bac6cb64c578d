/-
  Subject:   `U128::encodeFloat`, the pattern of a 128-bit number in a binary format.

  * `encodeFloat`: the number is moved up to its top bit, cut, and rounded by one subtraction;
  * `roundUp_toNat`: that subtraction carries exactly if the round bit is set and either a lower
    bit or the last digit kept is;
  * `tail_spec`: the round bit and the lower bits in the two limbs that overlap;
  * **`encodeFloat_rounds`** -- the result is the rounding to nearest, ties to even, in both
    formats.
-/
import Trustme.Lib.BinaryFormat
import Trustme.Numeric.U128

namespace Trustme.Numeric.U128

open Lib (Told halfEven told_halfEven)

/-! ## 1. As the code computes it -/

/-- The loop that counts the bits of a number. -/
def countBits (val : U128) : Nat :=
  if h : cmp128 val ⟨0, 0⟩ = 0 then 0 else countBits (val.shr 1) + 1
termination_by val.toNat
decreasing_by
  rw [cmp128_zero] at h
  rw [shr_toNat]
  omega

/-- The bits under the significand: the first of them on top, all others somewhere below. -/
def tail (y : U128) (s : Nat) : BitVec 64 := (y.shr s).lo ||| (y.lo &&& ((1#64 <<< s) - 1))

/-- The carry into a significand that ends in `a`. -/
def roundUp (a b : BitVec 64) : BitVec 64 := (b - ((b >>> 63) &&& ~~~a)) >>> 63

/-- `encodeFloat`. -/
def encodeFloat (v : U128) (bits : Nat) (zeroExp : Int) : BitVec 64 :=
  let n := 128 - countBits v
  let y := v.shl n
  let a := y.hi >>> (128 - (bits + 1) - 64)
  let s := 64 - (bits + 1)
  let b := tail y s
  let m := a + roundUp a b
  let e := if cmp128 v ⟨0, 0⟩ = 0 then 0#64 else BitVec.ofInt 64 ((127 - (n : Int)) + zeroExp - 1)
  (e <<< bits) + m

theorem countBits_eq (v : U128) : countBits v = if v.toNat = 0 then 0 else v.toNat.log2 + 1 := by
  induction v using countBits.induct with
  | case1 v h => rw [countBits, dif_pos h, if_pos ((cmp128_zero v).mp h)]
  | case2 v hc ih =>
    have h : v.toNat ≠ 0 := mt (cmp128_zero v).mpr hc
    rw [countBits, dif_neg hc, if_neg h, ih, shr_toNat, pow_one]
    split
    · next h0 =>
        have h1 : v.toNat = 1 := by omega
        rw [h1]
        rfl
    · next h0 =>
        rw [Nat.log2_def v.toNat, if_pos (by omega)]

/-! ## 2. The rounding trick -/

theorem roundUp_toNat (a b : BitVec 64) : (roundUp a b).toNat =
    if b.toNat / 2 ^ 63 = 1 ∧ (b.toNat % 2 ^ 63 ≠ 0 ∨ a.toNat % 2 = 1) then 1 else 0 := by
  have ha := a.isLt
  have hb := b.isLt
  have hcarry : ((b >>> 63) &&& ~~~a).toNat =
      if b.toNat / 2 ^ 63 = 1 ∧ a.toNat % 2 = 0 then 1 else 0 := by
    rw [BitVec.toNat_and, BitVec.toNat_ushiftRight, BitVec.toNat_not, Nat.shiftRight_eq_div_pow]
    obtain h0 | h1 : b.toNat / 2 ^ 63 = 0 ∨ b.toNat / 2 ^ 63 = 1 := by omega
    · rw [h0, Nat.zero_and, if_neg (by omega)]
    · rw [h1, Nat.one_and_eq_mod_two]
      split_ifs <;> omega
  unfold roundUp
  rw [BitVec.toNat_ushiftRight, Nat.shiftRight_eq_div_pow, BitVec.toNat_sub, hcarry]
  split_ifs <;> omega

/-- What the overlapping limbs hold. -/
theorem tail_spec (y : U128) {s : Nat} (hs : s < 64) :
    (tail y s).toNat / 2 ^ 63 = y.toNat / 2 ^ (63 + s) % 2 ∧
      ((tail y s).toNat % 2 ^ 63 ≠ 0 ↔ y.toNat % 2 ^ (63 + s) ≠ 0) := by
  have hlt := y.toNat_lt
  have hshr : (y.shr s).lo.toNat = y.toNat / 2 ^ s % 2 ^ 64 := by
    have h := shr_toNat y s
    have hl := (y.shr s).lo.isLt
    unfold toNat at h ⊢
    omega
  have hmask : (y.lo &&& ((1#64 <<< s) - 1)).toNat = y.toNat % 2 ^ s := by
    have hp := Nat.two_pow_pos s
    have hlt : 2 ^ s < 2 ^ 64 := Nat.pow_lt_pow_right (by decide) hs
    have hsub : ((1#64 <<< s) - 1).toNat = 2 ^ s - 1 := by
      rw [BitVec.toNat_sub, toNat_bit hs]
      simp only [BitVec.ofNat_eq_ofNat, BitVec.toNat_ofNat]
      omega
    have hdvd : 2 ^ s ∣ y.hi.toNat * 2 ^ 64 :=
      Dvd.dvd.mul_left (pow_dvd_pow 2 (by omega)) _
    rw [BitVec.toNat_and, hsub, Nat.and_two_pow_sub_one_eq_mod]
    unfold toNat
    obtain ⟨c, hc⟩ := hdvd
    rw [hc, Nat.mul_add_mod]
  have hsplit : y.toNat / 2 ^ (63 + s) = y.toNat / 2 ^ s / 2 ^ 63 := by
    rw [Nat.add_comm, pow_add, Nat.div_div_eq_div_mul]
  have hmod : y.toNat % 2 ^ (63 + s) = y.toNat % 2 ^ s + 2 ^ s * (y.toNat / 2 ^ s % 2 ^ 63) := by
    rw [Nat.add_comm 63, pow_add, Nat.mod_mul]
  unfold tail
  rw [BitVec.toNat_or, hshr, hmask, hsplit, hmod]
  have hlow : y.toNat % 2 ^ s < 2 ^ 63 :=
    Nat.lt_of_lt_of_le (Nat.mod_lt _ (Nat.two_pow_pos s))
      (Nat.pow_le_pow_right (by decide) (by omega))
  generalize y.toNat % 2 ^ s = low at hlow
  generalize y.toNat / 2 ^ s = high
  constructor
  · rw [Nat.or_div_two_pow, Nat.div_eq_of_lt hlow, Nat.or_zero]
    omega
  · rw [Nat.or_mod_two_pow, Nat.mod_eq_of_lt hlow, Nat.mod_mod_of_dvd _ (by decide)]
    have hp := Nat.two_pow_pos s
    rw [ne_eq, ne_eq, not_iff_not, Nat.or_eq_zero_iff, Nat.add_eq_zero_iff, Nat.mul_eq_zero]
    omega

/-! ## 3. The pattern -/

theorem hi_shift (y : U128) (s : Nat) : (y.hi >>> s).toNat = y.toNat / 2 ^ (64 + s) := by
  have hhi : y.toNat / 2 ^ 64 = y.hi.toNat := by
    have hl := y.lo.isLt
    unfold toNat
    omega
  rw [BitVec.toNat_ushiftRight, Nat.shiftRight_eq_div_pow, pow_add, ← Nat.div_div_eq_div_mul, hhi]

/-- A number of which the last digit kept weighs `2 ^ (k - bits)`. -/
theorem tail_halfEven {v : U128} {k bits : Nat} (hk : k ≤ 127) (hbits : bits < 64) {y : U128}
    (hy : y.toNat = v.toNat * 2 ^ (127 - k)) :
    halfEven ((v.toNat : ℚ) / 2 ^ (k - bits : ℤ)) =
      (y.hi >>> (63 - bits)).toNat + (roundUp (y.hi >>> (63 - bits))
        (tail y (63 - bits))).toNat := by
  obtain ⟨s, hs⟩ : ∃ s, s + bits = 63 := ⟨63 - bits, by omega⟩
  obtain ⟨hround, hsticky⟩ := tail_spec y (s := s) (by omega)
  have hfirst : Told (v.toNat : ℚ) v.toNat 0 false := by
    unfold Told
    simp
  have htold := (hfirst.shiftLeft (127 - k)).shiftRight (63 + s)
  rw [← hy] at htold
  have hhalf := told_halfEven htold
  have ha : (y.hi >>> s).toNat = y.toNat / 2 ^ (63 + s) / 2 := by
    rw [hi_shift, Nat.div_div_eq_div_mul, ← pow_succ, show 63 + s + 1 = 64 + s by omega]
  have hexp : (0 - ((127 - k : ℕ) : ℤ) + ((63 + s : ℕ) : ℤ) + 1) = k - bits := by omega
  rw [hexp] at hhalf
  rw [show 63 - bits = s by omega, hhalf, roundUp_toNat, ha, hround]
  simp only [hsticky, Bool.false_or, decide_eq_true_eq]
  push_cast
  rfl

/-- Exponent and significand are added without a carry out of the limb. -/
theorem assemble_toNat {a up : BitVec 64} {e bits : Nat} (ha : a.toNat < 2 ^ (bits + 1))
    (hup : up.toNat ≤ 1) (hfit : e * 2 ^ bits + 2 ^ (bits + 1) < 2 ^ 64) :
    ((BitVec.ofNat 64 e <<< bits) + (a + up)).toNat = e * 2 ^ bits + (a.toNat + up.toNat) := by
  have hle : e ≤ e * 2 ^ bits := Nat.le_mul_of_pos_right _ (Nat.two_pow_pos _)
  have he : (BitVec.ofNat 64 e).toNat = e := Nat.mod_eq_of_lt (by omega)
  rw [BitVec.toNat_add, BitVec.toNat_shiftLeft, he, Nat.shiftLeft_eq, BitVec.toNat_add]
  generalize e * 2 ^ bits = high at hfit
  generalize 2 ^ (bits + 1) = top at hfit ha
  omega

/-- Where nothing overflows the result is the sum of the exponent below the number's own and of
    the rounded significand. -/
theorem encodeFloat_toNat {v : U128} (hv : v.toNat ≠ 0) {bits bias : Nat} (hbits : bits < 63)
    (hbias : 0 < bias) (hfit : (v.toNat.log2 + bias + 1) * 2 ^ bits < 2 ^ 64) :
    ∃ m : Nat, (encodeFloat v bits bias).toNat = (v.toNat.log2 + bias - 1) * 2 ^ bits + m ∧
      (m : ℤ) = halfEven ((v.toNat : ℚ) / 2 ^ (v.toNat.log2 - bits : ℤ)) := by
  have hhi := Nat.lt_log2_self (n := v.toNat)
  have hk : v.toNat.log2 < 128 := (Nat.log2_lt hv).mpr v.toNat_lt
  have hcount := countBits_eq v
  rw [if_neg hv] at hcount
  generalize v.toNat.log2 = k at hhi hk hfit hcount
  have hn : 128 - countBits v = 127 - k := by omega
  have hy : (v.shl (127 - k)).toNat = v.toNat * 2 ^ (127 - k) := by
    rw [shl_toNat]
    refine Nat.mod_eq_of_lt ?_
    calc v.toNat * 2 ^ (127 - k) < 2 ^ (k + 1) * 2 ^ (127 - k) :=
          Nat.mul_lt_mul_of_pos_right hhi (Nat.two_pow_pos _)
      _ = 2 ^ 128 := by rw [← pow_add]; congr 1; omega
  have ha : ((v.shl (127 - k)).hi >>> (63 - bits)).toNat < 2 ^ (bits + 1) := by
    rw [hi_shift, Nat.div_lt_iff_lt_mul (Nat.two_pow_pos _), ← pow_add]
    exact Nat.lt_of_lt_of_le (v.shl (127 - k)).toNat_lt
      (Nat.pow_le_pow_right (by decide) (by omega))
  have hup (a b : BitVec 64) : (roundUp a b).toNat ≤ 1 := by
    rw [roundUp_toNat]
    split <;> omega
  have hexp : 127 - ((127 - k : ℕ) : Int) + bias - 1 = ((k + bias - 1 : ℕ) : Int) := by omega
  have hsplit : (k + bias + 1) * 2 ^ bits = (k + bias - 1) * 2 ^ bits + 2 ^ (bits + 1) := by
    obtain ⟨b, rfl⟩ : ∃ b, bias = b + 1 := ⟨bias - 1, by omega⟩
    rw [show k + (b + 1) - 1 = k + b by omega]
    ring
  rw [hsplit] at hfit
  unfold encodeFloat
  dsimp only
  rw [hn, if_neg (mt (cmp128_zero v).mp hv), show 128 - (bits + 1) - 64 = 63 - bits by omega,
    show 64 - (bits + 1) = 63 - bits by omega, hexp, BitVec.ofInt_natCast]
  refine ⟨_, assemble_toNat ha (hup _ _) hfit, ?_⟩
  rw [tail_halfEven (by omega) (show bits < 64 by omega) hy]
  push_cast
  rfl

/-! ## 4. The rounding -/

/-- A format whose fields fit a limb receives the rounding of every number but zero. -/
theorem encodeFloat_roundsTo (F : Lib.Format) {v : U128} (hv : v.toNat ≠ 0)
    (hbias : 127 ≤ F.bias) (hbits : F.fractionBits < 63)
    (hfit : (128 + F.bias) * 2 ^ F.fractionBits < 2 ^ 64) :
    F.RoundsTo v.toNat (encodeFloat v F.fractionBits F.bias).toNat := by
  have hk : v.toNat.log2 < 128 := (Nat.log2_lt hv).mpr v.toNat_lt
  have hlo : (2 : ℚ) ^ v.toNat.log2 ≤ v.toNat := by exact_mod_cast Nat.log2_self_le hv
  have hhi : (v.toNat : ℚ) < 2 ^ (v.toNat.log2 + 1) := by
    exact_mod_cast Nat.lt_log2_self (n := v.toNat)
  have hle : (v.toNat.log2 + F.bias + 1) * 2 ^ F.fractionBits ≤
    (128 + F.bias) * 2 ^ F.fractionBits :=
    Nat.mul_le_mul_right _ (by omega)
  obtain ⟨m, he, hm⟩ := encodeFloat_toNat hv hbits (by omega) (Nat.lt_of_le_of_lt hle hfit)
  generalize v.toNat.log2 = k at *
  have hq : ((k + F.bias - 1 : ℕ) : ℤ) + F.minUnit = k - F.fractionBits := by
    unfold Lib.Format.minUnit
    omega
  have hscale (n : Nat) : (2 : ℚ) ^ (F.fractionBits + n) * 2 ^ (k - F.fractionBits : ℤ) =
    2 ^ (k + n) := by
    rw [mul_comm, ← Lib.two_zpow_add_nat, ← zpow_natCast (2 : ℚ) (k + n)]
    congr 1
    push_cast
    ring
  rw [he]
  refine F.pattern_rounds (by omega) ?_ ?_ ?_
  · have h0 := hscale 0
    rw [Nat.add_zero, Nat.add_zero] at h0
    rw [hq, h0]
    exact hlo
  · rw [hq, hscale 1]
    exact hhi
  · rw [hq]
    exact hm

theorem encodeFloat_zero (bits : Nat) (zeroExp : Int) : encodeFloat ⟨0, 0⟩ bits zeroExp = 0 := by
  have hcount : countBits ⟨0, 0⟩ = 0 := (countBits_eq ⟨0, 0⟩).trans (if_pos rfl)
  have htail (s : Nat) : tail ⟨0, 0⟩ s = 0 := by
    unfold tail shr
    split_ifs <;> simp
  unfold encodeFloat
  simp only [hcount, Nat.sub_zero, show shl ⟨0, 0⟩ 128 = ⟨0, 0⟩ from rfl,
    show cmp128 ⟨0, 0⟩ ⟨0, 0⟩ = 0 from rfl, if_true, htail]
  simp [roundUp]

/-- The pattern of the smaller format fits 32 bits. -/
theorem roundsTo_setWidth {x : ℚ} {r : BitVec 64} (h : Lib.binary32.RoundsTo x r.toNat) :
    (r.setWidth 32).toNat = r.toNat := by
  have hlt : r.toNat < 2 ^ 31 := h.lt
  rw [BitVec.toNat_setWidth]
  exact Nat.mod_eq_of_lt (by omega)

/-- **The patterns of a number**: `encodeFloat` rounds to nearest, ties to even, in both formats;
    what rounds to `2 ^ 128` is infinite in the smaller one, and zero is positive zero. -/
theorem encodeFloat_rounds (v : U128) :
    Lib.binary64.RoundsTo v.toNat (encodeFloat v 52 1023).toNat ∧
    Lib.binary32.RoundsTo v.toNat ((encodeFloat v 23 127).setWidth 32).toNat ∧
    ((2 : ℚ) ^ 128 - 2 ^ 103 ≤ v.toNat → (encodeFloat v 23 127).setWidth 32 = 0x7F800000#32) ∧
    (v.toNat = 0 → encodeFloat v 52 1023 = 0 ∧ (encodeFloat v 23 127).setWidth 32 = 0#32) := by
  have hzero : v.toNat = 0 → v = ⟨0, 0⟩ := fun h => toNat_injective h
  have h64 : Lib.binary64.RoundsTo v.toNat (encodeFloat v 52 1023).toNat := by
    by_cases hv : v.toNat = 0
    · rw [hzero hv, encodeFloat_zero]
      exact_mod_cast Lib.binary64.zero_roundsTo
    · exact encodeFloat_roundsTo Lib.binary64 hv (by decide) (by decide) (by decide)
  have h32 : Lib.binary32.RoundsTo v.toNat (encodeFloat v 23 127).toNat := by
    by_cases hv : v.toNat = 0
    · rw [hzero hv, encodeFloat_zero]
      exact_mod_cast Lib.binary32.zero_roundsTo
    · exact encodeFloat_roundsTo Lib.binary32 hv (by decide) (by decide) (by decide)
  have hlimit : Lib.binary32.overflowLimit = (2 : ℚ) ^ 128 - 2 ^ 103 := by
    have hbias : Lib.binary32.bias = 127 := rfl
    unfold Lib.Format.overflowLimit
    rw [hbias]
    norm_num [Lib.binary32]
  refine ⟨h64, (roundsTo_setWidth h32).symm ▸ h32, fun h => BitVec.eq_of_toNat_eq ?_, fun h => ?_⟩
  · rw [roundsTo_setWidth h32, h32.1 (hlimit ▸ h)]
    rfl
  · rw [hzero h, encodeFloat_zero, encodeFloat_zero]
    exact ⟨rfl, rfl⟩

end Trustme.Numeric.U128
