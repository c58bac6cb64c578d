/-
  Subject:   From `Float128` to the smaller formats, and from `double` back.

  * `roundToNarrow`: two sticky shifts and one rounding serve binary16, binary32 and binary64;
  * `narrowed_told`: the two shifts tell the number in units of the last digit but one;
  * `finishNarrow_toNat`: exponent and significand are put together, with the carry;
  * `roundToNarrow_rounds`: the result is the rounding, in every format that fits;
  * **`narrowing_rounds`** -- the three conversions of all encodings, and the way of a `double`
    through `Float128` and back.
-/
import Trustme.Lib.BinaryFormat
import Trustme.Numeric.Float128Rounding

namespace Trustme.Numeric.Float128

open Lib (Told halfEven Format)

/-! ## 1. As the code computes it -/

/-- `roundToNarrow` cuts the significand to one bit more than the target has, then brings an
    exponent below the smallest one up to it. -/
def narrowed (exponent : Int) (significand : BitVec 128) (targetMantissaBits : Nat)
    (targetMinExponent : Int) : Rounding :=
  let (sig, sticky) :=
    shiftRightSticky significand (significandBits - (targetMantissaBits + 1)) false
  if exponent < targetMinExponent then
    let shift := targetMinExponent - exponent
    let (sig, sticky) := shiftRightSticky sig (if shift > 128 then 128 else shift.toNat) sticky
    ⟨sig, targetMinExponent, sticky⟩
  else ⟨sig, exponent, sticky⟩

/-- Then it drops the last bit. -/
def roundNarrow (r : Rounding) : BitVec 64 :=
  let roundBit := r.significand &&& 1 != 0
  let result : BitVec 64 := (r.significand >>> 1).setWidth 64
  if roundBit && (r.sticky || result &&& 1 != 0) then result + 1 else result

/-- And puts the fields together, with the carry of the rounding. -/
def finishNarrow (exponent : Int) (result : BitVec 64) (targetMantissaBits : Nat)
    (targetMinExponent targetMaxExponent : Int) : BitVec 64 :=
  let targetImplicit := 1#64 <<< targetMantissaBits
  let carry : Bool := result ≥ targetImplicit * 2
  let result := if carry then result >>> 1 else result
  let exponent := if carry then exponent + 1 else exponent
  let bias := BitVec.ofInt 64 (1 - targetMinExponent)
  if exponent > targetMaxExponent ∧ result ≥ targetImplicit then
    (BitVec.ofInt 64 targetMaxExponent + bias + 1) <<< targetMantissaBits
  else if result = 0 then 0
  else if result < targetImplicit then result
  else (BitVec.ofInt 64 exponent + bias) <<< targetMantissaBits ||| (result - targetImplicit)

/-- `roundToNarrow`. -/
def roundToNarrow (exponent : Int) (significand : BitVec 128) (targetMantissaBits : Nat)
    (targetMinExponent targetMaxExponent : Int) : BitVec 64 :=
  let r := narrowed exponent significand targetMantissaBits targetMinExponent
  finishNarrow r.exponent (roundNarrow r) targetMantissaBits targetMinExponent targetMaxExponent

/-- The conversion to a format of `w` bits: the patterns of its infinity, of its NaN and of its
    sign, and its parameters. -/
def narrow {w : Nat} (infinity notANumber sign : BitVec w) (targetMantissaBits : Nat)
    (targetMinExponent targetMaxExponent : Int) (f : Float128) : Option (BitVec w) := do
  let value ← unpack f
  let bits : BitVec w := match value.kind with
    | .zero => 0
    | .infinity => infinity
    | .notANumber => notANumber
    | .finite => (roundToNarrow value.exponent value.significand targetMantissaBits
        targetMinExponent targetMaxExponent).setWidth w
  return if value.negative then bits ||| sign else bits

/-- `toF16Bits`. -/
def toF16Bits : Float128 → Option (BitVec 16) := narrow 0x7C00 0x7E00 0x8000 10 (-14) 15

/-- `operator float`, the pattern of the result. -/
def operatorFloat : Float128 → Option (BitVec 32) :=
  narrow 0x7F800000 0x7FC00000 0x80000000 23 (-126) 127

/-- `operator double`, the pattern of the result. -/
def operatorDouble : Float128 → Option (BitVec 64) :=
  narrow 0x7FF0000000000000 0x7FF8000000000000 0x8000000000000000 52 (-1022) 1023

/-- `Float128(double)`, from the pattern of the argument. -/
def ofDouble (bits : BitVec 64) : Option Float128 :=
  let negative := bits >>> 63 != 0
  let biased := ((bits >>> 52).setWidth 32 &&& 0x7FF#32).toNat
  let fraction := bits &&& 0xFFFFFFFFFFFFF#64
  if biased = 0x7FF then
    if fraction ≠ 0 then some ⟨canonicalNan.hi ||| signBit negative, canonicalNan.lo⟩
    else some (infinity negative)
  else if biased = 0 ∧ fraction = 0 then some (packZero negative)
  else if biased = 0 then
    let shift := builtinClzll fraction - (63 - 52)
    packFinite negative (-1022 - shift)
      ((fraction <<< shift).setWidth 128 <<< (significandBits - 52))
  else
    packFinite negative (biased - 1023)
      ((fraction ||| 1#64 <<< 52).setWidth 128 <<< (significandBits - 52))

/-! ## 2. The shifts and the last digit -/

/-- After the shifts the last digit but one weighs `2 ^ (exponent - fractionBits)`. -/
theorem narrowed_told {t : Nat} (ht : t < 62) (exponent targetMin : Int) (s : BitVec 128) :
    Told (s.toNat * 2 ^ (exponent - 112) : ℚ) (narrowed exponent s t targetMin).significand.toNat
        ((narrowed exponent s t targetMin).exponent - t - 1)
          (narrowed exponent s t targetMin).sticky ∧
      (narrowed exponent s t targetMin).exponent = max exponent targetMin := by
  have hfirst : Told (s.toNat * 2 ^ (exponent - 112) : ℚ) s.toNat (exponent - 112) false := rfl
  obtain ⟨n, hn⟩ : ∃ n, significandBits - (t + 1) = n := ⟨_, rfl⟩
  have hsum : n + t = 111 := by
    unfold significandBits at hn
    omega
  obtain ⟨hsig, hsticky⟩ := shiftRightSticky_eq s n false
  have htold := hfirst.shiftRight n
  rw [← hsig, ← hsticky, show exponent - 112 + (n : ℤ) = exponent - t - 1 by omega] at htold
  unfold narrowed
  rw [hn]
  dsimp only
  generalize shiftRightSticky s n false = cut at htold
  by_cases hc : exponent < targetMin
  · obtain ⟨k, hk⟩ : ∃ k : ℕ, targetMin = exponent + k := ⟨(targetMin - exponent).toNat, by omega⟩
    obtain ⟨hsig', hsticky'⟩ := shiftRightSticky_eq cut.1 k cut.2
    have hmove := htold.shiftRight k
    rw [← hsig', ← hsticky', show exponent - t - 1 + (k : ℤ) = targetMin - t - 1 by omega] at hmove
    rw [if_pos hc, shift_distance, show (targetMin - exponent).toNat = k by omega]
    exact ⟨hmove, by dsimp only; omega⟩
  · rw [if_neg hc]
    exact ⟨htold, by dsimp only; omega⟩

theorem roundNarrow_toNat {r : Rounding} (h : r.significand.toNat < 2 ^ 64) :
    (roundNarrow r).toNat = r.significand.toNat / 2 +
      if r.significand.toNat % 2 = 1 ∧ (r.sticky = true ∨ r.significand.toNat / 2 % 2 = 1)
        then 1 else 0 := by
  have hhalf : ((r.significand >>> 1).setWidth 64 : BitVec 64).toNat = r.significand.toNat / 2 := by
    rw [BitVec.toNat_setWidth, BitVec.toNat_ushiftRight, Nat.shiftRight_eq_div_pow, pow_one]
    omega
  unfold roundNarrow
  simp only [and_one_ne_zero, hhalf, Bool.and_eq_true, Bool.or_eq_true, decide_eq_true_iff]
  split
  · rw [BitVec.toNat_add, hhalf]
    exact Nat.mod_eq_of_lt (show r.significand.toNat / 2 + 1 < 2 ^ 64 by omega)
  · rw [hhalf, Nat.add_zero]

/-- The last step rounds in units of `2 ^ (exponent - fractionBits)`. -/
theorem narrowed_halfEven {t : Nat} (ht : t < 62) (exponent targetMin : Int) {s : BitVec 128}
    (hs : s.toNat < 2 ^ 113) :
    ((roundNarrow (narrowed exponent s t targetMin)).toNat : ℤ) =
      halfEven ((s.toNat * 2 ^ (exponent - 112) : ℚ) / 2 ^ (max exponent targetMin - t)) := by
  obtain ⟨htold, hexp⟩ := narrowed_told ht exponent targetMin s
  have hy : (s.toNat * 2 ^ (exponent - 112) : ℚ) < 2 ^ (exponent + 1) := by
    rw [show exponent + 1 = exponent - 112 + (113 : ℕ) by push_cast; ring, Lib.two_zpow_add_nat,
      mul_comm]
    exact mul_lt_mul_of_pos_left (by exact_mod_cast hs) (Lib.two_zpow_pos _)
  -- no more digits than the target has, and one
  have hlt : (narrowed exponent s t targetMin).significand.toNat < 2 ^ (t + 2) := by
    have hle := htold.le.trans_lt (hy.trans_le (zpow_le_zpow_right₀ (by norm_num)
      (show exponent + 1 ≤ (narrowed exponent s t targetMin).exponent - t - 1 + ((t + 2 : ℕ) : ℤ) by
        push_cast
        omega)))
    rw [Lib.two_zpow_add_nat, mul_comm, mul_lt_mul_iff_right₀ (Lib.two_zpow_pos _)] at hle
    exact_mod_cast hle
  have h64 : 2 ^ (t + 2) ≤ 2 ^ 64 := Nat.pow_le_pow_right (by decide) (by omega)
  have hround := Lib.told_halfEven htold
  rw [hexp, sub_add_cancel] at hround
  rw [roundNarrow_toNat (by omega), hround]
  push_cast
  rfl

/-! ## 3. The fields of the result -/

section Target

variable (F : Format) (hfit : F.fractionBits + F.exponentBits < 64)

include hfit

theorem biased_shifted {e : ℤ} {n : Nat} (he : e + F.bias = n) (hn : n < 2 ^ F.exponentBits) :
    ((BitVec.ofInt 64 e + BitVec.ofInt 64 (1 - (1 - F.bias))) <<< F.fractionBits).toNat =
      n * 2 ^ F.fractionBits := by
  have hlt : n * 2 ^ F.fractionBits < 2 ^ 64 := by
    calc n * 2 ^ F.fractionBits < 2 ^ F.exponentBits * 2 ^ F.fractionBits :=
          Nat.mul_lt_mul_of_pos_right hn (Nat.two_pow_pos _)
      _ = 2 ^ (F.exponentBits + F.fractionBits) := (pow_add ..).symm
      _ ≤ 2 ^ 64 := Nat.pow_le_pow_right (by decide) (by omega)
  have hn64 : n < 2 ^ 64 := hn.trans_le (Nat.pow_le_pow_right (by decide) (by omega))
  rw [← BitVec.ofInt_add, show e + (1 - (1 - F.bias)) = (n : ℤ) by omega, BitVec.ofInt_natCast,
    BitVec.toNat_shiftLeft, BitVec.toNat_ofNat, Nat.mod_eq_of_lt hn64, Nat.shiftLeft_eq,
    Nat.mod_eq_of_lt hlt]

theorem toNat_implicit : (1#64 <<< F.fractionBits).toNat = 2 ^ F.fractionBits ∧
    (1#64 <<< F.fractionBits * 2).toNat = 2 ^ (F.fractionBits + 1) := by
  have hbits := F.exponentBits_pos
  have h1 : 2 ^ F.fractionBits < 2 ^ 64 := Nat.pow_lt_pow_right (by decide) (by omega)
  have h2 : 2 ^ (F.fractionBits + 1) < 2 ^ 64 := Nat.pow_lt_pow_right (by decide) (by omega)
  have hone : (1#64 <<< F.fractionBits).toNat = 2 ^ F.fractionBits := by
    rw [BitVec.toNat_shiftLeft, Nat.shiftLeft_eq]
    exact (congrArg (· % 2 ^ 64) (Nat.one_mul _)).trans (Nat.mod_eq_of_lt h1)
  refine ⟨hone, ?_⟩
  rw [BitVec.toNat_mul, hone]
  exact Nat.mod_eq_of_lt (by rwa [pow_succ] at h2)

/-- The fraction of a significand that is not carried, and the exponent. -/
theorem fields_toNat {e : ℤ} {n : Nat} {m : BitVec 64} (he : e + F.bias = n)
    (hn : n < 2 ^ F.exponentBits) (hlo : 2 ^ F.fractionBits ≤ m.toNat)
    (hhi : m.toNat < 2 ^ (F.fractionBits + 1)) :
    ((BitVec.ofInt 64 e + BitVec.ofInt 64 (1 - (1 - F.bias))) <<< F.fractionBits |||
        (m - 1#64 <<< F.fractionBits)).toNat =
      n * 2 ^ F.fractionBits + (m.toNat - 2 ^ F.fractionBits) := by
  obtain ⟨h1, -⟩ := toNat_implicit F hfit
  have hsub : (m - 1#64 <<< F.fractionBits).toNat = m.toNat - 2 ^ F.fractionBits := by
    rw [BitVec.toNat_sub_of_le (by rwa [BitVec.le_def, h1]), h1]
  have hshift := biased_shifted F hfit he hn
  rw [pow_succ] at hhi
  rw [toNat_or_of_lt (i := F.fractionBits) (by rw [hshift]; exact Nat.dvd_mul_left _ _)
    (by omega), hshift, hsub]

/-- An exponent that fits, and a significand that is as long as the exponent asks for: the
    fields are added. -/
theorem finishNarrow_toNat {b : Nat} {m : BitVec 64} (hb : b < 2 * F.bias)
    (hm : m.toNat ≤ 2 ^ (F.fractionBits + 1)) (hsub : m.toNat < 2 ^ F.fractionBits → b = 0)
    (hlast : b + 1 = 2 * F.bias → m.toNat < 2 ^ (F.fractionBits + 1)) :
    (finishNarrow (b + 1 - F.bias) m F.fractionBits (1 - F.bias) F.bias).toNat =
      b * 2 ^ F.fractionBits + m.toNat := by
  obtain ⟨h1, h2⟩ := toNat_implicit F hfit
  have hbits := F.two_pow_exponentBits
  have hpow : 2 ^ (F.fractionBits + 1) = 2 ^ F.fractionBits * 2 := pow_succ ..
  have hp := Nat.two_pow_pos F.fractionBits
  unfold finishNarrow
  simp only [ge_iff_le, BitVec.le_def, BitVec.lt_def, h1, h2, decide_eq_true_iff]
  by_cases hc : 2 ^ (F.fractionBits + 1) ≤ m.toNat
  · -- the carry leaves the power of two
    have hhalf : (m >>> 1).toNat = 2 ^ F.fractionBits := by
      rw [BitVec.toNat_ushiftRight, Nat.shiftRight_eq_div_pow, pow_one]
      omega
    have hne : m >>> 1 ≠ 0 := fun h0 => by
      rw [h0] at hhalf
      exact hp.ne hhalf
    simp only [if_pos hc]
    rw [if_neg fun h => by omega, if_neg hne, hhalf, if_neg (lt_irrefl _),
      fields_toNat F hfit (n := b + 2) (by push_cast; ring) (by omega) hhalf.ge (by omega), hhalf,
      Nat.sub_self, Nat.le_antisymm hm hc, hpow]
    ring
  · simp only [if_neg hc]
    rw [if_neg fun h => by omega]
    by_cases h0 : m = 0
    · have hz : m.toNat = 0 := by rw [h0]; rfl
      rw [if_pos h0, hsub (by omega), hz, Nat.zero_mul]
      rfl
    rw [if_neg h0]
    by_cases hlt : m.toNat < 2 ^ F.fractionBits
    · rw [if_pos hlt, hsub hlt, Nat.zero_mul, Nat.zero_add]
    · rw [if_neg hlt, fields_toNat F hfit (n := b + 1) (by push_cast; ring) (by omega)
        (not_lt.mp hlt) (not_le.mp hc), Nat.succ_mul]
      omega

/-- A larger exponent, or the carry out of the largest one, gives infinity. -/
theorem finishNarrow_infinity {exponent : Int} {m : BitVec 64}
    (hlo : 2 ^ F.fractionBits ≤ m.toNat) (hm : m.toNat ≤ 2 ^ (F.fractionBits + 1))
    (hover : F.bias < exponent ∨ (exponent = F.bias ∧ m.toNat = 2 ^ (F.fractionBits + 1))) :
    (finishNarrow exponent m F.fractionBits (1 - F.bias) F.bias).toNat = F.infinity := by
  obtain ⟨h1, h2⟩ := toNat_implicit F hfit
  have hbits := F.two_pow_exponentBits
  have hpow : 2 ^ (F.fractionBits + 1) = 2 ^ F.fractionBits * 2 := pow_succ ..
  have hinf : ((BitVec.ofInt 64 F.bias + BitVec.ofInt 64 (1 - (1 - F.bias)) + 1) <<<
      F.fractionBits).toNat = F.infinity := by
    have hone : BitVec.ofInt 64 (F.bias : ℤ) + BitVec.ofInt 64 (1 - (1 - F.bias)) + 1 =
        BitVec.ofInt 64 (F.bias + 1 : ℤ) + BitVec.ofInt 64 (1 - (1 - F.bias)) := by
      rw [BitVec.ofInt_add, BitVec.add_assoc, BitVec.add_assoc, BitVec.add_comm (BitVec.ofInt 64 1)]
      rfl
    rw [hone, biased_shifted F hfit (n := 2 * F.bias + 1) (by push_cast; ring) (by omega)]
    unfold Format.infinity
    congr 1
    omega
  unfold finishNarrow
  simp only [ge_iff_le, BitVec.le_def, h1, h2, decide_eq_true_iff]
  by_cases hc : 2 ^ (F.fractionBits + 1) ≤ m.toNat
  · have hhalf : (m >>> 1).toNat = 2 ^ F.fractionBits := by
      rw [BitVec.toNat_ushiftRight, Nat.shiftRight_eq_div_pow, pow_one]
      omega
    simp only [if_pos hc]
    rw [if_pos ⟨by omega, hhalf.ge⟩, hinf]
  · simp only [if_neg hc]
    rw [if_pos ⟨by omega, hlo⟩, hinf]

/-- **`roundToNarrow` rounds** to nearest, ties to even, in every format of less than 64 bits. -/
theorem roundToNarrow_rounds (exponent : Int) {s : BitVec 128} (hlo : 2 ^ 112 ≤ s.toNat)
    (hhi : s.toNat < 2 ^ 113) : F.RoundsTo (s.toNat * 2 ^ (exponent - 112) : ℚ)
      (roundToNarrow exponent s F.fractionBits (1 - F.bias) F.bias).toNat := by
  have ht : F.fractionBits < 62 := by
    have := F.exponentBits_pos
    omega
  have hbias := F.one_le_bias
  have hround := narrowed_halfEven ht exponent (1 - F.bias) hhi
  obtain ⟨-, hexp⟩ := narrowed_told ht exponent (1 - F.bias) s
  have hunit := Lib.two_zpow_pos (K := ℚ) (exponent - 112)
  have hpow (n : Nat) : (2 : ℚ) ^ (exponent - 112 + n) = 2 ^ n * 2 ^ (exponent - 112) := by
    rw [Lib.two_zpow_add_nat, mul_comm]
  have hy1 : (2 : ℚ) ^ exponent ≤ s.toNat * 2 ^ (exponent - 112) := by
    calc (2 : ℚ) ^ exponent = 2 ^ (exponent - 112 + (112 : ℕ)) := by congr 1; push_cast; ring
      _ = 2 ^ 112 * 2 ^ (exponent - 112) := hpow 112
      _ ≤ _ := mul_le_mul_of_nonneg_right (by exact_mod_cast hlo) hunit.le
  have hy2 : (s.toNat * 2 ^ (exponent - 112) : ℚ) < 2 ^ (exponent + 1) := by
    rw [show exponent + 1 = exponent - 112 + (113 : ℕ) by push_cast; ring, hpow]
    exact mul_lt_mul_of_pos_right (by exact_mod_cast hhi) hunit
  unfold roundToNarrow
  dsimp only
  rw [hexp]
  generalize roundNarrow (narrowed exponent s F.fractionBits (1 - F.bias)) = m at hround
  generalize (s.toNat * 2 ^ (exponent - 112) : ℚ) = y at *
  have hscale (n : Nat) (q : ℤ) : (2 : ℚ) ^ n * 2 ^ q = 2 ^ (q + n) := by
    rw [Lib.two_zpow_add_nat, mul_comm]
  rcases lt_or_ge exponent (1 - F.bias) with hc | hc
  · rw [max_eq_right hc.le] at hround ⊢
    have hsmall : y < 2 ^ F.fractionBits * 2 ^ F.minUnit := by
      rw [hscale]
      refine hy2.trans_le (zpow_le_zpow_right₀ (by norm_num) ?_)
      unfold Format.minUnit
      omega
    have hm : m.toNat ≤ 2 ^ F.fractionBits := by
      exact_mod_cast hround ▸ Format.halfEven_le_pow hsmall
    have hfields := finishNarrow_toNat F hfit (b := 0) (m := m) (by omega) (by omega)
      (fun _ => rfl) (by omega)
    rw [show ((0 : ℕ) + 1 - F.bias : ℤ) = 1 - F.bias by simp, Nat.zero_mul, Nat.zero_add] at hfields
    rw [hfields]
    exact F.small_rounds ((Lib.two_zpow_pos exponent).le.trans hy1) hsmall hround
  · rw [max_eq_left hc] at hround ⊢
    have hlow : (2 : ℚ) ^ F.fractionBits * 2 ^ (exponent - F.fractionBits) ≤ y := by
      rwa [hscale, sub_add_cancel]
    have hhigh : y < 2 ^ (F.fractionBits + 1) * 2 ^ (exponent - F.fractionBits) := by
      rwa [hscale, Nat.cast_add, Nat.cast_one, ← add_assoc, sub_add_cancel]
    obtain ⟨hm1, hm2⟩ := Format.halfEven_mem hlow hhigh
    rw [← hround] at hm1 hm2
    have hm1 : 2 ^ F.fractionBits ≤ m.toNat := by exact_mod_cast hm1
    have hm2 : m.toNat ≤ 2 ^ (F.fractionBits + 1) := by exact_mod_cast hm2
    rcases lt_or_ge (F.bias : ℤ) exponent with hover | hle
    · rw [finishNarrow_infinity F hfit hm1 hm2 (.inl hover)]
      exact F.infinity_rounds (F.overflowLimit_lt.le.trans
        ((zpow_le_zpow_right₀ (by norm_num) hover).trans hy1))
    obtain ⟨b, hb⟩ : ∃ b : ℕ, exponent = b + 1 - F.bias := ⟨(exponent + F.bias - 1).toNat, by omega⟩
    have hq : (b + F.minUnit : ℤ) = exponent - F.fractionBits := by
      unfold Format.minUnit
      omega
    have hpattern := F.pattern_rounds (x := y) (b := b) (m := m.toNat) (by omega)
      (by rw [hq]; exact hlow) (by rw [hq]; exact hhigh) (by rw [hq]; exact hround)
    by_cases hlast : b + 1 = 2 * F.bias ∧ m.toNat = 2 ^ (F.fractionBits + 1)
    · -- the carry of the largest exponent
      have hinf : b * 2 ^ F.fractionBits + m.toNat = F.infinity := by
        have hbits := F.two_pow_exponentBits
        rw [hlast.2, Format.infinity, show 2 ^ F.exponentBits - 1 = b + 2 by omega, pow_succ]
        ring
      rw [finishNarrow_infinity F hfit hm1 hm2 (.inr ⟨by omega, hlast.2⟩), ← hinf]
      exact hpattern
    · rw [hb, finishNarrow_toNat F hfit (by omega) hm2 (fun h => by omega) fun h => by omega]
      exact hpattern

end Target

/-! ## 4. The conversions -/

/-- What an encoding is converted to: its sign, and under it the rounding of its magnitude;
    the patterns above that of infinity are not numbers. -/
def NarrowsTo (F : Format) (f : Float128) (bits : Nat) : Prop :=
  ∃ r < 2 ^ (F.fractionBits + F.exponentBits),
    bits = (if f.sign then 2 ^ (F.fractionBits + F.exponentBits) else 0) + r ∧
    (f.IsNan → F.infinity < r) ∧ (f.IsInfinite → r = F.infinity) ∧
    (f.IsFinite → F.RoundsTo f.magnitude r)

theorem IsZero.magnitude_eq {f : Float128} (h : f.IsZero) : f.magnitude = 0 := by
  unfold magnitude
  rw [if_pos h.1, h.2, Nat.cast_zero, zero_mul]

theorem narrow_result (F : Format) (hfit : F.fractionBits + F.exponentBits < 64) {w : Nat}
    (hw : w = F.fractionBits + F.exponentBits + 1) {infinity notANumber sign : BitVec w}
    (hinf : infinity.toNat = F.infinity) (hnan : F.infinity < notANumber.toNat)
    (hnan' : notANumber.toNat < 2 ^ (F.fractionBits + F.exponentBits))
    (hsign : sign.toNat = 2 ^ (F.fractionBits + F.exponentBits)) (f : Float128) :
    ∃ bits, narrow infinity notANumber sign F.fractionBits (1 - F.bias) F.bias f = some bits ∧
      NarrowsTo F f bits.toNat := by
  have hsigned {r : BitVec w} (hr : r.toNat < 2 ^ (F.fractionBits + F.exponentBits)) :
      (if f.sign then r ||| sign else r).toNat =
        (if f.sign then 2 ^ (F.fractionBits + F.exponentBits) else 0) + r.toNat := by
    cases f.sign
    · exact (Nat.zero_add _).symm
    · rw [if_pos rfl, if_pos rfl, BitVec.or_comm, toNat_or_of_lt (dvd_of_eq hsign.symm) hr, hsign]
  have hlt : F.infinity < 2 ^ (F.fractionBits + F.exponentBits) := hnan.trans hnan'
  obtain ⟨u, hu, hclass⟩ := unpack_class f
  unfold narrow
  rw [hu]
  simp only [Option.bind_eq_bind, Option.bind_some]
  cases hclass with
  | nan h =>
    exact ⟨_, rfl, _, hnan', hsigned hnan', fun _ => hnan, fun h' => absurd h' h.not_infinite,
      fun h' => absurd h' h.not_finite⟩
  | infinite h =>
    have hlt' := hinf.symm ▸ hlt
    exact ⟨_, rfl, _, hlt', hsigned hlt', fun h' => absurd h h'.not_infinite, fun _ => hinf,
      fun h' => absurd h' h.not_finite⟩
  | zero h =>
    have hzero : (0 : BitVec w).toNat = 0 := BitVec.toNat_zero
    refine ⟨_, rfl, _, ?_, hsigned ?_, fun h' => absurd h.finite h'.not_finite,
      fun h' => absurd h.finite h'.not_finite, fun _ => ?_⟩
    · rw [hzero]
      exact Nat.two_pow_pos _
    · rw [hzero]
      exact Nat.two_pow_pos _
    · rw [hzero, h.magnitude_eq]
      exact F.zero_roundsTo
  | parts h =>
    have hround := roundToNarrow_rounds F hfit u.exponent h.le_significand h.significand_lt
    have hsame : ((roundToNarrow u.exponent u.significand F.fractionBits (1 - F.bias)
        F.bias).setWidth w).toNat =
        (roundToNarrow u.exponent u.significand F.fractionBits (1 - F.bias) F.bias).toNat := by
      rw [BitVec.toNat_setWidth]
      refine Nat.mod_eq_of_lt (hround.lt.trans_le (Nat.pow_le_pow_right (by decide) ?_))
      omega
    rw [← hsame] at hround
    simp only [h.kind, h.negative]
    exact ⟨_, rfl, _, hround.lt, hsigned hround.lt, fun h' => absurd h.finite h'.not_finite,
      fun h' => absurd h.finite h'.not_finite, fun _ => by rw [h.magnitude]; exact hround⟩

theorem toF16Bits_result (f : Float128) :
    ∃ bits, toF16Bits f = some bits ∧ NarrowsTo Lib.binary16 f bits.toNat :=
  narrow_result Lib.binary16 (by decide) rfl rfl (by decide) (by decide) rfl f

theorem operatorFloat_result (f : Float128) :
    ∃ bits, operatorFloat f = some bits ∧ NarrowsTo Lib.binary32 f bits.toNat :=
  narrow_result Lib.binary32 (by decide) rfl rfl (by decide) (by decide) rfl f

theorem operatorDouble_result (f : Float128) :
    ∃ bits, operatorDouble f = some bits ∧ NarrowsTo Lib.binary64 f bits.toNat :=
  narrow_result Lib.binary64 (by decide) rfl rfl (by decide) (by decide) rfl f

/-! ## 5. A `double` and back -/

/-- The encoding of a `double`: the same number under the same sign. -/
def Widens (d : BitVec 64) (f : Float128) : Prop :=
  f.sign = Lib.binary64.negative d.toNat ∧
  (Lib.binary64.infinity < d.toNat % 2 ^ 63 → f.IsNan) ∧
  (d.toNat % 2 ^ 63 = Lib.binary64.infinity → f.IsInfinite) ∧
  (Lib.binary64.IsFinite d.toNat → f.IsFinite ∧ f.magnitude = Lib.binary64.magnitude d.toNat)

/-- A significand of 53 digits is packed as the number it is. -/
theorem packWide_val (negative : Bool) {e : Int} {s : BitVec 64} (hlo : 2 ^ 52 ≤ s.toNat)
    (hhi : s.toNat < 2 ^ 53) (he : -1074 ≤ e) (he' : e ≤ 1023) :
    ∃ r, packFinite negative e (s.setWidth 128 <<< (significandBits - 52)) = some r ∧ r.IsFinite ∧
      r.sign = negative ∧ r.magnitude = s.toNat * 2 ^ (e - 52) := by
  have hwide : (s.setWidth 128 <<< (significandBits - 52) : BitVec 128).toNat =
    s.toNat * 2 ^ 60 := by
    rw [BitVec.toNat_shiftLeft, BitVec.toNat_setWidth, Nat.shiftLeft_eq]
    unfold significandBits
    omega
  obtain ⟨r, hr, h1, h2, h3, -⟩ := packFinite_val negative e
    (s.setWidth 128 <<< (significandBits - 52)) (by omega) (by unfold minExponent; omega)
    (by unfold maxExponent; omega) (by omega)
  refine ⟨r, hr, h1, h2, ?_⟩
  rw [h3, hwide, show e - 52 = e - 112 + (60 : ℕ) by push_cast; ring, Lib.two_zpow_add_nat]
  push_cast
  ring

/-- The fields of a `double` that `Float128(double)` reads. -/
theorem double_fields (d : BitVec 64) :
    (d >>> 63 != 0) = Lib.binary64.negative d.toNat ∧
    ((d >>> 52).setWidth 32 &&& 0x7FF#32).toNat = Lib.binary64.biased d.toNat ∧
    (d &&& 0xFFFFFFFFFFFFF#64).toNat = Lib.binary64.fraction d.toNat := by
  have h := d.isLt
  refine ⟨?_, ?_, ?_⟩
  · show _ = decide (2 ^ 63 ≤ d.toNat)
    rw [Bool.eq_iff_iff, bne_iff_ne, decide_eq_true_iff, ne_eq, BitVec.toNat_eq,
      BitVec.toNat_ushiftRight, Nat.shiftRight_eq_div_pow]
    simp only [BitVec.ofNat_eq_ofNat, BitVec.toNat_ofNat]
    omega
  · show _ = d.toNat / 2 ^ 52 % 2 ^ 11
    rw [BitVec.toNat_and, BitVec.toNat_setWidth, BitVec.toNat_ushiftRight,
      Nat.shiftRight_eq_div_pow, show (0x7FF#32).toNat = 2 ^ 11 - 1 from rfl,
      Nat.and_two_pow_sub_one_eq_mod]
    omega
  · show _ = d.toNat % 2 ^ 52
    rw [BitVec.toNat_and, show (0xFFFFFFFFFFFFF#64).toNat = 2 ^ 52 - 1 from rfl,
      Nat.and_two_pow_sub_one_eq_mod]

theorem canonicalNan_signed (negative : Bool) :
    (Float128.mk (canonicalNan.hi ||| signBit negative) canonicalNan.lo).sign = negative ∧
      (Float128.mk (canonicalNan.hi ||| signBit negative) canonicalNan.lo).IsNan := by
  unfold IsNan
  cases negative <;> decide

theorem infinity_fields (negative : Bool) :
    (infinity negative).sign = negative ∧ (infinity negative).IsInfinite := by
  unfold IsInfinite
  cases negative <;> decide

theorem ofDouble_widens (d : BitVec 64) : ∃ f, ofDouble d = some f ∧ Widens d f := by
  have hd := d.isLt
  obtain ⟨hneg, hexp, hfrac⟩ := double_fields d
  have hinf : Lib.binary64.infinity = 2047 * 2 ^ 52 := rfl
  have hbiased : Lib.binary64.biased d.toNat = d.toNat / 2 ^ 52 % 2 ^ 11 := rfl
  have hfraction : Lib.binary64.fraction d.toNat = d.toNat % 2 ^ 52 := rfl
  have hmag : Lib.binary64.magnitude d.toNat = if d.toNat / 2 ^ 52 % 2 ^ 11 = 0 then
      ((d.toNat % 2 ^ 52 : ℕ) : ℚ) * 2 ^ (-1074 : ℤ) else
      (2 ^ 52 + d.toNat % 2 ^ 52 : ℕ) * 2 ^ ((d.toNat / 2 ^ 52 % 2 ^ 11 : ℕ) - 1 + -1074 : ℤ) := rfl
  have hfinite : Lib.binary64.IsFinite d.toNat ↔ d.toNat / 2 ^ 52 % 2 ^ 11 < 2047 := Iff.rfl
  have hz : (d &&& 0xFFFFFFFFFFFFF#64) = 0 ↔ d.toNat % 2 ^ 52 = 0 := by
    rw [BitVec.toNat_eq, hfrac]
    rfl
  unfold ofDouble Widens
  dsimp only
  rw [hneg, hexp, hfinite, hmag, hinf, hbiased]
  rw [hfraction] at hfrac
  generalize d &&& 0xFFFFFFFFFFFFF#64 = fr at hfrac hz
  generalize Lib.binary64.negative d.toNat = negative
  by_cases h1 : d.toNat / 2 ^ 52 % 2 ^ 11 = 0x7FF
  · rw [if_pos h1]
    by_cases h2 : d.toNat % 2 ^ 52 = 0
    · obtain ⟨hs, hi⟩ := infinity_fields negative
      rw [if_neg (not_not.mpr (hz.mpr h2))]
      exact ⟨_, rfl, hs, fun h => by omega, fun _ => hi, fun h => by omega⟩
    · obtain ⟨hs, hn⟩ := canonicalNan_signed negative
      rw [if_pos (mt hz.mp h2)]
      exact ⟨_, rfl, hs, fun _ => hn, fun h => by omega, fun h => by omega⟩
  rw [if_neg h1]
  by_cases h2 : d.toNat / 2 ^ 52 % 2 ^ 11 = 0 ∧ d.toNat % 2 ^ 52 = 0
  · obtain ⟨hfin, hs, hm, -⟩ := packZero_fields negative
    rw [if_pos ⟨h2.1, hz.mpr h2.2⟩, if_pos h2.1, h2.2]
    exact ⟨_, rfl, hs, fun h => by omega, fun h => by omega,
      fun _ => ⟨hfin, by rw [hm, Nat.cast_zero, zero_mul]⟩⟩
  rw [if_neg (mt (And.imp_right hz.mp) h2)]
  by_cases h3 : d.toNat / 2 ^ 52 % 2 ^ 11 = 0
  · -- a subnormal number is normalised
    have h0 : fr.toNat ≠ 0 := by omega
    have hl : fr.toNat.log2 < 52 := (Nat.log2_lt h0).mpr (by omega)
    obtain ⟨k, hk⟩ : ∃ k, fr.toNat.log2 + k = 52 := ⟨52 - fr.toNat.log2, by omega⟩
    have hlo := Nat.mul_le_mul_right (2 ^ k) (Nat.log2_self_le h0)
    have hhi := Nat.mul_lt_mul_of_pos_right (Nat.lt_log2_self (n := fr.toNat)) (Nat.two_pow_pos k)
    rw [← pow_add, hk] at hlo
    rw [← pow_add, Nat.add_right_comm, hk] at hhi
    have hshift : builtinClzll fr - (63 - 52) = k := by
      unfold builtinClzll
      omega
    have hsig : (fr <<< k).toNat = fr.toNat * 2 ^ k := by
      rw [BitVec.toNat_shiftLeft, Nat.shiftLeft_eq]
      exact Nat.mod_eq_of_lt (by omega)
    rw [if_pos h3, if_pos h3, hshift]
    obtain ⟨r, hr, hfin, hs, hm⟩ := packWide_val negative (e := -1022 - k) (s := fr <<< k)
      (by omega) (by omega) (by omega) (by omega)
    refine ⟨r, hr, hs, fun h => by omega, fun h => by omega, fun _ => ⟨hfin, ?_⟩⟩
    rw [hm, hsig, ← hfrac, show (-1074 : ℤ) = -1022 - k - 52 + k by ring, Lib.two_zpow_add_nat]
    push_cast
    ring
  · have hsig : (fr ||| 1#64 <<< 52).toNat = 2 ^ 52 + fr.toNat := by
      rw [BitVec.or_comm, toNat_or_of_lt (i := 52) (by decide) (by omega)]
      rfl
    rw [if_neg h3, if_neg h3]
    obtain ⟨r, hr, hfin, hs, hm⟩ := packWide_val negative
      (e := (d.toNat / 2 ^ 52 % 2 ^ 11 : ℕ) - 1023) (s := fr ||| 1#64 <<< 52)
      (by omega) (by omega) (by omega) (by omega)
    refine ⟨r, hr, hs, fun h => by omega, fun h => by omega, fun _ => ⟨hfin, ?_⟩⟩
    have hunit : ((d.toNat / 2 ^ 52 % 2 ^ 11 : ℕ) : ℤ) - 1023 - 52 =
        (d.toNat / 2 ^ 52 % 2 ^ 11 : ℕ) - 1 + -1074 := by omega
    rw [hm, hsig, hfrac, hunit]

/-- A `double` that is a number comes back with its own bits. -/
theorem operatorDouble_of_widens {d : BitVec 64} {f : Float128} (h : Widens d f)
    (hd : d.toNat % 2 ^ 63 ≤ Lib.binary64.infinity) : operatorDouble f = some d := by
  obtain ⟨hsign, -, hinf, hfin⟩ := h
  obtain ⟨bits, hbits, r, hr, hval, -, hinf', hround⟩ := operatorDouble_result f
  rw [hbits]
  congr 1
  apply BitVec.eq_of_toNat_eq
  have hdlt := d.isLt
  have hpart : d.toNat = (if f.sign then 2 ^ 63 else 0) + d.toNat % 2 ^ 63 := by
    rw [hsign]
    show d.toNat = (if decide (2 ^ 63 ≤ d.toNat) = true then 2 ^ 63 else 0) + d.toNat % 2 ^ 63
    split <;> rename_i hc <;> simp only [decide_eq_true_iff] at hc <;> omega
  suffices hsame : r = d.toNat % 2 ^ 63 by
    rw [hval, hpart, hsame]
    rfl
  rcases Nat.lt_or_eq_of_le hd with hlt | heq
  · have hfinite : Lib.binary64.IsFinite (d.toNat % 2 ^ 63) := by
      show d.toNat % 2 ^ 63 / 2 ^ 52 % 2 ^ 11 < 2047
      have : Lib.binary64.infinity = 2047 * 2 ^ 52 := rfl
      omega
    have hbiased : Lib.binary64.biased d.toNat = Lib.binary64.biased (d.toNat % 2 ^ 63) := by
      show d.toNat / 2 ^ 52 % 2 ^ 11 = d.toNat % 2 ^ 63 / 2 ^ 52 % 2 ^ 11
      omega
    have hfraction : Lib.binary64.fraction d.toNat = Lib.binary64.fraction (d.toNat % 2 ^ 63) := by
      show d.toNat % 2 ^ 52 = d.toNat % 2 ^ 63 % 2 ^ 52
      omega
    obtain ⟨hf, hm⟩ := hfin (by unfold Format.IsFinite at hfinite ⊢; rwa [hbiased])
    have hmag : f.magnitude = Lib.binary64.magnitude (d.toNat % 2 ^ 63) := by
      rw [hm]
      unfold Format.magnitude
      rw [hbiased, hfraction]
    exact Format.RoundsTo.eq (Nat.mod_lt _ (by decide)) hfinite
      (Lib.binary64.magnitude_lt_limit hfinite) (hmag ▸ hround hf)
  · rw [hinf' (hinf heq), heq]

/-- **Narrowing and widening**: the three conversions give the sign and the rounding, to nearest
    with ties to even, of every encoding; the encoding of a `double` is the same number, and it
    is converted back to the same bits if they are not a NaN's. -/
theorem narrowing_rounds (f : Float128) (d : BitVec 64) :
    (∃ bits, toF16Bits f = some bits ∧ NarrowsTo Lib.binary16 f bits.toNat) ∧
    (∃ bits, operatorFloat f = some bits ∧ NarrowsTo Lib.binary32 f bits.toNat) ∧
    (∃ bits, operatorDouble f = some bits ∧ NarrowsTo Lib.binary64 f bits.toNat) ∧
    ∃ g, ofDouble d = some g ∧ Widens d g ∧
      (d.toNat % 2 ^ 63 ≤ Lib.binary64.infinity → operatorDouble g = some d) := by
  obtain ⟨g, hg, hw⟩ := ofDouble_widens d
  exact ⟨toF16Bits_result f, operatorFloat_result f, operatorDouble_result f, g, hg, hw,
    operatorDouble_of_widens hw⟩

end Trustme.Numeric.Float128
