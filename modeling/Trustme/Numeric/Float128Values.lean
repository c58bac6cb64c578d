/-
  Subject:   What a binary128 encoding means, and that `unpack` and `packFinite` keep to it.

  * `biased`, `fraction`, `sign`, `val`: the three fields and the number they stand for;
  * `RoundsTo`: an encoding is the rounding of a rational to nearest, ties to even;
  * `unpack_cases`: what `unpack` returns, by the class of the encoding;
  * `packFinite_val`: a significand that fits is encoded as the number it is;
  * `Class`, `unpack_class`: the four classes, of which an encoding is in one.
-/
import Mathlib.Algebra.Order.Field.Power
import Mathlib.Data.Rat.Floor
import Trustme.Lib.NearestEven
import Trustme.Numeric.Float128

namespace Trustme.Numeric.Float128

/-! ## 1. Fields and values -/

def sign (f : Float128) : Bool := decide (2 ^ 63 ≤ f.hi.toNat)

def biased (f : Float128) : Nat := f.hi.toNat / 2 ^ 48 % 2 ^ 15

def fraction (f : Float128) : Nat := f.hi.toNat % 2 ^ 48 * 2 ^ 64 + f.lo.toNat

def IsNan (f : Float128) : Prop := f.biased = 0x7FFF ∧ f.fraction ≠ 0

def IsInfinite (f : Float128) : Prop := f.biased = 0x7FFF ∧ f.fraction = 0

def IsFinite (f : Float128) : Prop := f.biased ≠ 0x7FFF

def IsZero (f : Float128) : Prop := f.biased = 0 ∧ f.fraction = 0

def magnitude (f : Float128) : ℚ :=
  if f.biased = 0 then f.fraction * 2 ^ (-16494 : ℤ)
  else (2 ^ 112 + f.fraction : ℕ) * 2 ^ ((f.biased : ℤ) - 16495)

/-- The number that a finite encoding stands for. -/
def val (f : Float128) : ℚ := if f.sign then -f.magnitude else f.magnitude

theorem fraction_lt (f : Float128) : f.fraction < 2 ^ 112 := by
  have h := f.lo.isLt
  unfold fraction
  omega

theorem biased_lt (f : Float128) : f.biased < 2 ^ 15 := Nat.mod_lt _ (by decide)

/-- From this magnitude on a number is rounded to infinity: half a unit above the largest one. -/
def overflowLimit : ℚ := 2 ^ 16384 - 2 ^ 16270

/-- **IEEE-754 rounding to nearest, ties to even**, of a number other than zero. -/
def RoundsTo (x : ℚ) (r : Float128) : Prop :=
  (overflowLimit ≤ |x| → r = infinity (decide (x < 0))) ∧
  (|x| < overflowLimit → r.IsFinite ∧ r.sign = decide (x < 0) ∧ ∀ f : Float128, f.IsFinite →
    |r.val - x| ≤ |f.val - x| ∧
      (|f.val - x| = |r.val - x| → f.val = r.val ∨ r.fraction % 2 = 0))

/-! ## 2. Bit lengths -/

theorem log2_eq {n k : Nat} (hlo : 2 ^ k ≤ n) (hhi : n < 2 ^ (k + 1)) : n.log2 = k :=
  (Nat.log2_eq_iff (by have := Nat.two_pow_pos k; omega)).mpr ⟨hlo, hhi⟩

theorem clz128_eq {v : BitVec 128} (hv : v ≠ 0) : clz128 v = some (127 - v.toNat.log2) := by
  have hlt := v.isLt
  have hhi : ((v >>> 64).setWidth 64 : BitVec 64).toNat = v.toNat / 2 ^ 64 := by
    rw [BitVec.toNat_setWidth, BitVec.toNat_ushiftRight, Nat.shiftRight_eq_div_pow]
    exact Nat.mod_eq_of_lt (by omega)
  have hlo : (v.setWidth 64 : BitVec 64).toNat = v.toNat % 2 ^ 64 := BitVec.toNat_setWidth ..
  have hne : v.toNat ≠ 0 := fun h => hv (BitVec.eq_of_toNat_eq h)
  unfold clz128 builtinClzll
  rw [if_neg hv]
  dsimp only
  rw [hhi, hlo]
  by_cases h : v.toNat / 2 ^ 64 = 0
  · have hz : ((v >>> 64).setWidth 64 : BitVec 64) = 0 :=
      BitVec.eq_of_toNat_eq (by rw [hhi, h]; rfl)
    have hl : v.toNat.log2 < 64 := (Nat.log2_lt hne).mpr (by omega)
    rw [if_neg (not_not.mpr hz), Nat.mod_eq_of_lt (by omega)]
    congr 1
    omega
  · have hz : ((v >>> 64).setWidth 64 : BitVec 64) ≠ 0 := fun hz => h (by rw [← hhi, hz]; rfl)
    have h1 := Nat.log2_self_le h
    have h2 := Nat.lt_log2_self (n := v.toNat / 2 ^ 64)
    have h3 : (v.toNat / 2 ^ 64).log2 < 64 := (Nat.log2_lt h).mpr (by omega)
    have h4 : v.toNat.log2 = (v.toNat / 2 ^ 64).log2 + 64 := by
      apply log2_eq
      · rw [pow_add]
        omega
      · rw [Nat.add_right_comm, pow_add]
        omega
    rw [if_pos hz, h4]
    congr 1
    omega

theorem bitLength128_eq {v : BitVec 128} (hv : v ≠ 0) :
    bitLength128 v = some (v.toNat.log2 + 1) := by
  have hne : v.toNat ≠ 0 := fun h => hv (BitVec.eq_of_toNat_eq h)
  have hl : v.toNat.log2 < 128 := (Nat.log2_lt hne).mpr v.isLt
  unfold bitLength128
  rw [if_neg hv, clz128_eq hv, Option.map_some]
  congr 1
  omega

/-! ## 3. Disjoint parts -/

theorem toNat_or_of_lt {w : Nat} {x y : BitVec w} {i : Nat} (hx : 2 ^ i ∣ x.toNat)
    (hy : y.toNat < 2 ^ i) : (x ||| y).toNat = x.toNat + y.toNat := by
  obtain ⟨k, hk⟩ := hx
  rw [BitVec.toNat_or, hk, Nat.two_pow_add_eq_or_of_lt hy]

theorem toNat_implicitBit : implicitBit.toNat = 2 ^ 112 := rfl

theorem signBit_toNat (negative : Bool) :
    (signBit negative).toNat = if negative then 2 ^ 63 else 0 := by
  cases negative <;> rfl

/-- The two words of an encoding, as numbers. -/
theorem encode_toNat (negative : Bool) {b : Nat} (hb : b < 2 ^ 15) {s : BitVec 128}
    (hs : s.toNat < 2 ^ 112) :
    (encode negative b s).hi.toNat =
      (if negative then 2 ^ 63 else 0) + b * 2 ^ 48 + s.toNat / 2 ^ 64 ∧
    (encode negative b s).lo.toNat = s.toNat % 2 ^ 64 := by
  have h1 : (BitVec.ofNat 64 b <<< 48).toNat = b * 2 ^ 48 := by
    rw [BitVec.toNat_shiftLeft, BitVec.toNat_ofNat, Nat.shiftLeft_eq]
    omega
  have h2 : ((s >>> 64).setWidth 64 : BitVec 64).toNat = s.toNat / 2 ^ 64 := by
    rw [BitVec.toNat_setWidth, BitVec.toNat_ushiftRight, Nat.shiftRight_eq_div_pow]
    exact Nat.mod_eq_of_lt (by omega)
  have h3 : (signBit negative ||| BitVec.ofNat 64 b <<< 48).toNat =
      (if negative then 2 ^ 63 else 0) + b * 2 ^ 48 := by
    rw [toNat_or_of_lt (i := 63) (by rw [signBit_toNat]; cases negative <;> simp) (by omega),
      h1, signBit_toNat]
  refine ⟨?_, BitVec.toNat_setWidth ..⟩
  unfold encode
  rw [toNat_or_of_lt (i := 48) (by rw [h3]; split <;> omega) (by omega), h3, h2]

theorem encode_fields (negative : Bool) {b : Nat} (hb : b < 2 ^ 15) {s : BitVec 128}
    (hs : s.toNat < 2 ^ 112) : (encode negative b s).sign = negative ∧
      (encode negative b s).biased = b ∧ (encode negative b s).fraction = s.toNat := by
  obtain ⟨hhi, hlo⟩ := encode_toNat negative hb hs
  unfold sign biased fraction
  rw [hhi, hlo]
  cases negative
  · refine ⟨decide_eq_false (by simp; omega), by simp; omega, by simp; omega⟩
  · refine ⟨decide_eq_true (by simp; omega), by simp; omega, by simp; omega⟩

/-! ## 4. Packing -/

theorem toNat_and_fractionMask (s : BitVec 128) :
    (s &&& fractionMask).toNat = s.toNat % 2 ^ 112 := by
  rw [BitVec.toNat_and, show fractionMask.toNat = 2 ^ 112 - 1 from rfl,
    Nat.and_two_pow_sub_one_eq_mod]

/-- A significand of at most 113 digits is encoded as the number it is. -/
theorem packFinite_val (negative : Bool) (exponent : Int) (s : BitVec 128)
    (hs : s.toNat < 2 ^ 113) (hlo : minExponent ≤ exponent) (hhi : exponent ≤ maxExponent)
    (hmin : s.toNat < 2 ^ 112 → exponent = minExponent) :
    ∃ r, packFinite negative exponent s = some r ∧ r.IsFinite ∧ r.sign = negative ∧
      r.magnitude = s.toNat * 2 ^ (exponent - 112) ∧ r.fraction % 2 = s.toNat % 2 := by
  unfold minExponent maxExponent at *
  unfold packFinite exponentBias
  by_cases hn : s.toNat < 2 ^ 112
  · have he : exponent = minExponent := hmin hn
    rw [if_neg (by rw [ge_iff_le, BitVec.le_def, toNat_implicitBit]; omega), if_pos he]
    obtain ⟨h1, h2, h3⟩ := encode_fields negative (b := 0) (by decide) hn
    refine ⟨_, rfl, by unfold IsFinite; omega, h1, ?_, by rw [h3]⟩
    unfold magnitude
    rw [if_pos h2, h3, he]
    rfl
  · rw [if_pos (by rw [ge_iff_le, BitVec.le_def, toNat_implicitBit]; omega),
      if_pos ⟨by unfold minExponent; omega, by unfold maxExponent; omega⟩]
    obtain ⟨h1, h2, h3⟩ := encode_fields negative (b := (exponent + 16383).toNat)
      (s := s &&& fractionMask) (by omega) (by rw [toNat_and_fractionMask]; omega)
    rw [toNat_and_fractionMask] at h3
    refine ⟨_, rfl, by unfold IsFinite; omega, h1, ?_, by rw [h3]; omega⟩
    unfold magnitude
    rw [if_neg (by omega), h2, h3]
    congr 2
    · omega
    · omega

/-! ## 5. Unpacking -/

/-- A finite number other than zero, taken apart: 113 digits and the weight of the first. -/
structure Parts (f : Float128) (u : Unpacked) : Prop where
  kind : u.kind = .finite
  negative : u.negative = f.sign
  finite : f.IsFinite
  magnitude : f.magnitude = u.significand.toNat * 2 ^ (u.exponent - 112)
  le_significand : 2 ^ 112 ≤ u.significand.toNat
  significand_lt : u.significand.toNat < 2 ^ 113
  le_exponent : -16494 ≤ u.exponent
  exponent_le : u.exponent ≤ 16383

theorem unpack_negative (f : Float128) : (f.hi >>> 63 != 0) = f.sign := by
  have h := f.hi.isLt
  unfold sign
  rw [Bool.eq_iff_iff, bne_iff_ne, decide_eq_true_iff, ne_eq, BitVec.toNat_eq,
    BitVec.toNat_ushiftRight, Nat.shiftRight_eq_div_pow]
  simp only [BitVec.ofNat_eq_ofNat, BitVec.toNat_ofNat]
  omega

theorem unpack_biased (f : Float128) :
    ((f.hi >>> 48).setWidth 32 &&& 0x7FFF#32).toNat = f.biased := by
  have h := f.hi.isLt
  unfold biased
  rw [BitVec.toNat_and, BitVec.toNat_setWidth, BitVec.toNat_ushiftRight,
    Nat.shiftRight_eq_div_pow, show (0x7FFF#32).toNat = 2 ^ 15 - 1 from rfl,
    Nat.and_two_pow_sub_one_eq_mod]
  omega

theorem unpack_fraction (f : Float128) :
    (((f.hi &&& 0xFFFFFFFFFFFF#64).setWidth 128 <<< 64 ||| f.lo.setWidth 128 : BitVec 128)).toNat =
      f.fraction := by
  have h := f.lo.isLt
  have h1 : (f.hi &&& 0xFFFFFFFFFFFF#64).toNat = f.hi.toNat % 2 ^ 48 := by
    rw [BitVec.toNat_and, show (0xFFFFFFFFFFFF#64).toNat = 2 ^ 48 - 1 from rfl,
      Nat.and_two_pow_sub_one_eq_mod]
  have h2 : ((f.hi &&& 0xFFFFFFFFFFFF#64).setWidth 128 <<< 64 : BitVec 128).toNat =
      f.hi.toNat % 2 ^ 48 * 2 ^ 64 := by
    rw [BitVec.toNat_shiftLeft, BitVec.toNat_setWidth, h1, Nat.shiftLeft_eq]
    omega
  have h3 : (f.lo.setWidth 128 : BitVec 128).toNat = f.lo.toNat := by
    rw [BitVec.toNat_setWidth]
    omega
  rw [toNat_or_of_lt (i := 64) (by rw [h2]; omega) (by omega), h2, h3]
  rfl

/-- What `unpack` returns. -/
theorem unpack_cases (f : Float128) :
    (f.IsNan ∧ unpack f = some ⟨.notANumber, f.sign, 0, 0⟩) ∨
    (f.IsInfinite ∧ unpack f = some ⟨.infinity, f.sign, 0, 0⟩) ∨
    (f.IsZero ∧ unpack f = some ⟨.zero, f.sign, 0, 0⟩) ∨
    (∃ u, unpack f = some u ∧ Parts f u) := by
  have hfrac := f.fraction_lt
  have hb := f.biased_lt
  have hf := unpack_fraction f
  unfold unpack
  simp only [unpack_negative, unpack_biased]
  generalize ((f.hi &&& 0xFFFFFFFFFFFF#64).setWidth 128 <<< 64 ||| f.lo.setWidth 128 : BitVec 128) =
    fr at hf
  have hz : fr = 0 ↔ f.fraction = 0 := by
    rw [BitVec.toNat_eq, hf]
    rfl
  by_cases h1 : f.biased = 0x7FFF
  · rw [if_pos h1]
    by_cases h2 : f.fraction = 0
    · rw [if_neg (not_not.mpr (hz.mpr h2))]
      exact .inr (.inl ⟨⟨h1, h2⟩, rfl⟩)
    · rw [if_pos (mt hz.mp h2)]
      exact .inl ⟨⟨h1, h2⟩, rfl⟩
  rw [if_neg h1]
  right; right
  by_cases h3 : f.biased = 0
  · rw [if_pos h3]
    by_cases h2 : f.fraction = 0
    · rw [if_pos (hz.mpr h2)]
      exact .inl ⟨⟨h3, h2⟩, rfl⟩
    · rw [if_neg (mt hz.mp h2), clz128_eq (mt hz.mp h2), hf]
      right
      have hl : f.fraction.log2 < 112 := (Nat.log2_lt h2).mpr hfrac
      have hlo := Nat.log2_self_le h2
      have hhi := Nat.lt_log2_self (n := f.fraction)
      have hshift : 127 - f.fraction.log2 - (128 - (significandBits + 1)) =
          112 - f.fraction.log2 := by
        unfold significandBits
        omega
      have hpow : 2 ^ f.fraction.log2 * 2 ^ (112 - f.fraction.log2) = 2 ^ 112 := by
        rw [← pow_add, Nat.add_sub_cancel' (by omega)]
      have h113 : f.fraction * 2 ^ (112 - f.fraction.log2) < 2 ^ 113 := by
        calc f.fraction * 2 ^ (112 - f.fraction.log2)
            < 2 ^ (f.fraction.log2 + 1) * 2 ^ (112 - f.fraction.log2) :=
              Nat.mul_lt_mul_of_pos_right hhi (Nat.two_pow_pos _)
          _ = 2 ^ 113 := by rw [pow_succ, Nat.mul_right_comm, hpow]; rfl
      have hsig : (fr <<< (112 - f.fraction.log2)).toNat =
          f.fraction * 2 ^ (112 - f.fraction.log2) := by
        rw [BitVec.toNat_shiftLeft, hf, Nat.shiftLeft_eq]
        exact Nat.mod_eq_of_lt (by omega)
      simp only [Option.bind_eq_bind, Option.bind_some, hshift]
      refine ⟨_, rfl, rfl, rfl, h1, ?_, ?_, ?_, ?_, ?_⟩
      · unfold magnitude
        rw [if_pos h3, hsig]
        rw [Nat.cast_mul, Nat.cast_pow, Nat.cast_ofNat, mul_assoc, ← zpow_natCast,
          ← zpow_add₀ (by norm_num)]
        congr 2
        simp only [minExponent]
        omega
      · rw [hsig, ← hpow]
        exact Nat.mul_le_mul_right _ hlo
      · rw [hsig]
        exact h113
      · simp only [minExponent]
        omega
      · simp only [minExponent]
        omega
  · rw [if_neg h3]
    have hsig : (fr ||| implicitBit).toNat = 2 ^ 112 + f.fraction := by
      rw [BitVec.or_comm, toNat_or_of_lt (i := 112) (by rw [toNat_implicitBit]) (by omega),
        toNat_implicitBit, hf]
    right
    refine ⟨_, rfl, rfl, rfl, h1, ?_, ?_, ?_, ?_, ?_⟩
    · unfold magnitude
      rw [if_neg h3, hsig]
      congr 2
      show (f.biased : ℤ) - 16495 = f.biased - 16383 - 112
      omega
    · rw [hsig]
      omega
    · rw [hsig]
      omega
    · show -16494 ≤ (f.biased : Int) - 16383
      omega
    · show (f.biased : Int) - 16383 ≤ 16383
      omega

/-! ## 6. Classes -/

variable {f : Float128} {u : Unpacked}

theorem Parts.magnitude_pos (h : Parts f u) : 0 < f.magnitude := by
  have h1 : (0 : ℚ) < u.significand.toNat := by
    exact_mod_cast (show 0 < u.significand.toNat by have := h.le_significand; omega)
  rw [h.magnitude]
  exact mul_pos h1 (Lib.two_zpow_pos _)

theorem Parts.val_ne_zero (h : Parts f u) : f.val ≠ 0 := by
  have h1 := h.magnitude_pos
  unfold val
  split
  · linarith
  · exact h1.ne'

theorem IsZero.val_eq (h : f.IsZero) : f.val = 0 := by
  have h1 : f.magnitude = 0 := by
    unfold magnitude
    rw [if_pos h.1, h.2, Nat.cast_zero, zero_mul]
  unfold val
  rw [h1, neg_zero, ite_self]

/-- The class of an encoding, with what `unpack` makes of it. -/
inductive Class (f : Float128) : Unpacked → Prop
  | nan (h : f.IsNan) : Class f ⟨.notANumber, f.sign, 0, 0⟩
  | infinite (h : f.IsInfinite) : Class f ⟨.infinity, f.sign, 0, 0⟩
  | zero (h : f.IsZero) : Class f ⟨.zero, f.sign, 0, 0⟩
  | parts {u : Unpacked} (h : Parts f u) : Class f u

theorem unpack_class (f : Float128) : ∃ u, unpack f = some u ∧ Class f u := by
  obtain ⟨h, e⟩ | ⟨h, e⟩ | ⟨h, e⟩ | ⟨u, e, h⟩ := unpack_cases f
  · exact ⟨_, e, .nan h⟩
  · exact ⟨_, e, .infinite h⟩
  · exact ⟨_, e, .zero h⟩
  · exact ⟨u, e, .parts h⟩

@[grind →] theorem IsNan.not_infinite (h : f.IsNan) : ¬ f.IsInfinite := fun h' => h.2 h'.2

@[grind →] theorem IsNan.not_finite (h : f.IsNan) : ¬ f.IsFinite := fun h' => h' h.1

@[grind →] theorem IsInfinite.not_finite (h : f.IsInfinite) : ¬ f.IsFinite := fun h' => h' h.1

@[grind →] theorem IsZero.finite (h : f.IsZero) : f.IsFinite := by
  unfold IsFinite
  rw [h.1]
  decide

theorem Parts.not_nan (h : Parts f u) : ¬ f.IsNan :=
  fun h' => h.finite h'.1

theorem Parts.not_infinite (h : Parts f u) : ¬ f.IsInfinite :=
  fun h' => h.finite h'.1

theorem Parts.not_zero (h : Parts f u) : ¬ f.IsZero :=
  fun h' => h.val_ne_zero h'.val_eq

@[grind →] theorem IsInfinite.not_nan (h : f.IsInfinite) : ¬ f.IsNan := fun h' => h'.2 h.2

@[grind →] theorem IsInfinite.not_zero (h : f.IsInfinite) : ¬ f.IsZero :=
  fun h' => h.not_finite h'.finite

/-- A finite encoding is a zero or has parts. -/
theorem unpack_finite (h : f.IsFinite) :
    (f.IsZero ∧ unpack f = some ⟨.zero, f.sign, 0, 0⟩) ∨ ∃ u, unpack f = some u ∧ Parts f u := by
  rcases unpack_cases f with hc | hc | hc | hc
  · exact absurd hc.1.1 h
  · exact absurd hc.1.1 h
  · exact .inl hc
  · exact .inr hc

end Trustme.Numeric.Float128
