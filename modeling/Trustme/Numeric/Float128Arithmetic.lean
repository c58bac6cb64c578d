/-
  Subject:   The operators of `Float128` are the operations of IEEE-754 on binary128.

  * `addFinite_rounds`, `mulFinite_rounds`, `divFinite_rounds`: what each of them hands to
    `roundPack` tells enough of the exact result;
  * `AddResult`, `MulResult`, `DivResult`: the results by the classes of the operands;
  * `arithmetic_rounds`: all pairs of encodings.
-/
import Trustme.Lib.LongDivision
import Trustme.Numeric.Float128Rounding

namespace Trustme.Numeric.Float128

open Lib (Told)

/-! ## 1. Classes and values -/

variable {f g a b r : Float128}

theorem magnitude_lt (h : f.IsFinite) : f.magnitude < overflowLimit := by
  have hf := f.fraction_lt
  have hb := f.biased_lt
  unfold IsFinite at h
  have key (n : ℕ) (q : ℤ) (hn : n < 2 ^ 113) (hq : q ≤ 16271) :
      (n : ℚ) * 2 ^ q < overflowLimit := by
    have h1 : (n : ℚ) ≤ 2 ^ 113 - 1 := by
      have : (n : ℚ) + 1 ≤ 2 ^ 113 := by exact_mod_cast hn
      linarith
    have h2 : (2 : ℚ) ^ q ≤ 2 ^ (16271 : ℤ) := zpow_le_zpow_right₀ (by norm_num) hq
    rw [overflowLimit_eq]
    calc (n : ℚ) * 2 ^ q ≤ n * 2 ^ (16271 : ℤ) :=
          mul_le_mul_of_nonneg_left h2 (Nat.cast_nonneg _)
      _ < (2 ^ 113 - 1 / 2) * 2 ^ (16271 : ℤ) :=
          mul_lt_mul_of_pos_right (by linarith) (Lib.two_zpow_pos _)
  unfold magnitude
  split
  · exact key _ _ (by omega) (by omega)
  · exact key _ _ (by omega) (by omega)

/-- A number of the format is its own rounding. -/
theorem Parts.roundsTo {u : Unpacked} (h : Parts f u) : RoundsTo f.val f := by
  have hpos := h.magnitude_pos
  have hlt := magnitude_lt h.finite
  have habs : |f.val| = f.magnitude := abs_signed hpos
  refine ⟨fun hc => absurd (habs ▸ hc) (not_le.mpr hlt), fun _ => ⟨h.finite, ?_, fun g _ => ?_⟩⟩
  · unfold val
    cases f.sign
    · exact (decide_eq_false (not_lt.mpr hpos.le)).symm
    · exact (decide_eq_true (neg_lt_zero.mpr hpos)).symm
  · rw [sub_self, abs_zero]
    exact ⟨abs_nonneg _, fun hc => .inl (sub_eq_zero.mp (abs_eq_zero.mp hc))⟩

/-! ## 2. Sums -/

/-- `m` units of `2 ^ (d - 3)` stand for the significand `s`, jammed or exactly. -/
def Jammed (s d m : Nat) (jam : Bool) : Prop :=
  if jam then 4 ≤ d ∧ m % 2 = 1 ∧ m < 2 ^ 112 ∧
    (m - 1 : ℚ) * 2 ^ d < (s * 8 : ℕ) ∧ ((s * 8 : ℕ) : ℚ) < (m + 1 : ℚ) * 2 ^ d
  else m * 2 ^ d = s * 8

theorem or_one (n : Nat) : n ||| 1 = n / 2 * 2 + 1 := by
  have h (k : Nat) : 2 * k ||| 1 = 2 * k + 1 :=
    (Nat.two_pow_add_eq_or_of_lt (i := 1) (by decide) k).symm
  rcases Nat.even_or_odd' n with ⟨k, rfl | rfl⟩
  · rw [h]
    omega
  · rw [← h, Nat.or_assoc, Nat.or_self, h]
    omega

theorem toNat_shl3 {s : BitVec 128} (hs : s.toNat < 2 ^ 113) : (s <<< 3).toNat = s.toNat * 8 := by
  rw [BitVec.toNat_shiftLeft, Nat.shiftLeft_eq]
  exact Nat.mod_eq_of_lt (by omega)

/-- The smaller significand, moved under the larger one with the jam bit. -/
theorem aligned_jammed {s : BitVec 128} (hs : s.toNat < 2 ^ 113) (d : Nat) :
    Jammed s.toNat d ((shiftRightSticky (s <<< 3) d false).1 |||
      if (shiftRightSticky (s <<< 3) d false).2 then 1 else 0).toNat
      (shiftRightSticky (s <<< 3) d false).2 := by
  obtain ⟨h1, h2⟩ := shiftRightSticky_eq (s <<< 3) d false
  rw [toNat_shl3 hs] at h1 h2
  rw [Bool.false_or] at h2
  have hdm := Nat.div_add_mod (s.toNat * 8) (2 ^ d)
  have hlt := Nat.mod_lt (s.toNat * 8) (Nat.two_pow_pos d)
  unfold Jammed
  by_cases hm : s.toNat * 8 % 2 ^ d = 0
  · rw [h2, decide_eq_false (not_not.mpr hm)]
    simp only [Bool.false_eq_true, if_false, BitVec.ofNat_eq_ofNat, BitVec.or_zero]
    rw [h1, Nat.mul_comm]
    omega
  · have hd : 4 ≤ d := by
      by_contra hc
      have hdvd : 2 ^ d ∣ s.toNat * 8 :=
        Dvd.dvd.mul_left (Nat.pow_dvd_pow 2 (show d ≤ 3 by omega)) _
      exact hm (Nat.mod_eq_zero_of_dvd hdvd)
    have hpow : 2 ^ 4 ≤ 2 ^ d := Nat.pow_le_pow_right (by decide) hd
    have hsmall : s.toNat * 8 / 2 ^ d < 2 ^ 112 := by
      rw [Nat.div_lt_iff_lt_mul (Nat.two_pow_pos d)]
      omega
    rw [h2, decide_eq_true hm]
    simp only [if_true, BitVec.toNat_or, h1]
    show 4 ≤ d ∧ (s.toNat * 8 / 2 ^ d ||| 1) % 2 = 1 ∧ (s.toNat * 8 / 2 ^ d ||| 1) < 2 ^ 112 ∧ _
    rw [show (1 : BitVec 128).toNat = 1 from rfl, or_one]
    generalize s.toNat * 8 / 2 ^ d = t at hdm hsmall
    generalize s.toNat * 8 % 2 ^ d = rest at hdm hlt hm
    generalize s.toNat * 8 = w at hdm
    have hp : (0 : ℚ) < 2 ^ d := by positivity
    have hq : (2 : ℚ) ^ d * t + rest = w := by exact_mod_cast hdm
    have hr : (rest : ℚ) < 2 ^ d := by exact_mod_cast hlt
    have hr0 : (0 : ℚ) < rest := by exact_mod_cast Nat.pos_of_ne_zero hm
    -- the jammed number is the cut one or one above it
    have hcase : t / 2 * 2 + 1 = t ∨ t / 2 * 2 + 1 = t + 1 := by omega
    refine ⟨hd, by omega, by omega, ?_, ?_⟩
    · rcases hcase with hc | hc <;> rw [hc] <;> push_cast <;> nlinarith
    · rcases hcase with hc | hc <;> rw [hc] <;> push_cast <;> nlinarith

/-- The exact sum or difference of the magnitudes, in units of `2 ^ (big.exponent - 115)`, and
    what the significands make of it. -/
theorem enough_of_jammed {B s d m : Nat} {jam : Bool} {e : ℤ} (hB : 2 ^ 112 ≤ B)
    (hj : Jammed s d m jam) {sum : Nat} {y : ℚ} {v : BitVec 128} (hv : v.toNat = sum)
    (hsum : (sum = B * 8 + m ∧ y = (B * 8 + (s * 8 : ℕ) / 2 ^ d) * 2 ^ (e - 115)) ∨
      (sum + m = B * 8 ∧ y = (B * 8 - (s * 8 : ℕ) / 2 ^ d) * 2 ^ (e - 115))) :
    Enough y ⟨v, e - 2, false⟩ := by
  have hu := Lib.two_zpow_pos (K := ℚ) (e - 115)
  have hd : (0 : ℚ) < 2 ^ d := by positivity
  have he : e - 2 - 113 = e - 115 := by ring
  unfold Jammed at hj
  cases jam
  · have hm : (m : ℚ) = (s * 8 : ℕ) / 2 ^ d := by
      rw [eq_div_iff hd.ne']
      exact_mod_cast hj
    refine .inl ⟨?_, fun h => absurd h Bool.false_ne_true⟩
    show y = (v.toNat : ℚ) * 2 ^ (e - 2 - 113)
    rw [hv, he]
    rcases hsum with ⟨h1, h2⟩ | ⟨h1, h2⟩
    · rw [h2, h1, ← hm]
      push_cast
      rfl
    · have : (sum : ℚ) = B * 8 - m := by
        rw [eq_sub_iff_add_eq]
        exact_mod_cast h1
      rw [h2, this, hm]
  · obtain ⟨-, hodd, hlt, hlo, hhi⟩ := hj
    rw [← lt_div_iff₀ hd] at hlo
    rw [← div_lt_iff₀ hd] at hhi
    generalize ((s * 8 : ℕ) : ℚ) / 2 ^ d = z at hsum hlo hhi
    right
    refine ⟨rfl, ?_, ?_, ?_, ?_⟩ <;> simp only [hv]
    · omega
    · omega
    · rw [he]
      rcases hsum with ⟨h1, h2⟩ | ⟨h1, h2⟩
      · rw [h2, h1]
        push_cast
        exact mul_lt_mul_of_pos_right (by linarith) hu
      · have : (sum : ℚ) = B * 8 - m := by
          rw [eq_sub_iff_add_eq]
          exact_mod_cast h1
        rw [h2, this]
        exact mul_lt_mul_of_pos_right (by linarith) hu
    · rw [he]
      rcases hsum with ⟨h1, h2⟩ | ⟨h1, h2⟩
      · rw [h2, h1]
        push_cast
        exact mul_lt_mul_of_pos_right (by linarith) hu
      · have : (sum : ℚ) = B * 8 - m := by
          rw [eq_sub_iff_add_eq]
          exact_mod_cast h1
        rw [h2, this]
        exact mul_lt_mul_of_pos_right (by linarith) hu

/-- Without a sticky bit, the number is zero if and only if its significand is. -/
theorem Enough.eq_zero_or_pos {y : ℚ} {v : BitVec 128} {e : ℤ} (h : Enough y ⟨v, e, false⟩) :
    (v = 0 ∧ y = 0) ∨ (v ≠ 0 ∧ 0 < y) := by
  have hu := Lib.two_zpow_pos (K := ℚ) (e - 113)
  by_cases hv : v = 0
  · rcases h with ⟨h1, -⟩ | ⟨-, h2, -⟩
    · have h3 : y = v.toNat * 2 ^ (e - 113) := h1
      rw [hv] at h3
      exact .inl ⟨hv, h3.trans (zero_mul _)⟩
    · rw [hv] at h2
      exact absurd h2 (show ¬ 2 ^ 114 ≤ (0 : BitVec 128).toNat by decide)
  · have hv' : 1 ≤ v.toNat := Nat.one_le_iff_ne_zero.mpr fun h0 => hv (BitVec.eq_of_toNat_eq h0)
    have hv1 : (1 : ℚ) ≤ v.toNat := by exact_mod_cast hv'
    refine .inr ⟨hv, ?_⟩
    rcases h with ⟨h1, -⟩ | ⟨-, -, -, h2, -⟩
    · have h3 : y = v.toNat * 2 ^ (e - 113) := h1
      rw [h3]
      exact mul_pos (by linarith) hu
    · exact lt_of_le_of_lt (mul_nonneg (by linarith) hu.le) h2

/-- The sum of two finite numbers is rounded; an exact zero is positive. -/
theorem addFinite_rounds {big small : Unpacked} (hf : Parts f big) (hg : Parts g small)
    (hle : small.exponent < big.exponent ∨
      (small.exponent = big.exponent ∧ small.significand.toNat ≤ big.significand.toNat)) :
    ∃ r, addFinite big small = some r ∧ (f.val + g.val ≠ 0 → RoundsTo (f.val + g.val) r) ∧
      (f.val + g.val = 0 → r = packZero false ∧ f.sign ≠ g.sign) := by
  have hB := hf.le_significand
  have hB' := hf.significand_lt
  have hS' := hg.significand_lt
  obtain ⟨d, hd⟩ : ∃ d : ℕ, big.exponent = small.exponent + d :=
    ⟨(big.exponent - small.exponent).toNat, by omega⟩
  have hj := aligned_jammed hS' d
  -- the magnitudes in the common unit
  have hu := Lib.two_zpow_pos (K := ℚ) (big.exponent - 115)
  have hfm : f.magnitude = big.significand.toNat * 8 * 2 ^ (big.exponent - 115) := by
    rw [hf.magnitude, show big.exponent - 112 = big.exponent - 115 + (3 : ℕ) by push_cast; ring,
      Lib.two_zpow_add_nat]
    ring
  have hgm : g.magnitude =
      (small.significand.toNat * 8 : ℕ) / 2 ^ d * 2 ^ (big.exponent - 115) := by
    rw [hg.magnitude, hd, show small.exponent + (d : ℤ) - 115 = small.exponent - 115 + d by ring,
      Lib.two_zpow_add_nat,
      show small.exponent - 112 = small.exponent - 115 + (3 : ℕ) by push_cast; ring,
      Lib.two_zpow_add_nat]
    push_cast
    field_simp
    norm_num
  have hfpos := hf.magnitude_pos
  have hgpos := hg.magnitude_pos
  unfold addFinite
  dsimp only
  rw [shift_distance, show (big.exponent - small.exponent).toNat = d by omega]
  generalize ((shiftRightSticky (small.significand <<< 3) d false).1 |||
    if (shiftRightSticky (small.significand <<< 3) d false).2 then 1 else 0) = v at hj ⊢
  generalize (shiftRightSticky (small.significand <<< 3) d false).2 = jam at hj
  have hvlt : v.toNat ≤ big.significand.toNat * 8 := by
    unfold Jammed at hj
    cases jam
    · have hj : v.toNat * 2 ^ d = small.significand.toNat * 8 := hj
      rcases Nat.eq_zero_or_pos d with rfl | hpos
      · omega
      · have : 2 ^ 1 ≤ 2 ^ d := Nat.pow_le_pow_right (by decide) hpos
        nlinarith
    · have := hj.2.2.1
      omega
  have hbig := toNat_shl3 hB'
  by_cases hsign : big.negative = small.negative
  · rw [if_pos hsign]
    have hadd : (big.significand <<< 3 + v).toNat = big.significand.toNat * 8 + v.toNat := by
      rw [BitVec.toNat_add, hbig]
      exact Nat.mod_eq_of_lt (by omega)
    obtain ⟨r, hr, hrounds⟩ := roundPack_rounds (add_pos hfpos hgpos) big.negative
      (enough_of_jammed hB hj hadd (.inl ⟨rfl, by rw [hfm, hgm]; ring⟩))
    have hval : f.val + g.val =
        if big.negative then -(f.magnitude + g.magnitude) else f.magnitude + g.magnitude := by
      unfold val
      rw [← hf.negative, ← hg.negative, ← hsign]
      split <;> ring
    refine ⟨r, hr, fun _ => by rwa [hval], fun h0 => ?_⟩
    rw [hval] at h0
    split at h0 <;> linarith
  · rw [if_neg hsign]
    have hsub : (big.significand <<< 3 - v).toNat + v.toNat = big.significand.toNat * 8 := by
      rw [BitVec.toNat_sub_of_le (by rw [BitVec.le_def, hbig]; exact hvlt), hbig]
      omega
    have hval : f.val + g.val =
        if big.negative then -(f.magnitude - g.magnitude) else f.magnitude - g.magnitude := by
      unfold val
      rw [← hf.negative, ← hg.negative]
      cases hb : big.negative <;> cases hs : small.negative <;> simp_all <;> ring
    have hdiff : f.sign ≠ g.sign := by rwa [← hf.negative, ← hg.negative]
    have henough : Enough (f.magnitude - g.magnitude)
        ⟨big.significand <<< 3 - v, big.exponent - 2, false⟩ :=
      enough_of_jammed hB hj rfl (.inr ⟨hsub, by rw [hfm, hgm]; ring⟩)
    rcases henough.eq_zero_or_pos with ⟨hv, hy⟩ | ⟨hv, hy⟩
    · rw [if_pos hv]
      rw [hy, neg_zero, ite_self] at hval
      exact ⟨_, rfl, fun h => absurd hval h, fun _ => ⟨rfl, hdiff⟩⟩
    · rw [if_neg hv]
      obtain ⟨r, hr, hrounds⟩ := roundPack_rounds hy big.negative henough
      refine ⟨r, hr, fun _ => by rwa [hval], fun h0 => ?_⟩
      rw [hval] at h0
      split at h0 <;> linarith

/-! ## 3. Products -/

/-- The four limbs of `multiplyFull` are the product. -/
theorem multiplyFull_toNat (a b : BitVec 128) :
    (multiplyFull a b).1.toNat + (multiplyFull a b).2.1.toNat * 2 ^ 64 +
      (multiplyFull a b).2.2.1.toNat * 2 ^ 128 + (multiplyFull a b).2.2.2.toNat * 2 ^ 192 =
      a.toNat * b.toNat := by
  have ha := a.isLt
  have hb := b.isLt
  have hlimb (x : BitVec 128) : (x.setWidth 64 : BitVec 64).toNat = x.toNat % 2 ^ 64 :=
    BitVec.toNat_setWidth ..
  have hwide (x : BitVec 64) : (x.setWidth 128 : BitVec 128).toNat = x.toNat := by
    rw [BitVec.toNat_setWidth]
    exact Nat.mod_eq_of_lt (by have := x.isLt; omega)
  have hshift (x : BitVec 128) : (x >>> 64).toNat = x.toNat / 2 ^ 64 := by
    rw [BitVec.toNat_ushiftRight, Nat.shiftRight_eq_div_pow]
  have hprod (x y : BitVec 64) : (x.setWidth 128 * y.setWidth 128 : BitVec 128).toNat =
      x.toNat * y.toNat := by
    rw [BitVec.toNat_mul, hwide, hwide]
    have := Nat.mul_le_mul (Nat.le_of_lt_succ (show x.toNat < 2 ^ 64 - 1 + 1 from x.isLt))
      (Nat.le_of_lt_succ (show y.toNat < 2 ^ 64 - 1 + 1 from y.isLt))
    exact Nat.mod_eq_of_lt (Nat.lt_of_le_of_lt this (by decide))
  have hle (x y : Nat) (hx : x < 2 ^ 64) (hy : y < 2 ^ 64) :
      x * y ≤ (2 ^ 64 - 1) * (2 ^ 64 - 1) := Nat.mul_le_mul (by omega) (by omega)
  simp only [multiplyFull, hlimb, hshift, BitVec.toNat_add, hwide, hprod]
  have ha1 : a.toNat / 2 ^ 64 % 2 ^ 64 = a.toNat / 2 ^ 64 := Nat.mod_eq_of_lt (by omega)
  have hb1 : b.toNat / 2 ^ 64 % 2 ^ 64 = b.toNat / 2 ^ 64 := Nat.mod_eq_of_lt (by omega)
  have hab : a.toNat * b.toNat = (a.toNat / 2 ^ 64 * 2 ^ 64 + a.toNat % 2 ^ 64) *
      (b.toNat / 2 ^ 64 * 2 ^ 64 + b.toNat % 2 ^ 64) := by
    rw [Nat.div_add_mod', Nat.div_add_mod']
  rw [ha1, hb1, hab]
  have h0 := hle (a.toNat % 2 ^ 64) (b.toNat % 2 ^ 64) (by omega) (by omega)
  have h1 := hle (a.toNat % 2 ^ 64) (b.toNat / 2 ^ 64) (by omega) (by omega)
  have h2 := hle (a.toNat / 2 ^ 64) (b.toNat % 2 ^ 64) (by omega) (by omega)
  have h3 := hle (a.toNat / 2 ^ 64) (b.toNat / 2 ^ 64) (by omega) (by omega)
  generalize a.toNat / 2 ^ 64 = x1 at *
  generalize a.toNat % 2 ^ 64 = x0 at *
  generalize b.toNat / 2 ^ 64 = y1 at *
  generalize b.toNat % 2 ^ 64 = y0 at *
  have hexp : (x1 * 2 ^ 64 + x0) * (y1 * 2 ^ 64 + y0) =
      x1 * y1 * 2 ^ 128 + (x0 * y1 + x1 * y0) * 2 ^ 64 + x0 * y0 := by ring
  rw [hexp]
  generalize x0 * y0 = p00 at *
  generalize x0 * y1 = p01 at *
  generalize x1 * y0 = p10 at *
  generalize x1 * y1 = p11 at *
  omega

theorem toNat_twoLimbs (hi lo : BitVec 64) :
    (hi.setWidth 128 <<< 64 ||| lo.setWidth 128 : BitVec 128).toNat =
      hi.toNat * 2 ^ 64 + lo.toNat := by
  have hh := hi.isLt
  have hl := lo.isLt
  have h1 : (hi.setWidth 128 <<< 64 : BitVec 128).toNat = hi.toNat * 2 ^ 64 := by
    rw [BitVec.toNat_shiftLeft, BitVec.toNat_setWidth, Nat.shiftLeft_eq]
    omega
  have h2 : (lo.setWidth 128 : BitVec 128).toNat = lo.toNat := by
    rw [BitVec.toNat_setWidth]
    omega
  rw [toNat_or_of_lt (i := 64) (by omega) (by omega), h1, h2]

/-- A number of 256 bits, shifted so far to the right that it fits in 128: the digits that are
    left, and whether others are lost. -/
theorem toNat_highDigits {high : BitVec 128} (low : BitVec 128) {n : Nat} (hn : n ≤ 128)
    (hhigh : high.toNat < 2 ^ n) :
    (high <<< (128 - n) ||| low >>> n).toNat = (high.toNat * 2 ^ 128 + low.toNat) / 2 ^ n ∧
    (low <<< (128 - n) != 0) =
      decide ((high.toNat * 2 ^ 128 + low.toNat) % 2 ^ n ≠ 0) := by
  have hl := low.isLt
  have hp := Nat.two_pow_pos n
  have hpow : (2 : ℕ) ^ 128 = 2 ^ (128 - n) * 2 ^ n := by
    rw [← pow_add, Nat.sub_add_cancel hn]
  have hup : (high <<< (128 - n)).toNat = high.toNat * 2 ^ (128 - n) := by
    rw [BitVec.toNat_shiftLeft, Nat.shiftLeft_eq]
    refine Nat.mod_eq_of_lt ?_
    rw [hpow, Nat.mul_comm]
    exact Nat.mul_lt_mul_of_pos_left hhigh (Nat.two_pow_pos _)
  have hdown : (low >>> n).toNat = low.toNat / 2 ^ n := by
    rw [BitVec.toNat_ushiftRight, Nat.shiftRight_eq_div_pow]
  constructor
  · rw [toNat_or_of_lt (i := 128 - n) (by rw [hup]; exact Nat.dvd_mul_left _ _), hup, hdown, hpow,
      ← Nat.mul_assoc, Nat.add_comm, Nat.add_comm (_ * _), Nat.add_mul_div_right _ _ hp]
    rw [hdown, Nat.div_lt_iff_lt_mul hp, ← hpow]
    exact hl
  · have hz : (low <<< (128 - n)).toNat = low.toNat % 2 ^ n * 2 ^ (128 - n) := by
      rw [BitVec.toNat_shiftLeft, Nat.shiftLeft_eq, hpow, Nat.mul_comm (2 ^ (128 - n)),
        Nat.mul_mod_mul_right]
    rw [Bool.eq_iff_iff, bne_iff_ne, decide_eq_true_iff, ne_eq, BitVec.toNat_eq, hz, hpow,
      ← Nat.mul_assoc, Nat.add_comm, Nat.add_mul_mod_self_right]
    have hp' := Nat.two_pow_pos (128 - n)
    show ¬ _ = 0 ↔ _
    rw [Nat.mul_eq_zero]
    omega

/-- The signs of a product and of a quotient. -/
theorem val_mul (f g : Float128) : f.val * g.val =
    if f.sign != g.sign then -(f.magnitude * g.magnitude) else f.magnitude * g.magnitude := by
  unfold val
  cases f.sign <;> cases g.sign <;> simp

theorem val_div (f g : Float128) : f.val / g.val =
    if f.sign != g.sign then -(f.magnitude / g.magnitude) else f.magnitude / g.magnitude := by
  unfold val
  cases f.sign <;> cases g.sign <;> simp [neg_div, div_neg]

theorem mulFinite_rounds {a b : Unpacked} (hf : Parts f a) (hg : Parts g b) :
    ∃ r, mulFinite a b (f.sign != g.sign) = some r ∧ RoundsTo (f.val * g.val) r := by
  have hfull := multiplyFull_toNat a.significand b.significand
  have hmag : f.magnitude * g.magnitude =
      ((a.significand.toNat * b.significand.toNat : ℕ) : ℚ) *
        2 ^ (a.exponent + b.exponent - 224) := by
    rw [hf.magnitude, hg.magnitude,
      show a.exponent + b.exponent - 224 = a.exponent - 112 + (b.exponent - 112) by ring,
      Lib.two_zpow_add]
    push_cast
    ring
  have hlo : 2 ^ 224 ≤ a.significand.toNat * b.significand.toNat :=
    Nat.le_trans (by decide : 2 ^ 224 ≤ 2 ^ 112 * 2 ^ 112)
      (Nat.mul_le_mul hf.le_significand hg.le_significand)
  have hhi : a.significand.toNat * b.significand.toNat < 2 ^ 226 :=
    Nat.lt_of_lt_of_le (Nat.mul_lt_mul'' hf.significand_lt hg.significand_lt)
      (by decide : 2 ^ 113 * 2 ^ 113 ≤ 2 ^ 226)
  have hpos := mul_pos hf.magnitude_pos hg.magnitude_pos
  unfold mulFinite
  rw [val_mul]
  generalize multiplyFull a.significand b.significand = limbs at hfull
  obtain ⟨p0, p1, p2, p3⟩ := limbs
  dsimp only at hfull ⊢
  generalize a.significand.toNat * b.significand.toNat = product at hfull hmag hlo hhi
  have hhigh := toNat_twoLimbs p3 p2
  have hlow := toNat_twoLimbs p1 p0
  generalize (p3.setWidth 128 <<< 64 ||| p2.setWidth 128 : BitVec 128) = high at hhigh ⊢
  generalize (p1.setWidth 128 <<< 64 ||| p0.setWidth 128 : BitVec 128) = low at hlow ⊢
  have hlowlt := low.isLt
  have hproduct : high.toNat * 2 ^ 128 + low.toNat = product := by omega
  have hne : high ≠ 0 := by
    intro h0
    have : high.toNat = 0 := by rw [h0]; rfl
    omega
  -- the product has 225 or 226 digits
  obtain ⟨n, hn, hlen, hlt, hge⟩ : ∃ n, (n = 97 ∨ n = 98) ∧ high.toNat.log2 + 1 = n ∧
      high.toNat < 2 ^ n ∧ 2 ^ (n - 1) ≤ high.toNat := by
    by_cases hc : high.toNat < 2 ^ 97
    · exact ⟨97, .inl rfl, by rw [log2_eq (k := 96) (by omega) hc], hc, by omega⟩
    · exact ⟨98, .inr rfl, by rw [log2_eq (k := 97) (by omega) (by omega)], by omega, by omega⟩
  obtain ⟨hdigits, hsticky⟩ := toNat_highDigits low (show n ≤ 128 by omega) hlt
  rw [bitLength128_eq hne, hlen]
  simp only [Option.bind_eq_bind, Option.bind_some, show 128 - (128 - n) = n by omega]
  rw [hsticky, hproduct]
  rw [hproduct] at hdigits
  have htold : Told (f.magnitude * g.magnitude) product (a.exponent + b.exponent - 224) false :=
    hmag
  have hright := htold.shiftRight n
  have he : a.exponent + b.exponent - 96 - ((128 - n : ℕ) : ℤ) + 113 - 113 =
      a.exponent + b.exponent - 224 + n := by omega
  refine roundPack_rounds hpos _ (.inl ⟨?_, fun _ => ?_⟩)
  · unfold Rounding.Tells
    dsimp only
    rwa [hdigits, he]
  · dsimp only
    rw [hdigits, Nat.le_div_iff_mul_le (Nat.two_pow_pos n)]
    refine Nat.le_trans ?_ hlo
    rw [← pow_add]
    exact Nat.pow_le_pow_right (by decide) (by omega)

/-! ## 4. Quotients -/

/-- The loop of the quotient does the steps of the division of the library. -/
theorem quotientSteps_toNat {divisor : BitVec 128} (hd : divisor.toNat < 2 ^ 113) (n : Nat)
    (quotient remainder : BitVec 128) (hn : n ≤ 115) (hq : quotient.toNat < 2 ^ (115 - n))
    (hr : remainder.toNat < 2 * divisor.toNat) :
    ((quotientSteps divisor n quotient remainder).1.toNat,
      (quotientSteps divisor n quotient remainder).2.toNat) =
      Lib.runningSteps divisor.toNat n quotient.toNat remainder.toNat := by
  induction n generalizing quotient remainder with
  | zero => rfl
  | succ n ih =>
    have hpow : 2 ^ (115 - n) = 2 ^ (115 - (n + 1)) * 2 := by
      rw [← pow_succ]
      congr 1
      omega
    have hbound : 2 ^ (115 - n) ≤ 2 ^ 115 := Nat.pow_le_pow_right (by decide) (by omega)
    have hq1 : (quotient <<< 1).toNat = 2 * quotient.toNat := by
      rw [BitVec.toNat_shiftLeft, Nat.shiftLeft_eq]
      omega
    have hor : (quotient <<< 1 ||| 1).toNat = 2 * quotient.toNat + 1 := by
      rw [toNat_or_of_lt (i := 1) (by rw [hq1]; exact Nat.dvd_mul_right _ _) (by decide), hq1]
      rfl
    unfold quotientSteps Lib.runningSteps
    simp only [ge_iff_le, BitVec.le_def]
    by_cases hc : divisor.toNat ≤ remainder.toNat
    · have hsub : ((remainder - divisor) <<< 1).toNat = 2 * (remainder.toNat - divisor.toNat) := by
        rw [BitVec.toNat_shiftLeft, BitVec.toNat_sub_of_le hc, Nat.shiftLeft_eq]
        omega
      rw [if_pos hc, if_pos hc, ih _ _ (by omega) (by omega) (by omega), hor, hsub]
    · have hr1 : (remainder <<< 1).toNat = 2 * remainder.toNat := by
        rw [BitVec.toNat_shiftLeft, Nat.shiftLeft_eq]
        omega
      rw [if_neg hc, if_neg hc, ih _ _ (by omega) (by omega) (by omega), hq1, hr1]

theorem divFinite_rounds {a b : Unpacked} (hf : Parts f a) (hg : Parts g b) :
    ∃ r, divFinite a b (f.sign != g.sign) = some r ∧ RoundsTo (f.val / g.val) r := by
  have ha := hf.le_significand
  have ha' := hf.significand_lt
  have hb := hg.le_significand
  have hb' := hg.significand_lt
  have hsteps := quotientSteps_toNat hb' 115 0 a.significand
    (Nat.le_refl _) (by decide) (by omega)
  rw [Lib.runningSteps_eq (by omega) _ _ _ (by omega), Prod.mk.injEq] at hsteps
  unfold divFinite
  dsimp only
  rw [val_div]
  generalize quotientSteps b.significand 115 0 a.significand = res at hsteps
  obtain ⟨hq, hr⟩ := hsteps
  rw [show (0 : BitVec 128).toNat * 2 ^ 115 = 0 by decide, Nat.zero_add] at hq
  have hsticky : (res.2 != 0) = decide (a.significand.toNat * 2 ^ 115 % (2 * b.significand.toNat) ≠
    0) := by
    rw [Bool.eq_iff_iff, bne_iff_ne, decide_eq_true_iff, ne_eq, BitVec.toNat_eq, hr]
    rfl
  have hbpos : (0 : ℚ) < b.significand.toNat := by
    exact_mod_cast (show 0 < b.significand.toNat by omega)
  have hmag : f.magnitude / g.magnitude =
      ((a.significand.toNat * 2 ^ 115 : ℕ) : ℚ) / ((2 * b.significand.toNat : ℕ) : ℚ) *
        2 ^ (a.exponent - b.exponent - 114) := by
    have h1 : (2 : ℚ) ^ (a.exponent - 112) =
        2 ^ (a.exponent - b.exponent - 114) * 2 ^ (b.exponent - 112) * 2 ^ 114 := by
      rw [← Lib.two_zpow_add, ← Lib.two_zpow_add_nat]
      congr 1
      push_cast
      ring
    have hu := Lib.two_zpow_pos (K := ℚ) (b.exponent - 112)
    rw [hf.magnitude, hg.magnitude, h1]
    push_cast
    field_simp
    norm_num
  refine roundPack_rounds (div_pos hf.magnitude_pos hg.magnitude_pos) _ (.inl ⟨?_, fun _ => ?_⟩)
  · unfold Rounding.Tells
    dsimp only
    rw [hq, hsticky, hmag, show a.exponent - b.exponent - 1 - 113 =
      a.exponent - b.exponent - 114 by ring]
    exact Lib.told_div _ (by omega) _
  · dsimp only
    rw [hq, Nat.le_div_iff_mul_le (by omega)]
    omega

/-! ## 5. The operators -/

/-- The sum of two encodings, as IEEE-754 has it. -/
def AddResult (a b r : Float128) : Prop :=
  (a.IsNan ∨ b.IsNan → r = canonicalNan) ∧
  (a.IsInfinite → b.IsInfinite → r = if a.sign = b.sign then a else canonicalNan) ∧
  (a.IsInfinite → b.IsFinite → r = a) ∧ (a.IsFinite → b.IsInfinite → r = b) ∧
  (a.IsFinite → b.IsFinite → (a.val + b.val ≠ 0 → RoundsTo (a.val + b.val) r) ∧
    (a.val + b.val = 0 → r = packZero (a.sign && b.sign)))

/-- The product. -/
def MulResult (a b r : Float128) : Prop :=
  (a.IsNan ∨ b.IsNan → r = canonicalNan) ∧
  ((a.IsInfinite ∧ b.IsZero) ∨ (a.IsZero ∧ b.IsInfinite) → r = canonicalNan) ∧
  ((a.IsInfinite ∧ ¬ b.IsNan ∧ ¬ b.IsZero) ∨ (b.IsInfinite ∧ ¬ a.IsNan ∧ ¬ a.IsZero) →
    r = infinity (a.sign != b.sign)) ∧
  (a.IsFinite → b.IsFinite → (a.val * b.val ≠ 0 → RoundsTo (a.val * b.val) r) ∧
    (a.val * b.val = 0 → r = packZero (a.sign != b.sign)))

/-- The quotient. -/
def DivResult (a b r : Float128) : Prop :=
  (a.IsNan ∨ b.IsNan → r = canonicalNan) ∧
  ((a.IsInfinite ∧ b.IsInfinite) ∨ (a.IsZero ∧ b.IsZero) → r = canonicalNan) ∧
  (a.IsInfinite → b.IsFinite → r = infinity (a.sign != b.sign)) ∧
  (a.IsFinite → b.IsInfinite → r = packZero (a.sign != b.sign)) ∧
  (a.IsFinite → ¬ a.IsZero → b.IsZero → r = infinity (a.sign != b.sign)) ∧
  (a.IsFinite → b.IsFinite → ¬ b.IsZero → (a.val / b.val ≠ 0 → RoundsTo (a.val / b.val) r) ∧
    (a.val / b.val = 0 → r = packZero (a.sign != b.sign)))

-- The classes of the encodings exclude one another, so in each lemma one conjunct is left.

theorem addResult_nan (h : a.IsNan ∨ b.IsNan) : AddResult a b canonicalNan := by
  unfold AddResult
  grind

theorem addResult_finite (ha : a.IsFinite) (hb : b.IsFinite)
    (h : a.val + b.val ≠ 0 → RoundsTo (a.val + b.val) r)
    (h0 : a.val + b.val = 0 → r = packZero (a.sign && b.sign)) : AddResult a b r := by
  unfold AddResult
  grind

theorem addResult_left (ha : a.IsInfinite) (hb : b.IsFinite) : AddResult a b a := by
  unfold AddResult
  grind

theorem addResult_right (ha : a.IsFinite) (hb : b.IsInfinite) : AddResult a b b := by
  unfold AddResult
  grind

theorem operatorAdd_result (a b : Float128) : ∃ r, operatorAdd a b = some r ∧ AddResult a b r := by
  obtain ⟨u, hu, ha⟩ := unpack_class a
  obtain ⟨v, hv, hb⟩ := unpack_class b
  unfold operatorAdd
  rw [hu, hv]
  simp only [Option.bind_eq_bind, Option.bind_some]
  cases ha with
  | nan h => exact ⟨_, by simp, addResult_nan (.inl h)⟩
  | infinite h =>
    cases hb with
    | nan h' => exact ⟨_, by simp, addResult_nan (.inr h')⟩
    | infinite h' =>
      refine ⟨if a.sign = b.sign then a else canonicalNan,
        by by_cases hs : a.sign = b.sign <;> simp [hs], ?_⟩
      unfold AddResult
      grind
    | zero h' => exact ⟨a, by simp, addResult_left h h'.finite⟩
    | parts h' => exact ⟨a, by simp [h'.kind], addResult_left h h'.finite⟩
  | zero h =>
    have hz := h.val_eq
    cases hb with
    | nan h' => exact ⟨_, by simp, addResult_nan (.inr h')⟩
    | infinite h' => exact ⟨b, by simp, addResult_right h.finite h'⟩
    | zero h' =>
      have hsum : a.val + b.val = 0 := by rw [hz, h'.val_eq, add_zero]
      exact ⟨_, by simp, addResult_finite h.finite h'.finite (fun hne => absurd hsum hne)
        fun _ => rfl⟩
    | parts h' =>
      have hsum : a.val + b.val = b.val := by rw [hz, zero_add]
      exact ⟨b, by simp [h'.kind], addResult_finite h.finite h'.finite
        (fun _ => by rw [hsum]; exact h'.roundsTo) fun h0 => absurd (hsum ▸ h0) h'.val_ne_zero⟩
  | parts h =>
    cases hb with
    | nan h' => exact ⟨_, by simp, addResult_nan (.inr h')⟩
    | infinite h' => exact ⟨b, by simp [h.kind], addResult_right h.finite h'⟩
    | zero h' =>
      have hsum : a.val + b.val = a.val := by rw [h'.val_eq, add_zero]
      exact ⟨a, by simp [h.kind], addResult_finite h.finite h'.finite
        (fun _ => by rw [hsum]; exact h.roundsTo) fun h0 => absurd (hsum ▸ h0) h.val_ne_zero⟩
    | parts h' =>
      simp only [h.kind, h'.kind, reduceCtorEq, or_self, and_self, if_false]
      split
      · next hc =>
          rw [BitVec.lt_def] at hc
          obtain ⟨r, hr, h1, h2⟩ := addFinite_rounds h' h (by omega)
          rw [add_comm] at h1 h2
          refine ⟨r, hr, addResult_finite h.finite h'.finite h1 fun h0 => ?_⟩
          obtain ⟨rfl, hs⟩ := h2 h0
          revert hs
          cases a.sign <;> cases b.sign <;> simp
      · next hc =>
          rw [BitVec.lt_def] at hc
          obtain ⟨r, hr, h1, h2⟩ := addFinite_rounds h h' (by omega)
          refine ⟨r, hr, addResult_finite h.finite h'.finite h1 fun h0 => ?_⟩
          obtain ⟨rfl, hs⟩ := h2 h0
          revert hs
          cases a.sign <;> cases b.sign <;> simp

theorem mulResult_nan (h : a.IsNan ∨ b.IsNan) : MulResult a b canonicalNan := by
  unfold MulResult
  grind

theorem mulResult_invalid
    (h : (a.IsInfinite ∧ b.IsZero) ∨ (a.IsZero ∧ b.IsInfinite)) : MulResult a b canonicalNan := by
  unfold MulResult
  grind

theorem mulResult_infinite (hi : a.IsInfinite ∨ b.IsInfinite) (ha : ¬ a.IsNan) (hb : ¬ b.IsNan)
    (ha' : ¬ a.IsZero) (hb' : ¬ b.IsZero) :
    MulResult a b (infinity (a.sign != b.sign)) := by
  unfold MulResult
  grind

theorem mulResult_finite (ha : a.IsFinite) (hb : b.IsFinite)
    (h : a.val * b.val ≠ 0 → RoundsTo (a.val * b.val) r)
    (h0 : a.val * b.val = 0 → r = packZero (a.sign != b.sign)) : MulResult a b r := by
  unfold MulResult
  grind

theorem operatorMul_result (a b : Float128) : ∃ r, operatorMul a b = some r ∧ MulResult a b r := by
  obtain ⟨u, hu, ha⟩ := unpack_class a
  obtain ⟨v, hv, hb⟩ := unpack_class b
  unfold operatorMul
  rw [hu, hv]
  simp only [Option.bind_eq_bind, Option.bind_some]
  cases ha with
  | nan h => exact ⟨_, by simp, mulResult_nan (.inl h)⟩
  | infinite h =>
    cases hb with
    | nan h' => exact ⟨_, by simp, mulResult_nan (.inr h')⟩
    | infinite h' =>
      exact ⟨_, by simp, mulResult_infinite (.inl h) h.not_nan h'.not_nan h.not_zero h'.not_zero⟩
    | zero h' => exact ⟨_, by simp, mulResult_invalid (.inl ⟨h, h'⟩)⟩
    | parts h' =>
      exact ⟨_, by simp [h'.kind, h'.negative],
        mulResult_infinite (.inl h) h.not_nan h'.not_nan h.not_zero h'.not_zero⟩
  | zero h =>
    have hz : a.val * b.val = 0 := by rw [h.val_eq, zero_mul]
    cases hb with
    | nan h' => exact ⟨_, by simp, mulResult_nan (.inr h')⟩
    | infinite h' => exact ⟨_, by simp, mulResult_invalid (.inr ⟨h, h'⟩)⟩
    | zero h' =>
      exact ⟨_, by simp, mulResult_finite h.finite h'.finite (fun hne => absurd hz hne)
        fun _ => rfl⟩
    | parts h' =>
      exact ⟨_, by simp [h'.kind, h'.negative],
        mulResult_finite h.finite h'.finite (fun hne => absurd hz hne) fun _ => rfl⟩
  | parts h =>
    cases hb with
    | nan h' => exact ⟨_, by simp, mulResult_nan (.inr h')⟩
    | infinite h' =>
      exact ⟨_, by simp [h.kind, h.negative],
        mulResult_infinite (.inr h') h.not_nan h'.not_nan h.not_zero h'.not_zero⟩
    | zero h' =>
      have hz : a.val * b.val = 0 := by rw [h'.val_eq, mul_zero]
      exact ⟨_, by simp [h.kind, h.negative],
        mulResult_finite h.finite h'.finite (fun hne => absurd hz hne) fun _ => rfl⟩
    | parts h' =>
      obtain ⟨r, hr, hrounds⟩ := mulFinite_rounds h h'
      refine ⟨r, ?_, mulResult_finite h.finite h'.finite (fun _ => hrounds) fun h0 => ?_⟩
      · simpa [h.kind, h'.kind, h.negative, h'.negative] using hr
      · exact absurd h0 (mul_ne_zero h.val_ne_zero h'.val_ne_zero)

theorem divResult_nan (h : a.IsNan ∨ b.IsNan) : DivResult a b canonicalNan := by
  unfold DivResult
  grind

theorem divResult_invalid
    (h : (a.IsInfinite ∧ b.IsInfinite) ∨ (a.IsZero ∧ b.IsZero)) : DivResult a b canonicalNan := by
  unfold DivResult
  grind

theorem divResult_infinite
    (h : (a.IsInfinite ∧ b.IsFinite) ∨
    (a.IsFinite ∧ ¬ a.IsZero ∧ b.IsZero)) : DivResult a b (infinity (a.sign != b.sign)) := by
  unfold DivResult
  grind

theorem divResult_zero (ha : a.IsFinite) (hb : b.IsInfinite) :
    DivResult a b (packZero (a.sign != b.sign)) := by
  unfold DivResult
  grind

theorem divResult_finite (ha : a.IsFinite) (hb : b.IsFinite) (hz : ¬ b.IsZero)
    (h : a.val / b.val ≠ 0 → RoundsTo (a.val / b.val) r)
    (h0 : a.val / b.val = 0 → r = packZero (a.sign != b.sign)) : DivResult a b r := by
  unfold DivResult
  grind

theorem operatorDiv_result (a b : Float128) : ∃ r, operatorDiv a b = some r ∧ DivResult a b r := by
  obtain ⟨u, hu, ha⟩ := unpack_class a
  obtain ⟨v, hv, hb⟩ := unpack_class b
  unfold operatorDiv
  rw [hu, hv]
  simp only [Option.bind_eq_bind, Option.bind_some]
  cases ha with
  | nan h => exact ⟨_, by simp, divResult_nan (.inl h)⟩
  | infinite h =>
    cases hb with
    | nan h' => exact ⟨_, by simp, divResult_nan (.inr h')⟩
    | infinite h' => exact ⟨_, by simp, divResult_invalid (.inl ⟨h, h'⟩)⟩
    | zero h' => exact ⟨_, by simp, divResult_infinite (.inl ⟨h, h'.finite⟩)⟩
    | parts h' =>
      exact ⟨_, by simp [h'.kind, h'.negative], divResult_infinite (.inl ⟨h, h'.finite⟩)⟩
  | zero h =>
    have hz : a.val / b.val = 0 := by rw [h.val_eq, zero_div]
    cases hb with
    | nan h' => exact ⟨_, by simp, divResult_nan (.inr h')⟩
    | infinite h' => exact ⟨_, by simp, divResult_zero h.finite h'⟩
    | zero h' => exact ⟨_, by simp, divResult_invalid (.inr ⟨h, h'⟩)⟩
    | parts h' =>
      exact ⟨_, by simp [h'.kind, h'.negative], divResult_finite h.finite h'.finite h'.not_zero
        (fun hne => absurd hz hne) fun _ => rfl⟩
  | parts h =>
    cases hb with
    | nan h' => exact ⟨_, by simp, divResult_nan (.inr h')⟩
    | infinite h' => exact ⟨_, by simp [h.kind, h.negative], divResult_zero h.finite h'⟩
    | zero h' =>
      exact ⟨_, by simp [h.kind, h.negative],
        divResult_infinite (.inr ⟨h.finite, h.not_zero, h'⟩)⟩
    | parts h' =>
      obtain ⟨r, hr, hrounds⟩ := divFinite_rounds h h'
      refine ⟨r, ?_, divResult_finite h.finite h'.finite h'.not_zero (fun _ => hrounds)
        fun h0 => ?_⟩
      · simpa [h.kind, h'.kind, h.negative, h'.negative] using hr
      · exact absurd h0 (div_ne_zero h.val_ne_zero h'.val_ne_zero)

/-! ## 6. Subtraction -/

theorem xor_signBit (x : BitVec 64) : (x ^^^ 0x8000000000000000).toNat =
    if 2 ^ 63 ≤ x.toNat then x.toNat - 2 ^ 63 else x.toNat + 2 ^ 63 := by
  have hx := x.isLt
  have hlow : (x ^^^ 0x8000000000000000).toNat % 2 ^ 63 = x.toNat % 2 ^ 63 := by
    rw [BitVec.toNat_xor, Nat.xor_mod_two_pow]
    exact Nat.xor_zero _
  have hhigh : (x ^^^ 0x8000000000000000).toNat / 2 ^ 63 = x.toNat / 2 ^ 63 ^^^ 1 := by
    rw [BitVec.toNat_xor, Nat.xor_div_two_pow]
    rfl
  have hbit : x.toNat / 2 ^ 63 = 0 ∨ x.toNat / 2 ^ 63 = 1 := by omega
  split
  · rw [show x.toNat / 2 ^ 63 = 1 by omega, Nat.xor_self] at hhigh
    omega
  · rw [show x.toNat / 2 ^ 63 = 0 by omega, Nat.zero_xor] at hhigh
    omega

theorem operatorNeg_fields (f : Float128) : (operatorNeg f).sign = !f.sign ∧
    (operatorNeg f).biased = f.biased ∧ (operatorNeg f).fraction = f.fraction := by
  have h := f.hi.isLt
  unfold sign biased fraction operatorNeg
  dsimp only
  rw [xor_signBit]
  split
  · refine ⟨?_, by omega, by omega⟩
    rw [decide_eq_false (by omega), decide_eq_true (by omega), Bool.not_true]
  · refine ⟨?_, by omega, by omega⟩
    rw [decide_eq_true (by omega), decide_eq_false (by omega), Bool.not_false]

theorem operatorNeg_val (f : Float128) : (operatorNeg f).val = -f.val := by
  obtain ⟨h1, h2, h3⟩ := operatorNeg_fields f
  unfold val magnitude
  rw [h1, h2, h3]
  cases f.sign <;> simp

theorem IsInfinite.eq (h : f.IsInfinite) : f = infinity f.sign := by
  obtain ⟨hb, hf⟩ := h
  have hl := f.lo.isLt
  have hh := f.hi.isLt
  have hs : f.sign = decide (2 ^ 63 ≤ f.hi.toNat) := rfl
  unfold biased at hb
  unfold fraction at hf
  have hlo : f.lo = 0 := BitVec.eq_of_toNat_eq (by
    show f.lo.toNat = 0
    omega)
  have hhi : f.hi = signBit f.sign ||| 0x7FFF000000000000 := by
    apply BitVec.eq_of_toNat_eq
    by_cases hc : 2 ^ 63 ≤ f.hi.toNat
    · rw [hs, decide_eq_true hc]
      show f.hi.toNat = 0xFFFF000000000000
      omega
    · rw [hs, decide_eq_false hc]
      show f.hi.toNat = 0x7FFF000000000000
      omega
  exact congrArg₂ Float128.mk hhi hlo

/-- The difference of two encodings. -/
def SubResult (a b r : Float128) : Prop :=
  (a.IsNan ∨ b.IsNan → r = canonicalNan) ∧
  (a.IsInfinite → b.IsInfinite → r = if a.sign = b.sign then canonicalNan else a) ∧
  (a.IsInfinite → b.IsFinite → r = a) ∧
  (a.IsFinite → b.IsInfinite → r = infinity (!b.sign)) ∧
  (a.IsFinite → b.IsFinite → (a.val - b.val ≠ 0 → RoundsTo (a.val - b.val) r) ∧
    (a.val - b.val = 0 → r = packZero (a.sign && !b.sign)))

theorem operatorSub_result (a b : Float128) : ∃ r, operatorSub a b = some r ∧ SubResult a b r := by
  obtain ⟨r, hr, h1, h2, h3, h4, h5⟩ := operatorAdd_result a (operatorNeg b)
  obtain ⟨hs, hb, hf⟩ := operatorNeg_fields b
  have hnan : (operatorNeg b).IsNan ↔ b.IsNan := by unfold IsNan; rw [hb, hf]
  have hinf : (operatorNeg b).IsInfinite ↔ b.IsInfinite := by unfold IsInfinite; rw [hb, hf]
  have hfin : (operatorNeg b).IsFinite ↔ b.IsFinite := by unfold IsFinite; rw [hb]
  rw [hnan] at h1
  rw [hinf, hs] at h2
  rw [hfin] at h3
  rw [hinf] at h4
  rw [hfin, operatorNeg_val, hs, ← sub_eq_add_neg] at h5
  refine ⟨r, hr, h1, fun ha hb => ?_, h3, fun ha hb => ?_, h5⟩
  · rw [h2 ha hb]
    cases a.sign <;> cases b.sign <;> rfl
  · rw [h4 ha hb, (hinf.mpr hb).eq, hs]

/-- **The four operations**: for all encodings no assertion fails, and the result is the one
    that IEEE-754 asks for, rounded to nearest with ties to even. -/
theorem arithmetic_rounds (a b : Float128) :
    (∃ r, operatorAdd a b = some r ∧ AddResult a b r) ∧
    (∃ r, operatorSub a b = some r ∧ SubResult a b r) ∧
    (∃ r, operatorMul a b = some r ∧ MulResult a b r) ∧
    (∃ r, operatorDiv a b = some r ∧ DivResult a b r) :=
  ⟨operatorAdd_result a b, operatorSub_result a b, operatorMul_result a b, operatorDiv_result a b⟩

end Trustme.Numeric.Float128
