/-
  Subject:   `roundPack` rounds to nearest, ties to even, once.

  * `Enough`: what the significand and the sticky bit given to `roundPack` have to tell of the
    exact number: all of it, or its leading 114 digits, or, jammed, an odd number of units that is
    less than a unit away;
  * `normalise_told`, `denormalise_told`: the two shifts keep telling it;
  * `finish_val`: the encoding of a rounded significand, and its overflow;
  * `roundPack_rounds`: no assertion fails and the result is the rounding.
-/
import Trustme.Numeric.Float128Values

namespace Trustme.Numeric.Float128

open Lib (Told Grid halfEven rounded)

/-! ## 1. The shifts -/

theorem toNat_bit {n : Nat} (hn : n < 128) : (1#128 <<< n).toNat = 2 ^ n := by
  rw [BitVec.toNat_shiftLeft, Nat.shiftLeft_eq, BitVec.toNat_ofNat, Nat.one_mod, Nat.one_mul]
  exact Nat.mod_eq_of_lt (Nat.pow_lt_pow_right (by decide) hn)

/-- The digits under a mask. -/
theorem toNat_and_low (v : BitVec 128) {n : Nat} (hn : n < 128) :
    (v &&& (1#128 <<< n - 1)).toNat = v.toNat % 2 ^ n := by
  have hp := Nat.two_pow_pos n
  have hlt : 2 ^ n < 2 ^ 128 := Nat.pow_lt_pow_right (by decide) hn
  have hsub : (1#128 <<< n - 1).toNat = 2 ^ n - 1 := by
    rw [BitVec.toNat_sub, toNat_bit hn]
    simp only [BitVec.ofNat_eq_ofNat, BitVec.toNat_ofNat]
    omega
  rw [BitVec.toNat_and, hsub, Nat.and_two_pow_sub_one_eq_mod]

theorem shiftRightSticky_eq (v : BitVec 128) (n : Nat) (sticky : Bool) :
    (shiftRightSticky v n sticky).1.toNat = v.toNat / 2 ^ n ∧
    (shiftRightSticky v n sticky).2 = (sticky || decide (v.toNat % 2 ^ n ≠ 0)) := by
  have hv := v.isLt
  unfold shiftRightSticky
  by_cases h0 : n = 0
  · simp [h0, Nat.mod_one]
  rw [if_neg h0]
  by_cases h1 : n ≥ 128
  · have hlt : v.toNat < 2 ^ n := Nat.lt_of_lt_of_le hv (Nat.pow_le_pow_right (by decide) h1)
    rw [if_pos h1, Nat.div_eq_of_lt hlt, Nat.mod_eq_of_lt hlt]
    refine ⟨rfl, congrArg (sticky || ·) ?_⟩
    rw [Bool.eq_iff_iff, bne_iff_ne, decide_eq_true_iff, ne_eq, BitVec.toNat_eq]
    rfl
  · have hmask := toNat_and_low v (show n < 128 by omega)
    rw [if_neg h1]
    refine ⟨by rw [BitVec.toNat_ushiftRight, Nat.shiftRight_eq_div_pow],
      congrArg (sticky || ·) ?_⟩
    rw [Bool.eq_iff_iff, bne_iff_ne, decide_eq_true_iff, ne_eq, BitVec.toNat_eq, hmask]
    rfl

/-- A distance that is cut to 128 shifts as much out as the whole one. -/
theorem shift_distance (d : ℤ) (s : BitVec 128) (sticky : Bool) :
    shiftRightSticky s (if d > 128 then 128 else d.toNat) sticky =
      shiftRightSticky s d.toNat sticky := by
  split
  · unfold shiftRightSticky
    rw [if_neg (by omega), if_pos (by omega), if_neg (by omega), if_pos (by omega)]
  · rfl

/-- The significand and the sticky bit tell the number; the last digit weighs
    `2 ^ (exponent - 113)`. -/
def Rounding.Tells (r : Rounding) (y : ℚ) : Prop :=
  Told y r.significand.toNat (r.exponent - 113) r.sticky

/-- They tell enough of it to round it. -/
def Enough (y : ℚ) (r : Rounding) : Prop :=
  (r.Tells y ∧ (r.sticky = true → 2 ^ 113 ≤ r.significand.toNat)) ∨
  (r.sticky = false ∧ 2 ^ 114 ≤ r.significand.toNat ∧ r.significand.toNat % 2 = 1 ∧
    (r.significand.toNat - 1 : ℚ) * 2 ^ (r.exponent - 113) < y ∧
    y < (r.significand.toNat + 1 : ℚ) * 2 ^ (r.exponent - 113))

variable {y : ℚ} {r : Rounding}

theorem Enough.ne_zero (hy : 0 < y) (h : Enough y r) :
    r.significand.toNat ≠ 0 := by
  intro hs
  rcases h with ⟨h1, h2⟩ | ⟨-, h2, -⟩
  · cases hst : r.sticky
    · unfold Rounding.Tells at h1
      rw [hst] at h1
      have h3 : y = r.significand.toNat * 2 ^ (r.exponent - 113) := h1
      rw [hs, Nat.cast_zero, zero_mul] at h3
      exact hy.ne' h3
    · have := h2 hst
      omega
  · omega

theorem normalise_told (hr : r.significand.toNat ≠ 0) (h : Enough y r) :
    (normalise r (r.significand.toNat.log2 + 1)).Tells y ∧
    2 ^ 113 ≤ (normalise r (r.significand.toNat.log2 + 1)).significand.toNat ∧
    (normalise r (r.significand.toNat.log2 + 1)).significand.toNat < 2 ^ 114 := by
  have hlo := Nat.log2_self_le hr
  have hhi := Nat.lt_log2_self (n := r.significand.toNat)
  have hl : r.significand.toNat.log2 < 128 := (Nat.log2_lt hr).mpr r.significand.isLt
  generalize r.significand.toNat.log2 = l at hlo hhi hl
  unfold normalise significandBits
  by_cases h1 : l + 1 > 112 + 2
  · obtain ⟨n, rfl⟩ : ∃ n, l = 113 + (n + 1) := ⟨l - 114, by omega⟩
    rw [if_pos h1]
    dsimp only
    rw [show 113 + (n + 1) + 1 - (112 + 2) = n + 1 by omega]
    obtain ⟨hs, ht⟩ := shiftRightSticky_eq r.significand (n + 1) r.sticky
    have hp : (2 : Nat) ^ (113 + (n + 1)) = 2 ^ 113 * 2 ^ (n + 1) := pow_add ..
    have hp' : (2 : Nat) ^ (113 + (n + 1) + 1) = 2 ^ 114 * 2 ^ (n + 1) := by
      rw [← pow_add]
      congr 1
      omega
    refine ⟨?_, ?_, ?_⟩
    · unfold Rounding.Tells
      dsimp only
      rw [hs, ht]
      rcases h with ⟨h, -⟩ | ⟨hst, -, hodd, hn1, hn2⟩
      · have := h.shiftRight (n + 1)
        rwa [show r.exponent - 113 + ((n + 1 : ℕ) : ℤ) = r.exponent + ((n + 1 : ℕ) : ℤ) - 113
          by ring] at this
      · have hne : r.significand.toNat % 2 ^ (n + 1) ≠ 0 := by
          intro h0
          have : r.significand.toNat % 2 ^ (n + 1) % 2 = r.significand.toNat % 2 :=
            Nat.mod_mod_of_dvd _ (Dvd.intro_left _ rfl)
          omega
        have := (Lib.told_of_near hodd hn1 hn2).shiftRight n
        rw [Nat.div_div_eq_div_mul, ← pow_succ', Bool.true_or] at this
        rw [decide_eq_true hne, Bool.or_true]
        rwa [show r.exponent - 113 + 1 + (n : ℤ) = r.exponent + ((n + 1 : ℕ) : ℤ) - 113
          by push_cast; ring] at this
    · rw [hs, Nat.le_div_iff_mul_le (Nat.two_pow_pos _), ← hp]
      exact hlo
    · rw [hs, Nat.div_lt_iff_lt_mul (Nat.two_pow_pos _), ← hp']
      exact hhi
  rw [if_neg h1]
  have hlt : r.significand.toNat < 2 ^ 114 :=
    Nat.lt_of_lt_of_le hhi (Nat.pow_le_pow_right (by decide) (by omega))
  have htold : r.Tells y ∧ (r.sticky = true → 2 ^ 113 ≤ r.significand.toNat) :=
    h.resolve_right fun h => by omega
  by_cases h2 : l + 1 < 112 + 2
  · rw [if_pos h2]
    dsimp only
    have hp : (2 : Nat) ^ l * 2 ^ (112 + 2 - (l + 1)) = 2 ^ 113 := by
      rw [← pow_add]
      congr 1
      omega
    have hsmall : r.significand.toNat < 2 ^ 113 :=
      Nat.lt_of_lt_of_le hhi (Nat.pow_le_pow_right (by decide) (by omega))
    have hst : r.sticky = false := by
      cases hs : r.sticky
      · rfl
      · have := htold.2 hs
        omega
    have hbound : r.significand.toNat * 2 ^ (112 + 2 - (l + 1)) < 2 ^ 114 := by
      calc r.significand.toNat * 2 ^ (112 + 2 - (l + 1))
          < 2 ^ (l + 1) * 2 ^ (112 + 2 - (l + 1)) :=
            Nat.mul_lt_mul_of_pos_right hhi (Nat.two_pow_pos _)
        _ = 2 ^ 114 := by rw [pow_succ, Nat.mul_right_comm, hp]; rfl
    have hs : (r.significand <<< (112 + 2 - (l + 1))).toNat =
        r.significand.toNat * 2 ^ (112 + 2 - (l + 1)) := by
      rw [BitVec.toNat_shiftLeft, Nat.shiftLeft_eq]
      exact Nat.mod_eq_of_lt (by omega)
    refine ⟨?_, by rw [hs, ← hp]; exact Nat.mul_le_mul_right _ hlo, by rw [hs]; exact hbound⟩
    have ht := htold.1
    unfold Rounding.Tells at ht ⊢
    rw [hst] at ht
    dsimp only
    rw [hs, hst]
    have := ht.shiftLeft (112 + 2 - (l + 1))
    rwa [show r.exponent - 113 - ((112 + 2 - (l + 1) : ℕ) : ℤ) =
      r.exponent - ((112 + 2 - (l + 1) : ℕ) : ℤ) - 113 by ring] at this
  · rw [if_neg h2]
    exact ⟨htold.1, by rwa [show l = 113 by omega] at hlo, hlt⟩

theorem denormalise_told (h : r.Tells y) (hlo : 2 ^ 113 ≤ r.significand.toNat)
    (hhi : r.significand.toNat < 2 ^ 114) :
    (denormalise r).Tells y ∧ (denormalise r).significand.toNat < 2 ^ 114 ∧
    minExponent ≤ (denormalise r).exponent ∧
    ((denormalise r).significand.toNat < 2 ^ 113 → (denormalise r).exponent = minExponent) := by
  unfold denormalise
  by_cases h1 : r.exponent < minExponent
  · obtain ⟨n, hn⟩ : ∃ n : ℕ, minExponent = r.exponent + n :=
      ⟨(minExponent - r.exponent).toNat, by omega⟩
    rw [if_pos h1]
    dsimp only
    rw [shift_distance, show (minExponent - r.exponent).toNat = n by omega]
    obtain ⟨hs, ht⟩ := shiftRightSticky_eq r.significand n r.sticky
    have hle := Nat.div_le_self r.significand.toNat (2 ^ n)
    refine ⟨?_, by rw [hs]; omega, Int.le_refl _, fun _ => rfl⟩
    unfold Rounding.Tells at h ⊢
    dsimp only
    rw [hs, ht, hn]
    have := h.shiftRight n
    rwa [show r.exponent - 113 + (n : ℤ) = r.exponent + n - 113 by ring] at this
  · rw [if_neg h1]
    exact ⟨h, hhi, by omega, fun hc => by omega⟩

/-! ## 2. The last digit -/

theorem and_one_ne_zero {w : Nat} (v : BitVec (w + 1)) :
    (v &&& 1 != 0) = decide (v.toNat % 2 = 1) := by
  have hone : (1 : BitVec (w + 1)).toNat = 1 := Nat.mod_eq_of_lt (Nat.one_lt_two_pow (by omega))
  have hand : (v &&& 1).toNat = v.toNat % 2 := by
    rw [BitVec.toNat_and, hone]
    exact Nat.and_two_pow_sub_one_eq_mod v.toNat 1
  rw [Bool.eq_iff_iff, bne_iff_ne, decide_eq_true_iff, ne_eq, BitVec.toNat_eq, hand]
  show ¬ v.toNat % 2 = (0#(w + 1)).toNat ↔ _
  rw [BitVec.toNat_zero]
  omega

theorem roundLast_toNat (h : r.significand.toNat < 2 ^ 114) :
    (roundLast r).toNat = r.significand.toNat / 2 +
      if r.significand.toNat % 2 = 1 ∧ (r.sticky = true ∨ r.significand.toNat / 2 % 2 = 1)
        then 1 else 0 := by
  have hhalf : (r.significand >>> 1).toNat = r.significand.toNat / 2 := by
    rw [BitVec.toNat_ushiftRight, Nat.shiftRight_eq_div_pow, pow_one]
  unfold roundLast
  simp only [and_one_ne_zero, hhalf, Bool.and_eq_true, Bool.or_eq_true, decide_eq_true_iff]
  split
  · rw [BitVec.toNat_add, hhalf]
    exact Nat.mod_eq_of_lt (show r.significand.toNat / 2 + 1 < 2 ^ 128 by omega)
  · rw [hhalf, Nat.add_zero]

/-- The last step rounds in units of `2 ^ (exponent - 112)`. -/
theorem roundLast_halfEven (h : r.Tells y) (hlt : r.significand.toNat < 2 ^ 114) :
    halfEven (y / 2 ^ (r.exponent - 112)) = (roundLast r).toNat := by
  have := Lib.told_halfEven h
  rw [show r.exponent - 113 + 1 = r.exponent - 112 by ring] at this
  rw [this, roundLast_toNat hlt]
  push_cast
  rfl

/-! ## 3. The encoding of the result -/

theorem packZero_fields (negative : Bool) : (packZero negative).IsFinite ∧
    (packZero negative).sign = negative ∧ (packZero negative).magnitude = 0 ∧
    (packZero negative).fraction = 0 := by
  cases negative
  · exact ⟨by
      unfold IsFinite; decide, rfl, by simp [magnitude, biased, fraction, packZero, signBit], rfl⟩
  · exact ⟨by
      unfold IsFinite; decide, rfl, by simp [magnitude, biased, fraction, packZero, signBit], rfl⟩

/-- A rounded significand is encoded, or is too large for it. -/
theorem finish_val (negative : Bool) {exponent : Int} {s : BitVec 128} (hs : s.toNat ≤ 2 ^ 113)
    (hlo : minExponent ≤ exponent) (hmin : s.toNat < 2 ^ 112 → exponent = minExponent) :
    (exponent < 16383 ∨ (exponent = 16383 ∧ s.toNat < 2 ^ 113) →
      ∃ r, finish negative exponent s = some r ∧ r.IsFinite ∧ r.sign = negative ∧
        r.magnitude = s.toNat * 2 ^ (exponent - 112) ∧ r.fraction % 2 = s.toNat % 2) ∧
    (16383 < exponent ∨ (exponent = 16383 ∧ s.toNat = 2 ^ 113) →
      finish negative exponent s = some (infinity negative)) := by
  have hcarry : (s >>> (significandBits + 1) != 0) = decide (s.toNat = 2 ^ 113) := by
    rw [Bool.eq_iff_iff, bne_iff_ne, decide_eq_true_iff, ne_eq, BitVec.toNat_eq,
      BitVec.toNat_ushiftRight, Nat.shiftRight_eq_div_pow]
    show ¬ s.toNat / 2 ^ 113 = 0 ↔ _
    omega
  have hhalf : (s >>> 1).toNat = s.toNat / 2 := by
    rw [BitVec.toNat_ushiftRight, Nat.shiftRight_eq_div_pow, pow_one]
  unfold finish
  simp only [hcarry]
  by_cases hc : s.toNat = 2 ^ 113
  · have h0 : ¬ s >>> 1 = 0 := by
      rw [BitVec.toNat_eq, hhalf, hc]
      decide
    simp only [hc, decide_true, if_true]
    rw [if_neg h0]
    constructor
    · intro h
      rw [if_neg (by unfold maxExponent; omega)]
      obtain ⟨r, hr, h1, h2, h3, h4⟩ := packFinite_val negative (exponent + 1)
        (s >>> 1) (by omega) (by omega) (by unfold maxExponent; omega) (by omega)
      refine ⟨r, hr, h1, h2, ?_, by omega⟩
      rw [h3, hhalf, hc, show exponent + 1 - 112 = exponent - 112 + 1 by ring,
        zpow_add_one₀ (by norm_num)]
      norm_num
      ring
    · intro h
      rw [if_pos (by unfold maxExponent; omega)]
  · simp only [hc, decide_false, Bool.false_eq_true, if_false, and_false, or_false]
    by_cases h0 : s = 0
    · have hz : s.toNat = 0 := by rw [h0]; rfl
      have he := hmin (by omega)
      unfold minExponent at he
      obtain ⟨h1, h2, h3, h4⟩ := packZero_fields negative
      refine ⟨fun _ => ⟨packZero negative, if_pos h0, h1, h2, ?_, by omega⟩, fun h => by omega⟩
      rw [h3, hz]
      simp
    · rw [if_neg h0]
      constructor
      · intro h
        rw [if_neg (by unfold maxExponent; omega)]
        obtain ⟨r, hr, h1, h2, h3, h4⟩ := packFinite_val negative exponent
          s (by omega) hlo (by unfold maxExponent; omega) hmin
        exact ⟨r, hr, h1, h2, h3, h4⟩
      · intro h
        rw [if_pos (by unfold maxExponent; omega)]

/-! ## 4. The rounding -/

theorem overflowLimit_eq : overflowLimit = ((2 : ℚ) ^ 113 - 1 / 2) * 2 ^ (16271 : ℤ) := by
  have h : (2 : ℚ) ^ 16271 = 2 ^ 16270 * 2 := pow_succ 2 16270
  unfold overflowLimit
  rw [show (16271 : ℤ) = ((16271 : ℕ) : ℤ) by rfl, zpow_natCast, sub_mul, ← pow_add, h,
    one_div_mul_eq_div, mul_div_cancel_right₀ _ (by norm_num)]

/-- The finite encodings are numbers of the format. -/
theorem grid_val (f : Float128) : Grid 113 (-16494) f.val := by
  have hf := f.fraction_lt
  have h1 : Grid 113 (-16494) f.magnitude := by
    unfold magnitude
    by_cases hb : f.biased = 0
    · rw [if_pos hb]
      refine ⟨f.fraction, -16494, Int.le_refl _, ?_, rfl⟩
      rw [abs_of_nonneg (by omega)]
      omega
    · rw [if_neg hb]
      refine ⟨(2 ^ 112 + f.fraction : ℕ), f.biased - 16495, by omega, ?_, rfl⟩
      rw [abs_of_nonneg (by omega)]
      omega
  unfold val
  split
  · obtain ⟨k, q, hq, hk, he⟩ := h1
    exact ⟨-k, q, hq, by rwa [abs_neg], by rw [he]; push_cast; ring⟩
  · exact h1

theorem Grid.neg {p : Nat} {qmin : ℤ} {v : ℚ} (h : Grid p qmin v) : Grid p qmin (-v) := by
  obtain ⟨k, q, hq, hk, he⟩ := h
  exact ⟨-k, q, hq, by rwa [abs_neg], by rw [he]; push_cast; ring⟩

theorem abs_signed (hy : 0 < y) {negative : Bool} : |if negative then -y else y| = y := by
  cases negative
  · exact abs_of_pos hy
  · exact (abs_neg y).trans (abs_of_pos hy)

/-- A finite encoding of the right magnitude is the rounding. -/
theorem roundsTo_of_rounded (hy : 0 < y) {q : ℤ} (hu : Lib.LastUnit 113 (-16494) y q)
    (hlim : y < overflowLimit) {negative : Bool} {r : Float128} (hfin : r.IsFinite)
    (hsign : r.sign = negative) (hmag : r.magnitude = rounded y q)
    (heven : Even (halfEven (y / 2 ^ q)) → r.fraction % 2 = 0) :
    RoundsTo (if negative then -y else y) r := by
  refine ⟨fun h => absurd (abs_signed hy ▸ h) (not_le.mpr hlim),
    fun _ => ⟨hfin, ?_, fun f hf => ?_⟩⟩
  · rw [hsign]
    cases negative
    · exact (decide_eq_false (not_lt.mpr hy.le)).symm
    · exact (decide_eq_true (neg_lt_zero.mpr hy)).symm
  · have hg := grid_val f
    unfold val at hg ⊢
    rw [hsign, hmag]
    cases negative
    · obtain ⟨h1, h2⟩ := Lib.grid_nearest (by decide) hu hg
      exact ⟨h1, fun h => (h2 h).imp id heven⟩
    · obtain ⟨h1, h2⟩ := Lib.grid_nearest (by decide) hu (Grid.neg hg)
      have e (v : ℚ) : |v - -y| = |-v - y| := by
        rw [← abs_neg]
        congr 1
        ring
      simp only [if_true]
      rw [e, e, neg_neg]
      exact ⟨h1, fun h => (h2 h).imp (fun h => by rw [← h, neg_neg]) heven⟩

/-- A rounding that is ready for its last step: 114 digits, or fewer at the smallest exponent. -/
structure Rounding.Ready (r : Rounding) (y : ℚ) : Prop where
  tells : r.Tells y
  lt : r.significand.toNat < 2 ^ 114
  le_exponent : minExponent ≤ r.exponent
  subnormal : r.significand.toNat < 2 ^ 113 → r.exponent = minExponent

section Ready

variable {y : ℚ} {r : Rounding} (h : r.Ready y)

include h

theorem Rounding.Ready.lt_pow : y < 2 ^ (r.exponent + 1) := by
  have h1 := h.tells.lt
  have h2 : (r.significand.toNat : ℚ) + 1 ≤ 2 ^ 114 := by exact_mod_cast h.lt
  have h3 := Lib.two_zpow_pos (K := ℚ) (r.exponent - 113)
  rw [show r.exponent + 1 = r.exponent - 113 + (114 : ℕ) by push_cast; ring, Lib.two_zpow_add_nat]
  nlinarith

theorem Rounding.Ready.pow_le (hc : r.exponent ≠ minExponent) : 2 ^ r.exponent ≤ y := by
  have h1 := h.tells.le
  have h2 : (2 : ℚ) ^ 113 ≤ r.significand.toNat := by
    exact_mod_cast Nat.le_of_not_lt (mt h.subnormal hc)
  have h3 := Lib.two_zpow_pos (K := ℚ) (r.exponent - 113)
  rw [show r.exponent = r.exponent - 113 + (113 : ℕ) by push_cast; ring, Lib.two_zpow_add_nat]
  nlinarith

theorem Rounding.Ready.unit : Lib.LastUnit 113 (-16494) y (r.exponent - 112) := by
  have hmin := h.le_exponent
  have hle := h.pow_le
  unfold minExponent at hmin hle
  refine ⟨by omega, ?_, ?_⟩
  · rw [show r.exponent - 112 + ((113 : ℕ) : ℤ) = r.exponent + 1 by push_cast; ring]
    exact h.lt_pow
  · rw [show r.exponent - 112 + ((113 : ℕ) : ℤ) - 1 = r.exponent by push_cast; ring]
    by_cases hc : r.exponent = -16382
    · exact .inl (by omega)
    · exact .inr (hle hc)

theorem Rounding.Ready.roundLast_le : (roundLast r).toNat ≤ 2 ^ 113 := by
  have h1 := roundLast_toNat h.lt
  have h2 := h.lt
  split at h1 <;> omega

theorem Rounding.Ready.roundLast_subnormal (hc : (roundLast r).toNat < 2 ^ 112) :
    r.exponent = minExponent := by
  have h1 := roundLast_toNat h.lt
  exact h.subnormal (by split at h1 <;> omega)

/-- The number is below the limit of overflow exactly if its rounding fits. -/
theorem Rounding.Ready.lt_overflowLimit_iff : y < overflowLimit ↔
    r.exponent < 16383 ∨ (r.exponent = 16383 ∧ (roundLast r).toNat < 2 ^ 113) := by
  rw [overflowLimit_eq]
  rcases lt_trichotomy r.exponent 16383 with hc | hc | hc
  · refine iff_of_true ?_ (.inl hc)
    refine h.lt_pow.trans_le ((zpow_le_zpow_right₀ (by norm_num)
      (show r.exponent + 1 ≤ 16271 + ((112 : ℕ) : ℤ) by push_cast; omega)).trans ?_)
    rw [Lib.two_zpow_add_nat, mul_comm]
    exact mul_le_mul_of_nonneg_right (by norm_num) (Lib.two_zpow_pos _).le
  · have hodd : Odd ((2 : ℤ) ^ 113 - 1) := by decide
    have h1 := Lib.lt_halfEven_iff (x := y / 2 ^ (r.exponent - 112)) hodd
    rw [roundLast_halfEven h.tells h.lt, le_div_iff₀ (Lib.two_zpow_pos _), hc,
      show ((2 ^ 113 - 1 : ℤ) : ℚ) + 1 / 2 = 2 ^ 113 - 1 / 2 by norm_num,
      show (16383 - 112 : ℤ) = 16271 by rfl] at h1
    rw [← not_le, ← h1]
    omega
  · refine iff_of_false (not_lt.mpr ?_) (by omega)
    refine le_trans ?_ (h.pow_le (by unfold minExponent; omega))
    refine le_trans ?_ (zpow_le_zpow_right₀ (by norm_num)
      (show 16271 + ((113 : ℕ) : ℤ) ≤ r.exponent by push_cast; omega))
    rw [Lib.two_zpow_add_nat, mul_comm]
    exact mul_le_mul_of_nonneg_left (by norm_num) (Lib.two_zpow_pos _).le

end Ready

/-- The encoding of a rounding that is ready. -/
theorem finish_rounds (hy : 0 < y) (negative : Bool) (h : r.Ready y) :
    ∃ f, finish negative r.exponent (roundLast r) = some f ∧
      RoundsTo (if negative then -y else y) f := by
  have hround := roundLast_halfEven h.tells h.lt
  have hle := h.roundLast_le
  obtain ⟨hfin, hinf⟩ := finish_val negative hle h.le_exponent h.roundLast_subnormal
  by_cases hc : y < overflowLimit
  · obtain ⟨f, hf, h1, h2, h3, h4⟩ := hfin (h.lt_overflowLimit_iff.mp hc)
    refine ⟨f, hf, roundsTo_of_rounded hy h.unit hc h1 h2 ?_ fun heven => ?_⟩
    · rw [h3, rounded, hround]
      rfl
    · rw [hround, Int.even_iff] at heven
      omega
  · have hover := mt h.lt_overflowLimit_iff.mpr hc
    refine ⟨_, hinf (by omega), ?_, ?_⟩
    · intro _
      congr 1
      cases negative
      · exact (decide_eq_false (not_lt.mpr hy.le)).symm
      · exact (decide_eq_true (neg_lt_zero.mpr hy)).symm
    · intro hlt
      rw [abs_signed hy] at hlt
      exact absurd hlt hc

/-- **`roundPack` rounds**: no assertion fails, and the result is the rounding of the number
    that the significand and the sticky bit tell. -/
theorem roundPack_rounds (hy : 0 < y) (negative : Bool) {exponent : Int} {s : BitVec 128}
    {sticky : Bool} (h : Enough y ⟨s, exponent, sticky⟩) :
    ∃ r, roundPack negative exponent s sticky = some r ∧
      RoundsTo (if negative then -y else y) r := by
  have hs := h.ne_zero hy
  have hs' : s ≠ 0 := fun h0 => hs (by rw [h0]; rfl)
  obtain ⟨t1, lo1, hi1⟩ := normalise_told (r := ⟨s, exponent, sticky⟩) hs h
  obtain ⟨t2, hi2, hmin, hsub⟩ := denormalise_told t1 lo1 hi1
  unfold roundPack
  rw [if_neg hs', bitLength128_eq hs']
  exact finish_rounds hy negative ⟨t2, hi2, hmin, hsub⟩

end Trustme.Numeric.Float128
