/-
  Subject:   Binary interchange formats of any width: the number that a pattern stands for, and
             the pattern that a number is rounded to.

  * `Format`: how many bits the fraction and the exponent have;
  * `biased`, `fraction`, `val`: the fields of a pattern and its number;
  * `RoundsTo`: a pattern is the rounding of a number to nearest, ties to even;
  * `pattern_rounds`: an exponent and a rounded significand, added, are that pattern: the carry
    out of the significand runs into the exponent and, at the largest one, to infinity;
  * `small_rounds`, `infinity_rounds`: the numbers below the normal ones, and above the finite;
  * `RoundsTo.eq`: what a finite pattern stands for is rounded to that pattern only.
-/
import Mathlib.Data.Rat.Floor
import Trustme.Lib.NearestEven

namespace Trustme.Lib

/-- A binary format; the significand has one digit more than the fraction. -/
structure Format where
  fractionBits : Nat
  exponentBits : Nat
  fractionBits_pos : 0 < fractionBits
  exponentBits_pos : 1 < exponentBits

namespace Format

variable (F : Format)

/-! ## 1. Patterns and their numbers -/

/-- The largest exponent, and what is added to an exponent in a pattern. -/
def bias : Nat := 2 ^ (F.exponentBits - 1) - 1

def biased (r : Nat) : Nat := r / 2 ^ F.fractionBits % 2 ^ F.exponentBits

def fraction (r : Nat) : Nat := r % 2 ^ F.fractionBits

def negative (r : Nat) : Bool := decide (2 ^ (F.fractionBits + F.exponentBits) ≤ r)

def IsFinite (r : Nat) : Prop := F.biased r < 2 ^ F.exponentBits - 1

/-- The pattern of positive infinity. -/
def infinity : Nat := (2 ^ F.exponentBits - 1) * 2 ^ F.fractionBits

/-- The weight of the last digit of the smallest numbers. -/
def minUnit : ℤ := 1 - F.bias - F.fractionBits

def magnitude (r : Nat) : ℚ :=
  if F.biased r = 0 then F.fraction r * 2 ^ F.minUnit
  else (2 ^ F.fractionBits + F.fraction r : ℕ) * 2 ^ (F.biased r - 1 + F.minUnit)

/-- The number that a finite pattern stands for. -/
def val (r : Nat) : ℚ := if F.negative r then -F.magnitude r else F.magnitude r

/-- From this number on the rounding is infinity: half a unit above the largest finite one. -/
def overflowLimit : ℚ := 2 ^ (F.bias + 1 : ℤ) - 2 ^ (F.bias - F.fractionBits - 1 : ℤ)

/-- **Rounding to nearest, ties to even**, of a number that is not negative. -/
def RoundsTo (x : ℚ) (r : Nat) : Prop :=
  (F.overflowLimit ≤ x → r = F.infinity) ∧
  (x < F.overflowLimit → F.IsFinite r ∧ F.negative r = false ∧ ∀ f : Nat, F.IsFinite f →
    |F.val r - x| ≤ |F.val f - x| ∧
      (|F.val f - x| = |F.val r - x| → F.val f = F.val r ∨ F.fraction r % 2 = 0))

theorem two_pow_exponentBits : 2 ^ F.exponentBits = 2 * F.bias + 2 := by
  have h := F.exponentBits_pos
  have hp : 2 ^ F.exponentBits = 2 ^ (F.exponentBits - 1) * 2 := by
    rw [← pow_succ]
    congr 1
    omega
  have h0 := Nat.two_pow_pos (F.exponentBits - 1)
  unfold bias
  omega

variable {x : ℚ} {r m : Nat}

/-- A rounding fits the two fields below the sign. -/
theorem RoundsTo.lt {F : Format} (h : F.RoundsTo x r) :
    r < 2 ^ (F.fractionBits + F.exponentBits) := by
  rcases le_or_gt F.overflowLimit x with hx | hx
  · have hp : 2 ^ F.exponentBits - 1 < 2 ^ F.exponentBits :=
      Nat.sub_lt (Nat.two_pow_pos _) Nat.one_pos
    rw [h.1 hx, infinity, pow_add, Nat.mul_comm]
    exact Nat.mul_lt_mul_of_pos_left hp (Nat.two_pow_pos _)
  · exact not_le.mp (of_decide_eq_false (h.2 hx).2.1)

theorem fraction_lt (r : Nat) : F.fraction r < 2 ^ F.fractionBits :=
  Nat.mod_lt _ (Nat.two_pow_pos _)

/-- The finite patterns stand for numbers of the grid. -/
theorem grid_val (r : Nat) : Grid (F.fractionBits + 1) F.minUnit (F.val r) := by
  have hf := F.fraction_lt r
  have hp : 2 ^ (F.fractionBits + 1) = 2 ^ F.fractionBits * 2 := pow_succ ..
  have hgrid : Grid (F.fractionBits + 1) F.minUnit (F.magnitude r) := by
    unfold magnitude
    split
    · refine ⟨F.fraction r, F.minUnit, Int.le_refl _, ?_, rfl⟩
      rw [abs_of_nonneg (by omega)]
      exact_mod_cast (show F.fraction r < 2 ^ (F.fractionBits + 1) by omega)
    · refine ⟨(2 ^ F.fractionBits + F.fraction r : ℕ),
        F.biased r - 1 + F.minUnit, by omega, ?_, rfl⟩
      rw [abs_of_nonneg (by omega)]
      exact_mod_cast (show 2 ^ F.fractionBits + F.fraction r < 2 ^ (F.fractionBits + 1) by omega)
  unfold val
  split
  · obtain ⟨k, q, hq, hk, he⟩ := hgrid
    exact ⟨-k, q, hq, by rwa [abs_neg], by rw [he]; push_cast; ring⟩
  · exact hgrid

/-! ## 2. Patterns put together -/

/-- The fields of an exponent and a fraction that are added. -/
theorem fields {b m : Nat} (hb : b < 2 ^ F.exponentBits) (hm : m < 2 ^ F.fractionBits) :
    F.biased (b * 2 ^ F.fractionBits + m) = b ∧ F.fraction (b * 2 ^ F.fractionBits + m) = m ∧
      F.negative (b * 2 ^ F.fractionBits + m) = false := by
  have hp := Nat.two_pow_pos F.fractionBits
  have hdiv : (b * 2 ^ F.fractionBits + m) / 2 ^ F.fractionBits = b := by
    rw [Nat.add_comm, Nat.add_mul_div_right _ _ hp, Nat.div_eq_of_lt hm, Nat.zero_add]
  unfold biased fraction negative
  refine ⟨by rw [hdiv, Nat.mod_eq_of_lt hb], ?_, decide_eq_false ?_⟩
  · rw [Nat.add_comm, Nat.add_mul_mod_self_right, Nat.mod_eq_of_lt hm]
  · rw [not_le, pow_add, Nat.mul_comm (2 ^ F.fractionBits)]
    calc b * 2 ^ F.fractionBits + m < b * 2 ^ F.fractionBits + 2 ^ F.fractionBits := by omega
      _ = (b + 1) * 2 ^ F.fractionBits := by ring
      _ ≤ 2 ^ F.exponentBits * 2 ^ F.fractionBits := Nat.mul_le_mul_right _ hb

/-- A finite pattern, its number and its parity from the exponent and the significand. -/
theorem normal {b : Nat} (hb : b + 1 < 2 ^ F.exponentBits - 1) (hlo : 2 ^ F.fractionBits ≤ m)
    (hhi : m < 2 ^ (F.fractionBits + 1)) :
    F.IsFinite (b * 2 ^ F.fractionBits + m) ∧ F.negative (b * 2 ^ F.fractionBits + m) = false ∧
      F.val (b * 2 ^ F.fractionBits + m) = m * 2 ^ (b + F.minUnit : ℤ) ∧
      F.fraction (b * 2 ^ F.fractionBits + m) % 2 = m % 2 := by
  rw [pow_succ] at hhi
  obtain ⟨d, rfl⟩ : ∃ d, m = 2 ^ F.fractionBits + d := ⟨m - 2 ^ F.fractionBits, by omega⟩
  have heven : 2 ^ F.fractionBits % 2 = 0 := by
    obtain ⟨n, hn⟩ : ∃ n, F.fractionBits = n + 1 :=
      ⟨F.fractionBits - 1, by have := F.fractionBits_pos; omega⟩
    rw [hn, pow_succ, Nat.mul_mod_left]
  have he : b * 2 ^ F.fractionBits + (2 ^ F.fractionBits + d) =
      (b + 1) * 2 ^ F.fractionBits + d := by ring
  obtain ⟨h1, h2, h3⟩ := F.fields (b := b + 1) (m := d) (by omega) (by omega)
  rw [he]
  refine ⟨by unfold IsFinite; omega, h3, ?_, by omega⟩
  unfold val magnitude
  rw [h3, h1, h2, if_neg Bool.false_ne_true, if_neg (Nat.succ_ne_zero b)]
  congr 2
  push_cast
  ring

/-! ## 3. The rounding -/

theorem halfEven_le_pow {q : ℤ} {f : Nat} (hhi : x < 2 ^ f * 2 ^ q) :
    halfEven (x / 2 ^ q) ≤ 2 ^ f := by
  have h : x / 2 ^ q < 2 ^ f := (div_lt_iff₀ (two_zpow_pos q)).mpr hhi
  exact halfEven_le (by exact_mod_cast h.le)

/-- The rounded significand of a number between two powers of two. -/
theorem halfEven_mem {q : ℤ} {f : Nat} (hlo : 2 ^ f * 2 ^ q ≤ x) (hhi : x < 2 ^ (f + 1) * 2 ^ q) :
    (2 : ℤ) ^ f ≤ halfEven (x / 2 ^ q) ∧ halfEven (x / 2 ^ q) ≤ 2 ^ (f + 1) := by
  have h : (2 : ℚ) ^ f ≤ x / 2 ^ q := (le_div_iff₀ (two_zpow_pos q)).mpr hlo
  exact ⟨le_halfEven (by exact_mod_cast h), halfEven_le_pow hhi⟩

theorem overflowLimit_eq : F.overflowLimit =
    ((2 : ℚ) ^ (F.fractionBits + 1) - 1 / 2) * 2 ^ (F.bias - F.fractionBits : ℤ) := by
  have h1 : (2 : ℚ) ^ (F.bias + 1 : ℤ) =
      2 ^ (F.bias - F.fractionBits : ℤ) * 2 ^ (F.fractionBits + 1) := by
    rw [← two_zpow_add_nat]
    congr 1
    push_cast
    ring
  have h2 : (2 : ℚ) ^ (F.bias - F.fractionBits : ℤ) =
      2 ^ (F.bias - F.fractionBits - 1 : ℤ) * 2 := by
    rw [← zpow_add_one₀ (by norm_num)]
    congr 1
    ring
  unfold overflowLimit
  rw [h1, h2]
  ring

/-- The largest exponent's numbers overflow exactly where their significand does. -/
theorem overflowLimit_le_iff (x : ℚ) : F.overflowLimit ≤ x ↔
    (2 : ℤ) ^ (F.fractionBits + 1) - 1 < halfEven (x / 2 ^ (F.bias - F.fractionBits : ℤ)) := by
  have hodd : Odd ((2 : ℤ) ^ (F.fractionBits + 1) - 1) :=
    Even.sub_odd (Even.pow_of_ne_zero even_two (Nat.succ_ne_zero _)) odd_one
  rw [lt_halfEven_iff hodd, le_div_iff₀ (two_zpow_pos _), overflowLimit_eq]
  push_cast
  rw [show (2 : ℚ) ^ (F.fractionBits + 1) - 1 + 1 / 2 = 2 ^ (F.fractionBits + 1) - 1 / 2 by ring]

/-- A number of a smaller exponent is below the limit. -/
theorem lt_overflowLimit {q : ℤ} (hq : q < F.bias - F.fractionBits)
    (hhi : x < 2 ^ (F.fractionBits + 1) * 2 ^ q) : x < F.overflowLimit := by
  have hp := two_zpow_pos (K := ℚ) q
  have h1 : (1 : ℚ) ≤ 2 ^ F.fractionBits := one_le_pow₀ (by norm_num)
  have h2 : (2 : ℚ) ^ q * 2 ≤ 2 ^ (F.bias - F.fractionBits : ℤ) := by
    rw [← zpow_add_one₀ (by norm_num)]
    exact zpow_le_zpow_right₀ (by norm_num) (by omega)
  have h3 : (2 : ℚ) ^ (F.fractionBits + 1) = 2 ^ F.fractionBits * 2 := pow_succ ..
  rw [h3] at hhi
  rw [overflowLimit_eq, h3]
  refine hhi.trans_le ?_
  calc (2 : ℚ) ^ F.fractionBits * 2 * 2 ^ q = 2 ^ F.fractionBits * (2 ^ q * 2) := by ring
    _ ≤ 2 ^ F.fractionBits * 2 ^ (F.bias - F.fractionBits : ℤ) :=
      mul_le_mul_of_nonneg_left h2 (by linarith)
    _ ≤ _ := mul_le_mul_of_nonneg_right (by linarith) (two_zpow_pos _).le

/-- **The pattern of a rounding**: the exponent below the number's own and the rounded
    significand, added. -/
theorem pattern_rounds {b : Nat} (hb : b < 2 * F.bias)
    (hlo : 2 ^ F.fractionBits * 2 ^ (b + F.minUnit : ℤ) ≤ x)
    (hhi : x < 2 ^ (F.fractionBits + 1) * 2 ^ (b + F.minUnit : ℤ))
    (hm : (m : ℤ) = halfEven (x / 2 ^ (b + F.minUnit : ℤ))) :
    F.RoundsTo x (b * 2 ^ F.fractionBits + m) := by
  have hbits := F.two_pow_exponentBits
  have hpow : (2 : Nat) ^ (F.fractionBits + 1) = 2 ^ F.fractionBits * 2 := pow_succ ..
  obtain ⟨hm1, hm2⟩ := halfEven_mem hlo hhi
  rw [← hm] at hm1 hm2
  have hm1 : 2 ^ F.fractionBits ≤ m := by exact_mod_cast hm1
  have hm2 : m ≤ 2 ^ (F.fractionBits + 1) := by exact_mod_cast hm2
  have hunit : LastUnit (F.fractionBits + 1) F.minUnit x (b + F.minUnit) := by
    refine ⟨by omega, ?_, .inr ?_⟩
    · rw [two_zpow_add_nat, mul_comm]
      exact hhi
    · rw [show (b + F.minUnit + (F.fractionBits + 1 : ℕ) - 1 : ℤ) = b + F.minUnit +
        F.fractionBits by
        push_cast; ring, two_zpow_add_nat, mul_comm]
      exact hlo
  -- the value and the parity of a finite result are those of the rounding in units
  have hnear {r : Nat} (hfin : F.IsFinite r) (hneg : F.negative r = false)
      (hval : F.val r = m * 2 ^ (b + F.minUnit : ℤ)) (hpar : m % 2 = 0 → F.fraction r % 2 = 0) :
      F.IsFinite r ∧ F.negative r = false ∧ ∀ f : Nat, F.IsFinite f →
        |F.val r - x| ≤ |F.val f - x| ∧
          (|F.val f - x| = |F.val r - x| → F.val f = F.val r ∨ F.fraction r % 2 = 0) := by
    refine ⟨hfin, hneg, fun f _ => ?_⟩
    have hr : F.val r = rounded x (b + F.minUnit) := by
      rw [hval, rounded, ← hm]
      rfl
    obtain ⟨h1, h2⟩ := grid_nearest (Nat.succ_pos _) hunit (F.grid_val f)
    rw [hr]
    refine ⟨h1, fun h => (h2 h).imp id fun heven => hpar ?_⟩
    rw [← hm, Int.even_iff] at heven
    omega
  by_cases hc : m = 2 ^ (F.fractionBits + 1)
  · -- the significand carries into the exponent
    have he : b * 2 ^ F.fractionBits + m = (b + 2) * 2 ^ F.fractionBits + 0 := by
      rw [hc, hpow]
      ring
    by_cases hlast : b + 1 = 2 * F.bias
    · have hq : (b + F.minUnit : ℤ) = F.bias - F.fractionBits := by
        unfold minUnit
        omega
      have hover : F.overflowLimit ≤ x := by
        rw [F.overflowLimit_le_iff, ← hq, ← hm, hc]
        push_cast
        omega
      refine ⟨fun _ => ?_, fun hlt => absurd hover (not_le.mpr hlt)⟩
      unfold infinity
      rw [he, Nat.add_zero]
      congr 1
      omega
    · obtain ⟨h1, h2, h3⟩ := F.fields (b := b + 2) (m := 0) (by omega) (Nat.two_pow_pos _)
      have hbelow : x < F.overflowLimit := F.lt_overflowLimit (by unfold minUnit; omega) hhi
      refine ⟨fun hle => absurd hle (not_le.mpr hbelow), fun _ => ?_⟩
      rw [he]
      refine hnear (by unfold IsFinite; omega) h3 ?_ fun _ => by rw [h2]
      unfold val magnitude
      rw [h3, h1, h2, if_neg Bool.false_ne_true, if_neg (by omega), hc, Nat.add_zero, hpow]
      rw [show ((b + 2 : ℕ) - 1 + F.minUnit : ℤ) = b + F.minUnit + 1 by push_cast; ring,
        two_zpow_add, zpow_one]
      push_cast
      ring
  · have hm3 : m < 2 ^ (F.fractionBits + 1) := lt_of_le_of_ne hm2 hc
    obtain ⟨h1, h2, h3, h4⟩ := F.normal (b := b) (by omega) hm1 hm3
    have hbelow : x < F.overflowLimit := by
      by_cases hlast : b + 1 = 2 * F.bias
      · have hq : (b + F.minUnit : ℤ) = F.bias - F.fractionBits := by
          unfold minUnit
          omega
        rw [← not_le, F.overflowLimit_le_iff, ← hq, ← hm]
        have hm3 : (m : ℤ) < 2 ^ (F.fractionBits + 1) := by exact_mod_cast hm3
        omega
      · exact F.lt_overflowLimit (by unfold minUnit; omega) hhi
    exact ⟨fun hle => absurd hle (not_le.mpr hbelow), fun _ =>
      hnear h1 h2 h3 fun hpar => by rw [h4, hpar]⟩

/-! ## 4. Small and large numbers, and patterns of their own numbers -/

theorem one_le_bias : 1 ≤ F.bias := by
  have h := F.exponentBits_pos
  have hp : 2 ^ 1 ≤ 2 ^ (F.exponentBits - 1) := Nat.pow_le_pow_right (by decide) (by omega)
  unfold bias
  omega

theorem even_two_pow : 2 ^ F.fractionBits % 2 = 0 := by
  obtain ⟨n, hn⟩ : ∃ n, F.fractionBits = n + 1 :=
    ⟨F.fractionBits - 1, by have := F.fractionBits_pos; omega⟩
  rw [hn, pow_succ, Nat.mul_mod_left]

theorem overflowLimit_lt : F.overflowLimit < 2 ^ (F.bias + 1 : ℤ) :=
  sub_lt_self _ (two_zpow_pos _)

theorem infinity_rounds (h : F.overflowLimit ≤ x) : F.RoundsTo x F.infinity :=
  ⟨fun _ => rfl, fun hlt => absurd h (not_le.mpr hlt)⟩

/-- A number of units of the smallest exponent, up to the first normal number. -/
theorem small (hm : m ≤ 2 ^ F.fractionBits) : F.IsFinite m ∧ F.negative m = false ∧
    F.val m = m * 2 ^ F.minUnit ∧ F.fraction m % 2 = m % 2 := by
  have hbits := F.two_pow_exponentBits
  have hbias := F.one_le_bias
  rcases Nat.lt_or_ge m (2 ^ F.fractionBits) with hlt | hge
  · obtain ⟨h1, h2, h3⟩ := F.fields (b := 0) (Nat.two_pow_pos _) hlt
    rw [Nat.zero_mul, Nat.zero_add] at h1 h2 h3
    refine ⟨by unfold IsFinite; omega, h3, ?_, by rw [h2]⟩
    unfold val magnitude
    rw [h3, h1, h2, if_neg Bool.false_ne_true, if_pos rfl]
  · obtain ⟨h1, h2, h3⟩ := F.fields (b := 1) (m := 0) (by omega) (Nat.two_pow_pos _)
    rw [Nat.one_mul, Nat.add_zero] at h1 h2 h3
    obtain rfl : m = 2 ^ F.fractionBits := Nat.le_antisymm hm hge
    refine ⟨by unfold IsFinite; omega, h3, ?_, by rw [h2, F.even_two_pow]⟩
    unfold val magnitude
    rw [h3, h1, h2, if_neg Bool.false_ne_true, if_neg (by decide), Nat.add_zero]
    congr 2
    push_cast
    ring

/-- **The pattern of a small rounding**: the number of units. -/
theorem small_rounds (hx : 0 ≤ x) (hhi : x < 2 ^ F.fractionBits * 2 ^ F.minUnit)
    (hm : (m : ℤ) = halfEven (x / 2 ^ F.minUnit)) : F.RoundsTo x m := by
  have hp := two_zpow_pos (K := ℚ) F.minUnit
  have hpow : (2 : ℚ) ^ (F.fractionBits + 1) = 2 ^ F.fractionBits * 2 := pow_succ ..
  have hle : m ≤ 2 ^ F.fractionBits := by exact_mod_cast hm ▸ halfEven_le_pow hhi
  have hunit : LastUnit (F.fractionBits + 1) F.minUnit x F.minUnit := by
    refine ⟨Int.le_refl _, ?_, .inl rfl⟩
    rw [two_zpow_add_nat, mul_comm, hpow]
    have h1 : (0 : ℚ) < 2 ^ F.fractionBits := by positivity
    nlinarith
  have hbelow : x < F.overflowLimit := by
    refine F.lt_overflowLimit (q := F.minUnit) (by have := F.one_le_bias; unfold minUnit; omega) ?_
    rw [hpow]
    have h1 : (0 : ℚ) < 2 ^ F.fractionBits := by positivity
    nlinarith
  obtain ⟨hfin, hneg, hval, hpar⟩ := F.small hle
  have hr : F.val m = rounded x F.minUnit := by
    rw [hval, rounded, ← hm]
    rfl
  refine ⟨fun h => absurd hbelow (not_lt.mpr h), fun _ => ⟨hfin, hneg, fun f _ => ?_⟩⟩
  obtain ⟨h1, h2⟩ := grid_nearest (Nat.succ_pos _) hunit (F.grid_val f)
  rw [hr]
  refine ⟨h1, fun h => (h2 h).imp id fun heven => ?_⟩
  rw [← hm, Int.even_iff] at heven
  omega

/-- Zero is its own rounding. -/
theorem zero_roundsTo : F.RoundsTo 0 0 := by
  refine F.small_rounds (le_refl _) (mul_pos (by positivity) (two_zpow_pos _)) ?_
  rw [zero_div]
  simp [halfEven]

/-- The next pattern stands for a larger number. -/
theorem magnitude_lt_succ (hr : r + 1 < 2 ^ (F.fractionBits + F.exponentBits)) :
    F.magnitude r < F.magnitude (r + 1) := by
  have hp := Nat.two_pow_pos F.fractionBits
  obtain ⟨b, m, hm, rfl⟩ : ∃ b m, m < 2 ^ F.fractionBits ∧ r = b * 2 ^ F.fractionBits + m :=
    ⟨r / 2 ^ F.fractionBits, r % 2 ^ F.fractionBits, Nat.mod_lt _ hp, (Nat.div_add_mod' r _).symm⟩
  rw [pow_add, Nat.mul_comm (2 ^ F.fractionBits)] at hr
  have hb : b < 2 ^ F.exponentBits :=
    Nat.lt_of_mul_lt_mul_right (a := 2 ^ F.fractionBits) (by omega)
  have hunit := two_zpow_pos (K := ℚ) F.minUnit
  have hunits := two_zpow_pos (K := ℚ) (b - 1 + F.minUnit)
  obtain ⟨h1, h2, -⟩ := F.fields hb hm
  rcases Nat.lt_or_ge (m + 1) (2 ^ F.fractionBits) with hlt | hge
  · obtain ⟨h3, h4, -⟩ := F.fields hb hlt
    unfold magnitude
    rw [Nat.add_assoc, h1, h2, h3, h4]
    split_ifs
    · push_cast
      linarith
    · push_cast
      linarith
  · obtain rfl : m = 2 ^ F.fractionBits - 1 := by omega
    have hcarry : b * 2 ^ F.fractionBits + (2 ^ F.fractionBits - 1) + 1 =
        (b + 1) * 2 ^ F.fractionBits + 0 := by
      rw [Nat.add_assoc, Nat.sub_add_cancel hp]
      ring
    have hb' : b + 1 < 2 ^ F.exponentBits := by
      rw [hcarry, Nat.add_zero] at hr
      exact Nat.lt_of_mul_lt_mul_right hr
    obtain ⟨h3, h4, -⟩ := F.fields hb' hp
    have hsub : ((2 ^ F.fractionBits - 1 : ℕ) : ℚ) = 2 ^ F.fractionBits - 1 := by
      rw [Nat.cast_sub hp]
      push_cast
      rfl
    unfold magnitude
    rw [hcarry, h1, h2, h3, h4, if_neg (Nat.succ_ne_zero b)]
    split_ifs with hzero
    · rw [hzero, hsub]
      push_cast
      rw [zero_add]
      linarith
    · rw [show ((b + 1 : ℕ) : ℤ) - 1 + F.minUnit = b - 1 + F.minUnit + 1 by push_cast; ring,
        zpow_add_one₀ (by norm_num)]
      push_cast
      rw [hsub]
      nlinarith

theorem magnitude_lt {s : Nat} (hrs : r < s) (hs : s < 2 ^ (F.fractionBits + F.exponentBits)) :
    F.magnitude r < F.magnitude s := by
  induction s with
  | zero => exact absurd hrs (Nat.not_lt_zero r)
  | succ s ih =>
    rcases Nat.lt_or_eq_of_le (Nat.le_of_lt_succ hrs) with hlt | rfl
    · exact (ih hlt (Nat.lt_of_succ_lt hs)).trans (F.magnitude_lt_succ hs)
    · exact F.magnitude_lt_succ hs

/-- What a finite pattern stands for is rounded to that pattern only. -/
theorem RoundsTo.eq {F : Format} {s : Nat} (hs : s < 2 ^ (F.fractionBits + F.exponentBits))
    (hfin : F.IsFinite s) (hlimit : F.magnitude s < F.overflowLimit)
    (h : F.RoundsTo (F.magnitude s) r) : r = s := by
  obtain ⟨-, hneg, hnear⟩ := h.2 hlimit
  have hval : F.val s = F.magnitude s := by
    unfold val
    rw [show F.negative s = false from decide_eq_false (not_le.mpr hs), if_neg Bool.false_ne_true]
  have hsame := (hnear s hfin).1
  rw [hval, sub_self, abs_zero, abs_nonpos_iff, sub_eq_zero] at hsame
  unfold val at hsame
  rw [hneg, if_neg Bool.false_ne_true] at hsame
  have hr := h.lt
  rcases Nat.lt_trichotomy r s with hlt | heq | hgt
  · exact absurd hsame (F.magnitude_lt hlt hs).ne
  · exact heq
  · exact absurd hsame (F.magnitude_lt hgt hr).ne'

/-- A finite pattern is below the limit. -/
theorem magnitude_lt_limit (hfin : F.IsFinite r) : F.magnitude r < F.overflowLimit := by
  have hbits := F.two_pow_exponentBits
  have hbias := F.one_le_bias
  have hf : (F.fraction r : ℚ) + 1 ≤ 2 ^ F.fractionBits := by exact_mod_cast F.fraction_lt r
  have hpow : (2 : ℚ) ^ (F.fractionBits + 1) = 2 ^ F.fractionBits * 2 := pow_succ ..
  unfold IsFinite at hfin
  unfold magnitude
  split_ifs with hzero
  · have hp := two_zpow_pos (K := ℚ) F.minUnit
    refine F.lt_overflowLimit (q := F.minUnit) (by unfold minUnit; omega) ?_
    rw [hpow]
    nlinarith
  · have hp := two_zpow_pos (K := ℚ) (F.biased r - 1 + F.minUnit)
    push_cast
    by_cases hlast : F.biased r = 2 * F.bias
    · have hq : (F.biased r - 1 + F.minUnit : ℤ) = F.bias - F.fractionBits := by
        unfold minUnit
        omega
      rw [hq] at hp ⊢
      rw [overflowLimit_eq, hpow]
      nlinarith
    · refine F.lt_overflowLimit (q := F.biased r - 1 + F.minUnit) (by unfold minUnit; omega) ?_
      rw [hpow]
      nlinarith

end Format

def binary16 : Format := ⟨10, 5, by decide, by decide⟩

def binary32 : Format := ⟨23, 8, by decide, by decide⟩

def binary64 : Format := ⟨52, 11, by decide, by decide⟩

end Trustme.Lib
