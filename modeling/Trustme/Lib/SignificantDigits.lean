/-
  Subject:   Numbers rounded to a number of decimal digits, to nearest, ties to even.

  * `inUnits`: a number in units of a power of ten, rounded;
  * `significant`: `d` digits of a number and the exponent of the first of them;
  * **`significant_nearest`** -- no number of `d` digits is nearer;
  * `inUnits_eq_pow_iff`, `inUnits_carry`: the numbers that are rounded up to a power of ten, in
    these units and in ten times larger ones.
-/
import Mathlib.Data.Int.Log
import Mathlib.Data.Rat.Floor
import Trustme.Lib.IntegerRounding

namespace Trustme.Lib

/-! ## 1. Units -/

theorem ten_zpow_pos (e : ℤ) : (0 : ℚ) < 10 ^ e := zpow_pos (by norm_num) e

theorem ten_zpow_add (e f : ℤ) : (10 : ℚ) ^ (e + f) = 10 ^ e * 10 ^ f := zpow_add₀ (by norm_num) e f

theorem ten_zpow_add_nat (e : ℤ) (n : ℕ) : (10 : ℚ) ^ (e + n) = 10 ^ n * 10 ^ e := by
  rw [ten_zpow_add, zpow_natCast, mul_comm]

/-- `x` in units of `10 ^ l`, rounded. -/
def inUnits (x : ℚ) (l : ℤ) : ℤ := halfEven (x / 10 ^ l)

variable {x : ℚ} {l : ℤ} {b : ℕ}

theorem le_inUnits (h : (10 : ℚ) ^ (l + b) ≤ x) : 10 ^ b ≤ inUnits x l := by
  rw [ten_zpow_add_nat, ← le_div_iff₀ (ten_zpow_pos l)] at h
  exact le_halfEven (by exact_mod_cast h)

theorem inUnits_le (h : x < (10 : ℚ) ^ (l + b)) : inUnits x l ≤ 10 ^ b := by
  rw [ten_zpow_add_nat, ← div_lt_iff₀ (ten_zpow_pos l)] at h
  exact halfEven_le (by exact_mod_cast h.le)

/-- An integer number of units is not rounded. -/
theorem inUnits_of_eq {k : ℤ} (h : x = k * 10 ^ l) : inUnits x l = k := by
  rw [inUnits, h, mul_div_cancel_right₀ _ (ten_zpow_pos l).ne']
  exact intCast_of_odd halfEven_neg halfEven_natCast k

theorem odd_ten_pow_sub_one (hb : b ≠ 0) : Odd ((10 : ℤ) ^ b - 1) :=
  Even.sub_odd (Even.pow_of_ne_zero (by decide) hb) odd_one

/-- A number is rounded up to a power of ten from half a unit below it. -/
theorem inUnits_eq_pow_iff (hb : b ≠ 0) (h : x < (10 : ℚ) ^ (l + b)) :
    inUnits x l = 10 ^ b ↔ 10 ^ (l + b) - x ≤ 10 ^ l / 2 := by
  have hlt := lt_halfEven_iff (x := x / 10 ^ l) (odd_ten_pow_sub_one hb)
  have hle := inUnits_le h
  have hpos := ten_zpow_pos l
  rw [le_div_iff₀ hpos] at hlt
  push_cast at hlt
  rw [ten_zpow_add_nat]
  unfold inUnits at hle ⊢
  constructor
  · intro heq
    have := hlt.mp (by omega)
    linarith
  · intro hx
    have := hlt.mpr (by linarith)
    omega

/-- A number below one unit is rounded up from half a unit, which itself is not. -/
theorem inUnits_eq_one_iff (h : x < (10 : ℚ) ^ l) : inUnits x l = 1 ↔ 10 ^ l - x < 10 ^ l / 2 := by
  have hpos := ten_zpow_pos l
  have hlt : x / 10 ^ l < 1 := (div_lt_one hpos).mpr h
  have hhalf : 1 / 2 < x / 10 ^ l ↔ 10 ^ l - x < 10 ^ l / 2 := by
    rw [lt_div_iff₀ hpos]
    constructor <;> intro h <;> linarith
  rw [← hhalf]
  unfold inUnits
  constructor
  · intro heq
    by_contra hc
    have hnear := halfEven_near (x / 10 ^ l) 0
    rw [heq, Int.cast_one, Int.cast_zero, zero_sub, abs_neg, abs_of_nonneg (by linarith)] at hnear
    have hval : x / 10 ^ l = 1 / 2 := by
      rcases le_or_gt 0 (x / 10 ^ l) with h0 | h0
      · rw [abs_of_nonneg h0] at hnear
        linarith
      · rw [abs_of_neg h0] at hnear
        linarith
    have heven := halfEven_tie (x / 10 ^ l) (k := 0)
      (by rw [heq, hval]; norm_num) (by rw [heq]; decide)
    rw [heq] at heven
    exact absurd heven (by decide)
  · intro hx
    have hfloor : ⌊x / 10 ^ l⌋ = 0 := Int.floor_eq_zero_iff.mpr ⟨by linarith, hlt⟩
    unfold halfEven
    rw [hfloor, Int.cast_zero, sub_zero, if_neg (by linarith), if_pos hx]
    rfl

/-- What is rounded up to a power of ten is so in ten times larger units. -/
theorem inUnits_carry (h : x < (10 : ℚ) ^ (l + (b + 1 : ℕ))) (hcarry : inUnits x l = 10 ^ (b + 1)) :
    inUnits x (l + 1) = 10 ^ b := by
  have hpos := ten_zpow_pos l
  have hsplit : l + (b + 1 : ℕ) = l + 1 + (b : ℕ) := by
    push_cast
    ring
  have hten : (10 : ℚ) ^ (l + 1) = 10 ^ l * 10 := zpow_add_one₀ (by norm_num) l
  rw [inUnits_eq_pow_iff (Nat.succ_ne_zero b) h] at hcarry
  rw [hsplit] at h hcarry
  rcases Nat.eq_zero_or_pos b with rfl | hb
  · rw [Nat.cast_zero, add_zero] at h hcarry
    rw [pow_zero, inUnits_eq_one_iff h, hten]
    rw [hten] at hcarry
    linarith
  · rw [inUnits_eq_pow_iff hb.ne' h, hten]
    linarith

/-! ## 2. Significant digits -/

/-- `x` rounded to `d` significant digits: they as a number, and the exponent of the first. -/
def significant (d : ℕ) (x : ℚ) : ℕ × ℤ :=
  let n := inUnits x (Int.log 10 x - d + 1)
  if n = 10 ^ d then (10 ^ (d - 1), Int.log 10 x + 1) else (n.toNat, Int.log 10 x)

section Positive

variable (hx : 0 < x)

include hx

theorem log_le : (10 : ℚ) ^ Int.log 10 x ≤ x := by
  exact_mod_cast Int.zpow_log_le_self (b := 10) (by decide) hx

omit hx in
theorem lt_log : x < (10 : ℚ) ^ (Int.log 10 x + 1) := by
  exact_mod_cast Int.lt_zpow_succ_log_self (b := 10) (by decide) x

theorem log_eq {e : ℤ} (hlo : (10 : ℚ) ^ e ≤ x) (hhi : x < (10 : ℚ) ^ (e + 1)) :
    Int.log 10 x = e := by
  have h1 := (Int.zpow_le_iff_le_log (b := 10) (x := e) (by decide) hx).mp (by exact_mod_cast hlo)
  have h2 := (Int.lt_zpow_iff_log_lt (b := 10) (x := e + 1) (by decide) hx).mp
    (by exact_mod_cast hhi)
  omega

/-- The rounding to `d + 1` digits has as many digits, or it is the next power of ten. -/
theorem inUnits_log (d : ℕ) : 10 ^ d ≤ inUnits x (Int.log 10 x - d) ∧
    inUnits x (Int.log 10 x - d) ≤ 10 ^ (d + 1) := by
  refine ⟨le_inUnits ?_, inUnits_le ?_⟩
  · rw [show Int.log 10 x - d + d = Int.log 10 x by ring]
    exact log_le hx
  · rw [show Int.log 10 x - d + (d + 1 : ℕ) = Int.log 10 x + 1 by push_cast; ring]
    exact lt_log

/-- The number of `significant`, its digits in their places. -/
theorem significant_value (d : ℕ) :
    ((significant (d + 1) x).1 : ℚ) * 10 ^ ((significant (d + 1) x).2 - d) =
      inUnits x (Int.log 10 x - d) * 10 ^ (Int.log 10 x - d) ∧
    10 ^ d ≤ (significant (d + 1) x).1 ∧ (significant (d + 1) x).1 < 10 ^ (d + 1) := by
  obtain ⟨hlo, hhi⟩ := inUnits_log hx d
  have hunit : Int.log 10 x - (d + 1 : ℕ) + 1 = Int.log 10 x - d := by
    push_cast
    ring
  have hpow : (0 : ℤ) < 10 ^ d := by positivity
  unfold significant
  rw [hunit]
  generalize inUnits x (Int.log 10 x - d) = n at hlo hhi ⊢
  dsimp only
  split_ifs with hc
  · refine ⟨?_, Nat.le_refl _, Nat.pow_lt_pow_right (by decide) (by omega)⟩
    rw [Nat.add_sub_cancel, hc, show Int.log 10 x + 1 - d = Int.log 10 x - d + 1 by ring,
      ten_zpow_add, zpow_one]
    push_cast
    ring
  · have hcast : ((n.toNat : ℕ) : ℤ) = n := Int.toNat_of_nonneg (by omega)
    refine ⟨?_, ?_, ?_⟩
    · congr 1
      exact_mod_cast congrArg (Int.cast (R := ℚ)) hcast
    · exact_mod_cast (show (10 : ℤ) ^ d ≤ n.toNat by omega)
    · exact_mod_cast (show ((n.toNat : ℕ) : ℤ) < 10 ^ (d + 1) by omega)

/-- **No number of `d + 1` digits is nearer** than the one of `significant`. -/
theorem significant_nearest (d : ℕ) {m j : ℤ} (hm : |m| < 10 ^ (d + 1)) :
    |(significant (d + 1) x).1 * 10 ^ ((significant (d + 1) x).2 - d) - x| ≤ |m * 10 ^ j - x| := by
  have hnear (k : ℤ) : |inUnits x (Int.log 10 x - d) * (10 : ℚ) ^ (Int.log 10 x - d) - x| ≤
      |k * 10 ^ (Int.log 10 x - d) - x| := by
    have hpos := ten_zpow_pos (Int.log 10 x - d)
    have e (z : ℚ) : z * 10 ^ (Int.log 10 x - d) - x =
        (z - x / 10 ^ (Int.log 10 x - d)) * 10 ^ (Int.log 10 x - d) := by field_simp
    rw [e, e, abs_mul, abs_mul]
    exact mul_le_mul_of_nonneg_right (halfEven_near _ _) (abs_nonneg _)
  rw [(significant_value hx d).1]
  rcases le_or_gt (Int.log 10 x - d) j with hj | hj
  · -- a multiple of the unit
    obtain ⟨n, rfl⟩ : ∃ n : ℕ, j = Int.log 10 x - d + n :=
      ⟨(j - (Int.log 10 x - d)).toNat, by omega⟩
    have h := hnear (m * 10 ^ n)
    rw [ten_zpow_add_nat, ← mul_assoc]
    exact_mod_cast h
  · -- smaller units reach less far than the power of ten below `x`
    have hlow : (m : ℚ) * 10 ^ j ≤ 10 ^ Int.log 10 x := by
      have hm' : (m : ℚ) ≤ 10 ^ (d + 1) := by exact_mod_cast (lt_of_abs_lt hm).le
      calc (m : ℚ) * 10 ^ j ≤ 10 ^ (d + 1) * 10 ^ j :=
        mul_le_mul_of_nonneg_right hm' (ten_zpow_pos j).le
        _ = 10 ^ (j + (d + 1 : ℕ)) := (ten_zpow_add_nat ..).symm
        _ ≤ 10 ^ Int.log 10 x := zpow_le_zpow_right₀ (by norm_num) (by push_cast; omega)
    have h := hnear (10 ^ d)
    have hpow : ((10 ^ d : ℤ) : ℚ) * 10 ^ (Int.log 10 x - d) = 10 ^ Int.log 10 x := by
      push_cast
      rw [← ten_zpow_add_nat, sub_add_cancel]
    have hlog := log_le hx
    rw [hpow, abs_of_nonpos (sub_nonpos.mpr hlog)] at h
    rw [abs_of_nonpos (show (m : ℚ) * 10 ^ j - x ≤ 0 by linarith)]
    linarith

end Positive

end Trustme.Lib
