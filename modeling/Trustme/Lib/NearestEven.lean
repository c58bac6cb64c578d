/-
  Subject:   Rounding to nearest, ties to even, in a binary format without a largest number.

  * `Told`: a positive number known by its leading digits and a sticky bit;
  * `halfEven`: the integer nearest to a number; `told_halfEven` computes it from the digits;
  * `Grid`: the numbers of a format of `p` digits whose last digit never weighs less than `2 ^
    qmin`;
  * `grid_nearest`: rounding in units of the right digit gives the nearest of them, and the even
    one of two that are equally near.
-/
import Mathlib.Algebra.Order.Round
import Mathlib.Data.Int.Log
import Mathlib.Tactic.Linarith
import Mathlib.Tactic.Ring
import Mathlib.Tactic.FieldSimp

namespace Trustme.Lib

variable {K : Type*} [Field K] [LinearOrder K] [IsStrictOrderedRing K]

/-! ## 1. Digits and a sticky bit -/

/-- `y` is `m` units of `2 ^ e`, or lies strictly above them and below the next. -/
def Told (y : K) (m : Nat) (e : ℤ) (sticky : Bool) : Prop :=
  if sticky then (m : K) * 2 ^ e < y ∧ y < (m + 1) * 2 ^ e else y = m * 2 ^ e

theorem two_zpow_pos (e : ℤ) : (0 : K) < 2 ^ e := zpow_pos (by norm_num) e

theorem two_zpow_add (e f : ℤ) : (2 : K) ^ (e + f) = 2 ^ e * 2 ^ f := zpow_add₀ (by norm_num) e f

theorem two_zpow_add_nat (e : ℤ) (n : Nat) : (2 : K) ^ (e + n) = 2 ^ e * 2 ^ n := by
  rw [two_zpow_add, zpow_natCast]

omit [IsStrictOrderedRing K] in
theorem Told.le {y : K} {m : Nat} {e : ℤ} {s : Bool} (h : Told y m e s) : (m : K) * 2 ^ e ≤ y := by
  cases s
  · exact le_of_eq h.symm
  · exact h.1.le

variable {y x : K} {e k q : ℤ}

theorem Told.lt {m : Nat} {s : Bool} (h : Told y m e s) :
    y < (m + 1) * 2 ^ e := by
  have hp := two_zpow_pos (K := K) e
  cases s
  · rw [show y = m * 2 ^ e from h]
    nlinarith
  · exact h.2

/-- Digits are dropped, the sticky bit collects them. -/
theorem Told.shiftRight {m : Nat} {s : Bool} (h : Told y m e s) (n : Nat) :
    Told y (m / 2 ^ n) (e + n) (s || decide (m % 2 ^ n ≠ 0)) := by
  have hp := two_zpow_pos (K := K) e
  have hm : ((m / 2 ^ n : Nat) : K) * 2 ^ n + ((m % 2 ^ n : Nat) : K) = m := by
    rw [mul_comm]
    exact_mod_cast Nat.div_add_mod m (2 ^ n)
  have hlt : ((m % 2 ^ n : Nat) : K) + 1 ≤ 2 ^ n := by
    exact_mod_cast Nat.mod_lt m (Nat.two_pow_pos n)
  have h0 : (0 : K) ≤ ((m % 2 ^ n : Nat) : K) := Nat.cast_nonneg _
  have hle := h.le
  have hlt' := h.lt
  rw [← hm] at hle hlt'
  unfold Told
  rw [two_zpow_add_nat]
  split_ifs with hs
  · refine ⟨?_, ?_⟩
    · rcases Bool.or_eq_true_iff.mp hs with rfl | hs
      · have h1 := h.1
        rw [← hm] at h1
        nlinarith
      · have h1 : (1 : K) ≤ ((m % 2 ^ n : Nat) : K) := by
          exact_mod_cast Nat.one_le_iff_ne_zero.mpr (of_decide_eq_true hs)
        nlinarith
    · nlinarith
  · rw [Bool.or_eq_true, not_or, decide_eq_true_iff, not_not] at hs
    obtain ⟨hs1, hs2⟩ := hs
    rw [Bool.not_eq_true] at hs1
    subst hs1
    have h1 : y = m * 2 ^ e := h
    rw [h1, ← hm, hs2]
    push_cast
    ring

/-- Zeros are added. -/
theorem Told.shiftLeft {m : Nat} (h : Told y m e false) (n : Nat) :
    Told y (m * 2 ^ n) (e - n) false := by
  have h1 : y = m * 2 ^ e := h
  have h2 : (2 : K) ^ e = 2 ^ (e - n) * 2 ^ n := by rw [← two_zpow_add_nat]; congr 1; ring
  show y = ((m * 2 ^ n : Nat) : K) * 2 ^ (e - n)
  rw [h1, h2]
  push_cast
  ring

/-- A quotient is told by the division of the integers and its remainder. -/
theorem told_div (n : Nat) {d : Nat} (hd : 0 < d) (e : ℤ) :
    Told ((n : K) / d * 2 ^ e) (n / d) e (decide (n % d ≠ 0)) := by
  have hp := two_zpow_pos (K := K) e
  have hd' : (0 : K) < d := by exact_mod_cast hd
  have hn : (d : K) * ((n / d : Nat) : K) + ((n % d : Nat) : K) = n := by
    exact_mod_cast Nat.div_add_mod n d
  have hlt : ((n % d : Nat) : K) < d := by exact_mod_cast Nat.mod_lt n hd
  unfold Told
  by_cases h : n % d = 0
  · rw [h] at hn
    rw [if_neg (by simpa using h), ← hn, Nat.cast_zero, add_zero, mul_div_cancel_left₀ _ hd'.ne']
  · have hpos : (0 : K) < ((n % d : Nat) : K) := by exact_mod_cast Nat.pos_of_ne_zero h
    rw [if_pos (decide_eq_true h)]
    refine ⟨mul_lt_mul_of_pos_right ?_ hp, mul_lt_mul_of_pos_right ?_ hp⟩
    · rw [lt_div_iff₀ hd']
      linarith
    · rw [div_lt_iff₀ hd']
      linarith

/-- An odd number of units that is less than one unit away tells all digits but the last. -/
theorem told_of_near {m : Nat} (hodd : m % 2 = 1) (hlo : (m - 1 : K) * 2 ^ e < y)
    (hhi : y < (m + 1 : K) * 2 ^ e) : Told y (m / 2) (e + 1) true := by
  have hm : ((m / 2 : Nat) : K) * 2 + 1 = m := by
    exact_mod_cast (show m / 2 * 2 + 1 = m by omega)
  have h1 : (2 : K) ^ (e + 1) = 2 ^ e * 2 := by rw [two_zpow_add, zpow_one]
  unfold Told
  rw [if_pos rfl, h1]
  constructor
  · rw [← hm] at hlo
    linarith
  · rw [← hm] at hhi
    linarith

/-! ## 2. The nearest integer -/

variable [FloorRing K]

/-- The integer nearest to `x`, the even one of two. -/
def halfEven (x : K) : ℤ :=
  if x - ⌊x⌋ < 1 / 2 then ⌊x⌋
  else if 1 / 2 < x - ⌊x⌋ then ⌊x⌋ + 1
  else if Even ⌊x⌋ then ⌊x⌋ else ⌊x⌋ + 1

/-- The nearest integer, of two the one that is farther from zero. -/
def halfAway (x : K) : ℤ := if 0 ≤ x then ⌊x + 1 / 2⌋ else ⌈x - 1 / 2⌉

theorem halfEven_near (x : K) (k : ℤ) : |(halfEven x : K) - x| ≤ |k - x| := by
  have h0 := Int.floor_le x
  have h1 := Int.lt_floor_add_one x
  have hk : (k : K) ≤ ⌊x⌋ ∨ (⌊x⌋ : K) + 1 ≤ k := by
    rcases le_or_gt k ⌊x⌋ with h | h
    · exact .inl (by exact_mod_cast h)
    · exact .inr (by exact_mod_cast h)
  unfold halfEven
  split_ifs with c1 c2 c3
  · rw [abs_of_nonpos (by linarith)]
    rcases hk with h | h
    · rw [abs_of_nonpos (by linarith)]; linarith
    · rw [abs_of_nonneg (by linarith)]; linarith
  · push_cast
    rw [abs_of_nonneg (by linarith)]
    rcases hk with h | h
    · rw [abs_of_nonpos (by linarith)]; linarith
    · rw [abs_of_nonneg (by linarith)]; linarith
  · rw [abs_of_nonpos (by linarith)]
    rcases hk with h | h
    · rw [abs_of_nonpos (by linarith)]; linarith
    · rw [abs_of_nonneg (by linarith)]; linarith
  · push_cast
    rw [abs_of_nonneg (by linarith)]
    rcases hk with h | h
    · rw [abs_of_nonpos (by linarith)]; linarith
    · rw [abs_of_nonneg (by linarith)]; linarith

omit [IsStrictOrderedRing K] in
theorem le_halfEven (h : (k : K) ≤ x) : k ≤ halfEven x := by
  have hfloor : k ≤ ⌊x⌋ := Int.le_floor.mpr h
  unfold halfEven
  split_ifs <;> omega

theorem halfEven_le (h : x ≤ k) : halfEven x ≤ k := by
  by_contra hc
  have hnear := halfEven_near x k
  have hlt : (k : K) + 1 ≤ halfEven x := by exact_mod_cast not_le.mp hc
  rw [abs_of_nonneg (by linarith), abs_of_nonneg (by linarith)] at hnear
  linarith

theorem halfEven_tie (x : K) (h : |(k : K) - x| = |(halfEven x : K) - x|)
    (hne : k ≠ halfEven x) : Even (halfEven x) := by
  have h0 := Int.floor_le x
  have h1 := Int.lt_floor_add_one x
  have hk : (k : K) ≤ ⌊x⌋ ∨ (⌊x⌋ : K) + 1 ≤ k := by
    rcases le_or_gt k ⌊x⌋ with h | h
    · exact .inl (by exact_mod_cast h)
    · exact .inr (by exact_mod_cast h)
  unfold halfEven at h hne ⊢
  split_ifs at h hne ⊢ with c1 c2 c3
  · rw [abs_of_nonpos (show (⌊x⌋ : K) - x ≤ 0 by linarith)] at h
    rcases hk with hk | hk
    · rw [abs_of_nonpos (by linarith)] at h
      exact absurd (by exact_mod_cast (show (k : K) = ⌊x⌋ by linarith)) hne
    · rw [abs_of_nonneg (by linarith)] at h
      linarith
  · push_cast at h
    rw [abs_of_nonneg (show (0 : K) ≤ ⌊x⌋ + 1 - x by linarith)] at h
    rcases hk with hk | hk
    · rw [abs_of_nonpos (by linarith)] at h
      linarith
    · rw [abs_of_nonneg (by linarith)] at h
      exact absurd (by exact_mod_cast (show (k : K) = ⌊x⌋ + 1 by linarith)) hne
  · exact c3
  · exact (Int.not_even_iff_odd.mp c3).add_one

/-- Half a unit above an odd integer is rounded up. -/
theorem lt_halfEven_iff (hk : Odd k) : k < halfEven x ↔ (k : K) + 1 / 2 ≤ x := by
  have h := halfEven_near x k
  have h' := halfEven_near x (k + 1)
  push_cast at h'
  constructor
  · intro hlt
    have h1 : (k : K) + 1 ≤ halfEven x := by exact_mod_cast hlt
    by_contra hx
    rw [not_le] at hx
    rw [abs_of_nonneg (show (0 : K) ≤ halfEven x - x by linarith)] at h
    rcases le_total (k : K) x with hkx | hkx
    · rw [abs_of_nonpos (by linarith)] at h
      linarith
    · rw [abs_of_nonneg (by linarith)] at h
      linarith
  · intro hx
    by_contra hle
    have h1 : (halfEven x : K) ≤ k := by exact_mod_cast not_lt.mp hle
    rw [abs_of_nonpos (show (halfEven x : K) - x ≤ 0 by linarith)] at h'
    rcases le_total x (k + 1 : K) with hkx | hkx
    · rw [abs_of_nonneg (by linarith)] at h'
      have he : (k : K) = halfEven x := by linarith
      have heven : Even (halfEven x) := by
        refine halfEven_tie x (k := k + 1) ?_ ?_
        · push_cast
          rw [abs_of_nonneg (by linarith), abs_of_nonpos (by linarith)]
          linarith
        · intro hc
          have : (k : K) + 1 = halfEven x := by exact_mod_cast hc
          linarith
      rw [show halfEven x = k by exact_mod_cast he.symm] at heven
      exact Int.not_even_iff_odd.mpr hk heven
    · rw [abs_of_nonpos (by linarith)] at h'
      linarith

/-- What the digits and the sticky bit say about the nearest integer, one digit above the last. -/
theorem told_halfEven {m : Nat} {s : Bool} (h : Told y m e s) :
    halfEven (y / 2 ^ (e + 1)) =
      (m / 2 : Nat) + if m % 2 = 1 ∧ (s = true ∨ m / 2 % 2 = 1) then 1 else 0 := by
  have hp := two_zpow_pos (K := K) e
  have h1 : (2 : K) ^ (e + 1) = 2 ^ e * 2 := by rw [two_zpow_add, zpow_one]
  have hlo : (m : K) / 2 ≤ y / 2 ^ (e + 1) := by
    rw [h1, div_le_div_iff₀ (by norm_num) (by positivity)]
    nlinarith [h.le]
  have hhi : y / 2 ^ (e + 1) < (m + 1) / 2 := by
    rw [h1, div_lt_div_iff₀ (by positivity) (by norm_num)]
    nlinarith [h.lt]
  have hm : ((m / 2 : Nat) : K) * 2 + ((m % 2 : Nat) : K) = m := by
    rw [mul_comm]
    exact_mod_cast Nat.div_add_mod m 2
  have hb := Nat.mod_two_eq_zero_or_one m
  generalize m / 2 = d at hm ⊢
  generalize m % 2 = b at hm hb ⊢
  have hfloor : ⌊y / 2 ^ (e + 1)⌋ = (d : ℤ) := by
    rw [Int.floor_eq_iff, Int.cast_natCast]
    rcases hb with rfl | rfl <;> push_cast at hm <;> constructor <;> linarith
  unfold halfEven
  rw [hfloor, Int.cast_natCast]
  rcases hb with rfl | rfl <;> push_cast at hm
  · rw [if_pos (by linarith), if_neg (by omega), add_zero]
  · rw [if_neg (by linarith)]
    cases s
    · have hy : y / 2 ^ (e + 1) = m / 2 := by
        rw [show y = m * 2 ^ e from h, h1]
        field_simp
      rw [if_neg (by rw [hy]; linarith)]
      by_cases he : d % 2 = 1
      · have hodd : ¬ Even (d : ℤ) := by
          rw [Int.not_even_iff]
          omega
        rw [if_neg hodd, if_pos ⟨rfl, .inr he⟩]
      · have heven : Even (d : ℤ) := by
          rw [Int.even_iff]
          omega
        rw [if_pos heven, if_neg (fun hc => he (hc.2.resolve_left Bool.false_ne_true)), add_zero]
    · have hlo' : (m : K) / 2 < y / 2 ^ (e + 1) := by
        rw [h1, div_lt_div_iff₀ (by norm_num) (by positivity)]
        nlinarith [h.1]
      rw [if_pos (by linarith), if_pos ⟨rfl, .inl rfl⟩]

/-! ## 3. The nearest number of a format -/

/-- `v` has at most `p` digits, none of them below the weight `2 ^ qmin`. -/
def Grid (p : Nat) (qmin : ℤ) (v : K) : Prop :=
  ∃ k q : ℤ, qmin ≤ q ∧ |k| < 2 ^ p ∧ v = k * 2 ^ q

/-- `q` is the weight of the last digit of `y` in the format. -/
def LastUnit (p : Nat) (qmin : ℤ) (y : K) (q : ℤ) : Prop :=
  qmin ≤ q ∧ y < 2 ^ (q + p) ∧ (q = qmin ∨ 2 ^ (q + p - 1) ≤ y)

/-- The rounding of `y` in units of `2 ^ q`. -/
def rounded (y : K) (q : ℤ) : K := halfEven (y / 2 ^ q) * 2 ^ q

theorem rounded_near (y : K) (q k : ℤ) : |rounded y q - y| ≤ |k * 2 ^ q - y| := by
  have hp := two_zpow_pos (K := K) q
  have e (z : K) : z * 2 ^ q - y = (z - y / 2 ^ q) * 2 ^ q := by field_simp
  unfold rounded
  rw [e, e, abs_mul, abs_mul]
  exact mul_le_mul_of_nonneg_right (halfEven_near _ _) (abs_nonneg _)

theorem rounded_tie (h : |k * 2 ^ q - y| = |rounded y q - y|)
    (hne : k * 2 ^ q ≠ rounded y q) : Even (halfEven (y / 2 ^ q)) := by
  have hp := two_zpow_pos (K := K) q
  have e (z : K) : z * 2 ^ q - y = (z - y / 2 ^ q) * 2 ^ q := by field_simp
  unfold rounded at h hne
  rw [e, e, abs_mul, abs_mul] at h
  refine halfEven_tie _ (mul_right_cancel₀ (abs_pos.mpr hp.ne').ne' h) fun hk => hne ?_
  rw [hk]

/-- A number of the format with a smaller last digit lies below a power of two that `y` has
    reached. -/
theorem grid_coarse_or_below {p : Nat} (hp : 0 < p) {qmin : ℤ} {v : K} (hu : LastUnit p qmin y q)
    (hv : Grid p qmin v) :
    (∃ k : ℤ, v = k * 2 ^ q) ∨ (v < 2 ^ (p - 1) * 2 ^ q ∧ 2 ^ (p - 1) * 2 ^ q ≤ y) := by
  obtain ⟨k, r, hr, hk, rfl⟩ := hv
  obtain ⟨-, -, hq⟩ := hu
  by_cases hle : q ≤ r
  · refine .inl ⟨k * 2 ^ (r - q).toNat, ?_⟩
    have : (2 : K) ^ r = 2 ^ (r - q).toNat * 2 ^ q := by
      rw [mul_comm, ← two_zpow_add_nat]
      congr 1
      omega
    rw [this]
    push_cast
    ring
  · right
    have hpow : (2 : K) ^ (p - 1) * 2 ^ q = 2 ^ (q + p - 1) := by
      rw [mul_comm, ← two_zpow_add_nat]
      congr 1
      omega
    refine ⟨?_, hpow ▸ hq.resolve_left (by omega)⟩
    have hk' : (k : K) < 2 ^ p := by exact_mod_cast lt_of_abs_lt hk
    calc (k : K) * 2 ^ r < 2 ^ p * 2 ^ r := mul_lt_mul_of_pos_right hk' (two_zpow_pos r)
      _ = 2 ^ (r + p) := by rw [mul_comm, ← two_zpow_add_nat]
      _ ≤ 2 ^ (q + p - 1) := zpow_le_zpow_right₀ (by norm_num) (by omega)
      _ = 2 ^ (p - 1) * 2 ^ q := hpow.symm

/-- **Rounding in the format**: no number of the format is nearer, and one that is as near is
    the same or the rounding is even. -/
theorem grid_nearest {p : Nat} (hp : 0 < p) {qmin : ℤ} {v : K} (hu : LastUnit p qmin y q)
    (hv : Grid p qmin v) : |rounded y q - y| ≤ |v - y| ∧
      (|v - y| = |rounded y q - y| → v = rounded y q ∨ Even (halfEven (y / 2 ^ q))) := by
  rcases grid_coarse_or_below hp hu hv with ⟨k, rfl⟩ | ⟨hlt, hle⟩
  · exact ⟨rounded_near y q k, fun h => or_iff_not_imp_left.mpr fun hne => rounded_tie h hne⟩
  · have h := rounded_near y q (2 ^ (p - 1))
    push_cast at h
    rw [abs_of_nonpos (show (2 : K) ^ (p - 1) * 2 ^ q - y ≤ 0 by linarith)] at h
    have hv' : |v - y| = y - v := by rw [abs_of_nonpos (by linarith)]; ring
    rw [hv']
    exact ⟨by linarith, fun h' => absurd h' (by linarith)⟩

end Trustme.Lib
