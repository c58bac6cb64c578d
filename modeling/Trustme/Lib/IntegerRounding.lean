/-
  Subject:   The integers that a number is rounded to: toward zero, and to nearest with ties
             away from zero or to even.

  * `truncated`: beside `halfAway`, `halfEven`, `⌊·⌋` and `⌈·⌉`;
  * `truncated_neg`, `halfAway_neg`, `halfEven_neg`: they do not depend on the sign;
  * `floor_div`, ..., `halfEven_div` -- of a quotient, from the integer quotient and the
    remainder.
-/
import Trustme.Lib.NearestEven

namespace Trustme.Lib

variable {K : Type*} [Field K] [LinearOrder K] [IsStrictOrderedRing K] [FloorRing K]

/-- The integer part. -/
def truncated (x : K) : ℤ := if 0 ≤ x then ⌊x⌋ else ⌈x⌉

/-! ## 1. Negative numbers -/

theorem truncated_neg (x : K) : truncated (-x) = -truncated x := by
  unfold truncated
  split_ifs with h1 h2 h2
  · rw [le_antisymm (neg_nonneg.mp h1) h2]
    simp
  · exact Int.floor_neg
  · exact Int.ceil_neg
  · linarith

theorem halfAway_neg (x : K) : halfAway (-x) = -halfAway x := by
  unfold halfAway
  split_ifs with h1 h2 h2
  · rw [le_antisymm (neg_nonneg.mp h1) h2, neg_zero, zero_add, show ⌊(1 / 2 : K)⌋ = 0 by norm_num]
    rfl
  · rw [← Int.floor_neg]
    congr 1
    ring
  · rw [← Int.ceil_neg]
    congr 1
    ring
  · linarith

theorem halfEven_neg (x : K) : halfEven (-x) = -halfEven x := by
  have h0 := Int.floor_le x
  have h1 := Int.lt_floor_add_one x
  rcases eq_or_lt_of_le h0 with heq | hlt
  · have hfloor : ⌊-x⌋ = -⌊x⌋ := by rw [← heq, ← Int.cast_neg, Int.floor_intCast, Int.floor_intCast]
    unfold halfEven
    rw [hfloor, if_pos (by push_cast; linarith), if_pos (by linarith)]
  · have hfloor : ⌊-x⌋ = -⌊x⌋ - 1 := by
      rw [Int.floor_eq_iff]
      push_cast
      constructor <;> linarith
    have heven : Even (-⌊x⌋ - 1) ↔ ¬ Even ⌊x⌋ := by
      rw [Int.even_sub_one, even_neg]
    unfold halfEven
    simp only [hfloor, heven]
    push_cast
    split_ifs <;> linarith

/-! ## 2. Quotients -/

section Quotient

variable (n : Nat) {d : Nat} (hd : 0 < d)

include hd

omit [FloorRing K] in
/-- The remainder is what the quotient leaves of the number. -/
theorem div_sub_quotient : (n : K) / d - (n / d : ℕ) = (n % d : ℕ) / d := by
  have hd' : (d : K) ≠ 0 := by exact_mod_cast hd.ne'
  have h : (d : K) * (n / d : ℕ) + (n % d : ℕ) = n := by exact_mod_cast Nat.div_add_mod n d
  rw [sub_eq_iff_eq_add, div_add' _ _ _ hd', ← h]
  ring

theorem floor_div : ⌊(n : K) / d⌋ = (n / d : ℕ) := by
  have hd' : (0 : K) < d := by exact_mod_cast hd
  have h := div_sub_quotient (K := K) n hd
  have hlt : ((n % d : ℕ) : K) / d < 1 := by
    rw [div_lt_one hd']
    exact_mod_cast Nat.mod_lt n hd
  have hle : (0 : K) ≤ ((n % d : ℕ) : K) / d := by positivity
  rw [Int.floor_eq_iff, Int.cast_natCast]
  constructor <;> linarith

theorem ceil_div : ⌈(n : K) / d⌉ = (n / d : ℕ) + if n % d = 0 then 0 else 1 := by
  have hd' : (0 : K) < d := by exact_mod_cast hd
  have h := div_sub_quotient (K := K) n hd
  have hlt : ((n % d : ℕ) : K) / d < 1 := by
    rw [div_lt_one hd']
    exact_mod_cast Nat.mod_lt n hd
  rw [Int.ceil_eq_iff]
  split_ifs with hz
  · rw [hz, Nat.cast_zero, zero_div] at h
    rw [Int.cast_add, Int.cast_natCast, Int.cast_zero]
    constructor <;> linarith
  · have hpos : (0 : K) < ((n % d : ℕ) : K) / d := by
      have : 0 < n % d := Nat.pos_of_ne_zero hz
      positivity
    rw [Int.cast_add, Int.cast_natCast, Int.cast_one]
    constructor <;> linarith

theorem truncated_div : truncated ((n : K) / d) = (n / d : ℕ) := by
  unfold truncated
  rw [if_pos (by positivity), floor_div n hd]

theorem halfAway_div :
    halfAway ((n : K) / d) = (n / d : ℕ) + if d ≤ 2 * (n % d) then 1 else 0 := by
  have hd' : (0 : K) < d := by exact_mod_cast hd
  have h := div_sub_quotient (K := K) n hd
  have hle : (0 : K) ≤ ((n % d : ℕ) : K) / d := by positivity
  have hlt : ((n % d : ℕ) : K) / d < 1 := by
    rw [div_lt_one hd']
    exact_mod_cast Nat.mod_lt n hd
  have hhalf : d ≤ 2 * (n % d) ↔ (1 / 2 : K) ≤ ((n % d : ℕ) : K) / d := by
    rw [le_div_iff₀ hd', one_div_mul_eq_div, div_le_iff₀ two_pos, mul_comm ((n % d : ℕ) : K)]
    exact_mod_cast Iff.rfl
  unfold halfAway
  rw [if_pos (by positivity), Int.floor_eq_iff]
  split_ifs with hc
  · have := hhalf.mp hc
    rw [Int.cast_add, Int.cast_natCast, Int.cast_one]
    constructor <;> linarith
  · have := not_le.mp (mt hhalf.mpr hc)
    rw [Int.cast_add, Int.cast_natCast, Int.cast_zero]
    constructor <;> linarith

theorem halfEven_div : halfEven ((n : K) / d) =
    (n / d : ℕ) + if d < 2 * (n % d) ∨ (d = 2 * (n % d) ∧ n / d % 2 = 1) then 1 else 0 := by
  have hd' : (0 : K) < d := by exact_mod_cast hd
  have h := div_sub_quotient (K := K) n hd
  have hbelow : ((n % d : ℕ) : K) / d < 1 / 2 ↔ 2 * (n % d) < d := by
    rw [div_lt_iff₀ hd', one_div_mul_eq_div, lt_div_iff₀ two_pos, mul_comm]
    exact_mod_cast Iff.rfl
  have habove : 1 / 2 < ((n % d : ℕ) : K) / d ↔ d < 2 * (n % d) := by
    rw [lt_div_iff₀ hd', one_div_mul_eq_div, div_lt_iff₀ two_pos, mul_comm ((n % d : ℕ) : K)]
    exact_mod_cast Iff.rfl
  unfold halfEven
  rw [floor_div n hd, Int.cast_natCast, h]
  simp only [hbelow, habove, Int.even_iff]
  split_ifs <;> omega

end Quotient

/-! ## 3. Integers -/

theorem truncated_natCast (k : ℕ) : truncated (k : K) = k := by
  have h := truncated_div (K := K) k Nat.one_pos
  rwa [Nat.cast_one, div_one, Nat.div_one] at h

theorem halfAway_natCast (k : ℕ) : halfAway (k : K) = k := by
  have h := halfAway_div (K := K) k Nat.one_pos
  rwa [Nat.cast_one, div_one, Nat.div_one, Nat.mod_one, if_neg (by decide), add_zero] at h

theorem halfEven_natCast (k : ℕ) : halfEven (k : K) = k := by
  have h := halfEven_div (K := K) k Nat.one_pos
  rwa [Nat.cast_one, div_one, Nat.div_one, Nat.mod_one, if_neg (by omega), add_zero] at h

omit [LinearOrder K] [IsStrictOrderedRing K] [FloorRing K] in
/-- A rounding that does not depend on the sign keeps the integers if it keeps the natural
    numbers. -/
theorem intCast_of_odd {rnd : K → ℤ} (hodd : ∀ x, rnd (-x) = -rnd x) (hnat : ∀ k : ℕ, rnd k = k)
    (k : ℤ) : rnd k = k := by
  obtain ⟨n, rfl | rfl⟩ := k.eq_nat_or_neg
  · rw [Int.cast_natCast, hnat]
  · rw [Int.cast_neg, Int.cast_natCast, hodd, hnat]

end Trustme.Lib
