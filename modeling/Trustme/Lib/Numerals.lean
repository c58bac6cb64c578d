/-
  Subject:   Decimal numerals as texts, and a number of significant digits written by them.

  * `digitString`, `places`: the digits of a number, and so many of them from the right;
  * `digitString_eq_places`, `places_add`: the digits before and after a point are those of the
    quotient and of the remainder;
  * `rdropWhile_drop`: what is cut off at the end does not depend on the front;
  * `positional`, `general`: fixed and scientific notation without trailing zeros.
-/
import Mathlib.Data.List.DropRight
import Mathlib.Tactic.IntervalCases
import Mathlib.Tactic.Ring
import Trustme.Lib.Printers

namespace Trustme.Lib

/-! ## 1. Numerals -/

/-- The digits of a number; 0 has none. -/
def digitString (n : Nat) : List Char := if n = 0 then [] else Nat.toDigits 10 n

/-- The last `k` digits of a number. -/
def places : Nat → Nat → List Char
  | 0, _ => []
  | k + 1, n => places k (n / 10) ++ [(n % 10).digitChar]

theorem digitString_zero : digitString 0 = [] := rfl

variable {n k : Nat}

theorem digitString_pos (h : n ≠ 0) :
    digitString n = digitString (n / 10) ++ [(n % 10).digitChar] := by
  unfold digitString
  rw [if_neg h]
  by_cases hlt : n < 10
  · rw [if_pos (by omega), Nat.toDigits_of_lt_base hlt, Nat.mod_eq_of_lt hlt]
    rfl
  · rw [if_neg (by omega), Nat.toDigits_of_base_le (by decide) (by omega)]

theorem digitString_head (n : Nat) : (digitString n).head? ≠ some '0' := by
  unfold digitString
  split
  · exact nofun
  · next h => exact Printer.head_toDigits_ne_zero h

theorem places_length (k n : Nat) : (places k n).length = k := by
  induction k generalizing n with
  | zero => rfl
  | succ k ih => rw [places, List.length_append, ih, List.length_singleton]

theorem places_zero (k : Nat) : places k 0 = List.replicate k '0' := by
  induction k with
  | zero => rfl
  | succ k ih =>
    rw [places, Nat.zero_div, ih, List.replicate_succ']
    rfl

theorem places_add (k j n : Nat) : places (k + j) n = places k (n / 10 ^ j) ++ places j n := by
  induction j generalizing n with
  | zero => rw [pow_zero, Nat.div_one, places, List.append_nil, Nat.add_zero]
  | succ j ih =>
    rw [← Nat.add_assoc, places, places, ih, Nat.div_div_eq_div_mul, ← pow_succ', List.append_assoc]

theorem places_mod (k n : Nat) : places k (n % 10 ^ k) = places k n := by
  induction k generalizing n with
  | zero => rfl
  | succ k ih =>
    have hlast : n % 10 ^ (k + 1) % 10 = n % 10 := by rw [pow_succ', Nat.mod_mul_right_mod]
    have hrest : n % 10 ^ (k + 1) / 10 = n / 10 % 10 ^ k := by
      rw [pow_succ', Nat.mod_mul_right_div_self]
    rw [places, places, hlast, hrest, ih]

/-- A number of `k` digits, all of them. -/
theorem digitString_eq_places (hlt : n < 10 ^ k) (hle : 10 ^ k ≤ 10 * n) :
    digitString n = places k n := by
  induction k generalizing n with
  | zero =>
    rw [pow_zero] at hlt hle
    omega
  | succ k ih =>
    rw [pow_succ'] at hlt hle
    rw [digitString_pos (by have := Nat.pow_pos (n := k) (show 0 < 10 by decide); omega), places]
    congr 1
    rcases Nat.eq_zero_or_pos k with rfl | hk
    · rw [Nat.div_eq_of_lt (by omega)]
      rfl
    · obtain ⟨j, rfl⟩ : ∃ j, k = j + 1 := ⟨k - 1, by omega⟩
      rw [pow_succ'] at hlt hle ih
      exact ih (by omega) (by omega)

theorem digitString_length (hlt : n < 10 ^ k) (hle : 10 ^ k ≤ 10 * n) :
    (digitString n).length = k := by
  rw [digitString_eq_places hlt hle, places_length]

theorem digitString_append (h : n / 10 ^ k ≠ 0) :
    digitString n = digitString (n / 10 ^ k) ++ places k n := by
  induction k generalizing n with
  | zero => rw [pow_zero, Nat.div_one, places, List.append_nil]
  | succ k ih =>
    rw [pow_succ', ← Nat.div_div_eq_div_mul] at h ⊢
    rw [digitString_pos (by rintro rfl; simp at h), places, ih h, List.append_assoc]

/-- No digits are zeros at the front. -/
theorem dropWhile_digitString (n : Nat) : (digitString n).dropWhile (· == '0') = digitString n := by
  have h := digitString_head n
  cases hn : digitString n with
  | nil => rfl
  | cons c cs =>
    rw [hn] at h
    exact List.dropWhile_cons_of_neg (by simpa using h)

theorem toDigits_eq_places (hlt : n < 10 ^ k) (hle : 10 ^ k ≤ 10 * n) :
    Nat.toDigits 10 n = places k n := by
  have hn : n ≠ 0 := by
    have := Nat.pow_pos (n := k) (show 0 < 10 by decide)
    omega
  rw [← digitString_eq_places hlt hle, digitString, if_neg hn]

/-! ## 2. Zeros at the end -/

section TrailingZeros

variable {α : Type*} (p : α → Bool)

theorem rdropWhile_append_of_not {p : α → Bool} (xs : List α) {ys : List α}
    (h : ys.rdropWhile p ≠ []) : (xs ++ ys).rdropWhile p = xs ++ ys.rdropWhile p := by
  induction ys using List.reverseRecOn with
  | nil => exact absurd rfl h
  | append_singleton ys y ih =>
    rw [← List.append_assoc]
    by_cases hy : p y = true
    · rw [List.rdropWhile_concat_pos _ _ _ hy] at h ⊢
      rw [List.rdropWhile_concat_pos _ _ _ hy, ih h]
    · rw [List.rdropWhile_concat_neg _ _ _ hy, List.rdropWhile_concat_neg _ _ _ hy,
        List.append_assoc]

/-- Cutting off at the front does not matter for what is cut off at the end. -/
theorem rdropWhile_drop (k : Nat) (xs : List α) :
    (xs.drop k).rdropWhile p = (xs.rdropWhile p).drop k := by
  induction xs using List.reverseRecOn with
  | nil => simp
  | append_singleton xs x ih =>
    rcases Nat.lt_or_ge xs.length k with hk | hk
    · have hpre := (List.rdropWhile_prefix p (xs ++ [x])).length_le
      have hlen : (xs ++ [x]).length ≤ k := by simp; omega
      rw [List.drop_eq_nil_of_le hlen, List.drop_eq_nil_of_le (hpre.trans hlen)]
      rfl
    · rw [List.drop_append_of_le_length hk]
      by_cases hx : p x = true
      · rw [List.rdropWhile_concat_pos _ _ _ hx, List.rdropWhile_concat_pos _ _ _ hx, ih]
      · rw [List.rdropWhile_concat_neg _ _ _ hx, List.rdropWhile_concat_neg _ _ _ hx,
          List.drop_append_of_le_length hk]

/-- What stays is the beginning. -/
theorem take_rdropWhile {l : List α} {k : Nat} (hk : k ≤ (l.rdropWhile p).length) :
    (l.rdropWhile p).take k = l.take k := by
  rw [List.prefix_iff_eq_take.mp (List.rdropWhile_prefix p l), List.take_take, Nat.min_eq_left hk]

/-- Where the beginning goes on beyond what stays, it goes on with what is cut off. -/
theorem take_of_rdropWhile_le [BEq α] [LawfulBEq α] {l : List α} {z : α} {k : Nat}
    (hlo : (l.rdropWhile (· == z)).length ≤ k) (hhi : k ≤ l.length) :
    l.take k = l.rdropWhile (· == z) ++
      List.replicate (k - (l.rdropWhile (· == z)).length) z := by
  have hsplit : l.rdropWhile (· == z) ++ l.rtakeWhile (· == z) = l :=
    List.rdropWhile_append_rtakeWhile ..
  have hall : l.rtakeWhile (· == z) = List.replicate (l.rtakeWhile (· == z)).length z :=
    List.eq_replicate_of_mem fun x hx => eq_of_beq (List.mem_rtakeWhile_imp (p := (· == z)) hx)
  have hlen := congrArg List.length hsplit
  rw [List.length_append] at hlen
  conv_lhs => rw [← hsplit, List.take_append, List.take_of_length_le hlo, hall, List.take_replicate]
  rw [Nat.min_eq_left (by omega)]

end TrailingZeros

/-! ## 3. Notations -/

/-- The digits after a point, and the point where there are any. -/
def pointed (digits : List Char) : List Char := if digits = [] then [] else '.' :: digits

/-- The number `n / 10 ^ f` in fixed notation without trailing zeros. -/
def positional (n f : Nat) : List Char :=
  Nat.toDigits 10 (n / 10 ^ f) ++ pointed ((places f n).rdropWhile (· == '0'))

/-- An exponent with its sign and at least two digits. -/
def exponentText (e : Int) : List Char :=
  'e' :: (if e < 0 then '-' else '+') ::
    (if e.natAbs < 10 then '0' :: Nat.toDigits 10 e.natAbs else Nat.toDigits 10 e.natAbs)

/-- **`%g`**: the number of `precision` digits `n`, the first of which has the weight `10 ^ e`,
    in scientific notation where `e` is less than -4 or not less than the precision. -/
def general (precision n : Nat) (e : Int) : List Char :=
  if -4 ≤ e ∧ e < precision then positional n (precision - 1 - e).toNat
  else positional n (precision - 1) ++ exponentText e

end Trustme.Lib
