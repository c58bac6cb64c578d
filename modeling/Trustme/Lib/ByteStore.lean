/-
  Subject:   A store of bytes: a part of a list overwritten, and sets of positions packed into
             bytes, eight to a byte.

  * `splice`: a list with a part of it overwritten; `getElem?_splice` reads it back;
  * `Mask.test`, `Mask.mark`, `Mask.clear`: one bit;
  * `Mask.fill`: a whole byte;
  * `Mask.test_mark`, `Mask.test_clear`, `Mask.test_fill`: which bits each of them changes.
-/
import Mathlib.Data.Nat.Basic
import Mathlib.Tactic.IntervalCases

namespace Trustme.Lib

/-! ## 1. Overwriting a part of a list -/

section Splice

variable {α : Type}

/-- `xs` with the elements from `ofs` on overwritten by `new`. -/
def splice (xs : List α) (ofs : Nat) (new : List α) : List α :=
  xs.take ofs ++ new ++ xs.drop (ofs + new.length)

theorem length_splice {xs new : List α} {ofs : Nat} (h : ofs + new.length ≤ xs.length) :
    (splice xs ofs new).length = xs.length := by
  simp only [splice, List.length_append, List.length_take, List.length_drop]
  omega

theorem getElem?_splice {xs new : List α} {ofs : Nat} (h : ofs + new.length ≤ xs.length)
    (j : Nat) : (splice xs ofs new)[j]? =
      if ofs ≤ j ∧ j < ofs + new.length then new[j - ofs]? else xs[j]? := by
  have hlen : (xs.take ofs).length = ofs := by rw [List.length_take]; omega
  rw [splice, List.append_assoc]
  by_cases h1 : j < ofs
  · rw [List.getElem?_append_left (by omega), if_neg (by omega), List.getElem?_take, if_pos h1]
  · rw [List.getElem?_append_right (by omega), hlen]
    by_cases h2 : j < ofs + new.length
    · rw [List.getElem?_append_left (by omega), if_pos (by omega)]
    · rw [List.getElem?_append_right (by omega), if_neg (by omega), List.getElem?_drop]
      congr 1
      omega

theorem splice_all {xs new : List α} (h : new.length = xs.length) : splice xs 0 new = new := by
  simp [splice, h]

end Splice

/-! ## 2. Masks -/

/-- Bit `i` is bit `i % 8` of byte `i / 8`. -/
abbrev Mask := List (BitVec 8)

namespace Mask

/-- The byte that holds only bit `i`. -/
def bit (i : Nat) : BitVec 8 := 1#8 <<< (i % 8)

/-- Is bit `i` set? -/
def test (m : Mask) (i : Nat) : Bool := m.getD (i / 8) 0 &&& bit i != 0

/-- Set bit `i`. -/
def mark (m : Mask) (i : Nat) : Mask := m.modify (i / 8) (· ||| bit i)

/-- Unset bit `i`. -/
def clear (m : Mask) (i : Nat) : Mask := m.modify (i / 8) (· &&& ~~~bit i)

/-- Replace byte `k`. -/
def fill (m : Mask) (k : Nat) (b : BitVec 8) : Mask := List.set m k b

/-! ## 3. The bits of one byte -/

variable {i k : Nat}

theorem getLsbD_bit (hk : k < 8) : (bit i).getLsbD k = decide (k = i % 8) := by
  have hi : i % 8 < 8 := Nat.mod_lt _ (by decide)
  unfold bit
  generalize i % 8 = a at hi
  interval_cases a <;> interval_cases k <;> rfl

theorem and_bit_ne_zero (b : BitVec 8) (i : Nat) : (b &&& bit i != 0) = b.getLsbD (i % 8) := by
  have hi : i % 8 < 8 := Nat.mod_lt _ (by decide)
  cases hb : b.getLsbD (i % 8) with
  | true =>
    have hne : b &&& bit i ≠ 0 := by
      intro h
      have hbit := congrArg (fun c : BitVec 8 => c.getLsbD (i % 8)) h
      simp [getLsbD_bit hi, hb] at hbit
    simpa using hne
  | false =>
    have hz : b &&& bit i = 0 := by
      refine BitVec.eq_of_getLsbD_eq fun k hk => ?_
      rw [BitVec.getLsbD_and, getLsbD_bit hk]
      by_cases hki : k = i % 8
      · subst hki
        simp [hb]
      · simp [hki]
    simp [hz]

theorem test_eq (m : Mask) (i : Nat) : m.test i = (m.getD (i / 8) 0).getLsbD (i % 8) :=
  and_bit_ne_zero _ _

/-! ## 4. Which bits an update changes -/

@[simp] theorem length_mark (m : Mask) (i : Nat) : (m.mark i).length = m.length := by simp [mark]

@[simp] theorem length_clear (m : Mask) (i : Nat) : (m.clear i).length = m.length := by
  simp [clear]

@[simp] theorem length_fill (m : Mask) (k : Nat) (b : BitVec 8) :
    (m.fill k b).length = m.length := by simp [fill]

theorem getD_modify (m : Mask) (f : BitVec 8 → BitVec 8) (hk : k < m.length) (j : Nat) :
    (m.modify k f).getD j 0 = if k = j then f (m.getD j 0) else m.getD j 0 := by
  rw [List.getD_eq_getElem?_getD, List.getElem?_modify, List.getD_eq_getElem?_getD]
  by_cases hkj : k = j
  · subst hkj
    simp [List.getElem?_eq_getElem hk]
  · simp [hkj]

theorem eq_iff_div_mod (i j : Nat) : i = j ↔ i / 8 = j / 8 ∧ j % 8 = i % 8 := by omega

/-- An update of byte `k` sends the bits of that byte through `f` and keeps the others. -/
theorem test_modify (m : Mask) (f : BitVec 8 → BitVec 8) (hk : k < m.length) (j : Nat) :
    Mask.test (m.modify k f) j =
      if k = j / 8 then (f (m.getD (j / 8) 0)).getLsbD (j % 8) else m.test j := by
  rw [test_eq, test_eq, getD_modify m f hk]
  split <;> rfl

theorem test_mark (m : Mask) (hi : i / 8 < m.length) (j : Nat) :
    (m.mark i).test j = (decide (i = j) || m.test j) := by
  have hj : j % 8 < 8 := Nat.mod_lt _ (by decide)
  rw [mark, test_modify m _ hi]
  by_cases hk : i / 8 = j / 8
  · rw [if_pos hk, test_eq, BitVec.getLsbD_or, getLsbD_bit hj, Bool.or_comm]
    simp only [eq_iff_div_mod i j, hk, true_and]
  · have hne : i ≠ j := fun h => hk (by rw [h])
    simp [hk, hne]

theorem test_clear (m : Mask) (hi : i / 8 < m.length) (j : Nat) :
    (m.clear i).test j = (!decide (i = j) && m.test j) := by
  have hj : j % 8 < 8 := Nat.mod_lt _ (by decide)
  rw [clear, test_modify m _ hi]
  by_cases hk : i / 8 = j / 8
  · rw [if_pos hk, test_eq, BitVec.getLsbD_and, BitVec.getLsbD_not, getLsbD_bit hj, Bool.and_comm]
    simp [eq_iff_div_mod i j, hk, hj]
  · have hne : i ≠ j := fun h => hk (by rw [h])
    simp [hk, hne]

theorem test_fill (m : Mask) (hk : k < m.length) (b : BitVec 8) (j : Nat) :
    (m.fill k b).test j = if k = j / 8 then b.getLsbD (j % 8) else m.test j := by
  rw [fill, test_eq, test_eq, List.getD_eq_getElem?_getD, List.getElem?_set,
    List.getD_eq_getElem?_getD]
  by_cases hkj : k = j / 8
  · subst hkj
    simp [hk]
  · simp [hkj]

/-- The byte with the `n` lowest bits set. -/
theorem getLsbD_low {n : Nat} (hn : n ≤ 8) (hk : k < 8) :
    (0xFF#8 >>> (8 - n)).getLsbD k = decide (k < n) := by
  interval_cases n <;> interval_cases k <;> rfl

end Mask

end Trustme.Lib
