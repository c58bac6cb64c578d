/-
  Subject:   Natural numbers as lists of limbs of `w` bits, the lowest first.

  * `value`: the number of a list; `testBit_value` reads its bits off the limbs;
  * `value_eq_of_bits`: a list with the bits of a number has its value;
  * `Trimmed`, `trim`: lists without zeros at the upper end, and their least value.
-/
import Mathlib.Data.List.DropRight
import Mathlib.Data.Nat.Bitwise
import Mathlib.Tactic.Ring

namespace Trustme.Lib

variable {w : Nat}

/-! ## 1. Values -/

/-- The number of a list of limbs. -/
def value : List (BitVec w) → Nat
  | [] => 0
  | limb :: limbs => limb.toNat + 2 ^ w * value limbs

/-- The limb at a place, zero above the list. -/
def limbAt (limbs : List (BitVec w)) (p : Nat) : BitVec w := limbs.getD p 0

variable (limbs : List (BitVec w))

include limbs

theorem limbAt_set {i : Nat} (hi : i < limbs.length) (x : BitVec w)
    (p : Nat) : limbAt (limbs.set i x) p = if p = i then x else limbAt limbs p := by
  unfold limbAt
  rw [List.getD_eq_getElem?_getD, List.getD_eq_getElem?_getD, List.getElem?_set]
  split_ifs with h1 h2
  · rfl
  · omega
  · omega
  · rfl

omit limbs in
theorem limbAt_of_le {limbs : List (BitVec w)} {p : Nat} (h : limbs.length ≤ p) :
    limbAt limbs p = 0 := by
  unfold limbAt
  rw [List.getD_eq_getElem?_getD, List.getElem?_eq_none h]
  rfl

theorem value_lt : value limbs < 2 ^ (w * limbs.length) := by
  induction limbs with
  | nil => exact Nat.one_pos
  | cons limb limbs ih =>
    have h := limb.isLt
    have hpow : 2 ^ (w * (limbs.length + 1)) = 2 ^ w * 2 ^ (w * limbs.length) := by
      rw [← pow_add]
      congr 1
      ring
    rw [value, List.length_cons, hpow]
    calc limb.toNat + 2 ^ w * value limbs < 2 ^ w + 2 ^ w * value limbs := by omega
      _ = 2 ^ w * (value limbs + 1) := by ring
      _ ≤ _ := Nat.mul_le_mul_left _ ih

omit limbs in
theorem value_append (low high : List (BitVec w)) :
    value (low ++ high) = value low + 2 ^ (w * low.length) * value high := by
  induction low with
  | nil => simp [value]
  | cons limb low ih =>
    rw [List.cons_append, value, ih, value, List.length_cons, Nat.mul_succ, pow_add]
    ring

theorem value_eq_zero_iff : value limbs = 0 ↔ ∀ limb ∈ limbs, limb = 0 := by
  induction limbs with
  | nil => exact ⟨fun _ _ h => (List.not_mem_nil h).elim, fun _ => rfl⟩
  | cons limb limbs ih =>
    have hp := Nat.two_pow_pos w
    rw [value, Nat.add_eq_zero_iff, Nat.mul_eq_zero, or_iff_right hp.ne', ih,
      List.forall_mem_cons, BitVec.toNat_eq]
    rfl

/-- The lower limbs are the remainder. -/
theorem value_mod (n : Nat) :
    value limbs % 2 ^ (w * n) = value (limbs.take n) := by
  have hlt : value (limbs.take n) < 2 ^ (w * n) := (value_lt _).trans_le
    (Nat.pow_le_pow_right (by decide) (Nat.mul_le_mul_left w (List.length_take_le n limbs)))
  rcases Nat.le_total n limbs.length with hn | hn
  · have h := value_append (limbs.take n) (limbs.drop n)
    rw [List.take_append_drop, List.length_take, Nat.min_eq_left hn] at h
    rw [h, Nat.add_mul_mod_self_left, Nat.mod_eq_of_lt hlt]
  · rw [List.take_of_length_le hn] at hlt ⊢
    exact Nat.mod_eq_of_lt hlt

/-- The upper limbs are the quotient. -/
theorem value_div {n : Nat} (hn : n ≤ limbs.length) :
    value limbs / 2 ^ (w * n) = value (limbs.drop n) := by
  have h := value_append (limbs.take n) (limbs.drop n)
  have hlt := value_lt (limbs.take n)
  rw [List.take_append_drop] at h
  rw [List.length_take, Nat.min_eq_left hn] at h hlt
  rw [h, Nat.add_mul_div_left _ _ (Nat.two_pow_pos _), Nat.div_eq_of_lt hlt, Nat.zero_add]

/-- The lowest bits are those of the lowest limb. -/
theorem value_mod_low {r : Nat} (hr : r ≤ w) :
    value limbs % 2 ^ r = (limbAt limbs 0).toNat % 2 ^ r := by
  cases limbs with
  | nil => rfl
  | cons limb limbs =>
    obtain ⟨k, rfl⟩ := Nat.exists_eq_add_of_le hr
    rw [value, pow_add, Nat.mul_assoc, Nat.add_mul_mod_self_left]
    rfl

/-! ## 2. Bits -/

/-- The bits of a number are those of its limbs. -/
theorem testBit_value (p : Nat) {i : Nat} (hi : i < w) :
    (value limbs).testBit (w * p + i) = (limbAt limbs p).getLsbD i := by
  induction limbs generalizing p with
  | nil => simp [value, limbAt]
  | cons limb limbs ih =>
    rw [value, Nat.add_comm, Nat.testBit_two_pow_mul_add _ limb.isLt]
    cases p with
    | zero =>
      rw [Nat.mul_zero, Nat.zero_add, if_pos hi]
      rfl
    | succ p =>
      have hp : w * (p + 1) = w * p + w := Nat.mul_succ w p
      rw [if_neg (by omega), show w * (p + 1) + i - w = w * p + i by omega, ih]
      rfl

omit limbs in
/-- A list that has the bits of a number has its value. -/
theorem value_eq_of_bits (hw : 0 < w) {limbs : List (BitVec w)} {n : Nat}
    (h : ∀ p i, i < w → n.testBit (w * p + i) = (limbAt limbs p).getLsbD i) : value limbs = n := by
  refine Nat.eq_of_testBit_eq fun j => ?_
  have hj : w * (j / w) + j % w = j := Nat.div_add_mod j w
  have hlt := Nat.mod_lt j hw
  rw [← hj, testBit_value _ _ hlt, h _ _ hlt]

/-! ## 3. No zeros at the upper end -/

omit limbs in
/-- The limb at the upper end is not zero. -/
def Trimmed (limbs : List (BitVec w)) : Prop := limbs.getLast? ≠ some 0

omit limbs in
/-- Zeros are dropped from the upper end. -/
def trim (limbs : List (BitVec w)) : List (BitVec w) := limbs.rdropWhile (· == 0)

theorem trimmed_trim : Trimmed (trim limbs) := by
  unfold Trimmed trim
  intro h
  have hne : limbs.rdropWhile (· == 0) ≠ [] := by
    intro hnil
    rw [hnil] at h
    cases h
  have hlast := List.rdropWhile_last_not (· == 0) limbs hne
  rw [List.getLast?_eq_some_getLast hne, Option.some.injEq] at h
  rw [h] at hlast
  exact hlast rfl

theorem value_trim : value (trim limbs) = value limbs := by
  unfold trim
  induction limbs using List.reverseRecOn with
  | nil => rfl
  | append_singleton limbs limb ih =>
    by_cases h : limb = 0
    · rw [List.rdropWhile_concat_pos _ _ _ (by rw [h]; rfl), ih, value_append, h]
      simp [value]
    · rw [List.rdropWhile_concat_neg _ _ _ (by simpa using h)]

omit limbs

section Trimmed

variable {limbs : List (BitVec w)} (h : Trimmed limbs)

include h

/-- A trimmed list is its lower limbs and one that is not zero. -/
theorem Trimmed.exists_top (hne : limbs ≠ []) : ∃ low top, limbs = low ++ [top] ∧ top ≠ 0 := by
  refine ⟨limbs.dropLast, limbs.getLast hne, (List.dropLast_append_getLast hne).symm,
    fun h0 => h ?_⟩
  rw [List.getLast?_eq_some_getLast hne, h0]

theorem Trimmed.le_value (hne : limbs ≠ []) : 2 ^ (w * (limbs.length - 1)) ≤ value limbs := by
  obtain ⟨low, top, rfl, htop⟩ := h.exists_top hne
  have hpos : 0 < top.toNat := Nat.pos_of_ne_zero fun h0 => htop (BitVec.eq_of_toNat_eq h0)
  rw [value_append, List.length_append, List.length_singleton, Nat.add_sub_cancel]
  calc 2 ^ (w * low.length) ≤ 2 ^ (w * low.length) * top.toNat := Nat.le_mul_of_pos_right _ hpos
    _ = 2 ^ (w * low.length) * value [top] := by rw [value, value, Nat.mul_zero, Nat.add_zero]
    _ ≤ _ := Nat.le_add_left _ _

theorem Trimmed.eq_nil_iff : limbs = [] ↔ value limbs = 0 := by
  constructor
  · rintro rfl
    rfl
  · intro h0
    by_contra hne
    have hle := h.le_value hne
    have := Nat.two_pow_pos (w * (limbs.length - 1))
    omega

end Trimmed

end Trustme.Lib
