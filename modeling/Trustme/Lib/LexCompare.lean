/-
  Subject:   The lexicographic order of lists, computed from the end of their common part.

  * `compareLex_snoc`: two lists of one length are compared up to their last elements first;
  * `compareLex_take`: lists of any lengths are compared to their common length, then by length;
  * `compareParts`: of lists of pairs, first all left parts and then all right parts, an order
    whose equality is equality.
-/
import Mathlib.Data.List.Basic
import Mathlib.Data.Nat.Basic

namespace Trustme.Lib

open Std

variable {α β : Type}

/-! ## 1. From the end -/

section Ends

variable (cmp : α → α → Ordering)

theorem compareLex_snoc {a b : List α} (x y : α) (h : a.length = b.length) :
    List.compareLex cmp (a ++ [x]) (b ++ [y]) = (List.compareLex cmp a b).then (cmp x y) := by
  induction a generalizing b with
  | nil =>
    obtain rfl : b = [] := List.length_eq_zero_iff.mp h.symm
    simp [List.compareLex_cons_cons, List.compareLex_nil_nil]
  | cons c a ih =>
    obtain _ | ⟨d, b⟩ := b
    · cases h
    · rw [List.cons_append, List.cons_append, List.compareLex_cons_cons, List.compareLex_cons_cons,
        ih (Nat.succ.inj h), Ordering.then_assoc]

theorem compareLex_take (a b : List α) : List.compareLex cmp a b =
    (List.compareLex cmp (a.take (min a.length b.length)) (b.take (min a.length b.length))).then
      (compare a.length b.length) := by
  induction a generalizing b with
  | nil => cases b <;> rfl
  | cons c a ih =>
    obtain _ | ⟨d, b⟩ := b
    · rfl
    · rw [List.length_cons, List.length_cons, Nat.succ_min_succ, List.take_succ_cons,
        List.take_succ_cons, List.compareLex_cons_cons, List.compareLex_cons_cons, ih b,
        Ordering.then_assoc]
      congr 2
      simp [compare, compareOfLessAndEq]

end Ends

/-! ## 2. Lists of pairs -/

section Pairs

variable [Ord α] [Ord β]

/-- All left parts first, then all right parts. -/
def compareParts (a b : List (α × β)) : Ordering :=
  (compare (a.map Prod.fst) (b.map Prod.fst)).then (compare (a.map Prod.snd) (b.map Prod.snd))

section Orders

variable [TransOrd α] [TransOrd β]

theorem compareParts_swap (a b : List (α × β)) : compareParts b a = (compareParts a b).swap := by
  unfold compareParts
  rw [Ordering.swap_then, ← OrientedOrd.eq_swap, ← OrientedOrd.eq_swap]

theorem compareParts_trans {a b c : List (α × β)} (hab : (compareParts a b).isLE)
    (hbc : (compareParts b c).isLE) : (compareParts a c).isLE := by
  let left : List (α × β) → List (α × β) → Ordering := compareOn (List.map Prod.fst)
  let right : List (α × β) → List (α × β) → Ordering := compareOn (List.map Prod.snd)
  exact (inferInstance : TransCmp (compareLex left right)).isLE_trans hab hbc

end Orders

theorem compareParts_eq [LawfulEqOrd α] [LawfulEqOrd β] {a b : List (α × β)} :
    compareParts a b = .eq ↔ a = b := by
  unfold compareParts
  rw [Ordering.then_eq_eq, LawfulEqOrd.compare_eq_iff_eq, LawfulEqOrd.compare_eq_iff_eq]
  constructor
  · rintro ⟨hfst, hsnd⟩
    rw [← List.zip_unzip a, ← List.zip_unzip b, List.unzip_eq_map, List.unzip_eq_map, hfst, hsnd]
  · rintro rfl
    exact ⟨rfl, rfl⟩

end Pairs

end Trustme.Lib
