/-
  Subject:   Texts that are lists of parts with a separator between them, and their order as texts.

  * `split`, `join`: the parts of a text, and back;
  * `compare_join`: two texts are ordered by the first parts that differ, each with the separator
    behind it unless it is the last;
  * `compare_marked`: when that is the order of the two parts.
-/
import Mathlib.Data.List.Basic
import Mathlib.Order.Basic

namespace Trustme.Lib

open Std

variable {α : Type} [DecidableEq α] {sep : α}

/-! ## 1. Parts -/

def split (sep : α) : List α → List (List α)
  | [] => [[]]
  | b :: s =>
    if b = sep then [] :: split sep s
    else
      match split sep s with
      | [] => [[b]]
      | x :: xs => (b :: x) :: xs

/-- What is behind the first part. -/
def behind (sep : α) : List (List α) → List α
  | [] => []
  | x :: xs => sep :: (x ++ behind sep xs)

def join (sep : α) : List (List α) → List α
  | [] => []
  | x :: xs => x ++ behind sep xs

theorem split_ne_nil (s : List α) : split sep s ≠ [] := by
  cases s with
  | nil => exact List.cons_ne_nil _ _
  | cons b s =>
    rw [split]
    split
    · exact List.cons_ne_nil _ _
    · split <;> exact List.cons_ne_nil _ _

theorem join_split (s : List α) : join sep (split sep s) = s := by
  induction s with
  | nil => rfl
  | cons b s ih =>
    rw [split]
    cases hs : split sep s with
    | nil => exact absurd hs (split_ne_nil s)
    | cons x xs =>
      rw [hs, join] at ih
      split_ifs with hb
      · rw [join, behind, List.nil_append, hb, ih]
      · rw [join, List.cons_append, ih]

variable {s x : List α}

/-- No part has the separator. -/
theorem not_mem_split (hx : x ∈ split sep s) : sep ∉ x := by
  induction s generalizing x with
  | nil =>
    rw [List.mem_singleton.mp hx]
    exact List.not_mem_nil
  | cons b s ih =>
    rw [split] at hx
    cases hs : split sep s with
    | nil => exact absurd hs (split_ne_nil s)
    | cons y ys =>
      rw [hs] at hx ih
      split_ifs at hx with hb
      · rcases List.mem_cons.mp hx with rfl | hx
        · exact List.not_mem_nil
        · exact ih hx
      · rcases List.mem_cons.mp hx with rfl | hx
        · rintro hmem
          rcases List.mem_cons.mp hmem with heq | hmem
          · exact hb heq.symm
          · exact ih List.mem_cons_self hmem
        · exact ih (List.mem_cons_of_mem y hx)

omit [DecidableEq α] in
theorem mem_behind {l : List (List α)} {b : α} (hb : b ∈ behind sep l) :
    b = sep ∨ ∃ x ∈ l, b ∈ x := by
  induction l with
  | nil => exact absurd hb List.not_mem_nil
  | cons x l ih =>
    rw [behind, List.mem_cons, List.mem_append] at hb
    rcases hb with hb | hb | hb
    · exact .inl hb
    · exact .inr ⟨x, List.mem_cons_self, hb⟩
    · rcases ih hb with hb | ⟨y, hy, hb⟩
      · exact .inl hb
      · exact .inr ⟨y, List.mem_cons_of_mem x hy, hb⟩

omit [DecidableEq α] in
theorem mem_join {l : List (List α)} {b : α} (hb : b ∈ join sep l) : b = sep ∨ ∃ x ∈ l, b ∈ x := by
  cases l with
  | nil => exact absurd hb List.not_mem_nil
  | cons x l =>
    rw [join, List.mem_append] at hb
    rcases hb with hb | hb
    · exact .inr ⟨x, List.mem_cons_self, hb⟩
    · rcases mem_behind hb with hb | ⟨y, hy, hb⟩
      · exact .inl hb
      · exact .inr ⟨y, List.mem_cons_of_mem x hy, hb⟩

/-- What is in a part is in the text. -/
theorem mem_of_mem_split (hx : x ∈ split sep s) {b : α} (hb : b ∈ x) : b ∈ s := by
  have hbehind : ∀ l : List (List α), x ∈ l → b ∈ behind sep l := by
    intro l hl
    induction l with
    | nil => exact absurd hl List.not_mem_nil
    | cons y l ih =>
      rw [behind, List.mem_cons, List.mem_append]
      rcases List.mem_cons.mp hl with rfl | hl
      · exact .inr (.inl hb)
      · exact .inr (.inr (ih hl))
  rw [← join_split s]
  cases hs : split sep s with
  | nil => exact absurd hs (split_ne_nil s)
  | cons y l =>
    rw [hs] at hx
    rw [join, List.mem_append]
    rcases List.mem_cons.mp hx with rfl | hx
    · exact .inl hb
    · exact .inr (hbehind l hx)

theorem split_append (hs : sep ∉ s) (t : List α) :
    split sep (s ++ sep :: t) = s :: split sep t := by
  induction s with
  | nil => rw [List.nil_append, split, if_pos rfl]
  | cons b s ih =>
    have hb : b ≠ sep := fun heq => hs (heq ▸ List.mem_cons_self)
    rw [List.cons_append, split, if_neg hb, ih fun h => hs (List.mem_cons_of_mem b h)]

theorem split_single (hs : sep ∉ s) : split sep s = [s] := by
  induction s with
  | nil => rfl
  | cons b s ih =>
    have hb : b ≠ sep := fun heq => hs (heq ▸ List.mem_cons_self)
    rw [split, if_neg hb, ih fun h => hs (List.mem_cons_of_mem b h)]

/-- What is behind the parts goes with the last of them. -/
theorem split_join_append {xs : List (List α)} (hxs : ∀ y ∈ x :: xs, sep ∉ y) (t : List α)
    {y : List α} {ys : List (List α)} (ht : split sep t = y :: ys) :
    split sep (join sep (x :: xs) ++ t) =
      (x :: xs).dropLast ++ ((x :: xs).getLast (List.cons_ne_nil x xs) ++ y) :: ys := by
  induction xs generalizing x with
  | nil =>
    have hx := hxs x List.mem_cons_self
    rw [join, behind, List.append_nil, List.dropLast_singleton, List.nil_append,
      List.getLast_singleton]
    clear hxs
    induction x with
    | nil => exact ht
    | cons b x ih =>
      have hb : b ≠ sep := fun heq => hx (heq ▸ List.mem_cons_self)
      rw [List.cons_append, split, if_neg hb, ih fun h => hx (List.mem_cons_of_mem b h)]
      rfl
  | cons z xs ih =>
    have hrest := ih fun y hy => hxs y (List.mem_cons_of_mem x hy)
    rw [join, behind, List.append_assoc, List.cons_append, split_append (hxs x List.mem_cons_self)]
    change x :: split sep (join sep (z :: xs) ++ t) = _
    rw [hrest, List.dropLast_cons_cons, List.getLast_cons (List.cons_ne_nil z xs)]
    rfl

theorem split_join {xs : List (List α)} (hxs : ∀ y ∈ x :: xs, sep ∉ y) :
    split sep (join sep (x :: xs)) = x :: xs := by
  have h := split_join_append hxs [] (rfl : split sep [] = [[]])
  rwa [List.append_nil, List.append_nil, List.dropLast_append_getLast] at h

/-! ## 2. Order -/

/-- The separator, if more parts follow. -/
def mark (sep : α) (more : Bool) : List α := if more then [sep] else []

/-- The first parts that differ, each with the parts that follow it. -/
def firstDifference :
    List (List α) → List (List α) → Option ((List α × List (List α)) × List α × List (List α))
  | x :: xs, y :: ys => if x = y then firstDifference xs ys else some ((x, xs), y, ys)
  | _, _ => none

theorem firstDifference_mem {xs ys : List (List α)} {y : List α} {xs' ys' : List (List α)}
    (h : firstDifference xs ys = some ((x, xs'), y, ys')) : x ∈ xs ∧ y ∈ ys ∧ x ≠ y := by
  induction xs generalizing ys with
  | nil => cases h
  | cons u xs ih =>
    cases ys with
    | nil => cases h
    | cons v ys =>
      rw [firstDifference] at h
      split_ifs at h with huv
      · obtain ⟨hx, hy, hne⟩ := ih h
        exact ⟨List.mem_cons_of_mem u hx, List.mem_cons_of_mem v hy, hne⟩
      · cases h
        exact ⟨List.mem_cons_self, List.mem_cons_self, huv⟩

theorem compare_succ (m n : Nat) : compare (m + 1) (n + 1) = compare m n := by
  simp [compare, compareOfLessAndEq]

/-- In the lexicographic order of lists of parts. -/
theorem compareLex_firstDifference {cmp : List α → List α → Ordering} [ReflCmp cmp]
    (xs ys : List (List α)) :
    List.compareLex cmp xs ys =
      match firstDifference xs ys with
      | some ((x, xs'), y, ys') => (cmp x y).then (List.compareLex cmp xs' ys')
      | none => compare xs.length ys.length := by
  induction xs generalizing ys with
  | nil => cases ys <;> rfl
  | cons x xs ih =>
    cases ys with
    | nil => rfl
    | cons y ys =>
      rw [List.compareLex_cons_cons, firstDifference]
      split_ifs with hxy
      · have hself : cmp y y = .eq := ReflCmp.compare_self
        rw [hxy, hself, Ordering.eq_then, ih, List.length_cons, List.length_cons, compare_succ]
      · rfl

section Texts

variable [Ord α] [LawfulEqOrd α]

omit [DecidableEq α] in
theorem compare_append_self (x s t : List α) : compare (x ++ s) (x ++ t) = compare s t := by
  induction x with
  | nil => rfl
  | cons a x ih =>
    rw [List.cons_append, List.cons_append, List.compare_cons_cons, ReflOrd.compare_self]
    exact ih

omit [DecidableEq α] in
/-- Behind parts that differ only the separator counts. -/
theorem compare_behind {x y : List α} (hx : sep ∉ x) (hy : sep ∉ y) (hne : x ≠ y)
    (xs ys : List (List α)) : compare (x ++ behind sep xs) (y ++ behind sep ys) =
      compare (x ++ mark sep (!xs.isEmpty)) (y ++ mark sep (!ys.isEmpty)) := by
  induction x generalizing y with
  | nil =>
    cases y with
    | nil => exact absurd rfl hne
    | cons b y =>
      have hb : sep ≠ b := fun heq => hy (heq ▸ List.mem_cons_self)
      cases xs with
      | nil => rfl
      | cons x xs =>
        have hcompare : compare sep b ≠ .eq := fun h => hb (LawfulEqOrd.eq_of_compare h)
        rw [List.nil_append, List.nil_append, behind, mark, List.isEmpty_cons, Bool.not_false,
          if_pos rfl, List.cons_append, List.cons_append, List.compare_cons_cons,
            List.compare_cons_cons]
        cases hc : compare sep b with
        | lt => rfl
        | gt => rfl
        | eq => exact absurd hc hcompare
  | cons a x ih =>
    cases y with
    | nil =>
      have ha : a ≠ sep := fun heq => hx (heq ▸ List.mem_cons_self)
      cases ys with
      | nil => rfl
      | cons y ys =>
        have hcompare : compare a sep ≠ .eq := fun h => ha (LawfulEqOrd.eq_of_compare h)
        rw [List.nil_append, List.nil_append, behind, mark, mark, List.isEmpty_cons, Bool.not_false,
          if_pos rfl, List.cons_append, List.cons_append, List.compare_cons_cons,
            List.compare_cons_cons]
        cases hc : compare a sep with
        | lt => rfl
        | gt => rfl
        | eq => exact absurd hc hcompare
    | cons b y =>
      rw [List.cons_append, List.cons_append, List.cons_append, List.cons_append,
        List.compare_cons_cons, List.compare_cons_cons]
      cases hc : compare a b with
      | lt => rfl
      | gt => rfl
      | eq =>
        obtain rfl := LawfulEqOrd.eq_of_compare hc
        exact ih (fun h => hx (List.mem_cons_of_mem a h)) (fun h => hy (List.mem_cons_of_mem a h))
          fun h => hne (congrArg (a :: ·) h)

/-- Texts of parts without separators are compared like this from any place on. -/
theorem compare_behind_parts {xs ys : List (List α)} (hxs : ∀ x ∈ xs, sep ∉ x)
    (hys : ∀ y ∈ ys, sep ∉ y) :
    compare (behind sep xs) (behind sep ys) =
      match firstDifference xs ys with
      | some ((x, xs'), y, ys') =>
        compare (x ++ mark sep (!xs'.isEmpty)) (y ++ mark sep (!ys'.isEmpty))
      | none => compare xs.length ys.length := by
  induction xs generalizing ys with
  | nil => cases ys <;> rfl
  | cons x xs ih =>
    cases ys with
    | nil => rfl
    | cons y ys =>
      have hself : compare sep sep = .eq := ReflOrd.compare_self
      rw [behind, behind, List.compare_cons_cons, hself, Ordering.eq_then, firstDifference]
      split_ifs with hxy
      · rw [hxy, compare_append_self, ih (fun z hz => hxs z (List.mem_cons_of_mem x hz))
          (fun z hz => hys z (List.mem_cons_of_mem y hz)), List.length_cons, List.length_cons,
            compare_succ]
      · exact compare_behind (hxs x List.mem_cons_self) (hys y List.mem_cons_self) hxy xs ys

/-- Two texts are ordered by their first parts that differ. -/
theorem compare_join {xs ys : List (List α)} (hxs : ∀ x ∈ xs, sep ∉ x) (hys : ∀ y ∈ ys, sep ∉ y)
    (hx : xs ≠ []) (hy : ys ≠ []) : compare (join sep xs) (join sep ys) =
      match firstDifference xs ys with
      | some ((x, xs'), y, ys') =>
        compare (x ++ mark sep (!xs'.isEmpty)) (y ++ mark sep (!ys'.isEmpty))
      | none => compare xs.length ys.length := by
  obtain ⟨x, xs, rfl⟩ := List.exists_cons_of_ne_nil hx
  obtain ⟨y, ys, rfl⟩ := List.exists_cons_of_ne_nil hy
  have hself : compare sep sep = .eq := ReflOrd.compare_self
  have hbehind := compare_behind_parts hxs hys
  rwa [behind, behind, List.compare_cons_cons, hself, Ordering.eq_then] at hbehind

omit [DecidableEq α] in
/-- A mark against a part. -/
theorem mark_first [OrientedOrd α] {b : α} (hb : sep ≠ b) (y : List α) (m : Bool) :
    compare (mark sep m) (b :: y) ≠ .lt ↔ compare b sep = .lt ∧ m = true := by
  cases m with
  | false => simp [mark]
  | true =>
    have hneq : compare sep b ≠ .eq := fun h => hb (LawfulEqOrd.eq_of_compare h)
    have hswap : compare b sep = (compare sep b).swap := OrientedOrd.eq_swap
    rw [mark, if_pos rfl, List.compare_cons_cons, hswap]
    cases hc : compare sep b with
    | lt => simp
    | gt => simp
    | eq => exact absurd hc hneq

omit [DecidableEq α] in
/-- A mark counts where one part begins the other, which goes on with something below the mark. -/
theorem compare_marked [OrientedOrd α] {x y : List α} (hx : sep ∉ x) (hy : sep ∉ y) (hne : x ≠ y)
    (m n : Bool) : compare (x ++ mark sep m) (y ++ mark sep n) ≠ compare x y ↔
      (∃ b w, y = x ++ b :: w ∧ compare b sep = .lt ∧ m = true) ∨
        ∃ b w, x = y ++ b :: w ∧ compare b sep = .lt ∧ n = true := by
  induction x generalizing y with
  | nil =>
    cases y with
    | nil => exact absurd rfl hne
    | cons b y =>
      have hb : sep ≠ b := fun heq => hy (heq ▸ List.mem_cons_self)
      have hfirst := mark_first hb (y ++ mark sep n) m
      have hempty : compare [] (b :: y) = .lt := rfl
      rw [List.nil_append, List.cons_append, hempty, hfirst]
      simp
  | cons a x ih =>
    cases y with
    | nil =>
      have ha : sep ≠ a := fun heq => hx (heq ▸ List.mem_cons_self)
      have hfirst := mark_first ha (x ++ mark sep m) n
      have hempty : compare (a :: x) [] = .gt := rfl
      have hswap : compare (a :: (x ++ mark sep m)) (mark sep n) =
          (compare (mark sep n) (a :: (x ++ mark sep m))).swap := OrientedOrd.eq_swap
      rw [List.nil_append, List.cons_append, hempty, hswap, ne_eq, Ordering.swap_eq_gt,
        ← ne_eq, hfirst]
      simp
    | cons b y =>
      by_cases hab : a = b
      · subst hab
        have hself : compare a a = .eq := ReflOrd.compare_self
        rw [List.cons_append, List.cons_append, List.compare_cons_cons,
          List.compare_cons_cons, hself,
          Ordering.eq_then, Ordering.eq_then, ih (fun h => hx (List.mem_cons_of_mem a h))
          (fun h => hy (List.mem_cons_of_mem a h)) fun h => hne (congrArg (a :: ·) h)]
        simp
      · have hneq : compare a b ≠ .eq := fun h => hab (LawfulEqOrd.eq_of_compare h)
        have hsame : compare (a :: x ++ mark sep m) (b :: y ++ mark sep n) = compare (a :: x)
          (b :: y) := by
          rw [List.cons_append, List.cons_append, List.compare_cons_cons, List.compare_cons_cons]
          cases hc : compare a b with
          | lt => rfl
          | gt => rfl
          | eq => exact absurd hc hneq
        have hright : ∀ (c : α) (w : List α), b :: y ≠ a :: x ++ c :: w := fun c w h =>
          hab (List.cons_eq_cons.mp h).1.symm
        have hleft : ∀ (c : α) (w : List α), a :: x ≠ b :: y ++ c :: w := fun c w h =>
          hab (List.cons_eq_cons.mp h).1
        simp only [hsame, ne_eq, not_true_eq_false, hright, hleft, false_and, exists_false, or_self]

end Texts

end Trustme.Lib
