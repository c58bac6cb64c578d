/-
  Subject:   Insertion sort in place, by a test that says what goes before what.

  * `insertBack`, `insertionSort`: what is inserted moves towards the front while it goes before
    its neighbour;
  * `Precedes`: one goes before the other, or neither does and it came earlier;
  * `insertionSort_perm`, `insertionSort_pairwise`: the result has the same elements, and each
    precedes those after it;
  * `eq_of_precedes`: one list only has both.
-/
import Mathlib.Data.List.Induction
import Mathlib.Data.List.Sort

namespace Trustme.Lib

variable {α : Type} (before : α → α → Bool)

/-- `x` goes into a list that is read from its end. -/
def shiftIn (x : α) : List α → List α
  | [] => [x]
  | y :: l => if before x y then y :: shiftIn x l else x :: y :: l

/-- `x` moves from the end of the list towards its front. -/
def insertBack (l : List α) (x : α) : List α := (shiftIn before x l.reverse).reverse

/-- The elements are inserted one after the other. -/
def insertionSort (l : List α) : List α := l.foldl (insertBack before) []

theorem shiftIn_perm (x : α) (l : List α) : (shiftIn before x l).Perm (x :: l) := by
  fun_induction shiftIn before x l with
  | case1 => exact List.Perm.refl _
  | case2 y l _ ih => exact (ih.cons y).trans (List.Perm.swap x y l)
  | case3 y l _ => exact List.Perm.refl _

theorem insertBack_perm (l : List α) (x : α) : (insertBack before l x).Perm (l ++ [x]) :=
  calc
    (insertBack before l x).Perm (shiftIn before x l.reverse) := List.reverse_perm _
    _ |>.Perm (x :: l.reverse) := shiftIn_perm before x _
    _ |>.Perm (x :: l) := (List.reverse_perm l).cons x
    _ |>.Perm (l ++ [x]) := (List.perm_append_singleton x l).symm

theorem foldl_insertBack_perm (l acc : List α) :
    (l.foldl (insertBack before) acc).Perm (acc ++ l) := by
  induction l generalizing acc with
  | nil => rw [List.append_nil, List.foldl_nil]
  | cons x l ih =>
    rw [List.foldl_cons, List.append_cons]
    exact (ih _).trans ((insertBack_perm before acc x).append_right l)

theorem insertionSort_perm (l : List α) :
    (insertionSort before l).Perm l := foldl_insertBack_perm before l []

/-! ## 1. The result is in order -/

/-- `a` goes before `b`, or neither goes before the other and `a` came earlier. -/
def Precedes (earlier : α → α → Prop) (a b : α) : Prop :=
  before a b = true ∨ before b a = false ∧ earlier a b

variable {before}

/-- What is asked of the test: the elements it does not tell apart are all alike to it. -/
structure WeakOrder (before : α → α → Bool) : Prop where
  asymm : ∀ a b, before a b = true → before b a = false
  negTrans : ∀ a b c, before a b = false → before b c = false → before a c = false

theorem WeakOrder.lt_of_lt_of_le (h : WeakOrder before) {a b c : α} (hab : before a b = true)
    (hcb : before c b = false) : before a c = true := by
  cases hac : before a c with
  | true => rfl
  | false =>
    have hab' := h.negTrans a c b hac hcb
    exact absurd hab (by simp [hab'])

variable {earlier : α → α → Prop}

theorem shiftIn_pairwise (h : WeakOrder before) (x : α) (l : List α)
    (hl : l.Pairwise fun a b => Precedes before earlier b a) (hx : ∀ y ∈ l, earlier y x) :
    (shiftIn before x l).Pairwise fun a b => Precedes before earlier b a := by
  induction l with
  | nil => exact List.pairwise_singleton _ _
  | cons y l ih =>
    obtain ⟨hy, hl'⟩ := List.pairwise_cons.1 hl
    have hx' : ∀ z ∈ l, earlier z x := fun z hz => hx z (List.mem_cons_of_mem _ hz)
    rw [shiftIn]
    split
    · -- `y` stays behind `x`, which goes on
      rename_i hxy
      refine List.pairwise_cons.2 ⟨fun z hz => ?_, ih hl' hx'⟩
      rcases List.mem_cons.1 ((shiftIn_perm before x l).mem_iff.1 hz) with rfl | hz
      · exact Or.inl hxy
      · exact hy z hz
    · -- `x` stops: what is not after `y` is not after `x` either
      rename_i hxy
      rw [Bool.not_eq_true] at hxy
      refine List.pairwise_cons.2 ⟨fun z hz => ?_, hl⟩
      rcases List.mem_cons.1 hz with rfl | hz
      · exact Or.inr ⟨hxy, hx z List.mem_cons_self⟩
      · rcases hy z hz with hzy | ⟨hyz, _⟩
        · exact Or.inl (h.lt_of_lt_of_le hzy hxy)
        · exact Or.inr ⟨h.negTrans x y z hxy hyz, hx' z hz⟩

theorem insertBack_pairwise (h : WeakOrder before) {l : List α} {x : α}
    (hl : l.Pairwise (Precedes before earlier)) (hx : ∀ y ∈ l, earlier y x) :
    (insertBack before l x).Pairwise (Precedes before earlier) := by
  rw [insertBack, List.pairwise_reverse]
  refine shiftIn_pairwise h x l.reverse (List.pairwise_reverse.2 hl) fun y hy => ?_
  exact hx y (List.mem_reverse.1 hy)

theorem insertionSort_pairwise (h : WeakOrder before) {l : List α} (hl : l.Pairwise earlier) :
    (insertionSort before l).Pairwise (Precedes before earlier) := by
  induction l using List.reverseRecOn with
  | nil => exact List.Pairwise.nil
  | append_singleton l x ih =>
    obtain ⟨hl', _, hx⟩ := List.pairwise_append.1 hl
    rw [insertionSort, List.foldl_append, List.foldl_cons, List.foldl_nil]
    refine insertBack_pairwise h (ih hl') fun y hy => ?_
    exact hx y ((insertionSort_perm before l).mem_iff.1 hy) x (List.mem_singleton.2 rfl)

/-! ## 2. One list only is in order -/

theorem Precedes.asymm (h : WeakOrder before) (he : ∀ a b, earlier a b → ¬ earlier b a) {a b : α}
    (hab : Precedes before earlier a b) : ¬ Precedes before earlier b a := by
  rintro (hba | ⟨hab', hba⟩) <;> rcases hab with hab | ⟨hba', hab⟩
  · exact absurd hba (by simp [h.asymm a b hab])
  · exact absurd hba (by simp [hba'])
  · exact absurd hab (by simp [hab'])
  · exact he a b hab hba

theorem eq_of_precedes (h : WeakOrder before) (he : ∀ a b, earlier a b → ¬ earlier b a)
    {l₁ l₂ : List α}
    (hp : l₁.Perm l₂) (h₁ : l₁.Pairwise (Precedes before earlier))
    (h₂ : l₂.Pairwise (Precedes before earlier)) : l₁ = l₂ :=
  List.Perm.eq_of_pairwise (fun _ _ _ _ hab hba => absurd hba (hab.asymm h he)) h₁ h₂ hp

end Trustme.Lib
