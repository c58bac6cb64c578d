/-
  Subject:   Steps that only add facts to a state, and the loop that repeats them until nothing new
             comes.

  * `Adds`: a step adds exactly the facts that are asked for, and tells if one is new;
  * `each`: the same step for every element of a list;
  * `Closed`: a set of facts that has all that its facts ask for;
  * `saturate`: the loop; `saturate_facts`: its result is the least closed set, and
    `saturate_ends`: with finitely many facts it ends.
-/
import Mathlib.Data.Set.Card
import Mathlib.Data.Set.Lattice

namespace Trustme.Lib

variable {σ α F : Type}

/-! ## 1. Steps -/

/-- A step from `s`, with whether it changed anything, adds the facts `asked` for. -/
structure Adds (facts : σ → Set F) (asked : Set F) (s : σ) (r : σ × Bool) : Prop where
  all : facts r.1 = facts s ∪ asked
  same : r.2 = false → r.1 = s
  new : r.2 = true → ¬ asked ⊆ facts s

/-- One step after another for the elements of a list; whether any changed something. -/
def each (op : α → σ → σ × Bool) : List α → σ → σ × Bool
  | [], s => (s, false)
  | a :: l, s =>
    let (s₁, changed₁) := op a s
    let (s₂, changed₂) := each op l s₁
    (s₂, changed₁ || changed₂)

section Steps

variable {facts : σ → Set F} {s : σ}

theorem Adds.nothing : Adds facts ∅ s (s, false) where
  all := (Set.union_empty _).symm
  same _ := rfl
  new h := by cases h

variable {asked : Set F} {r : σ × Bool}

/-- What changes nothing had been asked for before. -/
theorem Adds.changed_iff (h : Adds facts asked s r) :
    r.2 = false ↔ asked ⊆ facts s := by
  constructor
  · intro hsame
    have hfacts := h.all
    rw [h.same hsame] at hfacts
    exact Set.union_eq_left.mp hfacts.symm
  · intro hsub
    cases hr : r.2 with
    | false => rfl
    | true => exact absurd hsub (h.new hr)

theorem Adds.idle (h : Adds facts asked s r) (hsub : asked ⊆ facts s) : r = (s, false) := by
  have hr := h.changed_iff.mpr hsub
  exact Prod.ext (h.same hr) hr

theorem Adds.grows (h : Adds facts asked s r) :
    facts s ⊆ facts r.1 := h.all ▸ Set.subset_union_left

theorem Adds.next {asked asked' : Set F} {r r' : σ × Bool} (h : Adds facts asked s r)
    (h' : Adds facts asked' r.1 r') : Adds facts (asked ∪ asked') s (r'.1, r.2 || r'.2) where
  all := by rw [h'.all, h.all, Set.union_assoc]
  same hor := by
    obtain ⟨hr, hr'⟩ := Bool.or_eq_false_iff.mp hor
    exact (h'.same hr').trans (h.same hr)
  new hor hsub := by
    have hr : r.2 = false := h.changed_iff.mpr (Set.subset_union_left.trans hsub)
    have hr' : r'.2 = false := h'.changed_iff.mpr
      ((Set.subset_union_right.trans hsub).trans h.grows)
    simp only [hr, hr', Bool.or_self, Bool.false_eq_true] at hor

theorem Adds.congr {asked' : Set F} (h : Adds facts asked s r)
    (heq : asked = asked') : Adds facts asked' s r := heq ▸ h

theorem Adds.each {op : α → σ → σ × Bool} {asked : α → Set F} : ∀ {l : List α} {s : σ},
    (∀ a ∈ l, ∀ s, Adds facts (asked a) s (op a s)) →
      Adds facts (⋃ a ∈ l, asked a) s (each op l s)
  | [], s, _ => Adds.nothing.congr (by simp)
  | a :: l, s, h => by
    have hfirst := h a List.mem_cons_self s
    have hrest := Adds.each (l := l) (s := (op a s).1) fun b hb => h b (List.mem_cons_of_mem _ hb)
    refine (hfirst.next hrest).congr ?_
    simp only [List.mem_cons, Set.iUnion_iUnion_eq_or_left]

end Steps

/-! ## 2. The loop -/

/-- All that a fact of the set asks for is in the set. -/
def Closed (rule : F → Set F) (S : Set F) : Prop := ∀ f ∈ S, rule f ⊆ S

/-- `for { .. if !changed { return } }` -/
def saturate (round : σ → σ × Bool) : Nat → σ → Option σ
  | 0, _ => none
  | n + 1, s =>
    let (s', changed) := round s
    if changed then saturate round n s' else some s'

section Loop

variable {facts : σ → Set F} {rule : F → Set F} {round : σ → σ × Bool}

/-- Every round adds what the facts so far ask for. -/
def Rounds (facts : σ → Set F) (rule : F → Set F) (round : σ → σ × Bool) : Prop :=
  ∀ s, Adds facts (⋃ f ∈ facts s, rule f) s (round s)

theorem Closed.unchanged (hround : Rounds facts rule round) {s : σ} (h : Closed rule (facts s)) :
    round s = (s, false) :=
  (hround s).idle (Set.iUnion₂_subset h)

theorem closed_of_unchanged (hround : Rounds facts rule round) {s : σ} (h : (round s).2 = false) :
    Closed rule (facts s) :=
  Set.iUnion₂_subset_iff.mp ((hround s).changed_iff.mp h)

/-- The result has what there was at the start, is closed, and is within all that is so. -/
theorem saturate_facts (hround : Rounds facts rule round) : ∀ {n : Nat} {s s' : σ},
    saturate round n s = some s' →
      facts s ⊆ facts s' ∧ Closed rule (facts s') ∧
        ∀ T, facts s ⊆ T → Closed rule T → facts s' ⊆ T
  | 0, _, _, h => by cases h
  | n + 1, s, s', h => by
    rw [saturate] at h
    cases hr : (round s).2 with
    | false =>
      simp only [hr, Bool.false_eq_true, if_false, Option.some.injEq] at h
      have hsame := (hround s).same hr
      have hs : s' = s := h.symm.trans hsame
      subst hs
      exact ⟨Set.Subset.refl _, closed_of_unchanged hround hr, fun T hT _ => hT⟩
    | true =>
      simp only [hr, if_true] at h
      obtain ⟨hgrow, hclosed, hleast⟩ := saturate_facts hround h
      refine ⟨(hround s).grows.trans hgrow, hclosed, fun T hT hT' => hleast T ?_ hT'⟩
      rw [(hround s).all]
      exact Set.union_subset hT (Set.iUnion₂_subset fun f hf => hT' f (hT hf))

theorem saturate_closed (hround : Rounds facts rule round) {s : σ} (h : Closed rule (facts s))
    (n : Nat) :
    saturate round (n + 1) s = some s := by
  simp only [saturate, h.unchanged hround, Bool.false_eq_true, if_false]

/-- With finitely many facts, the loop ends. -/
theorem saturate_ends (hround : Rounds facts rule round) {U : Set F} (hU : U.Finite)
    (hclosed : Closed rule U) : ∀ {k : Nat} {s : σ}, facts s ⊆ U → U.ncard - (facts s).ncard < k →
      ∃ s', ∀ n, k ≤ n → saturate round n s = some s'
  | 0, _, _, h => absurd h (Nat.not_lt_zero _)
  | k + 1, s, hs, h => by
    cases hr : (round s).2 with
    | false =>
      refine ⟨(round s).1, fun n hn => ?_⟩
      obtain ⟨m, rfl⟩ : ∃ m, n = m + 1 := ⟨n - 1, by omega⟩
      simp only [saturate, hr, Bool.false_eq_true, if_false]
    | true =>
      have hgrows := (hround s).grows
      have hsub : facts (round s).1 ⊆ U := by
        rw [(hround s).all]
        exact Set.union_subset hs (Set.iUnion₂_subset fun f hf => hclosed f (hs hf))
      have hne : ¬ facts (round s).1 ⊆ facts s := fun hback =>
        (hround s).new hr (((hround s).all ▸ Set.subset_union_right).trans hback)
      have hlt : (facts s).ncard < (facts (round s).1).ncard :=
        Set.ncard_lt_ncard ⟨hgrows, hne⟩ (hU.subset hsub)
      have hle : (facts (round s).1).ncard ≤ U.ncard := Set.ncard_le_ncard hsub hU
      obtain ⟨s', hs'⟩ := saturate_ends hround hU hclosed (k := k) hsub (by omega)
      refine ⟨s', fun n hn => ?_⟩
      obtain ⟨m, rfl⟩ : ∃ m, n = m + 1 := ⟨n - 1, by omega⟩
      simp only [saturate, hr, if_true]
      exact hs' m (by omega)

end Loop

end Trustme.Lib
