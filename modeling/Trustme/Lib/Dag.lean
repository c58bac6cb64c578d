/-
  Subject:   Acyclic graphs given by the successors of each vertex, and lists in dependency order.

  * `Dag`: the successors of each vertex, and that no path goes on for ever;
  * `Dag.Reaches`: the vertex is, or is found behind, another;
  * `Dag.InOrder`: every vertex of a list has its successors in front of it;
  * `Dag.InOrder.exists_first`: of the vertices that lack a property, one whose successors have
    it;
  * `Dag.InOrder.wf_turned`: the edges between the vertices of such a list, turned round.
-/
import Mathlib.Data.List.Nodup
import Mathlib.Logic.Relation
import Mathlib.Order.WellFounded

namespace Trustme.Lib

/-- A graph in which no path goes on for ever: a finite graph without a cycle is one. -/
structure Dag (α : Type) where
  next : α → List α
  acyclic : WellFounded fun b a => b ∈ next a

namespace Dag

variable {α : Type} {g : Dag α}

/-! ## 1. Paths -/

/-- On a path from `a`, which may be empty. -/
def Reaches (g : Dag α) (a b : α) : Prop := Relation.ReflTransGen (fun a b => b ∈ g.next a) a b

/-- Behind `a`, on a path that is not empty. -/
def Behind (g : Dag α) (a b : α) : Prop := Relation.TransGen (fun a b => b ∈ g.next a) a b

theorem Reaches.refl (a : α) : g.Reaches a a := Relation.ReflTransGen.refl

theorem Reaches.head {a b c : α} (hb : b ∈ g.next a) (h : g.Reaches b c) : g.Reaches a c :=
  Relation.ReflTransGen.head hb h

/-- A vertex is behind `a` if it is a successor or behind one. -/
theorem behind_iff {a c : α} :
    g.Behind a c ↔ ∃ b ∈ g.next a, b = c ∨ g.Behind b c := by
  unfold Behind
  rw [Relation.TransGen.head'_iff]
  refine exists_congr fun b => and_congr_right fun _ => ?_
  rw [Relation.reflTransGen_iff_eq_or_transGen]
  exact or_congr_left ⟨Eq.symm, Eq.symm⟩

/-- No vertex is behind itself. -/
theorem not_behind_self (a : α) : ¬ g.Behind a a := fun h =>
  g.acyclic.transGen.irrefl.irrefl a (Relation.transGen_swap.1 h)

/-! ## 2. Lists in dependency order -/

/-- Every vertex of the list has its successors in front of it. -/
def InOrder (g : Dag α) (l : List α) : Prop :=
  ∀ front v back, l = front ++ v :: back → ∀ w ∈ g.next v, w ∈ front

theorem InOrder.nil : g.InOrder [] := by
  intro front v back h
  simp at h

theorem InOrder.snoc {l : List α} {v : α} (h : g.InOrder l) (hv : ∀ w ∈ g.next v, w ∈ l) :
    g.InOrder (l ++ [v]) := by
  intro front u back he w hw
  rcases List.eq_nil_or_concat back with rfl | ⟨back', x, rfl⟩
  · obtain ⟨rfl, hu⟩ := List.append_inj' he rfl
    obtain rfl : v = u := by simpa using hu
    exact hv w hw
  · rw [List.concat_eq_append, ← List.cons_append, ← List.append_assoc] at he
    obtain ⟨rfl, _⟩ := List.append_inj' he rfl
    exact h front u back' rfl w hw

/-- The list holds the successors of its vertices. -/
theorem InOrder.closed {l : List α} (h : g.InOrder l) {v w : α} (hv : v ∈ l) (hw : w ∈ g.next v) :
    w ∈ l := by
  obtain ⟨front, back, rfl⟩ := List.append_of_mem hv
  exact List.mem_append_left _ (h front v back rfl w hw)

/-- The first vertex that lacks `p`: its successors have it. -/
theorem InOrder.exists_first {l : List α} (h : g.InOrder l) {p : α → Prop}
    (hp : ∃ v ∈ l, ¬ p v) : ∃ v ∈ l, ¬ p v ∧ ∀ w ∈ g.next v, p w := by
  classical
  obtain ⟨v, hv, hpv⟩ := hp
  cases hf : l.find? (fun v => ! decide (p v)) with
  | none =>
    have := List.find?_eq_none.1 hf v hv
    simp [hpv] at this
  | some u =>
    obtain ⟨hu, front, back, rfl, hfront⟩ := List.find?_eq_some_iff_append.1 hf
    refine ⟨u, by simp, by simpa using hu, fun w hw => ?_⟩
    have := hfront w (h front u back rfl w hw)
    simpa using this

/-- The edges between the vertices of a list in order, turned round, are acyclic again: they lead
    to the back of the list. -/
theorem InOrder.wf_turned [DecidableEq α] {l : List α} (h : g.InOrder l) (hl : l.Nodup)
    {back : α → List α} (hb : ∀ {v w}, w ∈ back v → w ∈ l ∧ v ∈ g.next w) :
    WellFounded fun w v => w ∈ back v := by
  refine Subrelation.wf ?_ (measure fun v => l.length - l.idxOf v).wf
  intro w v hw
  obtain ⟨hwl, hv⟩ := hb hw
  obtain ⟨front, rest, rfl⟩ := List.append_of_mem hwl
  have hfront : v ∈ front := h front w rest rfl v hv
  have hnot : w ∉ front := fun hm => by
    have := List.disjoint_of_nodup_append hl hm
    simp at this
  have h1 : (front ++ w :: rest).idxOf v < front.length := by
    rw [List.idxOf_append_of_mem hfront]
    exact List.idxOf_lt_length_of_mem hfront
  have h2 : (front ++ w :: rest).idxOf w = front.length := by
    rw [List.idxOf_append_of_notMem hnot, List.idxOf_cons_self, Nat.add_zero]
  show (front ++ w :: rest).length - _ < (front ++ w :: rest).length - _
  rw [List.length_append, List.length_cons]
  omega

end Dag

end Trustme.Lib
