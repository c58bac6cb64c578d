/-
  Subject:   The search of a graph with a stack of pending vertices.

  * `explore`: the vertices in the order in which the search visits them;
  * `explore_closed`: with enough fuel (`searchFuel`), they are closed under successors;
  * `mem_explore_iff`: they are the reachable ones.
-/
import Mathlib.Algebra.BigOperators.Group.List.Basic
import Mathlib.Data.List.Basic
import Mathlib.Logic.Relation

namespace Trustme.Lib

/-- Take the last pending vertex, visit it unless it has been, and put its new successors on the
    stack. -/
def explore (succ : Nat → List Nat) : Nat → List Nat → List Nat → List Nat
  | 0, _, visited => visited
  | _ + 1, [], visited => visited
  | n + 1, v :: pending, visited =>
    if v ∈ visited then explore succ n pending visited
    else
      let next := (succ v).filter fun w => !(visited ++ [v]).contains w
      explore succ n (next.reverse ++ pending) (visited ++ [v])

variable {succ : Nat → List Nat}

/-- The edges out of the vertices below `n` that are not visited. -/
def edgesLeft (succ : Nat → List Nat) (visited : List Nat) : Nat → Nat
  | 0 => 0
  | n + 1 => edgesLeft succ visited n + if n ∈ visited then 0 else (succ n).length

/-- Enough steps for a search of a graph whose edges start below `n`. -/
def searchFuel (succ : Nat → List Nat) (n : Nat) : Nat := 1 + edgesLeft succ [] n

theorem edgesLeft_visit_other {visited : List Nat} {v : Nat} : ∀ {n : Nat}, n ≤ v →
    edgesLeft succ (visited ++ [v]) n = edgesLeft succ visited n
  | 0, _ => rfl
  | n + 1, h => by
    have hn : n ≠ v := by omega
    rw [edgesLeft, edgesLeft, edgesLeft_visit_other (by omega)]
    simp [hn]

theorem edgesLeft_visit {visited : List Nat} {v : Nat} (hv : v ∉ visited) : ∀ {n : Nat}, v < n →
    edgesLeft succ (visited ++ [v]) n + (succ v).length = edgesLeft succ visited n
  | n + 1, h => by
    rw [edgesLeft, edgesLeft]
    by_cases hn : v = n
    · subst hn
      rw [edgesLeft_visit_other (Nat.le_refl v), if_neg hv, if_pos (by simp), Nat.add_zero]
    · have hlt : v < n := by omega
      have hmem : (n ∈ visited ++ [v]) ↔ n ∈ visited := by simp [Ne.symm hn]
      rw [← edgesLeft_visit hv hlt]
      simp only [hmem]
      omega

/-- What holds between two steps: the successors of a visited vertex are visited or pending. -/
def Frontier (succ : Nat → List Nat) (pending visited : List Nat) : Prop :=
  ∀ v ∈ visited, ∀ w ∈ succ v, w ∈ visited ∨ w ∈ pending

theorem explore_closed {n : Nat} (hsucc : ∀ v, n ≤ v → succ v = []) :
    ∀ {fuel : Nat} {pending visited : List Nat},
      pending.length + edgesLeft succ visited n ≤ fuel → Frontier succ pending visited →
      (∀ v ∈ explore succ fuel pending visited, ∀ w ∈ succ v,
        w ∈ explore succ fuel pending visited) ∧
      (∀ v ∈ visited, v ∈ explore succ fuel pending visited) ∧
      ∀ v ∈ pending, v ∈ explore succ fuel pending visited
  | 0, pending, visited, hfuel, hf => by
    have hnil : pending = [] := List.length_eq_zero_iff.mp (by omega)
    subst hnil
    refine ⟨fun v hv w hw => ?_, fun v hv => hv, nofun⟩
    rcases hf v hv w hw with h | h
    · exact h
    · cases h
  | fuel + 1, [], visited, _, hf => by
    refine ⟨fun v hv w hw => ?_, fun v hv => hv, nofun⟩
    rcases hf v hv w hw with h | h
    · exact h
    · cases h
  | fuel + 1, v :: pending, visited, hfuel, hf => by
    rw [List.length_cons] at hfuel
    rw [explore]
    split
    · rename_i hv
      have hf' : Frontier succ pending visited := fun u hu w hw => by
        rcases hf u hu w hw with h | h
        · exact Or.inl h
        · rcases List.mem_cons.mp h with rfl | h
          · exact Or.inl hv
          · exact Or.inr h
      have hfuel' : pending.length + edgesLeft succ visited n ≤ fuel := by omega
      obtain ⟨h₁, h₂, h₃⟩ := explore_closed hsucc hfuel' hf'
      refine ⟨h₁, h₂, fun u hu => ?_⟩
      rcases List.mem_cons.mp hu with rfl | hu
      · exact h₂ u hv
      · exact h₃ u hu
    · rename_i hv
      dsimp only
      have hlen : ((succ v).filter fun w => !(visited ++ [v]).contains w).length ≤
          (succ v).length := List.length_filter_le _ _
      have hedges : edgesLeft succ (visited ++ [v]) n + (succ v).length ≤
          edgesLeft succ visited n := by
        by_cases hn : v < n
        · exact Nat.le_of_eq (edgesLeft_visit hv hn)
        · rw [hsucc v (by omega), edgesLeft_visit_other (by omega)]
          exact Nat.le_refl _
      have hf' : Frontier succ (((succ v).filter fun w => !(visited ++ [v]).contains w).reverse ++
          pending) (visited ++ [v]) := fun u hu w hw => by
        by_cases hw' : w ∈ visited ++ [v]
        · exact Or.inl hw'
        right
        rcases List.mem_append.mp hu with hu | hu
        · rcases hf u hu w hw with h | h
          · exact absurd (List.mem_append_left _ h) hw'
          · rcases List.mem_cons.mp h with rfl | h
            · exact absurd (List.mem_append_right _ List.mem_cons_self) hw'
            · exact List.mem_append_right _ h
        · obtain rfl := List.mem_singleton.mp hu
          refine List.mem_append_left _ (List.mem_reverse.mpr (List.mem_filter.mpr ⟨hw, ?_⟩))
          simpa using hw'
      have hfuel' : (((succ v).filter fun w => !(visited ++ [v]).contains w).reverse ++
          pending).length + edgesLeft succ (visited ++ [v]) n ≤ fuel := by
        rw [List.length_append, List.length_reverse]
        omega
      obtain ⟨h₁, h₂, h₃⟩ := explore_closed hsucc hfuel' hf'
      refine ⟨h₁, fun u hu => h₂ u (List.mem_append_left _ hu), fun u hu => ?_⟩
      rcases List.mem_cons.mp hu with rfl | hu
      · exact h₂ u (List.mem_append_right _ List.mem_cons_self)
      · exact h₃ u (List.mem_append_right _ hu)

/-- All that is visited is reachable from where the search started. -/
theorem reachable_of_mem_explore {start : Nat} : ∀ {fuel : Nat} {pending visited : List Nat},
    (∀ v ∈ pending, Relation.ReflTransGen (fun a b => b ∈ succ a) start v) →
    (∀ v ∈ visited, Relation.ReflTransGen (fun a b => b ∈ succ a) start v) →
    ∀ v ∈ explore succ fuel pending visited, Relation.ReflTransGen (fun a b => b ∈ succ a) start v
  | 0, pending, visited, _, hv => hv
  | fuel + 1, [], visited, _, hv => hv
  | fuel + 1, u :: pending, visited, hp, hv => by
    rw [explore]
    split
    · exact reachable_of_mem_explore (fun v h => hp v (List.mem_cons_of_mem _ h)) hv
    · refine reachable_of_mem_explore (fun v h => ?_) (fun v h => ?_)
      · rcases List.mem_append.mp h with h | h
        · have hu := (List.mem_filter.mp (List.mem_reverse.mp h)).1
          exact (hp u List.mem_cons_self).tail hu
        · exact hp v (List.mem_cons_of_mem _ h)
      · rcases List.mem_append.mp h with h | h
        · exact hv v h
        · rw [List.mem_singleton.mp h]
          exact hp u List.mem_cons_self

/-- A search from one vertex with enough fuel visits what is reachable. -/
theorem mem_explore_iff {n start : Nat} (hsucc : ∀ v, n ≤ v → succ v = []) (v : Nat) :
    v ∈ explore succ (searchFuel succ n) [start] [] ↔
      Relation.ReflTransGen (fun a b => b ∈ succ a) start v := by
  constructor
  · intro h
    refine reachable_of_mem_explore (fun u hu => ?_) (fun u hu => by cases hu) v h
    rw [List.mem_singleton.mp hu]
  · intro h
    have hfuel : [start].length + edgesLeft succ [] n ≤ searchFuel succ n := Nat.le_refl _
    obtain ⟨hclosed, -, hstart⟩ := explore_closed hsucc hfuel (fun u hu => by cases hu)
    induction h with
    | refl => exact hstart start List.mem_cons_self
    | tail _ hstep ih => exact hclosed _ ih _ hstep

/-- No vertex is visited twice. -/
theorem explore_nodup : ∀ {fuel : Nat} {pending visited : List Nat}, visited.Nodup →
    (explore succ fuel pending visited).Nodup
  | 0, _, _, h => h
  | _ + 1, [], _, h => h
  | fuel + 1, v :: pending, visited, h => by
    rw [explore]
    split
    · exact explore_nodup h
    · rename_i hv
      refine explore_nodup (List.nodup_append.mpr ⟨h, List.pairwise_singleton _ v, ?_⟩)
      rintro u hu w hw rfl
      exact hv (List.mem_singleton.mp hw ▸ hu)

end Trustme.Lib
