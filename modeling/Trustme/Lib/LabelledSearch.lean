/-
  Subject:   The search of a graph where what is pending comes with labels.

  * `labelledSearch`: the items that are found, one for each vertex, in their order;
  * `labelledSearch_closed`: their vertices are closed under successors;
  * `labelledSearch_forall`: what all pending items have, all found ones have.
-/
import Trustme.Lib.Explore

namespace Trustme.Lib

variable {σ τ : Type} {vertex : τ → Nat} {expand : σ → τ → σ × List τ}

/-- Take the last pending item, leave it out if its vertex has been found, and put what it expands
    to on the stack. -/
def labelledSearch (vertex : τ → Nat) (expand : σ → τ → σ × List τ) :
    Nat → σ → List τ → List τ → List τ
  | 0, _, _, found => found
  | _ + 1, _, [], found => found
  | n + 1, s, x :: todo, found =>
    if vertex x ∈ found.map vertex then labelledSearch vertex expand n s todo found
    else
      labelledSearch vertex expand n (expand s x).1 ((expand s x).2.reverse ++ todo) (found ++ [x])

/-- An item expands to items for the successors of its vertex. -/
structure Expands (vertex : τ → Nat) (expand : σ → τ → σ × List τ) (succ : Nat → List Nat) :
    Prop where
  mem : ∀ s x w, w ∈ (expand s x).2.map vertex ↔ w ∈ succ (vertex x)
  length : ∀ s x, (expand s x).2.length ≤ (succ (vertex x)).length

theorem labelledSearch_extends : ∀ {n : Nat} {s : σ} {todo found : List τ},
    found <+: labelledSearch vertex expand n s todo found
  | 0, _, _, found => List.prefix_refl found
  | _ + 1, _, [], found => List.prefix_refl found
  | n + 1, s, x :: todo, found => by
    rw [labelledSearch]
    split
    · exact labelledSearch_extends
    · exact (List.prefix_append found [x]).trans labelledSearch_extends

theorem labelledSearch_forall {P : τ → Prop} (hP : ∀ s x, P x → ∀ y ∈ (expand s x).2, P y) :
    ∀ {n : Nat} {s : σ} {todo found : List τ}, (∀ x ∈ todo, P x) → (∀ x ∈ found, P x) →
      ∀ x ∈ labelledSearch vertex expand n s todo found, P x
  | 0, _, _, _, _, hfound => hfound
  | _ + 1, _, [], _, _, hfound => hfound
  | n + 1, s, x :: todo, found, htodo, hfound => by
    rw [labelledSearch]
    split
    · exact labelledSearch_forall hP (fun y hy => htodo y (List.mem_cons_of_mem _ hy)) hfound
    · refine labelledSearch_forall hP (fun y hy => ?_) (fun y hy => ?_)
      · rcases List.mem_append.mp hy with hy | hy
        · exact hP s x (htodo x List.mem_cons_self) y (List.mem_reverse.mp hy)
        · exact htodo y (List.mem_cons_of_mem _ hy)
      · rcases List.mem_append.mp hy with hy | hy
        · exact hfound y hy
        · rw [List.mem_singleton.mp hy]
          exact htodo x List.mem_cons_self

variable {succ : Nat → List Nat}

theorem labelledSearch_closed (he : Expands vertex expand succ) {n : Nat}
    (hsucc : ∀ v, n ≤ v → succ v = []) :
    ∀ {fuel : Nat} {s : σ} {todo found : List τ},
      todo.length + edgesLeft succ (found.map vertex) n ≤ fuel →
      Frontier succ (todo.map vertex) (found.map vertex) →
      (∀ v ∈ (labelledSearch vertex expand fuel s todo found).map vertex, ∀ w ∈ succ v,
        w ∈ (labelledSearch vertex expand fuel s todo found).map vertex) ∧
      ∀ v ∈ todo.map vertex, v ∈ (labelledSearch vertex expand fuel s todo found).map vertex
  | 0, _, todo, found, hfuel, hf => by
    have hnil : todo = [] := List.length_eq_zero_iff.mp (by omega)
    subst hnil
    refine ⟨fun v hv w hw => ?_, nofun⟩
    rcases hf v hv w hw with h | h
    · exact h
    · cases h
  | fuel + 1, _, [], found, _, hf => by
    refine ⟨fun v hv w hw => ?_, nofun⟩
    rcases hf v hv w hw with h | h
    · exact h
    · cases h
  | fuel + 1, s, x :: todo, found, hfuel, hf => by
    rw [List.length_cons] at hfuel
    have hfound : ∀ {s todo found} v, v ∈ found.map vertex →
        v ∈ (labelledSearch vertex expand fuel s todo found).map vertex := fun v hv =>
      (labelledSearch_extends.map vertex).mem hv
    rw [labelledSearch]
    split
    · rename_i hx
      have hf' : Frontier succ (todo.map vertex) (found.map vertex) := fun u hu w hw => by
        rcases hf u hu w hw with h | h
        · exact Or.inl h
        · rcases List.mem_cons.mp h with rfl | h
          · exact Or.inl hx
          · exact Or.inr h
      have hfuel' : todo.length + edgesLeft succ (found.map vertex) n ≤ fuel := by omega
      obtain ⟨hclosed, htodo⟩ := labelledSearch_closed he hsucc (s := s) hfuel' hf'
      refine ⟨hclosed, fun v hv => ?_⟩
      rcases List.mem_cons.mp hv with rfl | hv
      · exact hfound _ hx
      · exact htodo v hv
    · rename_i hx
      have hlen := he.length s x
      have hedges : edgesLeft succ ((found ++ [x]).map vertex) n + (succ (vertex x)).length ≤
          edgesLeft succ (found.map vertex) n := by
        rw [List.map_append, List.map_singleton]
        by_cases hn : vertex x < n
        · exact Nat.le_of_eq (edgesLeft_visit hx hn)
        · rw [hsucc _ (by omega), edgesLeft_visit_other (by omega)]
          exact Nat.le_refl _
      have hf' : Frontier succ (((expand s x).2.reverse ++ todo).map vertex)
          ((found ++ [x]).map vertex) := fun u hu w hw => by
        have hnext : w ∈ ((expand s x).2.reverse ++ todo).map vertex ↔
            w ∈ succ (vertex x) ∨ w ∈ todo.map vertex := by
          rw [List.map_append, List.map_reverse, List.mem_append, List.mem_reverse, he.mem]
        rw [hnext]
        rw [List.map_append, List.mem_append] at hu ⊢
        rcases hu with hu | hu
        · rcases hf u hu w hw with h | h
          · exact Or.inl (Or.inl h)
          · rcases List.mem_cons.mp h with rfl | h
            · exact Or.inl (Or.inr List.mem_cons_self)
            · exact Or.inr (Or.inr h)
        · obtain rfl := List.mem_singleton.mp hu
          exact Or.inr (Or.inl hw)
      have hfuel' : ((expand s x).2.reverse ++ todo).length +
          edgesLeft succ ((found ++ [x]).map vertex) n ≤ fuel := by
        rw [List.length_append, List.length_reverse]
        omega
      obtain ⟨hclosed, htodo⟩ := labelledSearch_closed he hsucc (s := (expand s x).1) hfuel' hf'
      refine ⟨hclosed, fun v hv => ?_⟩
      rcases List.mem_cons.mp hv with rfl | hv
      · exact hfound _ (List.mem_map_of_mem (List.mem_append_right _ List.mem_cons_self))
      · exact htodo v (by rw [List.map_append]; exact List.mem_append_right _ hv)

end Trustme.Lib
