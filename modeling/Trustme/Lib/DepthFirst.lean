/-
  Subject:   The postorder of a depth-first search that keeps its stack by itself.

  * `Searching`: what holds between two steps of the search;
  * `Searching.skip`, `enter`, `leave`: the steps;
  * `searchWork`: what they make less;
  * `Searching.numbered`: in the end the nodes are numbered, the root last.
-/
import Mathlib.Algebra.BigOperators.Group.List.Basic
import Mathlib.Algebra.Ring.Nat
import Mathlib.Data.List.Nodup
import Trustme.Lib.Dominators

namespace Trustme.Lib

variable {α : Type}

/-- The nodes on the stack, the last one first, and the nodes that have left it. -/
def entered (stack : List (α × List α)) (done : List α) : List α := stack.map Prod.fst ++ done

/-- Between two steps: a node on the stack comes with the successors that are still to be looked at,
    and a node that has left the stack has a predecessor that has not, or has done so later. -/
structure Searching (E : α → α → Prop) (root : α) (stack : List (α × List α)) (done : List α) :
    Prop where
  nodup : (entered stack done).Nodup
  reach : ∀ x ∈ entered stack done, Reachable E root x
  chain : (stack.map Prod.fst).IsChain fun w v => E v w
  bottom : stack ≠ [] → (stack.map Prod.fst).getLast? = some root
  last : stack = [] → done.getLast? = some root
  edges : ∀ v rest, (v, rest) ∈ stack → ∀ w ∈ rest, E v w
  pending : ∀ v rest, (v, rest) ∈ stack → ∀ w, E v w → w ∈ rest ∨ w ∈ entered stack done
  closed : ∀ v ∈ done, ∀ w, E v w → w ∈ entered stack done
  parent : ∀ x ∈ done, x ≠ root →
    ∃ p, E p x ∧ (p ∈ stack.map Prod.fst ∨ ∃ l r, done = l ++ x :: r ∧ p ∈ r)

section Steps

variable {E : α → α → Prop} {root v w : α} {rest : List α} {stack : List (α × List α)}
  {done : List α}

/-! ## 1. The steps -/

theorem Searching.start {succ : List α} (hsucc : ∀ w, E root w ↔ w ∈ succ) :
    Searching E root [(root, succ)] [] where
  nodup := List.nodup_singleton root
  reach x hx := List.mem_singleton.1 hx ▸ ⟨_, .start⟩
  chain := .singleton root
  bottom _ := rfl
  last h := nomatch h
  edges v rest hv := by
    cases List.mem_singleton.1 hv
    exact fun w => (hsucc w).2
  pending v rest hv := by
    cases List.mem_singleton.1 hv
    exact fun w hw => .inl ((hsucc w).1 hw)
  closed v hv := nomatch hv
  parent x hx := nomatch hx

/-- A successor that has been entered. -/
theorem Searching.skip (h : Searching E root ((v, w :: rest) :: stack) done)
    (hw : w ∈ entered ((v, w :: rest) :: stack) done) :
    Searching E root ((v, rest) :: stack) done where
  nodup := h.nodup
  reach := h.reach
  chain := h.chain
  bottom _ := h.bottom (List.cons_ne_nil _ _)
  last h := nomatch h
  edges u l hu x hx := by
    rcases List.mem_cons.1 hu with he | hu
    · cases he
      exact h.edges v _ List.mem_cons_self x (List.mem_cons_of_mem _ hx)
    · exact h.edges u l (List.mem_cons_of_mem _ hu) x hx
  pending u l hu x hx := by
    rcases List.mem_cons.1 hu with he | hu
    · cases he
      rcases h.pending v _ List.mem_cons_self x hx with hin | hin
      · rcases List.mem_cons.1 hin with rfl | hin
        · exact .inr hw
        · exact .inl hin
      · exact .inr hin
    · exact h.pending u l (List.mem_cons_of_mem _ hu) x hx
  closed := h.closed
  parent := h.parent

/-- A successor that has not. -/
theorem Searching.enter {succ : List α} (h : Searching E root ((v, w :: rest) :: stack) done)
    (hw : w ∉ entered ((v, w :: rest) :: stack) done) (hsucc : ∀ u, E w u ↔ u ∈ succ) :
    Searching E root ((w, succ) :: (v, rest) :: stack) done := by
  have hv : v ∈ entered ((v, w :: rest) :: stack) done := List.mem_cons_self
  have hvw : E v w := h.edges v _ List.mem_cons_self w List.mem_cons_self
  have hold : ∀ x ∈ entered ((v, w :: rest) :: stack) done,
      x ∈ entered ((w, succ) :: (v, rest) :: stack) done := fun x hx => List.mem_cons_of_mem w hx
  refine ⟨List.nodup_cons.2 ⟨hw, h.nodup⟩, fun x hx => ?_, ?_, fun _ => ?_, (nomatch ·),
    fun u l hu x hx => ?_, fun u l hu x hx => ?_, fun u hu x hx => hold x (h.closed u hu x hx),
    fun x hx hne => ?_⟩
  · rcases List.mem_cons.1 hx with rfl | hx
    · exact (h.reach v hv).step hvw
    · exact h.reach x hx
  · exact List.isChain_cons_cons.2 ⟨hvw, h.chain⟩
  · have hbottom := h.bottom (List.cons_ne_nil _ _)
    rw [List.map_cons] at hbottom ⊢
    rw [List.map_cons, List.getLast?_cons_cons]
    exact hbottom
  · rcases List.mem_cons.1 hu with he | hu
    · cases he
      exact (hsucc x).2 hx
    · rcases List.mem_cons.1 hu with he | hu
      · cases he
        exact h.edges v _ List.mem_cons_self x (List.mem_cons_of_mem _ hx)
      · exact h.edges u l (List.mem_cons_of_mem _ hu) x hx
  · rcases List.mem_cons.1 hu with he | hu
    · cases he
      exact .inl ((hsucc x).1 hx)
    · rcases List.mem_cons.1 hu with he | hu
      · cases he
        rcases h.pending v _ List.mem_cons_self x hx with hin | hin
        · rcases List.mem_cons.1 hin with rfl | hin
          · exact .inr List.mem_cons_self
          · exact .inl hin
        · exact .inr (hold x hin)
      · exact (h.pending u l (List.mem_cons_of_mem _ hu) x hx).imp id (hold x)
  · obtain ⟨p, hp, hor⟩ := h.parent x hx hne
    exact ⟨p, hp, hor.imp (List.mem_cons_of_mem w) id⟩

/-- A node without successors that are still to be looked at. -/
theorem Searching.leave (h : Searching E root ((v, []) :: stack) done) :
    Searching E root stack (done ++ [v]) := by
  have hmem : ∀ x, x ∈ entered ((v, []) :: stack) done ↔ x ∈ entered stack (done ++ [v]) := by
    intro x
    simp only [entered, List.map_cons, List.cons_append, List.mem_cons, List.mem_append,
      List.not_mem_nil, or_false]
    tauto
  have hperm : (entered ((v, []) :: stack) done).Perm (entered stack (done ++ [v])) := by
    rw [entered, entered, ← List.append_assoc, List.map_cons, List.cons_append]
    exact (List.perm_append_singleton v _).symm
  have hchain : (stack.map Prod.fst).IsChain fun w v => E v w := by
    cases stack with
    | nil => exact .nil
    | cons y ys => exact (List.isChain_cons_cons.1 h.chain).2
  refine ⟨hperm.nodup h.nodup, fun x hx => h.reach x ((hmem x).2 hx), hchain, fun hne => ?_,
    fun hnil => ?_, fun u l hu => h.edges u l (List.mem_cons_of_mem _ hu),
    fun u l hu x hx => ?_, fun u hu x hx => ?_, fun x hx hne => ?_⟩
  · have hbottom := h.bottom (List.cons_ne_nil _ _)
    obtain ⟨y, ys, rfl⟩ := List.exists_cons_of_ne_nil hne
    rw [List.map_cons, List.map_cons, List.getLast?_cons_cons] at hbottom
    exact hbottom
  · subst hnil
    have hbottom := h.bottom (List.cons_ne_nil _ _)
    rw [List.getLast?_append]
    exact hbottom ▸ rfl
  · exact (h.pending u l (List.mem_cons_of_mem _ hu) x hx).imp id (hmem x).1
  · rcases List.mem_append.1 hu with hu | hu
    · exact (hmem x).1 (h.closed u hu x hx)
    · cases List.mem_singleton.1 hu
      exact (hmem x).1 ((h.pending v [] List.mem_cons_self x hx).resolve_left (List.not_mem_nil))
  · rcases List.mem_append.1 hx with hxd | hxv
    · obtain ⟨p, hp, hin | ⟨l, r, rfl, hin⟩⟩ := h.parent x hxd hne
      · rcases List.mem_cons.1 hin with rfl | hin
        · obtain ⟨l, r, hdone⟩ := List.append_of_mem hxd
          refine ⟨p, hp, .inr ⟨l, r ++ [p], by simp [hdone], ?_⟩⟩
          exact List.mem_append_right _ List.mem_cons_self
        · exact ⟨p, hp, .inl hin⟩
      · exact ⟨p, hp, .inr ⟨l, r ++ [v], by simp, List.mem_append_left _ hin⟩⟩
    · cases List.mem_singleton.1 hxv
      -- below `x` on the stack is the node from which it was entered
      have hbottom := h.bottom (List.cons_ne_nil _ _)
      cases stack with
      | nil => exact absurd (Option.some.inj hbottom) hne
      | cons y ys =>
        exact ⟨y.1, (List.isChain_cons_cons.1 h.chain).1, .inl List.mem_cons_self⟩

end Steps

/-! ## 2. The work that is left -/

section Work

variable [DecidableEq α] {succ : α → List α} {todo : List α} {v w : α} {rest : List α}
variable {stack : List (α × List α)}

/-- The nodes of `todo` may still be entered, and those on the stack are to leave it. -/
def searchWork (succ : α → List α) (todo : List α) (stack : List (α × List α)) : Nat :=
  (todo.map fun x => (succ x).length + 2).sum + (stack.map fun x => x.2.length + 1).sum

omit [DecidableEq α] in
theorem searchWork_skip :
    searchWork succ todo ((v, rest) :: stack) < searchWork succ todo ((v, w :: rest) :: stack) := by
  simp only [searchWork, List.map_cons, List.sum_cons, List.length_cons]
  omega

theorem searchWork_enter (hw : w ∈ todo) :
    searchWork succ (todo.erase w) ((w, succ w) :: (v, rest) :: stack) <
    searchWork succ todo ((v, w :: rest) :: stack) := by
  have herase := List.sum_map_erase (fun x => (succ x).length + 2) hw
  simp only [searchWork, List.map_cons, List.sum_cons, List.length_cons] at herase ⊢
  omega

omit [DecidableEq α] in
theorem searchWork_leave :
    searchWork succ todo stack < searchWork succ todo ((v, []) :: stack) := by
  simp only [searchWork, List.map_cons, List.sum_cons, List.length_nil]
  omega

end Work

/-! ## 3. The end -/

section End

variable {E : α → α → Prop} {root : α} {done : List α}

/-- In the end the nodes that have left the stack are those that are reachable. -/
theorem Searching.mem_iff (h : Searching E root [] done) (x : α) :
    x ∈ done ↔ Reachable E root x := by
  refine ⟨h.reach x, fun ⟨l, hl⟩ => ?_⟩
  induction hl with
  | start => exact List.mem_of_getLast? (h.last rfl)
  | step hl e ih => exact h.closed _ (ih ⟨_, hl⟩) _ e

/-- Their places number them. -/
theorem Searching.numbered {rank : α → Nat} (h : Searching E root [] done)
    (hrank : ∀ i x, done[i]? = some x → rank x = i) : ∃ parent, Numbered E rank root parent := by
  have hlast := h.last rfl
  have hroot : rank root + 1 = done.length := by
    rw [List.getLast?_eq_getElem?] at hlast
    have hlt := (List.getElem?_eq_some_iff.1 hlast).1
    rw [hrank _ _ hlast]
    omega
  have hparent : ∀ x, Reachable E root x → x ≠ root →
      ∃ p, Reachable E root p ∧ E p x ∧ rank x < rank p := by
    intro x hx hne
    obtain ⟨p, hp, hin | ⟨l, r, hdone, hin⟩⟩ := h.parent x ((h.mem_iff x).2 hx) hne
    · exact nomatch hin
    · obtain ⟨j, hj⟩ := List.getElem?_of_mem hin
      have hx' : done[l.length]? = some x := by simp [hdone]
      have hp' : done[l.length + 1 + j]? = some p := by
        rw [hdone, List.getElem?_append_right (by omega)]
        have hsub : l.length + 1 + j - l.length = j + 1 := by omega
        rw [hsub, List.getElem?_cons_succ, hj]
      refine ⟨p, (h.mem_iff p).1 (List.mem_of_getElem? hp'), hp, ?_⟩
      rw [hrank _ _ hx', hrank _ _ hp']
      omega
  have hindex : ∀ x, Reachable E root x → done[rank x]? = some x := by
    intro x hx
    obtain ⟨i, hi⟩ := List.getElem?_of_mem ((h.mem_iff x).2 hx)
    rw [hrank i x hi]
    exact hi
  classical
  refine ⟨fun x => if hx : Reachable E root x ∧
    x ≠ root then (hparent x hx.1 hx.2).choose else root,
    fun x hx hne => ?_, fun x hx hne => ?_, fun x hx hne => ?_, fun x hx => ?_,
      fun x y hx hy hxy => ?_⟩
  · rw [dif_pos ⟨hx, hne⟩]
    exact (hparent x hx hne).choose_spec.1
  · rw [dif_pos ⟨hx, hne⟩]
    exact (hparent x hx hne).choose_spec.2.1
  · rw [dif_pos ⟨hx, hne⟩]
    exact (hparent x hx hne).choose_spec.2.2
  · have hlt := (List.getElem?_eq_some_iff.1 (hindex x hx)).1
    omega
  · have hxd := hindex x hx
    rw [hxy, hindex y hy] at hxd
    exact (Option.some.inj hxd).symm

end End

end Trustme.Lib
