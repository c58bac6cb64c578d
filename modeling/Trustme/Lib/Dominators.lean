/-
  Subject:   The dominators of a graph, as the ancestors in a tree that is improved sweep by sweep.

  * `Dominates`: on every walk from the root;
  * `Above`: the ancestors in a tree, given by the function to the next one;
  * `Sweeping`: what holds within a sweep that goes through the nodes by falling rank;
  * `Moving.update`: a node moves up to the lowest common ancestor of its predecessors;
  * `Sweeping.dominates`: when nothing moves, the ancestors are the dominators.
-/
import Mathlib.Data.Set.Insert
import Mathlib.Logic.Function.Basic
import Mathlib.Logic.Relation

namespace Trustme.Lib

variable {α : Type}

/-! ## 1. Dominance -/

/-- A walk from `u`, with the nodes it has come to, the last one first. -/
inductive Walk (E : α → α → Prop) (u : α) : α → List α → Prop where
  | start : Walk E u u [u]
  | step {v w : α} {l : List α} (h : Walk E u v l) (e : E v w) : Walk E u w (w :: l)

def Reachable (E : α → α → Prop) (u v : α) : Prop := ∃ l, Walk E u v l

/-- `d` is on every walk from `root` to `b`. -/
def Dominates (E : α → α → Prop) (root d b : α) : Prop := ∀ l, Walk E root b l → d ∈ l

section Dominance

variable {E : α → α → Prop} {root d b x : α}

theorem Reachable.step {v w : α} (h : Reachable E root v) (e : E v w) : Reachable E root w :=
  h.elim fun _ hl => ⟨_, hl.step e⟩

theorem Dominates.refl (b : α) : Dominates E root b b := by
  intro l hl
  cases hl with
  | start => exact List.mem_cons_self
  | step _ _ => exact List.mem_cons_self

/-- A dominator other than the node itself dominates its predecessors. -/
theorem Dominates.pred {p : α} (h : Dominates E root d b) (hne : d ≠ b) (e : E p b) :
    Dominates E root d p := by
  intro l hl
  exact (List.mem_cons.1 (h _ (hl.step e))).resolve_left hne

/-- A walk on which no new node has a rank from `n` on. -/
def Low (E : α → α → Prop) (rank : α → Nat) (n : Nat) : α → α → Prop :=
  Relation.ReflTransGen fun u v => E u v ∧ rank v < n

variable {rank : α → Nat} {n : Nat}

theorem Low.mono {m : Nat} (h : Low E rank n b x) (hnm : n ≤ m) : Low E rank m b x :=
  Relation.ReflTransGen.mono (fun _ _ hstep => ⟨hstep.1, Nat.lt_of_lt_of_le hstep.2 hnm⟩) _ _ h

/-- A dominator that is not on such a walk dominates its start. -/
theorem Dominates.before (h : Low E rank n b x) (hd : n ≤ rank d) (hdom : Dominates E root d x) :
    Dominates E root d b := by
  induction h with
  | refl => exact hdom
  | tail _ hstep ih =>
    refine ih (hdom.pred ?_ hstep.1)
    rintro rfl
    exact absurd hstep.2 (Nat.not_lt.2 hd)

end Dominance

/-! ## 2. Ancestors -/

/-- `a` is `x` or further up, at most at the root. -/
inductive Above (up : α → α) (root : α) : α → α → Prop where
  | refl (x : α) : Above up root x x
  | step {x a : α} (hx : x ≠ root) (h : Above up root (up x) a) : Above up root x a

/-- The nodes of `S` are a tree in which the rank, another for every node, grows towards the
    root. -/
structure RankedTree (rank : α → Nat) (root : α) (S : Set α) (up : α → α) : Prop where
  root_mem : root ∈ S
  up_mem : ∀ x ∈ S, x ≠ root → up x ∈ S
  rank_up : ∀ x ∈ S, x ≠ root → rank x < rank (up x)
  rank_le : ∀ x ∈ S, rank x ≤ rank root
  rank_inj : ∀ x ∈ S, ∀ y ∈ S, rank x = rank y → x = y

section Ancestors

variable {up : α → α} {root x y a b : α} {rank : α → Nat} {S : Set α}

theorem Above.trans (h : Above up root x y) (h' : Above up root y a) : Above up root x a := by
  induction h with
  | refl _ => exact h'
  | step hx _ ih => exact .step hx (ih h')

/-- Ancestors of one node are ancestors of each other. -/
theorem Above.total (h : Above up root x a) (h' : Above up root x b) :
    Above up root a b ∨ Above up root b a := by
  induction h with
  | refl _ => exact .inl h'
  | step hx h ih =>
    cases h' with
    | refl _ => exact .inr (.step hx h)
    | step _ h' => exact ih h'

theorem Above.of_ne (h : Above up root x a) (hne : a ≠ x) : x ≠ root ∧ Above up root (up x) a := by
  cases h with
  | refl _ => exact absurd rfl hne
  | step hx h => exact ⟨hx, h⟩

variable (ht : RankedTree rank root S up) (h : Above up root x a) (hx : x ∈ S)

include ht h hx

theorem Above.mem : a ∈ S := by
  induction h with
  | refl _ => exact hx
  | step hne _ ih => exact ih (ht.up_mem _ hx hne)

theorem Above.rank_le :
    rank x ≤ rank a := by
  induction h with
  | refl _ => exact Nat.le_refl _
  | step hne _ ih => exact (Nat.le_of_lt (ht.rank_up _ hx hne)).trans (ih (ht.up_mem _ hx hne))

/-- A proper ancestor has a higher rank. -/
theorem Above.rank_lt (hne : a ≠ x) :
    rank x < rank a := by
  obtain ⟨hroot, h⟩ := h.of_ne hne
  exact Nat.lt_of_lt_of_le (ht.rank_up x hx hroot) (h.rank_le ht (ht.up_mem x hx hroot))

omit ht h hx

/-- `c` is above all of `P`, and below all else that is. -/
structure Meet (up : α → α) (root : α) (P : Set α) (c : α) : Prop where
  above : ∀ p ∈ P, Above up root p c
  least : ∀ e, (∀ p ∈ P, Above up root p e) → Above up root c e

theorem Meet.single (x : α) : Meet up root {x} x where
  above p hp := by
    cases hp
    exact .refl x
  least e he := he x rfl

theorem Meet.pair_self (x : α) : Meet up root {x, x} x := by
  rw [Set.pair_eq_singleton]
  exact .single x

theorem Meet.swap {c : α} (h : Meet up root {x, y} c) : Meet up root {y, x} c := by
  rw [Set.pair_comm]
  exact h

/-- What is above two nodes is above the next one up from the lower of them. -/
theorem Meet.climb {c : α} (ht : RankedTree rank root S up) (hx : x ∈ S) (hy : y ∈ S)
    (hlt : rank x < rank y) (h : Meet up root {up x, y} c) : Meet up root {x, y} c := by
  have hroot : x ≠ root := by
    rintro rfl
    exact absurd hlt (Nat.not_lt.2 (ht.rank_le y hy))
  refine ⟨fun p hp => ?_, fun e he => h.least e fun p hp => ?_⟩
  · rcases hp with rfl | rfl
    · exact .step hroot (h.above _ (.inl rfl))
    · exact h.above p (.inr rfl)
  · rcases hp with rfl | rfl
    · refine ((he x (.inl rfl)).of_ne ?_).2
      rintro rfl
      have hle := (he y (.inr rfl)).rank_le ht hy
      exact absurd hlt (Nat.not_lt.2 hle)
    · exact he p (.inr rfl)

/-- What is above one node more. -/
theorem Meet.insert {P : Set α} {p c d : α} (h : Meet up root P d) (h' : Meet up root {p, d} c) :
    Meet up root (insert p P) c where
  above q hq := by
    rcases hq with rfl | hq
    · exact h'.above q (.inl rfl)
    · exact (h.above q hq).trans (h'.above d (.inr rfl))
  least e he := by
    refine h'.least e fun q hq => ?_
    rcases hq with rfl | rfl
    · exact he q (.inl rfl)
    · exact h.least e fun q hq => he q (.inr hq)

end Ancestors

/-! ## 3. A sweep -/

/-- What holds within a sweep that goes through the nodes by falling rank and has come to those of
    rank below `n`: `S` are the nodes that have a place in the tree, `parent` is some predecessor of
    a higher rank. -/
structure Sweeping (E : α → α → Prop) (rank : α → Nat) (root : α) (parent : α → α) (n : Nat)
    (S : Set α) (up : α → α) : Prop where
  tree : RankedTree rank root S up
  reach : ∀ x ∈ S, Reachable E root x
  parents : ∀ x ∈ S, x ≠ root → parent x ∈ S
  seen : ∀ x, Reachable E root x → n ≤ rank x → x ∈ S
  low : ∀ x ∈ S, x ≠ root → Low E rank (rank (up x)) (up x) x
  dominators : ∀ x ∈ S, ∀ d, Dominates E root d x → Above up root x d
  common : ∀ x ∈ S, x ≠ root → ∀ e, (∀ p ∈ S, E p x → Above up root p e) → Above up root (up x) e
  along : ∀ x ∈ S, x ≠ root → ∀ a, Above up root (up x) a → rank a < n ∨ n ≤ rank x →
    Above up root (parent x) a

/-- Every node but the root has a predecessor of a higher rank. -/
structure Numbered (E : α → α → Prop) (rank : α → Nat) (root : α) (parent : α → α) : Prop where
  reach : ∀ x, Reachable E root x → x ≠ root → Reachable E root (parent x)
  edge : ∀ x, Reachable E root x → x ≠ root → E (parent x) x
  rank_parent : ∀ x, Reachable E root x → x ≠ root → rank x < rank (parent x)
  rank_le : ∀ x, Reachable E root x → rank x ≤ rank root
  rank_inj : ∀ x y, Reachable E root x → Reachable E root y → rank x = rank y → x = y

section Sweep

variable {E : α → α → Prop} {rank : α → Nat} {root : α} {parent : α → α} {n : Nat} {S : Set α}
variable {up : α → α}

/-- From an ancestor there is a walk to a node on which no rank is as high. -/
theorem Sweeping.low_of_above (h : Sweeping E rank root parent n S up) {x a : α} (hx : x ∈ S)
    (ha : Above up root x a) : Low E rank (rank a) a x := by
  induction ha with
  | refl _ => exact .refl
  | step hne ha ih =>
    have hup := h.tree.up_mem _ hx hne
    exact (ih hup).trans ((h.low _ hx hne).mono (ha.rank_le h.tree hup))

/-- At the start only the root has its place. -/
theorem Sweeping.start (hnum : Numbered E rank root parent) (hn : rank root ≤ n) (up : α → α) :
    Sweeping E rank root parent n {root} up where
  tree :=
    { root_mem := rfl
      up_mem := fun x hx hne => absurd hx hne
      rank_up := fun x hx hne => absurd hx hne
      rank_le := fun x hx => hx ▸ Nat.le_refl _
      rank_inj := fun x hx y hy _ => hx.trans hy.symm }
  reach x hx := hx ▸ ⟨_, .start⟩
  parents x hx hne := absurd hx hne
  seen x hx hle := hnum.rank_inj x root hx ⟨_, .start⟩
    (Nat.le_antisymm (hnum.rank_le x hx) (hn.trans hle))
  low x hx hne := absurd hx hne
  dominators x hx d hd := by
    cases hx
    cases List.mem_singleton.1 (hd _ .start)
    exact .refl _
  common x hx hne := absurd hx hne
  along x hx hne := absurd hx hne

/-- The root stays. -/
theorem Sweeping.skip_root (hnum : Numbered E rank root parent)
    (h : Sweeping E rank root parent (rank root + 1) S up) :
      Sweeping E rank root parent (rank root) S up := by
  have htop : ∀ x, Reachable E root x → rank root ≤ rank x → x = root := fun x hx hle =>
    hnum.rank_inj x root hx ⟨_, .start⟩ (Nat.le_antisymm (hnum.rank_le x hx) hle)
  refine { h with seen := fun x hx hle => ?_, along := fun x hx hne a ha hor => ?_ }
  · rw [htop x hx hle]
    exact h.tree.root_mem
  · rcases hor with hlt | hle
    · exact h.along x hx hne a ha (.inl (Nat.lt_succ_of_lt hlt))
    · exact absurd (htop x (h.reach x hx) hle) hne

/-- The end of a sweep is the start of another one. -/
theorem Sweeping.again (h : Sweeping E rank root parent 0 S up) (n : Nat) :
    Sweeping E rank root parent n S up :=
  { h with
    seen := fun x hx _ => h.seen x hx (Nat.zero_le _)
    along := fun x hx hne a ha _ => h.along x hx hne a ha (.inr (Nat.zero_le _)) }

/-- A tree in which no place is too low for a predecessor is the tree of the dominators. -/
theorem Sweeping.dominates (h : Sweeping E rank root parent 0 S up)
    (hfix : ∀ b, Reachable E root b → b ≠ root → ∀ p ∈ S, E p b → Above up root p (up b)) {b : α}
    (hb : Reachable E root b) (d : α) : Dominates E root d b ↔ Above up root b d := by
  refine ⟨h.dominators b (h.seen b hb (Nat.zero_le _)) d, fun hd l hl => ?_⟩
  clear hb
  induction hl with
  | start =>
    by_cases hdr : d = root
    · subst hdr
      exact List.mem_cons_self
    · exact absurd rfl (hd.of_ne hdr).1
  | @step v w l hl e ih =>
    by_cases hdw : d = w
    · subst hdw
      exact List.mem_cons_self
    · obtain ⟨hw, hup⟩ := hd.of_ne hdw
      have hv : Reachable E root v := ⟨l, hl⟩
      have hstep := hfix w (hv.step e) hw v (h.seen v hv (Nat.zero_le _)) e
      exact List.mem_cons_of_mem _ (ih (hstep.trans hup))

open Classical in
/-- How far a node can still move up. -/
noncomputable def room (rank : α → Nat) (root : α) (S : Set α) (up : α → α) (x : α) : Nat :=
  if x ∈ S then rank root - rank (up x) else rank root + 1

end Sweep

/-! ## 4. A node moves up -/

section Move

variable [DecidableEq α] {rank : α → Nat} {root : α} {S : Set α} {up : α → α} {b c : α}

/-- A chain of ancestors stays, or it went through the node that moves. -/
theorem Above.update {x a : α} (h : Above up root x a) : Above (Function.update up b c) root x a ∨
    Above up root x b ∧ Above up root b a := by
  induction h with
  | refl x => exact .inl (.refl x)
  | @step x a hx h ih =>
    by_cases hxb : x = b
    · subst hxb
      exact .inr ⟨.refl x, .step hx h⟩
    · rcases ih with ih | ⟨hb, ha⟩
      · refine .inl (.step hx ?_)
        rw [Function.update_of_ne hxb]
        exact ih
      · exact .inr ⟨.step hx hb, ha⟩

/-- The chain to that node stays. -/
theorem Above.update_self {x : α} (h : Above up root x b) :
    Above (Function.update up b c) root x b := by
  induction h with
  | refl x => exact .refl x
  | @step x a hx h ih =>
    by_cases hxb : x = a
    · subst hxb
      exact .refl x
    · refine .step hx ?_
      rw [Function.update_of_ne hxb]
      exact ih

variable (ht : RankedTree rank root S up)

include ht

/-- When a node moves up, no node comes to be above another. -/
theorem Above.of_update (hc : c ∈ S) (hmove : b ∈ S → Above up root (up b) c) {x a : α} (hx : x ∈ S)
    (h : Above (Function.update up b c) root x a) : Above up root x a := by
  induction h with
  | refl x => exact .refl x
  | @step x a hne _ ih =>
    by_cases hxb : x = b
    · subst hxb
      rw [Function.update_self] at ih
      exact .step hne ((hmove hx).trans (ih hc))
    · rw [Function.update_of_ne hxb] at ih
      exact .step hne (ih (ht.up_mem x hx hne))

/-- What is above a node of a higher rank stays above it. -/
theorem Above.update_high {x a : α} (hx : x ∈ S) (hlt : rank b < rank x) (h : Above up root x a) :
    Above (Function.update up b c) root x a := by
  rcases h.update with h | ⟨hb, -⟩
  · exact h
  · exact absurd hlt (Nat.not_lt.2 (hb.rank_le ht hx))

/-- What has no higher rank stays above. -/
theorem Above.update_low {x a : α} (hx : x ∈ S) (hle : rank a ≤ rank b) (h : Above up root x a) :
    Above (Function.update up b c) root x a := by
  rcases h.update with h | ⟨hb, ha⟩
  · exact h
  · by_cases hab : a = b
    · subst hab
      exact hb.update_self
    · exact absurd (ha.rank_lt ht (hb.mem ht hx) hab) (Nat.not_lt.2 hle)

end Move

section Update

variable {E : α → α → Prop} {rank : α → Nat} {root : α} {parent : α → α}
variable {S : Set α} {up : α → α} {b c : α}

/-- A node that is to move up to where the chains of its predecessors meet. -/
structure Moving (E : α → α → Prop) (rank : α → Nat) (root : α) (parent : α → α) (S : Set α)
    (up : α → α) (b c : α) : Prop where
  sweeping : Sweeping E rank root parent (rank b + 1) S up
  reach : Reachable E root b
  ne : b ≠ root
  meet : Meet up root {p | p ∈ S ∧ E p b} c

namespace Moving

variable {x a d e : α} (m : Moving E rank root parent S up b c)

include m

theorem move (hb : b ∈ S) : Above up root (up b) c :=
  m.sweeping.common b hb m.ne c fun p hp e => m.meet.above p ⟨hp, e⟩

theorem reach_of_mem (hx : x ∈ insert b S) : Reachable E root x := by
  rcases hx with rfl | hx
  · exact m.reach
  · exact m.sweeping.reach x hx

variable (hnum : Numbered E rank root parent)

include hnum

theorem parent_mem : parent b ∈ S :=
  m.sweeping.seen _ (hnum.reach b m.reach m.ne) (hnum.rank_parent b m.reach m.ne)

theorem above_parent : Above up root (parent b) c :=
  m.meet.above _ ⟨m.parent_mem hnum, hnum.edge b m.reach m.ne⟩

theorem mem : c ∈ S := (m.above_parent hnum).mem m.sweeping.tree (m.parent_mem hnum)

theorem rank_lt : rank b < rank c :=
  Nat.lt_of_lt_of_le (hnum.rank_parent b m.reach m.ne)
    ((m.above_parent hnum).rank_le m.sweeping.tree (m.parent_mem hnum))

variable [DecidableEq α]

/-- No node comes to be above another. -/
theorem above_old (hx : x ∈ S) (h : Above (Function.update up b c) root x a) :
    Above up root x a :=
  Above.of_update m.sweeping.tree (m.mem hnum) m.move hx h

/-- The chain from where the node moves to stays. -/
theorem above_goal (h : Above up root c a) : Above (Function.update up b c) root c a :=
  h.update_high m.sweeping.tree (m.mem hnum) (m.rank_lt hnum)

theorem tree : RankedTree rank root (insert b S) (Function.update up b c) where
  root_mem := .inr m.sweeping.tree.root_mem
  up_mem x hx hxr := by
    by_cases hxb : x = b
    · subst hxb
      rw [Function.update_self]
      exact .inr (m.mem hnum)
    · rw [Function.update_of_ne hxb]
      exact .inr (m.sweeping.tree.up_mem x (hx.resolve_left hxb) hxr)
  rank_up x hx hxr := by
    by_cases hxb : x = b
    · subst hxb
      rw [Function.update_self]
      exact m.rank_lt hnum
    · rw [Function.update_of_ne hxb]
      exact m.sweeping.tree.rank_up x (hx.resolve_left hxb) hxr
  rank_le x hx := hnum.rank_le x (m.reach_of_mem hx)
  rank_inj x hx y hy := hnum.rank_inj x y (m.reach_of_mem hx) (m.reach_of_mem hy)

theorem dominators_self (hd : Dominates E root d b) :
    Above (Function.update up b c) root b d := by
  by_cases hdb : d = b
  · subst hdb
    exact .refl d
  · refine .step m.ne ?_
    rw [Function.update_self]
    exact m.above_goal hnum (m.meet.least d fun p hp =>
      m.sweeping.dominators p hp.1 d (hd.pred hdb hp.2))

theorem dominators (hx : x ∈ S) (hd : Dominates E root d x) :
    Above (Function.update up b c) root x d := by
  rcases (m.sweeping.dominators x hx d hd).update (b := b) (c := c) with hup | ⟨hxb, hbd⟩
  · exact hup
  · -- a walk from `b` to `x` has only lower ranks, so `d` dominates `b` too
    have hlow := m.sweeping.low_of_above hx hxb
    have hle := hbd.rank_le m.sweeping.tree (hxb.mem m.sweeping.tree hx)
    exact hxb.update_self.trans (m.dominators_self hnum (hd.before hlow hle))

theorem common_self
    (he : ∀ p ∈ insert b S, E p b → Above (Function.update up b c) root p e) :
    Above (Function.update up b c) root c e :=
  m.above_goal hnum (m.meet.least e fun p hp =>
    m.above_old hnum hp.1 (he p (.inr hp.1) hp.2))

theorem common (hx : x ∈ S) (hxr : x ≠ root)
    (he : ∀ p ∈ insert b S, E p x → Above (Function.update up b c) root p e) :
    Above (Function.update up b c) root (up x) e := by
  have ht := m.sweeping.tree
  have hupS := ht.up_mem x hx hxr
  have hold : Above up root (up x) e := m.sweeping.common x hx hxr e fun p hp hpx =>
    m.above_old hnum hp (he p (.inr hp) hpx)
  rcases hold.update (b := b) (c := c) with hnew | ⟨hxb, hbe⟩
  · exact hnew
  · refine hxb.update_self.trans ?_
    by_cases heb : e = b
    · subst heb
      exact .refl e
    · -- the parent of `x` is below `b` and below `e`, and `e` has the higher rank
      have hlt := hbe.rank_lt ht (hxb.mem ht hupS) heb
      have hpb := (m.sweeping.along x hx hxr b hxb (.inl (Nat.lt_succ_self _))).update_self (c := c)
      have hpS : parent x ∈ insert b S := .inr (m.sweeping.parents x hx hxr)
      have hpe := he _ hpS (hnum.edge x (m.sweeping.reach x hx) hxr)
      rcases hpb.total hpe with hnew | hback
      · exact hnew
      · have htree := m.tree hnum
        exact absurd hlt (Nat.not_lt.2 (hback.rank_le htree (hpe.mem htree hpS)))

theorem along_self (ha : Above (Function.update up b c) root c a) :
    Above (Function.update up b c) root (parent b) a :=
  ((m.above_parent hnum).trans (m.above_old hnum (m.mem hnum) ha)).update_high m.sweeping.tree
    (m.parent_mem hnum) (hnum.rank_parent b m.reach m.ne)

theorem along (hx : x ∈ S) (hxr : x ≠ root) (hxb : x ≠ b)
    (ha : Above (Function.update up b c) root (up x) a) (hor : rank a < rank b ∨ rank b ≤ rank x) :
    Above (Function.update up b c) root (parent x) a := by
  have ht := m.sweeping.tree
  have hpS := m.sweeping.parents x hx hxr
  have hold := m.above_old hnum (ht.up_mem x hx hxr) ha
  rcases hor with hlt | hle
  · exact (m.sweeping.along x hx hxr a hold (.inl (Nat.lt_succ_of_lt hlt))).update_low ht hpS
      (Nat.le_of_lt hlt)
  · have hbx : rank b < rank x := Nat.lt_of_le_of_ne hle fun heq =>
      hxb (hnum.rank_inj x b (m.sweeping.reach x hx) m.reach heq.symm)
    have hpx := hnum.rank_parent x (m.sweeping.reach x hx) hxr
    exact (m.sweeping.along x hx hxr a hold (.inr hbx)).update_high ht hpS (hbx.trans hpx)

/-- A node moves up to where the chains of its predecessors meet. -/
theorem update : Sweeping E rank root parent (rank b) (insert b S) (Function.update up b c) := by
  have hin : ∀ {x}, x ∈ insert b S → x ≠ b → x ∈ S := fun hx hxb => hx.resolve_left hxb
  refine ⟨m.tree hnum, fun x hx => m.reach_of_mem hx, fun x hx hxr => ?_, fun x hx hle => ?_,
    fun x hx hxr => ?_, fun x hx d hd => ?_, fun x hx hxr e he => ?_, fun x hx hxr a ha hor => ?_⟩
  · by_cases hxb : x = b
    · subst hxb
      exact .inr (m.parent_mem hnum)
    · exact .inr (m.sweeping.parents x (hin hx hxb) hxr)
  · rcases Nat.lt_or_eq_of_le hle with hlt | heq
    · exact .inr (m.sweeping.seen x hx hlt)
    · exact .inl (hnum.rank_inj x b hx m.reach heq.symm)
  · by_cases hxb : x = b
    · subst hxb
      rw [Function.update_self]
      exact (m.sweeping.low_of_above (m.parent_mem hnum) (m.above_parent hnum)).tail
        ⟨hnum.edge x m.reach hxr, m.rank_lt hnum⟩
    · rw [Function.update_of_ne hxb]
      exact m.sweeping.low x (hin hx hxb) hxr
  · by_cases hxb : x = b
    · subst hxb
      exact m.dominators_self hnum hd
    · exact m.dominators hnum (hin hx hxb) hd
  · by_cases hxb : x = b
    · subst hxb
      rw [Function.update_self]
      exact m.common_self hnum he
    · rw [Function.update_of_ne hxb]
      exact m.common hnum (hin hx hxb) hxr he
  · by_cases hxb : x = b
    · subst hxb
      rw [Function.update_self] at ha
      exact m.along_self hnum ha
    · rw [Function.update_of_ne hxb] at ha
      exact m.along hnum (hin hx hxb) hxr hxb ha hor

end Moving

/-- A move leaves less room. -/
theorem room_update [DecidableEq α] (ht : RankedTree rank root S up) (hc : c ∈ S) (hne : b ≠ root)
    (hmove : b ∈ S → Above up root (up b) c) :
    (∀ x, room rank root (insert b S) (Function.update up b c) x ≤ room rank root S up x) ∧
      (b ∉ S ∨ up b ≠ c →
        room rank root (insert b S) (Function.update up b c) b < room rank root S up b) := by
  have hb : room rank root (insert b S) (Function.update up b c) b = rank root - rank c := by
    rw [room, if_pos (Set.mem_insert b S), Function.update_self]
  have hcr := ht.rank_le c hc
  refine ⟨fun x => ?_, fun hor => ?_⟩
  · by_cases hxb : x = b
    · subst hxb
      rw [hb, room]
      split
      · rename_i hx
        have hle := (hmove hx).rank_le ht (ht.up_mem x hx hne)
        omega
      · omega
    · rw [room, room, Function.update_of_ne hxb]
      by_cases hx : x ∈ S
      · rw [if_pos (Set.mem_insert_of_mem b hx), if_pos hx]
      · rw [if_neg (fun h => hx (h.resolve_left hxb)), if_neg hx]
  · rw [hb, room]
    split
    · rename_i hbS
      have hlt := (hmove hbS).rank_lt ht (ht.up_mem b hbS hne)
        (hor.resolve_left (not_not.2 hbS)).symm
      omega
    · omega

end Update

end Trustme.Lib
