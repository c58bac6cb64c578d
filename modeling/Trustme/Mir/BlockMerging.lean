/-
  Subject:   The second loop of `MIROptimiseBlockSimplify` (mir_operations.cpp): branches with one
             target, and blocks that go behind their only predecessor.

  * `visitedBlocks`, `countUses`: what is counted before the loop;
  * `collapse`, `appendNext`, `mergeLoop`: the loop;
  * `Counted`: the counts are those of the edges that are left;
  * `mergePass_settles`: the loop ends and leaves the executions alone.
-/
import Mathlib.Data.List.Perm.Basic
import Trustme.Lib.Explore
import Trustme.Mir.GotoChains

namespace Trustme.Mir

open Metadata Lib

variable {V : Vocabulary} {W : Type}

/-! ## 1. The loop -/

/-- The blocks that `visitTerminatorTarget` visits from block `bb`. -/
def successors (fcn : MIRFunction V) (bb : Nat) : List Nat :=
  ((fcn.blocks[bb]?.map fun block => block.terminator.targets).getD []).map (·.toNat)

/-- `visited`, in the order of the visits. -/
def visitedBlocks (fcn : MIRFunction V) : List Nat :=
  explore (successors fcn) (searchFuel (successors fcn) fcn.blocks.length) [0] []

/-- What is counted: the start of the function, and the edges of the visited blocks. -/
def entries (fcn : MIRFunction V) (visited : List Nat) : List Nat :=
  0 :: visited.flatMap (successors fcn)

/-- `uses`. -/
def countUses (fcn : MIRFunction V) (visited : List Nat) : List Nat :=
  (entries fcn visited).foldl (fun uses b => uses.modify b (· + 1))
    (List.replicate fcn.blocks.length 0)

structure MergeState (V : Vocabulary) where
  fcn : MIRFunction V
  uses : List Nat

/-- The arms of an If, a Switch or a SwitchValue. -/
def arms : MIRTerminator V → List (BitVec 32)
  | .If cond bbTrue bbFalse => (MIRTerminator.If cond bbTrue bbFalse).targets
  | .Switch val targets validFlag invalidTarget =>
    (MIRTerminator.Switch val targets validFlag invalidTarget).targets
  | .SwitchValue val defTarget targets values =>
    (MIRTerminator.SwitchValue val defTarget targets values).targets
  | _ => []

/-- `SoleTarget`. -/
def soleTarget (t : MIRTerminator V) : Option (BitVec 32) :=
  match arms t with
  | [] => none
  | target :: rest => if rest.all (· == target) then some target else none

/-- A branch with every arm on one block becomes a Goto; whether it was one. -/
def collapse (bb : Nat) (st : MergeState V) : MergeState V × Bool :=
  match st.fcn.blocks[bb]? with
  | none => (st, false)
  | some block =>
    match soleTarget block.terminator with
    | none => (st, false)
    | some target =>
      (⟨setTerminator st.fcn bb (.Goto target),
        st.uses.modify target.toNat (· - ((arms block.terminator).length - 1))⟩, true)

/-- A block with one use goes behind the Goto that uses it; whether there was one. -/
def appendNext (bb : Nat) (st : MergeState V) : MergeState V × Bool :=
  match st.fcn.blocks[bb]? with
  | none => (st, false)
  | some block =>
    match block.terminator with
    | .Goto target =>
      if st.uses[target.toNat]? = some 1 ∧ target.toNat ≠ bb then
        match st.fcn.blocks[target.toNat]? with
        | none => (st, false)
        | some block' => ({ st with fcn := appendBlock st.fcn bb target.toNat block block' }, true)
      else (st, false)
    | _ => (st, false)

/-- `while (innerChanged)`. -/
def mergeLoop (bb : Nat) : Nat → MergeState V → Option (MergeState V)
  | 0, _ => none
  | fuel + 1, st =>
    let (st₁, changed₁) := collapse bb st
    let (st₂, changed₂) := appendNext bb st₁
    if changed₁ || changed₂ then mergeLoop bb fuel st₂ else some st₂

def mergePass (fuel : Nat) (fcn : MIRFunction V) : Option (MIRFunction V) :=
  let visited := visitedBlocks fcn
  ((List.range fcn.blocks.length).foldlM
    (fun st bb => if bb ∈ visited then mergeLoop bb fuel st else some st)
    ⟨fcn, countUses fcn visited⟩).map (·.fcn)

/-! ## 2. Counts -/

theorem foldl_modify_getElem? {b : Nat} : ∀ {l uses : List Nat},
    (l.foldl (fun uses b => uses.modify b (· + 1)) uses)[b]? = uses[b]?.map (· + l.count b)
  | [], uses => by simp
  | a :: l, uses => by
    rw [List.foldl_cons, foldl_modify_getElem?, List.getElem?_modify, List.count_cons]
    cases uses[b]? with
    | none => rfl
    | some n =>
      by_cases h : a = b
      · simp [h]
        omega
      · simp [h]

/-- A list of edges where the edges of one vertex come first. -/
theorem flatMap_perm_of_mem {f : Nat → List Nat} {l : List Nat} {a : Nat} (ha : a ∈ l) :
    (l.flatMap f).Perm (f a ++ (l.erase a).flatMap f) :=
  (List.perm_cons_erase ha).flatMap_right f

theorem flatMap_erase_congr {f g : Nat → List Nat} {l : List Nat} {a : Nat} (hl : l.Nodup)
    (hfg : ∀ u, u ≠ a → f u = g u) : (l.erase a).flatMap f = (l.erase a).flatMap g :=
  List.flatMap_congr fun _ hu => hfg _ (hl.mem_erase_iff.1 hu).1

theorem successors_of_block {fcn : MIRFunction V} {bb : Nat} {block : MIRBasicBlock V}
    (h : fcn.blocks[bb]? = some block) :
    successors fcn bb = block.terminator.targets.map (·.toNat) := by
  rw [successors, h]
  rfl

theorem successors_congr {fcn fcn' : MIRFunction V} {bb : Nat}
    (h : fcn'.blocks[bb]? = fcn.blocks[bb]?) : successors fcn' bb = successors fcn bb := by
  rw [successors, successors, h]

theorem mem_entries {fcn : MIRFunction V} {visited : List Nat} {u b : Nat} (hu : u ∈ visited)
    (hb : b ∈ successors fcn u) : b ∈ entries fcn visited :=
  List.mem_cons_of_mem _ (List.mem_flatMap.2 ⟨u, hu, hb⟩)

/-! ## 3. The invariant -/

/-- Between two steps of the loop: the visited blocks are closed under edges, and `uses` has the
    number of edges for every block that still has one. -/
structure Counted (I : Interp V W) (visited : List Nat) (st : MergeState V) : Prop where
  wellFormed : WellFormed I st.fcn
  zero : 0 ∈ visited
  nodup : visited.Nodup
  closed : ∀ u ∈ visited, ∀ b ∈ successors st.fcn u, b ∈ visited
  counts : ∀ b ∈ entries st.fcn visited, st.uses[b]? = some ((entries st.fcn visited).count b)

/-- Every step of the inner loop makes this less. -/
def weight (visited : List Nat) (bb : Nat) (st : MergeState V) : Nat :=
  2 * (entries st.fcn visited).length +
    if st.fcn.blocks[bb]?.any (fun block => (soleTarget block.terminator).isSome) then 1 else 0

structure Progress (I : Interp V W) (visited : List Nat) (bb : Nat) (st st' : MergeState V) :
    Prop where
  counted : Counted I visited st'
  traces : SameTraces I st.fcn st'.fcn
  less : weight visited bb st' < weight visited bb st

section Steps

variable {I : Interp V W} {visited : List Nat} {st : MergeState V} {bb : Nat}

theorem soleTarget_facts {t : MIRTerminator V} {target : BitVec 32}
    (h : soleTarget t = some target) :
    t.isBranch = true ∧ arms t = t.targets ∧
      ∃ k, t.targets = List.replicate (k + 1) target := by
  have harms : ∀ {l : List (BitVec 32)}, arms t = l → l ≠ [] → t.isBranch = true ∧
      arms t = t.targets := by
    intro l hl hne
    cases t <;> first | exact ⟨rfl, rfl⟩ | exact absurd hl.symm hne
  unfold soleTarget at h
  split at h
  · cases h
  · next first rest hl =>
    split at h
    · next hall =>
      cases h
      obtain ⟨hbranch, heq⟩ := harms hl nofun
      refine ⟨hbranch, heq, rest.length, ?_⟩
      have hrest : ∀ b ∈ rest, b = target := fun b hb => eq_of_beq (List.all_eq_true.1 hall b hb)
      rw [← heq, hl, List.replicate_succ, List.eq_replicate_of_mem hrest]
      simp
    · cases h

/-- A branch that becomes a Goto. -/
theorem collapse_facts (h : Counted I visited st) (hbb : bb ∈ visited) :
    collapse bb st = (st, false) ∨
      ∃ st', collapse bb st = (st', true) ∧ Progress I visited bb st st' := by
  cases hb : st.fcn.blocks[bb]? with
  | none => exact .inl (by rw [collapse, hb])
  | some block =>
    cases hs : soleTarget block.terminator with
    | none => exact .inl (by simp only [collapse, hb, hs])
    | some target =>
      obtain ⟨hbranch, harms, k, hk⟩ := soleTarget_facts hs
      refine .inr ⟨_, by simp only [collapse, hb, hs]; rfl, ?_⟩
      have hsame := setTerminator_same (t := .Goto target) hb
      have hother : ∀ u, u ≠ bb →
          successors st.fcn u = successors (setTerminator st.fcn bb (.Goto target)) u := fun u hu =>
        (successors_congr (setTerminator_other hu.symm)).symm
      have hnew : successors (setTerminator st.fcn bb (.Goto target)) bb = [target.toNat] :=
        successors_of_block hsame
      have hold : successors st.fcn bb = List.replicate (k + 1) target.toNat := by
        rw [successors_of_block hb, hk, List.map_replicate]
      -- the edges of the other blocks, and the start of the function
      obtain ⟨rest, hrest, hrest'⟩ : ∃ rest, (entries st.fcn visited).Perm
            (List.replicate (k + 1) target.toNat ++ rest) ∧
          (entries (setTerminator st.fcn bb (.Goto target)) visited).Perm
            (target.toNat :: rest) := by
        refine ⟨0 :: (visited.erase bb).flatMap (successors st.fcn), ?_, ?_⟩
        · rw [← hold]
          exact ((flatMap_perm_of_mem hbb).cons 0).trans List.perm_middle.symm
        · have hp := (flatMap_perm_of_mem (f := successors (setTerminator st.fcn bb (.Goto target)))
            hbb).cons 0
          rw [← flatMap_erase_congr h.nodup hother, hnew] at hp
          exact hp.trans (List.Perm.swap _ _ _)
      have hmem : ∀ b ∈ block.terminator.targets, b.toNat < st.fcn.blocks.length :=
        h.wellFormed.targets _ _ hb
      have htarget : target ∈ block.terminator.targets := by
        rw [hk]
        exact List.mem_replicate.2 ⟨by omega, rfl⟩
      have htmem : target.toNat ∈ successors st.fcn bb := by
        rw [successors_of_block hb]
        exact List.mem_map_of_mem htarget
      constructor
      · constructor
        · exact h.wellFormed.setTerminator trivial fun b hb' => by
            rw [List.mem_singleton.1 hb']
            exact hmem _ htarget
        · exact h.zero
        · exact h.nodup
        · intro u hu b hb'
          by_cases he : u = bb
          · subst he
            rw [hnew] at hb'
            rw [List.mem_singleton.1 hb']
            exact h.closed u hu _ htmem
          · exact h.closed u hu b (hother u he ▸ hb')
        · intro b hb'
          have hb'' := hrest'.mem_iff.1 hb'
          have hold' : b ∈ entries st.fcn visited := by
            refine hrest.mem_iff.2 ?_
            rcases List.mem_cons.1 hb'' with rfl | hb''
            · exact List.mem_append_left _ (List.mem_replicate.2 ⟨by omega, rfl⟩)
            · exact List.mem_append_right _ hb''
          have hcount := h.counts b hold'
          rw [hrest.count_eq, List.count_append] at hcount
          rw [hrest'.count_eq, List.getElem?_modify, hcount, harms, hk, List.length_replicate]
          by_cases he : target.toNat = b
          · subst he
            simp
            omega
          · simp [List.count_replicate, he]
      · refine reroute_traces hb (.branch hbranch rfl fun w => ?_)
        have hlt := (h.wellFormed.switches _ _ hb).edge_lt hbranch (List.ne_nil_of_mem htarget) w
        have hnext : I.next w block.terminator = some target := by
          rw [hk, List.length_replicate] at hlt
          rw [Interp.next, hk, List.getElem?_replicate, if_pos hlt]
        rw [hnext]
        exact .some .refl
      · have hlen := hrest.length_eq
        have hlen' := hrest'.length_eq
        rw [List.length_append, List.length_replicate] at hlen
        rw [List.length_cons] at hlen'
        have hflag : (setTerminator st.fcn bb (.Goto target)).blocks[bb]?.any
            (fun block => (soleTarget block.terminator).isSome) = false := by
          rw [hsame]
          rfl
        simp only [weight, hflag, hb, Option.any_some, hs, Option.isSome_some, if_true, hlen, hlen']
        simp only [Bool.false_eq_true, if_false]
        omega

/-- A visited block that goes to another one, and that one. -/
structure Joint (fcn : MIRFunction V) (visited : List Nat) (bb : Nat) (target : BitVec 32)
    (block block' : MIRBasicBlock V) : Prop where
  mem : bb ∈ visited
  before : fcn.blocks[bb]? = some block
  goto : block.terminator = .Goto target
  behind : fcn.blocks[target.toNat]? = some block'
  ne : target.toNat ≠ bb

namespace Joint

variable {fcn : MIRFunction V} {block block' : MIRBasicBlock V} {target : BitVec 32}

section Edges

variable (j : Joint fcn visited bb target block block')

include j

theorem successors_eq : successors fcn bb = [target.toNat] := by
  rw [successors_of_block j.before, j.goto]
  rfl

theorem self : (appendBlock fcn bb target.toNat block block').blocks[bb]? =
    some ⟨block.statements ++ block'.statements, block'.terminator, block.isCleanup⟩ :=
  setBlock_same (by rw [setBlock_length]; exact (List.getElem?_eq_some_iff.1 j.before).1)

theorem gone : (appendBlock fcn bb target.toNat block block').blocks[target.toNat]? =
    some ⟨[], .Incomplete, block'.isCleanup⟩ := by
  rw [appendBlock, setBlock_other j.ne.symm, setBlock_same (List.getElem?_eq_some_iff.1 j.behind).1]

theorem successors_self : successors (appendBlock fcn bb target.toNat block block') bb =
    successors fcn target.toNat := by
  rw [successors_of_block j.behind, successors_of_block j.self]

theorem successors_gone :
    successors (appendBlock fcn bb target.toNat block block') target.toNat = [] := by
  rw [successors_of_block j.gone]
  rfl

omit j in
theorem successors_other {u : Nat} (hu : u ≠ bb) (hu' : u ≠ target.toNat) :
    successors (appendBlock fcn bb target.toNat block block') u = successors fcn u :=
  successors_congr (SoleEdge.appended_other hu hu')

/-- The edges that are left when a block has gone behind another. -/
theorem entries_append (hnodup : visited.Nodup) (htarget : target.toNat ∈ visited) :
    (entries fcn visited).Perm
      (target.toNat :: entries (appendBlock fcn bb target.toNat block block') visited) := by
  have hmem : target.toNat ∈ visited.erase bb := hnodup.mem_erase_iff.2 ⟨j.ne, htarget⟩
  have hrest : ((visited.erase bb).erase target.toNat).flatMap (successors fcn) =
      ((visited.erase bb).erase target.toNat).flatMap
        (successors (appendBlock fcn bb target.toNat block block')) := by
    refine List.flatMap_congr fun u hu => ?_
    obtain ⟨hu', hu⟩ := (hnodup.erase bb).mem_erase_iff.1 hu
    exact (successors_other (hnodup.mem_erase_iff.1 hu).1 hu').symm
  have hp := flatMap_perm_of_mem (f := successors fcn) j.mem
  have hp₁ := flatMap_perm_of_mem (f := successors fcn) hmem
  have hq := flatMap_perm_of_mem (f := successors (appendBlock fcn bb target.toNat block block'))
    j.mem
  have hq₁ := flatMap_perm_of_mem
    (f := successors (appendBlock fcn bb target.toNat block block')) hmem
  rw [j.successors_eq] at hp
  rw [j.successors_self] at hq
  rw [j.successors_gone, List.nil_append, ← hrest] at hq₁
  have hleft := hp.trans (hp₁.append_left [target.toNat])
  have hright := hq.trans (hq₁.append_left (successors fcn target.toNat))
  exact ((hleft.trans (hright.symm.cons _)).cons 0).trans (List.Perm.swap _ _ _)

/-- A terminator is one of the old ones, or that of the block that is gone. -/
theorem terminator_of {u : Nat} {block₁ : MIRBasicBlock V}
    (hu : (appendBlock fcn bb target.toNat block block').blocks[u]? = some block₁) :
    block₁.terminator = .Incomplete ∨
      ∃ (v : Nat) (block₂ : MIRBasicBlock V), fcn.blocks[v]? = some block₂ ∧
        block₁.terminator = block₂.terminator := by
  by_cases hubb : u = bb
  · subst hubb
    cases j.self.symm.trans hu
    exact .inr ⟨_, _, j.behind, rfl⟩
  by_cases hut : u = target.toNat
  · subst hut
    cases j.gone.symm.trans hu
    exact .inl rfl
  · exact .inr ⟨u, block₁, (SoleEdge.appended_other hubb hut).symm.trans hu, rfl⟩

theorem wellFormed (h : WellFormed I fcn) :
    WellFormed I (appendBlock fcn bb target.toNat block block') := by
  have hlength : (appendBlock fcn bb target.toNat block block').blocks.length =
      fcn.blocks.length := by
    rw [appendBlock, setBlock_length, setBlock_length]
  constructor
  · exact hlength ▸ h.entry
  · exact hlength ▸ h.size
  · intro u block₁ hu b hmem
    rw [hlength]
    rcases j.terminator_of hu with he | ⟨v, block₂, hv, he⟩
    · rw [he] at hmem
      cases hmem
    · exact h.targets v block₂ hv b (he ▸ hmem)
  · intro u block₁ hu
    rcases j.terminator_of hu with he | ⟨v, block₂, hv, he⟩
    · exact he ▸ trivial
    · exact he ▸ h.switches v block₂ hv

end Edges

section Uses

variable (j : Joint st.fcn visited bb target block block') (h : Counted I visited st)

include j h

theorem live : target.toNat ∈ visited :=
  h.closed bb j.mem _ (j.successors_eq ▸ List.mem_cons_self)

variable (hone : st.uses[target.toNat]? = some 1)

include hone

/-- The one edge to `target` is that of `bb`. -/
theorem unused :
    target.toNat ∉ entries (appendBlock st.fcn bb target.toNat block block') visited := by
  have hself : target.toNat ∈ successors st.fcn bb := j.successors_eq ▸ List.mem_cons_self
  have hcount := h.counts _ (mem_entries j.mem hself)
  rw [hone, (j.entries_append h.nodup (j.live h)).count_eq, List.count_cons_self] at hcount
  rw [← List.count_eq_zero]
  exact Nat.succ.inj (Option.some.inj hcount).symm

theorem sole : SoleEdge st.fcn (· ∈ visited) bb target block block' := by
  have hedge : ∀ {u block₁} {b : BitVec 32}, st.fcn.blocks[u]? = some block₁ →
      b ∈ block₁.terminator.targets → b.toNat ∈ successors st.fcn u := by
    intro u block₁ b hb₁ hmem
    rw [successors_of_block hb₁]
    exact List.mem_map_of_mem hmem
  refine ⟨j.before, j.goto, j.behind, j.ne.symm, j.mem, fun u block₁ hu hb₁ b hmem =>
    h.closed u hu _ (hedge hb₁ hmem), fun u block₁ hu hubb hb₁ b hmem hbt => ?_⟩
  have hto := hbt ▸ hedge hb₁ hmem
  by_cases hut : u = target.toNat
  · exact j.unused h hone (mem_entries j.mem (j.successors_self ▸ hut ▸ hto))
  · exact j.unused h hone (mem_entries hu (by rwa [successors_other hubb hut]))

theorem counted :
    Counted I visited { st with fcn := appendBlock st.fcn bb target.toNat block block' } where
  wellFormed := j.wellFormed h.wellFormed
  zero := h.zero
  nodup := h.nodup
  closed u hu b hmem := by
    by_cases hubb : u = bb
    · subst hubb
      exact h.closed _ (j.live h) b (j.successors_self ▸ hmem)
    by_cases hut : u = target.toNat
    · subst hut
      rw [j.successors_gone] at hmem
      cases hmem
    · rw [successors_other hubb hut] at hmem
      exact h.closed u hu b hmem
  counts b hmem := by
    have hperm := j.entries_append h.nodup (j.live h)
    have hbt : target.toNat ≠ b := fun he => j.unused h hone (he ▸ hmem)
    have hcount := h.counts b (hperm.mem_iff.2 (List.mem_cons_of_mem _ hmem))
    rwa [hperm.count_eq, List.count_cons_of_ne hbt] at hcount

theorem progress : Progress I visited bb st
    { st with fcn := appendBlock st.fcn bb target.toNat block block' } := by
  refine ⟨j.counted h hone, (j.sole h hone).append_traces h.zero fun he => ?_, ?_⟩
  · refine j.unused h hone ?_
    rw [← he]
    exact List.mem_cons_self
  · have hlen := (j.entries_append h.nodup (j.live h)).length_eq
    rw [List.length_cons] at hlen
    simp only [weight, hlen]
    split <;> split <;> omega

end Uses

end Joint

/-- A block that goes behind its only predecessor. -/
theorem appendNext_facts (h : Counted I visited st) (hbb : bb ∈ visited) :
    appendNext bb st = (st, false) ∨
      ∃ st', appendNext bb st = (st', true) ∧ Progress I visited bb st st' := by
  cases hb : st.fcn.blocks[bb]? with
  | none => exact .inl (by rw [appendNext, hb])
  | some block =>
    by_cases hgoto : ∃ target, block.terminator = .Goto target
    case neg =>
      refine .inl ?_
      simp only [appendNext, hb]
      split
      · next target ht => exact absurd ⟨target, ht⟩ hgoto
      · rfl
    obtain ⟨target, ht⟩ := hgoto
    by_cases hcond : st.uses[target.toNat]? = some 1 ∧ target.toNat ≠ bb
    case neg => exact .inl (by simp only [appendNext, hb, ht, if_neg hcond])
    cases hb' : st.fcn.blocks[target.toNat]? with
    | none => exact .inl (by simp only [appendNext, hb, ht, hb']; split <;> rfl)
    | some block' =>
      refine .inr ⟨_, by simp only [appendNext, hb, ht, hb', if_pos hcond]; rfl, ?_⟩
      exact Joint.progress ⟨hbb, hb, ht, hb', hcond.2⟩ h hcond.1

end Steps

/-! ## 4. The loop ends -/

section Loop

variable {I : Interp V W} {visited : List Nat} {bb : Nat}

theorem Progress.trans {st st' st'' : MergeState V} (h : Progress I visited bb st st')
    (h' : Progress I visited bb st' st'') : Progress I visited bb st st'' :=
  ⟨h'.counted, h.traces.trans h'.traces, h'.less.trans h.less⟩

/-- One round of the inner loop. -/
theorem round_facts {st : MergeState V} (h : Counted I visited st) (hbb : bb ∈ visited)
    (fuel : Nat) :
    mergeLoop bb (fuel + 1) st = some st ∨
      ∃ st', Progress I visited bb st st' ∧ ∀ fuel, mergeLoop bb (fuel + 1) st =
        mergeLoop bb fuel st' := by
  rcases collapse_facts h hbb with h₁ | ⟨st₁, h₁, hp₁⟩
  · rcases appendNext_facts h hbb with h₂ | ⟨st₂, h₂, hp₂⟩
    · exact .inl (by simp [mergeLoop, h₁, h₂])
    · exact .inr ⟨st₂, hp₂, fun fuel => by simp [mergeLoop, h₁, h₂]⟩
  · rcases appendNext_facts hp₁.counted hbb with h₂ | ⟨st₂, h₂, hp₂⟩
    · exact .inr ⟨st₁, hp₁, fun fuel => by simp [mergeLoop, h₁, h₂]⟩
    · exact .inr ⟨st₂, hp₁.trans hp₂, fun fuel => by simp [mergeLoop, h₁, h₂]⟩

theorem mergeLoop_settles (hbb : bb ∈ visited) : ∀ {n : Nat} {st : MergeState V},
    Counted I visited st → weight visited bb st ≤ n →
      ∃ st', Settles (fun fuel => mergeLoop bb fuel st) st' ∧ Counted I visited st' ∧
        SameTraces I st.fcn st'.fcn := by
  intro n
  induction n with
  | zero =>
    intro st h hn
    rcases round_facts h hbb 0 with hstop | ⟨st', hp, _⟩
    · exact absurd hn (by simp [weight, entries])
    · exact absurd hp.less (by omega)
  | succ n ih =>
    intro st h hn
    by_cases hstop : ∀ fuel, mergeLoop bb (fuel + 1) st = some st
    · refine ⟨st, ⟨1, fun fuel hfuel => ?_⟩, h, .refl _⟩
      obtain ⟨k, rfl⟩ : ∃ k, fuel = k + 1 := ⟨fuel - 1, by omega⟩
      exact hstop k
    · obtain ⟨k, hk⟩ := not_forall.1 hstop
      rcases round_facts h hbb k with he | ⟨st', hp, hloop⟩
      · exact absurd he hk
      · obtain ⟨st'', ⟨m, hm⟩, hc, ht⟩ := ih hp.counted (Nat.le_of_lt_succ (hp.less.trans_le hn))
        refine ⟨st'', ⟨m + 1, fun fuel hfuel => ?_⟩, hc, hp.traces.trans ht⟩
        obtain ⟨k, rfl⟩ : ∃ k, fuel = k + 1 := ⟨fuel - 1, by omega⟩
        exact (hloop k).trans (hm k (by omega))

theorem mergeBlocks_settle : ∀ {l : List Nat} {st : MergeState V}, Counted I visited st →
    ∃ st', Settles (fun fuel => l.foldlM
        (fun st bb => if bb ∈ visited then mergeLoop bb fuel st else some st) st) st' ∧
      Counted I visited st' ∧ SameTraces I st.fcn st'.fcn
  | [], st, h => ⟨st, ⟨0, fun _ _ => rfl⟩, h, .refl _⟩
  | bb :: l, st, h => by
    obtain ⟨st₁, hs₁, h₁, ht₁⟩ : ∃ st₁, Settles (fun fuel =>
        if bb ∈ visited then mergeLoop bb fuel st else some st) st₁ ∧ Counted I visited st₁ ∧
          SameTraces I st.fcn st₁.fcn := by
      by_cases hbb : bb ∈ visited
      · simp only [if_pos hbb]
        exact mergeLoop_settles hbb h (Nat.le_refl _)
      · simp only [if_neg hbb]
        exact ⟨st, ⟨0, fun _ _ => rfl⟩, h, .refl _⟩
    obtain ⟨st₂, hs₂, h₂, ht₂⟩ := mergeBlocks_settle (l := l) h₁
    exact ⟨st₂, Settles.bind hs₁ hs₂, h₂, ht₁.trans ht₂⟩

/-- What is counted before the loop. -/
theorem counted_start {fcn : MIRFunction V} (hf : WellFormed I fcn) :
    Counted I (visitedBlocks fcn) ⟨fcn, countUses fcn (visitedBlocks fcn)⟩ := by
  have hsucc : ∀ v, fcn.blocks.length ≤ v → successors fcn v = [] := by
    intro v hv
    rw [successors, List.getElem?_eq_none hv]
    rfl
  have hedge : ∀ u, ∀ b ∈ successors fcn u, b < fcn.blocks.length := by
    intro u b hb
    cases hu : fcn.blocks[u]? with
    | none =>
      rw [successors, hu] at hb
      cases hb
    | some block =>
      rw [successors_of_block hu] at hb
      obtain ⟨b', hb', rfl⟩ := List.mem_map.1 hb
      exact hf.targets _ _ hu b' hb'
  constructor
  · exact hf
  · exact (mem_explore_iff hsucc 0).2 .refl
  · exact explore_nodup List.nodup_nil
  · intro u hu b hb
    exact (mem_explore_iff hsucc b).2 (((mem_explore_iff hsucc u).1 hu).tail hb)
  · intro b hb
    have hlt : b < fcn.blocks.length := by
      rcases List.mem_cons.1 hb with rfl | hb
      · exact hf.entry
      · obtain ⟨u, _, hb⟩ := List.mem_flatMap.1 hb
        exact hedge u b hb
    rw [countUses, foldl_modify_getElem?, List.getElem?_replicate, if_pos hlt]
    simp

/-- The second loop ends, and the executions are as before. -/
theorem mergePass_settles {fcn : MIRFunction V} (hf : WellFormed I fcn) :
    ∃ r, Settles (fun fuel => mergePass fuel fcn) r ∧ WellFormed I r ∧ SameTraces I fcn r := by
  obtain ⟨st, ⟨n, hn⟩, h, ht⟩ :=
    mergeBlocks_settle (l := List.range fcn.blocks.length) (counted_start hf)
  refine ⟨st.fcn, ⟨n, fun fuel hfuel => ?_⟩, h.wellFormed, ht⟩
  exact congrArg (Option.map (·.fcn)) (hn fuel hfuel)

end Loop

end Trustme.Mir
