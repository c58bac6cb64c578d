/-
  Subject:   `MIRSortBlocks` (mir_operations.cpp): the blocks in the order of their depth.

  * `blockDepths`, `sortIdxes`, `sortBlocks`: the search, the sorting and the renumbering;
  * `sortIdxes_head`: the first block stays the first;
  * `sortBlocks_block`: every block is found under its new number.
-/
import Mathlib.Data.List.Sort
import Trustme.Lib.LabelledSearch
import Trustme.Mir.BlockMerging

namespace Trustme.Mir

open Metadata Lib

variable {V : Vocabulary}

/-! ## 1. The search -/

structure Todo where
  bbIdx : Nat
  branchCount : Nat
  level : Nat

/-- One `Todo` for each target, with `++branches`. -/
def pushBranches (level : Nat) : Nat → List (BitVec 32) → Nat × List Todo
  | branches, [] => (branches, [])
  | branches, dst :: rest =>
    let (n, todo) := pushBranches level (branches + 1) rest
    (n, ⟨dst.toNat, branches + 1, level + 1⟩ :: todo)

/-- First the target that goes on with the same branch, then the others. -/
def pushMain (info : Todo) (branches : Nat) (main others : List (BitVec 32)) : Nat × List Todo :=
  let (n, todo) := pushBranches info.level branches others
  (n, main.map (fun dst => ⟨dst.toNat, info.branchCount, info.level + 1⟩) ++ todo)

/-- The `switch` of the search. -/
def pushTargets (info : Todo) (branches : Nat) : MIRTerminator V → Nat × List Todo
  | .Goto te => pushMain info branches [te] []
  | .If _ bbTrue bbFalse => pushBranches info.level branches [bbTrue, bbFalse]
  | .Switch _ targets validFlag invalidTarget =>
    pushBranches info.level branches (targets ++ if validFlag ≠ NONE then [invalidTarget] else [])
  | .SwitchValue _ defTarget targets _ =>
    let (n, todo) := pushBranches info.level branches targets
    (n, todo ++ [⟨defTarget.toNat, info.branchCount, info.level + 1⟩])
  | .Drop _ _ _ target unwind => pushMain info branches [target] unwind.targets
  | .Call retBlock unwind _ _ _ _ _ => pushMain info branches [retBlock] unwind.targets
  | .Asm2 _ _ params retBlock =>
    pushMain info branches (if retBlock ≠ NONE then [retBlock] else [])
      (params.flatMap (·.targets))
  | _ => (branches, [])

def expandTodo (fcn : MIRFunction V) (branches : Nat) (info : Todo) : Nat × List Todo :=
  match fcn.blocks[info.bbIdx]? with
  | none => (branches, [])
  | some block => pushTargets info branches block.terminator

/-- The blocks that are found, with their depths. -/
def foundBlocks (fcn : MIRFunction V) : List Todo :=
  labelledSearch (·.bbIdx) (expandTodo fcn) (searchFuel (successors fcn) fcn.blocks.length) 0
    [⟨0, 0, 0⟩] []

/-- `depths`. -/
def blockDepths (fcn : MIRFunction V) (bb : Nat) : Nat × Nat :=
  (((foundBlocks fcn).find? (·.bbIdx == bb)).map fun info => (info.branchCount, info.level)).getD
    (0, 0)

/-- The comparison of pairs. -/
def shallower (a b : Nat × Nat) : Prop := a.1 < b.1 ∨ a.1 = b.1 ∧ a.2 ≤ b.2

instance : DecidableRel shallower := fun a b =>
  inferInstanceAs (Decidable (a.1 < b.1 ∨ a.1 = b.1 ∧ a.2 ≤ b.2))

/-- `idxes`, sorted. -/
def sortIdxes (fcn : MIRFunction V) : List Nat :=
  (List.range fcn.blocks.length).insertionSort fun a b =>
    shallower (blockDepths fcn a) (blockDepths fcn b)

/-- `fixBbIdx`. -/
def fixBbIdx (idxes : List Nat) (idx : BitVec 32) : BitVec 32 :=
  BitVec.ofNat 32 (idxes.idxOf idx.toNat)

def sortBlocks (fcn : MIRFunction V) : MIRFunction V :=
  { fcn with
    blocks := (sortIdxes fcn).filterMap fun idx => fcn.blocks[idx]?.map fun block =>
      { block with terminator := block.terminator.mapTargets (fixBbIdx (sortIdxes fcn)) } }

/-! ## 2. Depths -/

theorem pushBranches_targets {level : Nat} : ∀ {l : List (BitVec 32)} {branches : Nat},
    (pushBranches level branches l).2.map (·.bbIdx) = l.map (·.toNat)
  | [], _ => rfl
  | dst :: rest, branches => by
    rw [pushBranches]
    exact congrArg _ pushBranches_targets

theorem pushBranches_level {level : Nat} : ∀ {l : List (BitVec 32)} {branches : Nat},
    ∀ info ∈ (pushBranches level branches l).2, 1 ≤ info.level
  | [], _, _, h => by cases h
  | dst :: rest, branches, info, h => by
    rw [pushBranches] at h
    rcases List.mem_cons.1 h with rfl | h
    · exact Nat.le_add_left 1 level
    · exact pushBranches_level info h

variable {branches : Nat}

theorem pushMain_targets {info : Todo} {main others : List (BitVec 32)} :
    (pushMain info branches main others).2.map (·.bbIdx) = (main ++ others).map (·.toNat) := by
  rw [pushMain, List.map_append, List.map_append, pushBranches_targets, List.map_map]
  rfl

theorem pushMain_level {info : Todo} {main others : List (BitVec 32)} :
    ∀ x ∈ (pushMain info branches main others).2, 1 ≤ x.level := by
  intro x hx
  rcases List.mem_append.1 hx with hx | hx
  · obtain ⟨_, _, rfl⟩ := List.mem_map.1 hx
    exact Nat.le_add_left 1 _
  · exact pushBranches_level x hx

/-- All targets are pushed, in some order. -/
theorem pushTargets_perm {info : Todo} (t : MIRTerminator V) :
    ((pushTargets info branches t).2.map (·.bbIdx)).Perm (t.targets.map (·.toNat)) := by
  cases t with
  | SwitchValue val defTarget targets values =>
    simp only [pushTargets, List.map_append, pushBranches_targets, MIRTerminator.targets]
    exact List.Perm.refl _
  | Asm2 options lines params retBlock =>
    rw [pushTargets, pushMain_targets, MIRTerminator.targets]
    exact List.perm_append_comm.map _
  | Goto te => rw [pushTargets, pushMain_targets]; exact .refl _
  | If cond bbTrue bbFalse => rw [pushTargets, pushBranches_targets]; exact .refl _
  | Switch val targets validFlag invalidTarget =>
    rw [pushTargets, pushBranches_targets]
    exact .refl _
  | Drop kind slot flagIdx target unwind => rw [pushTargets, pushMain_targets]; exact .refl _
  | Call retBlock unwind retVal fcn args source tracksCaller =>
    rw [pushTargets, pushMain_targets]
    exact .refl _
  | _ => exact .refl _

theorem pushTargets_level {info : Todo} {t : MIRTerminator V} :
    ∀ x ∈ (pushTargets info branches t).2, 1 ≤ x.level := by
  intro x hx
  cases t with
  | SwitchValue val defTarget targets values =>
    rcases List.mem_append.1 hx with hx | hx
    · exact pushBranches_level x hx
    · rw [List.mem_singleton.1 hx]
      exact Nat.le_add_left 1 _
  | Goto te => exact pushMain_level x hx
  | If cond bbTrue bbFalse => exact pushBranches_level x hx
  | Switch val targets validFlag invalidTarget => exact pushBranches_level x hx
  | Drop kind slot flagIdx target unwind => exact pushMain_level x hx
  | Call retBlock unwind retVal fcn args source tracksCaller => exact pushMain_level x hx
  | Asm2 options lines params retBlock => exact pushMain_level x hx
  | _ => cases hx

section Found

variable {fcn : MIRFunction V}

theorem expandTodo_expands : Expands (·.bbIdx) (expandTodo fcn) (successors fcn) := by
  have hperm : ∀ branches (info : Todo), ((expandTodo fcn branches info).2.map (·.bbIdx)).Perm
      (successors fcn info.bbIdx) := by
    intro branches info
    unfold expandTodo
    cases hb : fcn.blocks[info.bbIdx]? with
    | none =>
      rw [successors, hb]
      exact .refl _
    | some block =>
      rw [successors_of_block hb]
      exact pushTargets_perm _
  refine ⟨fun s x w => (hperm s x).mem_iff, fun s x => ?_⟩
  have hlen := (hperm s x).length_eq
  rw [List.length_map] at hlen
  exact Nat.le_of_eq hlen

theorem foundBlocks_head : ∃ rest, foundBlocks fcn = ⟨0, 0, 0⟩ :: rest := by
  obtain ⟨n, hn⟩ : ∃ n, searchFuel (successors fcn) fcn.blocks.length = n + 1 :=
    ⟨_, Nat.add_comm 1 _⟩
  rw [foundBlocks, hn, labelledSearch, if_neg (by exact List.not_mem_nil)]
  obtain ⟨rest, hrest⟩ : [] ++ [⟨0, 0, 0⟩] <+: labelledSearch (fun info : Todo => info.bbIdx)
    (expandTodo fcn) n (expandTodo fcn 0 ⟨0, 0, 0⟩).1
    ((expandTodo fcn 0 ⟨0, 0, 0⟩).2.reverse ++ []) ([] ++ [⟨0, 0, 0⟩]) := labelledSearch_extends
  exact ⟨rest, hrest.symm⟩

theorem foundBlocks_level : ∀ info ∈ foundBlocks fcn, info = ⟨0, 0, 0⟩ ∨ 1 ≤ info.level := by
  refine labelledSearch_forall (fun s x _ y hy => .inr ?_)
    (fun x hx => .inl (List.mem_singleton.1 hx))
    (fun x hx => absurd hx List.not_mem_nil)
  unfold expandTodo at hy
  split at hy
  · cases hy
  · exact pushTargets_level y hy

/-- All blocks that can be reached are found. -/
theorem foundBlocks_reachable {bb : Nat}
    (hbb : Relation.ReflTransGen (fun a b => b ∈ successors fcn a) 0 bb) :
    bb ∈ (foundBlocks fcn).map (·.bbIdx) := by
  have hsucc : ∀ v, fcn.blocks.length ≤ v → successors fcn v = [] := fun v hv => by
    rw [successors, List.getElem?_eq_none hv]
    rfl
  have hfuel : [(⟨0, 0, 0⟩ : Todo)].length + edgesLeft (successors fcn)
      (([] : List Todo).map (·.bbIdx)) fcn.blocks.length ≤
        searchFuel (successors fcn) fcn.blocks.length := Nat.le_refl _
  obtain ⟨hclosed, hstart⟩ := labelledSearch_closed expandTodo_expands hsucc (s := 0) hfuel
    (fun u hu => by cases hu)
  induction hbb with
  | refl => exact hstart 0 List.mem_cons_self
  | tail _ hstep ih => exact hclosed _ ih _ hstep

theorem blockDepths_zero : blockDepths fcn 0 = (0, 0) := by
  obtain ⟨rest, hrest⟩ := foundBlocks_head
  rw [blockDepths, hrest]
  rfl

theorem blockDepths_other {bb : Nat} (hne : bb ≠ 0)
    (hbb : Relation.ReflTransGen (fun a b => b ∈ successors fcn a) 0 bb) :
    1 ≤ (blockDepths fcn bb).2 := by
  obtain ⟨info, hinfo, rfl⟩ := List.mem_map.1 (foundBlocks_reachable hbb)
  cases hfind : (foundBlocks fcn).find? (·.bbIdx == info.bbIdx) with
  | none =>
    have hnot := List.find?_eq_none.1 hfind info hinfo
    exact absurd (beq_self_eq_true _) hnot
  | some found =>
    have hsame := List.find?_some hfind
    rw [beq_iff_eq] at hsame
    rw [blockDepths, hfind]
    rcases foundBlocks_level found (List.mem_of_find?_eq_some hfind) with heq | hlevel
    · subst heq
      exact absurd hsame.symm hne
    · exact hlevel

end Found

/-! ## 3. The new order -/

instance : IsTrans (Nat × Nat) shallower where
  trans a b c h h' := by
    unfold shallower at *
    omega

instance : Std.Total shallower where
  total a b := by
    unfold shallower
    omega

section Sorted

variable {fcn : MIRFunction V}

theorem sortIdxes_perm : (sortIdxes fcn).Perm (List.range fcn.blocks.length) :=
  List.perm_insertionSort _ _

theorem mem_sortIdxes {bb : Nat} : bb ∈ sortIdxes fcn ↔ bb < fcn.blocks.length := by
  rw [sortIdxes_perm.mem_iff, List.mem_range]

theorem sortIdxes_nodup : (sortIdxes fcn).Nodup := sortIdxes_perm.nodup_iff.2 List.nodup_range

theorem sortIdxes_length : (sortIdxes fcn).length = fcn.blocks.length := by
  rw [sortIdxes_perm.length_eq, List.length_range]

/-- The first block comes first: all others are deeper. -/
theorem sortIdxes_head (h : 0 < fcn.blocks.length)
    (hall : ∀ bb < fcn.blocks.length,
      Relation.ReflTransGen (fun a b => b ∈ successors fcn a) 0 bb) :
    (sortIdxes fcn).idxOf 0 = 0 := by
  have hsorted : (sortIdxes fcn).Pairwise fun a b =>
      shallower (blockDepths fcn a) (blockDepths fcn b) := by
    have htrans : IsTrans Nat fun a b => shallower (blockDepths fcn a) (blockDepths fcn b) :=
      ⟨fun a b c hab hbc => IsTrans.trans _ _ _ hab hbc⟩
    have htotal : Std.Total fun a b => shallower (blockDepths fcn a) (blockDepths fcn b) :=
      ⟨fun a b => Std.Total.total _ _⟩
    exact List.pairwise_insertionSort _ _
  have hzero : 0 ∈ sortIdxes fcn := mem_sortIdxes.2 h
  cases hl : sortIdxes fcn with
  | nil =>
    rw [hl] at hzero
    cases hzero
  | cons bb rest =>
    rw [hl] at hzero hsorted
    by_cases hbb : bb = 0
    · rw [hbb]
      exact List.idxOf_cons_self
    · rcases List.mem_cons.1 hzero with heq | hmem
      · exact absurd heq.symm hbb
      · have hle := (List.pairwise_cons.1 hsorted).1 0 hmem
        have hlt : bb < fcn.blocks.length := mem_sortIdxes.1 (hl ▸ List.mem_cons_self)
        have hdeep := blockDepths_other hbb (hall bb hlt)
        rw [blockDepths_zero] at hle
        unfold shallower at hle
        omega

theorem sortBlocks_length : (sortBlocks fcn).blocks.length = fcn.blocks.length := by
  rw [sortBlocks, List.length_filterMap_eq_countP, ← sortIdxes_length]
  refine List.countP_eq_length.2 fun bb hbb => ?_
  rw [List.getElem?_eq_getElem (mem_sortIdxes.1 hbb)]
  rfl

/-- Every block is found under its new number. -/
theorem sortBlocks_block {bb : Nat} {block : MIRBasicBlock V} (hb : fcn.blocks[bb]? = some block) :
    (sortBlocks fcn).blocks[(sortIdxes fcn).idxOf bb]? =
      some { block with terminator := block.terminator.mapTargets (fixBbIdx (sortIdxes fcn)) } := by
  have hmem : bb ∈ sortIdxes fcn := mem_sortIdxes.2 (List.getElem?_eq_some_iff.1 hb).1
  have hmap : (sortBlocks fcn).blocks.map some = (sortIdxes fcn).map fun idx =>
      fcn.blocks[idx]?.map fun block =>
        { block with terminator := block.terminator.mapTargets (fixBbIdx (sortIdxes fcn)) } := by
    rw [sortBlocks, List.map_filterMap_some_eq_filter_map_isSome]
    refine List.filter_eq_self.2 fun x hx => ?_
    obtain ⟨idx, hidx, rfl⟩ := List.mem_map.1 hx
    rw [List.getElem?_eq_getElem (mem_sortIdxes.1 hidx)]
    rfl
  have hget := congrArg (·[(sortIdxes fcn).idxOf bb]?) hmap
  simp only [List.getElem?_map, List.getElem?_idxOf hmem, Option.map_some, hb] at hget
  obtain ⟨x, hx, hsome⟩ := Option.map_eq_some_iff.1 hget
  rw [hx, hsome]

end Sorted

end Trustme.Mir
