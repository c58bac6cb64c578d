/-
  Subject:   `MIROptimiseGarbageCollect` (mir_operations.cpp): locals, drop flags and blocks that
             nothing uses are taken out, and the others get new numbers.

  * `usedLocals`, `usedDfs`: the scan of the visited blocks;
  * `garbageCollect`, `gcAndSort`: the pass, and `MIRSortBlocks` after it;
  * `settled`: the function with the Gotos, without the placeholders;
  * `Collectable`: what is read is assigned, and what is named is there;
  * `gcAndSort_renames`: both passes only give new names.
-/
import Trustme.Lib.Compaction
import Trustme.Mir.Renaming

namespace Trustme.Mir

open Metadata Lib

variable {V : Vocabulary}

/-! ## 1. The scan -/

/-- `assignedLval`: a local is assigned as a whole or by fields. -/
def assignedLval (v : MIRLValue V) : Option Nat :=
  if v.wrappers.all (·.isField) then v.root.asLocal else none

def outputs : MIRStatement V → List (MIRLValue V)
  | .Assign dst _ => [dst]
  | .Asm _ outputs _ _ _ => outputs.map (·.2)
  | .Asm2 _ _ params => params.flatMap (·.direct)
  | _ => []

def terminatorOutputs : MIRTerminator V → List (MIRLValue V)
  | .Call _ _ retVal _ _ _ _ => [retVal]
  | .Asm2 _ _ params _ => params.flatMap (·.direct)
  | _ => []

def assignedLocals (block : MIRBasicBlock V) : List Nat :=
  (block.statements.flatMap outputs ++ terminatorOutputs block.terminator).filterMap assignedLval

/-- What is found in the visited blocks. -/
def scan {α : Type} (fcn : MIRFunction V) (find : MIRBasicBlock V → List α) : List α :=
  (visitedBlocks fcn).flatMap fun bb => (fcn.blocks[bb]?.map find).getD []

def usedLocals (fcn : MIRFunction V) (i : Nat) : Bool := decide (i ∈ scan fcn assignedLocals)

def usedDfs (fcn : MIRFunction V) (i : Nat) : Bool :=
  decide (i ∈ (scan fcn blockFlags).map (·.toNat))

/-- `localRewriteTable`, without its `~0u`. -/
def localRewriteTable (fcn : MIRFunction V) (i : Nat) : Option Nat :=
  if usedLocals fcn i then some (rank (usedLocals fcn) i) else none

def dfRewriteTable (fcn : MIRFunction V) (flag : BitVec 32) : BitVec 32 :=
  if usedDfs fcn flag.toNat then BitVec.ofNat 32 (rank (usedDfs fcn) flag.toNat) else NONE

/-! ## 2. The pass -/

section Pass

variable (fcn : MIRFunction V)

def rewriteRoot : Storage V → Option (Storage V)
  | .Local e _ => (localRewriteTable fcn e).bind Storage.newLocal
  | root => some root

def rewriteWrapper (w : Wrapper) : Wrapper :=
  if w.isIndex then .newIndex (((localRewriteTable fcn w.asIndex).map (BitVec.ofNat 32)).getD NONE)
  else w

/-- `RewriteLocals`: a local that nothing assigns is an error. -/
def rewriteLvalue (v : MIRLValue V) : Option (MIRLValue V) :=
  (rewriteRoot fcn v.root).map (⟨·, v.wrappers.map (rewriteWrapper fcn)⟩)

def isErasedStatement : MIRStatement V → Bool
  | .Asm tpl outputs inputs clobbers flags =>
    tpl.isEmpty && outputs.isEmpty && inputs.isEmpty && clobbers.isEmpty && flags.isEmpty
  | _ => false

/-- The root of a place is a local that nothing assigns. -/
def isUnassigned (v : MIRLValue V) : Bool :=
  match v.root with
  | .Local e _ => !usedLocals fcn e
  | _ => false

/-- Drops and validity switches of what nothing assigns become Gotos. -/
def settleTerminator : MIRTerminator V → MIRTerminator V
  | .Drop kind slot flagIdx target unwind =>
    if isUnassigned fcn slot then .Goto target else .Drop kind slot flagIdx target unwind
  | .Switch val targets validFlag invalidTarget =>
    if validFlag ≠ NONE ∧ isUnassigned fcn val then .Goto invalidTarget
    else .Switch val targets validFlag invalidTarget
  | t => t

def rewriteStatement (x : MIRStatement V) : Option (MIRStatement V) :=
  (x.visit (rewriteLvalue fcn) some).map (·.mapFlags (dfRewriteTable fcn))

def rewriteTerminator (t : MIRTerminator V) : Option (MIRTerminator V) :=
  ((settleTerminator fcn t).visit (rewriteLvalue fcn) some).map (·.mapFlags (dfRewriteTable fcn))

def rewriteBlock (block : MIRBasicBlock V) : Option (MIRBasicBlock V) :=
  (visitAll (rewriteStatement fcn) (block.statements.filter fun x => !isErasedStatement x)).bind
    fun statements =>
      (rewriteTerminator fcn block.terminator).map fun t => ⟨statements, t, block.isCleanup⟩

/-- The blocks after the loop over the visited ones. -/
def rewriteBlocks : Option (List (MIRBasicBlock V)) :=
  visitAll (fun b => if b.2 ∈ visitedBlocks fcn then rewriteBlock fcn b.1 else some b.1)
    fcn.blocks.zipIdx

end Pass

/-- `ApplyRewriteTable`, with its assertions. -/
def renumberTargets (visited : List Nat) (block : MIRBasicBlock V) : Option (MIRBasicBlock V) :=
  if block.terminator.targets.all fun b => decide (b.toNat ∈ visited) then
    some { block with
      terminator := block.terminator.mapTargets fun b =>
        BitVec.ofNat 32 (rank (· ∈ visited) b.toNat) }
  else none

def garbageCollect (fcn : MIRFunction V) : Option (MIRFunction V) :=
  (rewriteBlocks fcn).bind fun blocks =>
    let visited := visitedBlocks { fcn with blocks := blocks }
    (visitAll (renumberTargets visited) (keep (· ∈ visited) blocks)).map fun blocks =>
      ⟨keep (usedLocals fcn) fcn.locals, keep (usedDfs fcn) fcn.dropFlags, blocks⟩

def gcAndSort (fcn : MIRFunction V) : Option (MIRFunction V) := (garbageCollect fcn).map sortBlocks

/-! ## 3. What it is to do -/

def settleBlock (fcn : MIRFunction V) (block : MIRBasicBlock V) : MIRBasicBlock V :=
  { block with terminator := settleTerminator fcn block.terminator }

def withoutErased (block : MIRBasicBlock V) : MIRBasicBlock V :=
  { block with statements := block.statements.filter fun x => !isErasedStatement x }

/-- The function with Gotos for the drops and validity switches of what nothing assigns. -/
def settled (fcn : MIRFunction V) : MIRFunction V :=
  { fcn with blocks := fcn.blocks.map (settleBlock fcn) }

/-- And without the placeholders that other passes leave for statements. -/
def settledWithoutErased (fcn : MIRFunction V) : MIRFunction V :=
  { fcn with blocks := fcn.blocks.map fun block => withoutErased (settleBlock fcn block) }

def blockPlaces (block : MIRBasicBlock V) : List (MIRLValue V) :=
  block.statements.flatMap (·.places) ++ block.terminator.places

def blockBorrowed (block : MIRBasicBlock V) : List (MIRLValue V) :=
  block.statements.flatMap (·.borrowed) ++ block.terminator.borrowed

/-- What can be reached names locals, flags and blocks that are there; apart from what becomes a
    Goto, it names locals that are assigned. An operand that is a borrow names none with a new
    number. -/
structure Collectable (fcn : MIRFunction V) : Prop where
  inside : EdgesInside fcn
  size : fcn.blocks.length ≤ NONE.toNat
  locals : ∀ i, usedLocals fcn i = true → i < fcn.locals.length
  flagsSize : fcn.dropFlags.length ≤ NONE.toNat
  flags : ∀ flag, NamedFlag fcn flag → flag.toNat < fcn.dropFlags.length
  reads : ∀ bb block, Reachable fcn bb → fcn.blocks[bb]? = some block →
    ∀ v ∈ blockPlaces (settleBlock fcn block), ∀ i ∈ v.locals, usedLocals fcn i = true
  borrows : ∀ bb block, Reachable fcn bb → fcn.blocks[bb]? = some block →
    ∀ v ∈ blockBorrowed block, ∀ i ∈ v.locals, localRewriteTable fcn i = some i

/-! ## 4. The rewritten blocks -/

/-- The names that the pass gives. -/
def collected (fcn : MIRFunction V) (visited : List Nat) : Renaming :=
  ⟨localRewriteTable fcn, dfRewriteTable fcn, rank (· ∈ visited)⟩

theorem collected_locals {fcn : MIRFunction V} {visited : List Nat} :
    (collected fcn visited).locals = localRewriteTable fcn := rfl

theorem visitAll_map {α β : Type} {g : α → Option β} {f : α → β} : ∀ {l : List α},
    (∀ a ∈ l, g a = some (f a)) → visitAll g l = some (l.map f)
  | [], _ => rfl
  | a :: l, h => by
    rw [visitAll, h a List.mem_cons_self, Option.bind_some,
      visitAll_map fun a ha => h a (List.mem_cons_of_mem _ ha)]
    rfl

section Places

variable {fcn : MIRFunction V} {visited : List Nat} {v : MIRLValue V}

theorem localRewriteTable_used {i : Nat} (h : usedLocals fcn i = true) :
    localRewriteTable fcn i = some (rank (usedLocals fcn) i) := if_pos h

theorem mem_wrapper_locals {w : Wrapper} (hw : w ∈ v.wrappers) (hindex : w.isIndex = true) :
    w.asIndex ∈ v.locals :=
  List.mem_append_right _ (List.mem_flatMap.2
    ⟨w, hw, by rw [Wrapper.locals, if_pos hindex]; exact List.mem_cons_self⟩)

/-- The code keeps `~0u` for an Index of nothing; there is none. -/
theorem rewriteLvalue_place (h : ∀ i ∈ v.locals, usedLocals fcn i = true) :
    rewriteLvalue fcn v = (collected fcn visited).place v := by
  have hwrappers : visitAll (collected fcn visited).wrapper v.wrappers =
      some (v.wrappers.map (rewriteWrapper fcn)) := by
    refine visitAll_map fun w hw => ?_
    rw [Renaming.wrapper, rewriteWrapper]
    by_cases hindex : w.isIndex = true
    · have htable := localRewriteTable_used (h _ (mem_wrapper_locals hw hindex))
      rw [if_pos hindex, if_pos hindex, htable, collected_locals, htable]
      rfl
    · rw [if_neg hindex, if_neg hindex]
  have hroot : rewriteRoot fcn v.root = (collected fcn visited).root v.root := by
    cases v.root <;> rfl
  rw [rewriteLvalue, Renaming.place, hwrappers, hroot]
  cases (collected fcn visited).root v.root <;> rfl

theorem newLocal_le {i : Nat} (h : i ≤ MAX_ARG) :
    Storage.newLocal i = some (Storage.Local (V := V) i h) :=
  dif_pos h

theorem place_defined (h : ∀ i ∈ v.locals, usedLocals fcn i = true) :
    ∃ v', rewriteLvalue fcn v = some v' := by
  obtain ⟨root, wrappers⟩ := v
  cases root with
  | Local e he =>
    have hused := h e (List.mem_append_left _ List.mem_cons_self)
    have hle : rank (usedLocals fcn) e ≤ MAX_ARG := Nat.le_trans (rank_le e) he
    exact ⟨_, by rw [rewriteLvalue, rewriteRoot, localRewriteTable_used hused, Option.bind_some,
      newLocal_le hle, Option.map_some]⟩
  | Return => exact ⟨_, rfl⟩
  | Argument idx hidx => exact ⟨_, rfl⟩
  | Static p => exact ⟨_, rfl⟩

theorem newIndex_asIndex {w : Wrapper} (h : w.isIndex = true) :
    Wrapper.newIndex (BitVec.ofNat 32 w.asIndex) = w := by
  have hmod : w.val.toNat % 4 = 3 := beq_iff_eq.1 h
  have hlt : w.asIndex < 2 ^ 30 := by
    have hval := w.val.isLt
    unfold Wrapper.asIndex
    omega
  have hnat : (BitVec.ofNat 32 w.asIndex).toNat = w.asIndex := by
    rw [BitVec.toNat_ofNat, Nat.mod_eq_of_lt (by omega)]
  have hne : BitVec.ofNat 32 w.asIndex ≠ NONE := fun heq => by
    rw [heq] at hnat
    have hnone : NONE.toNat = 2 ^ 32 - 1 := rfl
    omega
  have hval : w.asIndex * 4 + 3 = w.val.toNat := by
    unfold Wrapper.asIndex
    omega
  rw [Wrapper.newIndex, if_neg hne, hnat, hval, BitVec.ofNat_toNat, BitVec.setWidth_eq]

/-- A place that keeps its name, as the pass leaves those of borrows. -/
theorem place_kept (h : ∀ i ∈ v.locals, localRewriteTable fcn i = some i) :
    (collected fcn visited).place v = some v := by
  have hwrappers : visitAll (collected fcn visited).wrapper v.wrappers =
    some (v.wrappers.map id) := by
    refine visitAll_map fun w hw => ?_
    rw [Renaming.wrapper]
    by_cases hindex : w.isIndex = true
    · rw [if_pos hindex, collected_locals, h _ (mem_wrapper_locals hw hindex), Option.map_some,
        newIndex_asIndex hindex]
      rfl
    · rw [if_neg hindex]
      rfl
  have hroot : (collected fcn visited).root v.root = some v.root := by
    obtain ⟨root, wrappers⟩ := v
    cases root with
    | Local e he =>
      rw [Renaming.root, collected_locals, h e (List.mem_append_left _ List.mem_cons_self),
        Option.bind_some, newLocal_le he]
    | _ => rfl
  rw [Renaming.place, hroot, hwrappers, List.map_id]
  rfl

end Places

section Terms

variable {fcn : MIRFunction V}

/-- The places of some statement or terminator are assigned, and its borrows keep their names. -/
def Named (fcn : MIRFunction V) (places borrowed : List (MIRLValue V)) : Prop :=
  (∀ v ∈ places, ∀ i ∈ v.locals, usedLocals fcn i = true) ∧
    ∀ v ∈ borrowed, ∀ i ∈ v.locals, localRewriteTable fcn i = some i

theorem rewriteStatement_facts {x : MIRStatement V} (h : Named fcn x.places x.borrowed) :
    ∃ x', rewriteStatement fcn x = some x' ∧
      ∀ visited, (collected fcn visited).statement x = some x' := by
  obtain ⟨hplaces, hborrowed⟩ := h
  obtain ⟨x₁, hx⟩ := MIRStatement.visit_defined (f := rewriteLvalue fcn) (b := some)
    (fun v hv => place_defined (hplaces v hv)) fun v _ => ⟨v, rfl⟩
  refine ⟨x₁.mapFlags (dfRewriteTable fcn), by rw [rewriteStatement, hx]; rfl, fun visited => ?_⟩
  have hsame : x.visit (rewriteLvalue fcn) some =
      x.visit (collected fcn visited).place (collected fcn visited).place :=
    MIRStatement.visit_congr (fun v hv => rewriteLvalue_place (hplaces v hv))
      fun v hv => (place_kept (hborrowed v hv)).symm
  rw [Renaming.statement, ← hsame, hx]
  rfl

theorem rewriteTerminator_facts {t : MIRTerminator V}
    (h : Named fcn (settleTerminator fcn t).places (settleTerminator fcn t).borrowed) :
    ∃ t₁ : MIRTerminator V, rewriteTerminator fcn t = some (t₁.mapFlags (dfRewriteTable fcn)) ∧
      (t₁.targets = (settleTerminator fcn t).targets ∧ t₁.flags = (settleTerminator fcn t).flags) ∧
      ∀ visited, (collected fcn visited).terminator (settleTerminator fcn t) =
        some ((t₁.mapFlags (dfRewriteTable fcn)).mapTargets (collected fcn visited).target) := by
  obtain ⟨hplaces, hborrowed⟩ := h
  obtain ⟨t₁, ht⟩ := MIRTerminator.visit_defined (f := rewriteLvalue fcn) (b := some)
    (fun v hv => place_defined (hplaces v hv)) fun v _ => ⟨v, rfl⟩
  refine ⟨t₁, by rw [rewriteTerminator, ht]; rfl, MIRTerminator.visit_keeps ht, fun visited => ?_⟩
  have hsame : (settleTerminator fcn t).visit (rewriteLvalue fcn) some =
      (settleTerminator fcn t).visit (collected fcn visited).place (collected fcn visited).place :=
    MIRTerminator.visit_congr (fun v hv => rewriteLvalue_place (hplaces v hv))
      fun v hv => (place_kept (hborrowed v hv)).symm
  rw [Renaming.terminator, ← hsame, ht]
  rfl

/-- What becomes a Goto names nothing, and goes where it could go before. -/
theorem settleTerminator_facts (fcn : MIRFunction V) (t : MIRTerminator V) :
    (∀ v ∈ (settleTerminator fcn t).borrowed, v ∈ t.borrowed) ∧
    (∀ flag ∈ (settleTerminator fcn t).flags, flag ∈ t.flags) ∧
    ∀ b ∈ (settleTerminator fcn t).targets, b ∈ t.targets := by
  cases t with
  | Drop kind slot flagIdx target unwind =>
    rw [settleTerminator]
    split
    · refine ⟨fun v hv => hv, fun flag hflag => absurd hflag List.not_mem_nil, fun b hb => ?_⟩
      rw [List.mem_singleton.1 hb]
      exact List.mem_cons_self
    · exact ⟨fun v hv => hv, fun flag hflag => hflag, fun b hb => hb⟩
  | Switch val targets validFlag invalidTarget =>
    rw [settleTerminator]
    split
    · rename_i hdead
      refine ⟨fun v hv => hv, fun flag hflag => absurd hflag List.not_mem_nil, fun b hb => ?_⟩
      rw [List.mem_singleton.1 hb, MIRTerminator.targets, if_pos hdead.1]
      exact List.mem_append_right _ List.mem_cons_self
    · exact ⟨fun v hv => hv, fun flag hflag => hflag, fun b hb => hb⟩
  | _ => exact ⟨fun v hv => hv, fun flag hflag => hflag, fun b hb => hb⟩

end Terms

/-! ## 5. The tables -/

section Tables

variable {fcn : MIRFunction V}

theorem successors_outside {v : Nat} (hv : fcn.blocks.length ≤ v) : successors fcn v = [] := by
  rw [successors, List.getElem?_eq_none hv]
  rfl

theorem mem_visitedBlocks {bb : Nat} : bb ∈ visitedBlocks fcn ↔ Reachable fcn bb :=
  mem_explore_iff (fun _ => successors_outside) bb

theorem mem_scan {α : Type} {find : MIRBasicBlock V → List α} {a : α} :
    a ∈ scan fcn find ↔
      ∃ bb block, Reachable fcn bb ∧ fcn.blocks[bb]? = some block ∧ a ∈ find block := by
  constructor
  · intro h
    obtain ⟨bb, hbb, ha⟩ := List.mem_flatMap.1 h
    cases hblock : fcn.blocks[bb]? with
    | none =>
      rw [hblock] at ha
      cases ha
    | some block =>
      rw [hblock] at ha
      exact ⟨bb, block, mem_visitedBlocks.1 hbb, hblock, ha⟩
  · rintro ⟨bb, block, hbb, hblock, ha⟩
    exact List.mem_flatMap.2 ⟨bb, mem_visitedBlocks.2 hbb, by rw [hblock]; exact ha⟩

theorem usedDfs_of_named {flag : BitVec 32} (h : NamedFlag fcn flag) :
    usedDfs fcn flag.toNat = true :=
  decide_eq_true (List.mem_map_of_mem (mem_scan.2 h))

theorem dfRewriteTable_facts (h : Collectable fcn) {flag : BitVec 32} (hf : NamedFlag fcn flag) :
    (dfRewriteTable fcn flag).toNat = rank (usedDfs fcn) flag.toNat ∧
      dfRewriteTable fcn flag ≠ NONE := by
  have hle : rank (usedDfs fcn) flag.toNat ≤ flag.toNat := rank_le _
  have hlt := h.flags flag hf
  have hsize := h.flagsSize
  have hnat : (dfRewriteTable fcn flag).toNat = rank (usedDfs fcn) flag.toNat := by
    rw [dfRewriteTable, if_pos (usedDfs_of_named hf), BitVec.toNat_ofNat, Nat.mod_eq_of_lt]
    exact Nat.lt_of_le_of_lt hle flag.isLt
  refine ⟨hnat, fun heq => ?_⟩
  rw [heq] at hnat
  omega

end Tables

/-! ## 6. The blocks that are left -/

section Blocks

variable {fcn : MIRFunction V} (h : Collectable fcn)

include h

variable {bb : Nat}

/-- A reachable block is rewritten, and gets its new targets later on. -/
theorem rewriteBlock_facts {block : MIRBasicBlock V} (hbb : Reachable fcn bb)
    (hblock : fcn.blocks[bb]? = some block) :
    ∃ block₁, rewriteBlock fcn block = some block₁ ∧
      block₁.terminator.targets = (settleTerminator fcn block.terminator).targets ∧
      ∀ visited, (collected fcn visited).block (withoutErased (settleBlock fcn block)) =
        some { block₁ with
          terminator := block₁.terminator.mapTargets (collected fcn visited).target } := by
  have hreads := h.reads bb block hbb hblock
  have hborrows := h.borrows bb block hbb hblock
  obtain ⟨hborrowed, hflags, _⟩ := settleTerminator_facts fcn block.terminator
  have hstmt : ∀ x ∈ block.statements.filter (fun x => !isErasedStatement x),
      Named fcn x.places x.borrowed := fun x hx =>
    have hmem : x ∈ block.statements := List.mem_of_mem_filter hx
    ⟨fun v hv => hreads v (List.mem_append_left _ (List.mem_flatMap.2 ⟨x, hmem, hv⟩)),
      fun v hv => hborrows v (List.mem_append_left _ (List.mem_flatMap.2 ⟨x, hmem, hv⟩))⟩
  have hterm : Named fcn (settleTerminator fcn block.terminator).places
      (settleTerminator fcn block.terminator).borrowed :=
    ⟨fun v hv => hreads v (List.mem_append_right _ hv),
      fun v hv => hborrows v (List.mem_append_right _ (hborrowed v hv))⟩
  obtain ⟨statements, hstatements⟩ : ∃ l, visitAll (rewriteStatement fcn)
      (block.statements.filter fun x => !isErasedStatement x) = some l :=
    visitAll_defined fun x hx =>
      let ⟨x', hx', _⟩ := rewriteStatement_facts (hstmt x hx)
      ⟨x', hx'⟩
  obtain ⟨t₁, ht₁, ⟨htargets, hkept⟩, hren⟩ := rewriteTerminator_facts hterm
  refine ⟨⟨statements, t₁.mapFlags (dfRewriteTable fcn), block.isCleanup⟩, ?_, ?_,
    fun visited => ?_⟩
  · rw [rewriteBlock, hstatements, ht₁]
    rfl
  · refine (MIRTerminator.targets_mapFlags fun flag hflag => ?_).trans htargets
    rw [hkept] at hflag
    have hnamed : NamedFlag fcn flag :=
      ⟨bb, block, hbb, hblock, List.mem_append_right _ (hflags flag hflag)⟩
    exact (dfRewriteTable_facts h hnamed).2
  · have hsame : visitAll (collected fcn visited).statement
        (withoutErased (settleBlock fcn block)).statements = some statements := by
      rw [← hstatements]
      refine visitAll_congr fun x hx => ?_
      obtain ⟨x', hx', hx''⟩ := rewriteStatement_facts (hstmt x hx)
      rw [hx', hx'' visited]
    have hterm' : (collected fcn visited).terminator
        (withoutErased (settleBlock fcn block)).terminator = _ := hren visited
    rw [Renaming.block, hsame, Option.bind_some, hterm']
    rfl

/-- The blocks after the loop, with the ones that are visited rewritten. -/
theorem rewriteBlocks_facts : ∃ blocks, rewriteBlocks fcn = some blocks ∧
    blocks.length = fcn.blocks.length ∧
    ∀ bb block, Reachable fcn bb → fcn.blocks[bb]? = some block →
      ∃ block₁, rewriteBlock fcn block = some block₁ ∧ blocks[bb]? = some block₁ := by
  have hall : ∀ b ∈ fcn.blocks.zipIdx, ∃ b',
      (if b.2 ∈ visitedBlocks fcn then rewriteBlock fcn b.1 else some b.1) = some b' := by
    intro b hb
    by_cases hbb : b.2 ∈ visitedBlocks fcn
    · obtain ⟨b₁, hb₁, _⟩ :=
        rewriteBlock_facts h (mem_visitedBlocks.1 hbb) (List.mem_zipIdx_iff_getElem?.1 hb)
      exact ⟨b₁, by rw [if_pos hbb, hb₁]⟩
    · exact ⟨b.1, if_neg hbb⟩
  obtain ⟨blocks, hblocks⟩ := visitAll_defined hall
  obtain ⟨hlen, hget⟩ := visitAll_get hblocks
  refine ⟨blocks, hblocks, by rw [hlen, List.length_zipIdx], fun bb block hbb hblock => ?_⟩
  have hidx : fcn.blocks.zipIdx[bb]? = some (block, bb) := by
    rw [List.getElem?_zipIdx, hblock, Option.map_some, Nat.zero_add]
  obtain ⟨block₁, hb₁, hb₁'⟩ := hget bb (block, bb) hidx
  rw [if_pos (mem_visitedBlocks.2 hbb)] at hb₁
  exact ⟨block₁, hb₁, hb₁'⟩

omit h in
theorem settled_block {block : MIRBasicBlock V} (hblock : fcn.blocks[bb]? = some block) :
    (settledWithoutErased fcn).blocks[bb]? = some (withoutErased (settleBlock fcn block)) := by
  rw [settledWithoutErased, List.getElem?_map, hblock]
  rfl

omit h in
theorem settled_successors {a b : Nat} (hb : b ∈ successors (settledWithoutErased fcn) a) :
    b ∈ successors fcn a := by
  cases hblock : fcn.blocks[a]? with
  | none =>
    rw [successors, settledWithoutErased, List.getElem?_map, hblock] at hb
    cases hb
  | some block =>
    rw [successors_of_block (settled_block hblock)] at hb
    rw [successors_of_block hblock]
    obtain ⟨target, htarget, rfl⟩ := List.mem_map.1 hb
    exact List.mem_map_of_mem ((settleTerminator_facts fcn block.terminator).2.2 target htarget)

omit h in
theorem settled_reachable (hbb : Reachable (settledWithoutErased fcn) bb) :
    Reachable fcn bb := by
  induction hbb with
  | refl => exact .refl
  | tail _ hstep ih => exact ih.tail (settled_successors hstep)

omit h in
/-- A block of the settled function is one of the function. -/
theorem block_of_settled {block' : MIRBasicBlock V}
    (hblock : (settledWithoutErased fcn).blocks[bb]? = some block') :
    ∃ block, fcn.blocks[bb]? = some block ∧ block' = withoutErased (settleBlock fcn block) := by
  rw [settledWithoutErased, List.getElem?_map] at hblock
  obtain ⟨block, hb, rfl⟩ := Option.map_eq_some_iff.1 hblock
  exact ⟨block, hb, rfl⟩

omit h in
theorem named_of_settled {flag : BitVec 32} (hf : NamedFlag (settledWithoutErased fcn) flag) :
    NamedFlag fcn flag := by
  obtain ⟨bb, block', hbb, hblock', hflag⟩ := hf
  obtain ⟨block, hblock, rfl⟩ := block_of_settled hblock'
  refine ⟨bb, block, settled_reachable hbb, hblock, ?_⟩
  rcases List.mem_append.1 hflag with hflag | hflag
  · obtain ⟨x, hx, hflag⟩ := List.mem_flatMap.1 hflag
    exact List.mem_append_left _ (List.mem_flatMap.2 ⟨x, List.mem_of_mem_filter hx, hflag⟩)
  · exact List.mem_append_right _ ((settleTerminator_facts fcn block.terminator).2.1 flag hflag)

theorem settled_inside : EdgesInside (settledWithoutErased fcn) where
  entry := by
    rw [settledWithoutErased, List.length_map]
    exact h.inside.entry
  targets bb block' hbb hblock' b hb := by
    obtain ⟨block, hblock, rfl⟩ := block_of_settled hblock'
    rw [settledWithoutErased, List.length_map]
    exact h.inside.targets bb block (settled_reachable hbb) hblock b
      ((settleTerminator_facts fcn block.terminator).2.2 b hb)

/-- The rewritten blocks have the edges of the settled function. -/
theorem reachable_rewritten {blocks : List (MIRBasicBlock V)}
    (hblocks : ∀ bb block, Reachable fcn bb → fcn.blocks[bb]? = some block →
      ∃ block₁, rewriteBlock fcn block = some block₁ ∧ blocks[bb]? = some block₁) :
    Reachable { fcn with blocks := blocks } bb ↔ Reachable (settledWithoutErased fcn) bb := by
  have hsucc : ∀ {a : Nat}, Reachable (settledWithoutErased fcn) a →
      successors { fcn with blocks := blocks } a = successors (settledWithoutErased fcn) a := by
    intro a ha
    have hreach := settled_reachable ha
    obtain ⟨block, hblock⟩ := h.inside.block hreach
    obtain ⟨block₁, hrewrite, htargets, _⟩ := rewriteBlock_facts h hreach hblock
    obtain ⟨block₁', hrewrite', hget⟩ := hblocks a block hreach hblock
    cases hrewrite.symm.trans hrewrite'
    have hedges : successors { fcn with blocks := blocks } a =
        block₁.terminator.targets.map (·.toNat) := successors_of_block hget
    rw [hedges, successors_of_block (settled_block hblock), htargets]
    rfl
  constructor
  · intro hbb
    induction hbb with
    | refl => exact .refl
    | tail _ hstep ih => exact ih.tail (hsucc ih ▸ hstep)
  · intro hbb
    induction hbb with
    | refl => exact .refl
    | tail hbb hstep ih => exact ih.tail ((hsucc hbb).symm ▸ hstep)

end Blocks

/-! ## 7. The passes -/

section Passes

variable {fcn : MIRFunction V} (h : Collectable fcn)

include h

theorem garbageCollect_facts : ∃ (visited : List Nat) (blocks blocks' : List (MIRBasicBlock V)),
    garbageCollect fcn =
      some ⟨keep (usedLocals fcn) fcn.locals, keep (usedDfs fcn) fcn.dropFlags, blocks'⟩ ∧
    (∀ bb, bb ∈ visited ↔ Reachable (settledWithoutErased fcn) bb) ∧
    blocks.length = fcn.blocks.length ∧ blocks'.length = rank (· ∈ visited) blocks.length ∧
    ∀ bb block, Reachable (settledWithoutErased fcn) bb → fcn.blocks[bb]? = some block →
      ∃ block', (collected fcn visited).block (withoutErased (settleBlock fcn block)) =
        some block' ∧
        blocks'[rank (· ∈ visited) bb]? = some block' := by
  obtain ⟨blocks, hrewrite, hlen, hblocks⟩ := rewriteBlocks_facts h
  have hvisited : ∀ bb, bb ∈ visitedBlocks { fcn with blocks := blocks } ↔
      Reachable (settledWithoutErased fcn) bb := fun bb =>
    mem_visitedBlocks.trans (reachable_rewritten h hblocks)
  generalize hv : visitedBlocks { fcn with blocks := blocks } = visited at hvisited
  have hrenumber : ∀ bb block, Reachable (settledWithoutErased fcn) bb →
    fcn.blocks[bb]? = some block →
      ∃ block₁ block', blocks[bb]? = some block₁ ∧ renumberTargets visited block₁ = some block' ∧
        (collected fcn visited).block (withoutErased (settleBlock fcn block)) = some block' := by
    intro bb block hbb hblock
    have hreach := settled_reachable hbb
    obtain ⟨block₁, hb₁, htargets, hren⟩ := rewriteBlock_facts h hreach hblock
    obtain ⟨block₁', hb₁', hget⟩ := hblocks bb block hreach hblock
    cases hb₁.symm.trans hb₁'
    refine ⟨block₁, _, hget, if_pos (List.all_eq_true.2 fun b hb => ?_), hren visited⟩
    refine decide_eq_true ((hvisited b.toNat).2 (hbb.tail ?_))
    rw [successors_of_block (settled_block hblock)]
    exact List.mem_map_of_mem (htargets ▸ hb)
  obtain ⟨blocks', hblocks'⟩ : ∃ l, visitAll (renumberTargets visited)
      (keep (· ∈ visited) blocks) = some l := by
    refine visitAll_defined fun block₁ hmem => ?_
    obtain ⟨bb, hused, hget⟩ := mem_keep hmem
    have hbb := (hvisited bb).1 (of_decide_eq_true hused)
    obtain ⟨block, hblock⟩ := h.inside.block (settled_reachable hbb)
    obtain ⟨block₂, block', hget', hrenumber, _⟩ := hrenumber bb block hbb hblock
    cases hget.symm.trans hget'
    exact ⟨block', hrenumber⟩
  obtain ⟨hlen', hget'⟩ := visitAll_get hblocks'
  refine ⟨visited, blocks, blocks', ?_, hvisited, hlen, by rw [hlen', keep_length],
    fun bb block hbb hblock => ?_⟩
  · rw [garbageCollect, hrewrite, Option.bind_some]
    simp only [hv, hblocks']
    rfl
  · obtain ⟨block₁, block', hget, hrenum, hren⟩ := hrenumber bb block hbb hblock
    have hkept : (keep (· ∈ visited) blocks)[rank (· ∈ visited) bb]? = some block₁ := by
      rw [keep_rank (decide_eq_true ((hvisited bb).2 hbb)), hget]
    obtain ⟨block'', hrenum', hget''⟩ := hget' _ block₁ hkept
    cases hrenum.symm.trans hrenum'
    exact ⟨block', hren, hget''⟩

theorem garbageCollect_renames : ∃ ρ fcn', garbageCollect fcn = some fcn' ∧
    Isomorphic ρ (settledWithoutErased fcn) fcn' := by
  obtain ⟨visited, blocks, blocks', hgc, hvisited, hlen, hlen', hblocks⟩ := garbageCollect_facts h
  have hused : ∀ bb, Reachable (settledWithoutErased fcn) bb → decide (bb ∈ visited) = true :=
    fun bb hbb => decide_eq_true ((hvisited bb).2 hbb)
  refine ⟨collected fcn visited, _, hgc, ?_⟩
  constructor
  case entry => rfl
  case size =>
    show blocks'.length ≤ NONE.toNat
    rw [hlen', hlen]
    exact Nat.le_trans (rank_le _) h.size
  case block =>
    intro bb block' hbb hblock'
    obtain ⟨block, hblock, rfl⟩ := block_of_settled hblock'
    exact hblocks bb block hbb hblock
  case blocks_injective => exact fun a b ha hb hab => rank_injective (hused a ha) (hused b hb) hab
  case blocks_onto =>
    intro u hu
    have hlt : u < rank (· ∈ visited) blocks.length := hlen' ▸ hu
    obtain ⟨bb, _, hbb, hrank⟩ := rank_onto hlt
    exact ⟨bb, (hvisited bb).1 (of_decide_eq_true hbb), hrank⟩
  case locals =>
    intro i j hij
    obtain ⟨hi, hj⟩ : usedLocals fcn i = true ∧ rank (usedLocals fcn) i = j :=
      Option.ite_none_right_eq_some.1 hij |>.imp_right Option.some.inj
    subst hj
    exact ⟨by rw [keep_length]; exact rank_lt hi (h.locals i hi), keep_rank hi⟩
  case locals_injective =>
    intro i j k hi hj
    obtain ⟨hui, hki⟩ : usedLocals fcn i = true ∧ rank (usedLocals fcn) i = k :=
      Option.ite_none_right_eq_some.1 hi |>.imp_right Option.some.inj
    obtain ⟨huj, hkj⟩ : usedLocals fcn j = true ∧ rank (usedLocals fcn) j = k :=
      Option.ite_none_right_eq_some.1 hj |>.imp_right Option.some.inj
    exact rank_injective hui huj (hki.trans hkj.symm)
  case flags =>
    intro flag hflag
    have hnamed := named_of_settled hflag
    have hdf := usedDfs_of_named hnamed
    obtain ⟨hnat, hne⟩ := dfRewriteTable_facts h hnamed
    refine ⟨hne, ?_⟩
    rw [show ((collected fcn visited).flags flag).toNat = _ from hnat, keep_length]
    exact ⟨rank_lt hdf (h.flags flag hnamed), keep_rank hdf⟩
  case flags_injective =>
    intro a b ha hb hab
    have ha' := named_of_settled ha
    have hb' := named_of_settled hb
    have hrank : rank (usedDfs fcn) a.toNat = rank (usedDfs fcn) b.toNat := by
      rw [← (dfRewriteTable_facts h ha').1, ← (dfRewriteTable_facts h hb').1]
      exact congrArg BitVec.toNat hab
    exact BitVec.eq_of_toNat_eq (rank_injective (usedDfs_of_named ha') (usedDfs_of_named hb') hrank)

end Passes

/-- What can be reached is the same up to names; only placeholders for statements are gone, and
    drops and validity switches of what nothing assigns are Gotos. -/
theorem gcAndSort_renames {fcn : MIRFunction V} (h : Collectable fcn) :
    ∃ ρ fcn', gcAndSort fcn = some fcn' ∧ Isomorphic ρ (settledWithoutErased fcn) fcn' := by
  obtain ⟨ρ, fcn', hgc, hiso⟩ := garbageCollect_renames h
  exact ⟨ρ.sorted fcn', sortBlocks fcn', by rw [gcAndSort, hgc]; rfl, hiso.sort (settled_inside h)⟩

/-- It is enough to look at all blocks. -/
theorem collectable_of_blocks {fcn : MIRFunction V} (hentry : 0 < fcn.blocks.length)
    (hsize : fcn.blocks.length ≤ NONE.toNat) (hflagsSize : fcn.dropFlags.length ≤ NONE.toNat)
    (hlocals : ∀ i ∈ scan fcn assignedLocals, i < fcn.locals.length)
    (hblocks : ∀ block ∈ fcn.blocks,
      (block.terminator.targets.all fun b => decide (b.toNat < fcn.blocks.length)) = true ∧
      ((blockFlags block).all fun flag => decide (flag.toNat < fcn.dropFlags.length)) = true ∧
      (∀ v ∈ blockPlaces (settleBlock fcn block), ∀ i ∈ v.locals, usedLocals fcn i = true) ∧
      ∀ v ∈ blockBorrowed block, ∀ i ∈ v.locals, localRewriteTable fcn i = some i) :
    Collectable fcn where
  inside := ⟨hentry, fun _ block _ hb b hmem =>
    of_decide_eq_true (List.all_eq_true.1 (hblocks block (List.mem_of_getElem? hb)).1 b hmem)⟩
  size := hsize
  locals i hi := hlocals i (of_decide_eq_true hi)
  flagsSize := hflagsSize
  flags := fun flag ⟨_, block, _, hb, hflag⟩ =>
    of_decide_eq_true (List.all_eq_true.1 (hblocks block (List.mem_of_getElem? hb)).2.1 flag hflag)
  reads _ block _ hb := (hblocks block (List.mem_of_getElem? hb)).2.2.1
  borrows _ block _ hb := (hblocks block (List.mem_of_getElem? hb)).2.2.2

/-- The first of two locals is only dropped, with a flag, and one block is left out. -/
def droppedLocal : MIRFunction bare where
  locals := [(), ()]
  dropFlags := [true]
  blocks := [
    ⟨[.Assign ⟨.Local 1 (by decide), []⟩ (.Constant (.Bool true))],
      .Drop .DEEP ⟨.Local 0 (Nat.zero_le _), []⟩ 0 2 .Continue, false⟩,
    ⟨[], .Return, false⟩,
    ⟨[.Assign ⟨.Return, []⟩ (.Use ⟨.Local 1 (by decide), []⟩)], .Return, false⟩]

theorem droppedLocal_renamed :
    ∃ ρ fcn', gcAndSort droppedLocal = some fcn' ∧
      Isomorphic ρ (settledWithoutErased droppedLocal) fcn' :=
  gcAndSort_renames (collectable_of_blocks (by decide) (by decide) (by decide) (by decide)
    (by decide))

/-- One placeholder, as other passes leave them for statements. -/
def placeholder : MIRFunction bare where
  locals := []
  dropFlags := []
  blocks := [⟨[.Asm [] [] [] [] []], .Return, false⟩]

/-- A field of a variant is all that is assigned of the local, and nothing is read. -/
def variantWritten : MIRFunction bare where
  locals := [()]
  dropFlags := []
  blocks :=
    [⟨[.Assign ⟨.Local 0 (Nat.zero_le _), [⟨2⟩, ⟨1⟩]⟩ (.Constant (.Bool true))], .Return, false⟩]

/-- The placeholder is gone; and what is only assigned within a variant is an error. -/
theorem placeholder_removed : Collectable placeholder ∧
    (∃ fcn', gcAndSort placeholder = some fcn' ∧ ∀ ρ, ¬ Isomorphic ρ (settled placeholder) fcn') ∧
    gcAndSort variantWritten = none := by
  have herror : (gcAndSort variantWritten).isNone = true := by decide +kernel
  refine ⟨collectable_of_blocks (by decide) (by decide) (by decide) (by decide) (by decide), ?_,
    Option.isNone_iff_eq_none.1 herror⟩
  have hrun : (gcAndSort placeholder).map (·.blocks.map (·.statements.length)) = some [0] := by
    decide +kernel
  obtain ⟨fcn', hgc, hlen⟩ := Option.map_eq_some_iff.1 hrun
  refine ⟨fcn', hgc, fun ρ h => ?_⟩
  obtain ⟨block', hren, hget⟩ := h.block 0 ⟨[.Asm [] [] [] [] []], .Return, false⟩ .refl rfl
  rw [h.entry] at hget
  have hnone : (fcn'.blocks.map (·.statements.length))[0]? = some block'.statements.length := by
    rw [List.getElem?_map, hget, Option.map_some]
  rw [hlen] at hnone
  have hone : block'.statements.length = 1 := by
    cases hren
    rfl
  rw [hone] at hnone
  cases hnone

end Trustme.Mir
