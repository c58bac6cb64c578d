/-
  Subject:   `MIROptimiseDeadAssignments` (mir_operations.cpp): assignments to locals that nothing
             reads are taken out, and drops of such locals where they are references.

  * `readLocals`, `droppedLocals`: the scan, which does not visit the operands that borrow;
  * `optimiseDeadAssignments`: the pass;
  * `Observed`: what can tell the value of a local;
  * `Clean`: no operand borrows what is taken out, and no drop of it frees anything.
-/
import Trustme.Mir.Places

namespace Trustme.Mir

open Metadata

variable {V : Vocabulary}

/-! ## 1. The scan -/

/-- `is_Local`: a place that is the whole of a local. -/
def wholeLocal (v : MIRLValue V) : Option Nat := if v.wrappers.isEmpty then v.root.asLocal else none

def valuePlaces (src : MIRRValue V) : List (MIRLValue V) :=
  src.direct ++ src.params.flatMap (·.places)

/-- The locals that `RecordReads` is given at a statement. The whole of a local that is assigned is
    not visited. -/
def statementReads (x : MIRStatement V) : List Nat :=
  match x with
  | .Assign dst src =>
    if (wholeLocal dst).isSome then (valuePlaces src).flatMap (·.locals) else x.places.flatMap
      (·.locals)
  | x => x.places.flatMap (·.locals)

/-- The whole of a local that is dropped. -/
def dropOf : MIRTerminator V → Option Nat
  | .Drop _ slot _ _ _ => wholeLocal slot
  | _ => none

def terminatorReads (t : MIRTerminator V) : List Nat :=
  if (dropOf t).isSome then [] else t.places.flatMap (·.locals)

def blockReads (block : MIRBasicBlock V) : List Nat :=
  block.statements.flatMap statementReads ++ terminatorReads block.terminator

def readLocals (fcn : MIRFunction V) : List Nat := fcn.blocks.flatMap blockReads

def droppedLocals (fcn : MIRFunction V) : List Nat := fcn.blocks.filterMap fun block =>
    dropOf block.terminator

/-! ## 2. The pass -/

section Pass

-- Which kind of reference a type is, if it is one: `is_Borrow` and `as_Borrow().type`.
variable (borrowType : V.HIRType → Option HIRBorrowType)

def localBorrow (fcn : MIRFunction V) (i : Nat) : Option HIRBorrowType :=
  fcn.locals[i]?.bind borrowType

/-- Assignments to the local are taken out. -/
def isUnread (fcn : MIRFunction V) (i : Nat) : Bool :=
  decide (i ∉ readLocals fcn) && !(decide (i ∈ droppedLocals fcn) &&
    !(localBorrow borrowType fcn i).isSome)

/-- Drops of the local are taken out. -/
def isUnreadBorrow (fcn : MIRFunction V) (i : Nat) : Bool :=
  decide (i ∉ readLocals fcn) && (localBorrow borrowType fcn i).isSome

def assignsTo : MIRStatement V → Option Nat
  | .Assign dst _ => wholeLocal dst
  | _ => none

def isDead (fcn : MIRFunction V) (x : MIRStatement V) : Bool :=
  (assignsTo x).any (isUnread borrowType fcn)

def withoutDrop (fcn : MIRFunction V) (t : MIRTerminator V) : MIRTerminator V :=
  match t with
  | .Drop _ slot _ target _ =>
    if (wholeLocal slot).any (isUnreadBorrow borrowType fcn) then .Goto target else t
  | t => t

def withoutDead (fcn : MIRFunction V) (block : MIRBasicBlock V) : MIRBasicBlock V where
  statements := block.statements.filter fun x => !isDead borrowType fcn x
  terminator := withoutDrop borrowType fcn block.terminator
  isCleanup := block.isCleanup

def optimiseDeadAssignments (fcn : MIRFunction V) : MIRFunction V :=
  { fcn with blocks := fcn.blocks.map (withoutDead borrowType fcn) }

/-! ## 3. What can tell the value of a local -/

/-- The locals that the places and the borrowing operands of a statement name, apart from the whole
    of a local that is assigned. -/
def observedBy (x : MIRStatement V) : List Nat := statementReads x ++ x.borrowed.flatMap (·.locals)

/-- A drop of the local does nothing. -/
def isPlainReference (fcn : MIRFunction V) (i : Nat) : Bool :=
  (localBorrow borrowType fcn i).any (· != .Owned)

/-- The locals that the places and the borrowing operands of a terminator name, and what it drops,
    unless that is a reference that owns nothing. -/
def observedByTerminator (fcn : MIRFunction V) (t : MIRTerminator V) : List Nat :=
  terminatorReads t ++ t.borrowed.flatMap (·.locals) ++
    (dropOf t).toList.filter fun i => !isPlainReference borrowType fcn i

def Observed (fcn : MIRFunction V) (i : Nat) : Prop :=
  ∃ block ∈ fcn.blocks, (∃ x ∈ block.statements, i ∈ observedBy x) ∨
    i ∈ observedByTerminator borrowType fcn block.terminator

/-- The locals of which an assignment or a drop is taken out. -/
def removedLocals (fcn : MIRFunction V) : List Nat :=
  fcn.blocks.flatMap fun block =>
    (block.statements.filterMap assignsTo).filter (isUnread borrowType fcn) ++
      (dropOf block.terminator).toList.filter (isUnreadBorrow borrowType fcn)

/-- The locals of the operands that borrow. -/
def borrowedLocals (fcn : MIRFunction V) : List Nat :=
  fcn.blocks.flatMap fun block =>
    (block.statements.flatMap (·.borrowed) ++ block.terminator.borrowed).flatMap (·.locals)

/-- No operand borrows a local of which something is taken out, and no reference of which a drop is
    taken out owns what it points to. -/
def Clean (fcn : MIRFunction V) : Prop :=
  ∀ i ∈ removedLocals borrowType fcn, i ∉ borrowedLocals fcn ∧
    (i ∈ droppedLocals fcn → localBorrow borrowType fcn i ≠ some .Owned)

instance (fcn : MIRFunction V) :
    Decidable (Clean borrowType fcn) := inferInstanceAs (Decidable (∀ _ ∈ _, _))

end Pass

/-! ## 4. What is left names nothing that is taken out -/

section Scan

variable {borrowType : V.HIRType → Option HIRBorrowType} {fcn : MIRFunction V}
  {block : MIRBasicBlock V}

variable {i : Nat}

theorem wholeLocal_eq {v : MIRLValue V} (h : wholeLocal v = some i) :
    ∃ hi, v = ⟨.Local i hi, []⟩ := by
  obtain ⟨root, wrappers⟩ := v
  unfold wholeLocal at h
  split at h
  · rename_i hw
    obtain rfl := List.isEmpty_iff.1 hw
    cases root with
    | Local j hj =>
      cases h
      exact ⟨hj, rfl⟩
    | _ => cases h
  · cases h

theorem unread_of_removed (h : i ∈ removedLocals borrowType fcn) :
    i ∉ readLocals fcn ∧ isUnread borrowType fcn i = true := by
  obtain ⟨block, _, hi⟩ := List.mem_flatMap.1 h
  rcases List.mem_append.1 hi with hi | hi
  · have hu := (List.mem_filter.1 hi).2
    have hread := hu
    rw [isUnread, Bool.and_eq_true, decide_eq_true_eq] at hread
    exact ⟨hread.1, hu⟩
  · have hu := (List.mem_filter.1 hi).2
    rw [isUnreadBorrow, Bool.and_eq_true, decide_eq_true_eq] at hu
    refine ⟨hu.1, ?_⟩
    rw [isUnread, decide_eq_true hu.1, hu.2]
    simp

variable {x : MIRStatement V}

theorem statementReads_sub (hb : block ∈ fcn.blocks) (hx : x ∈ block.statements)
    (hi : i ∈ statementReads x) : i ∈ readLocals fcn :=
  List.mem_flatMap.2 ⟨block, hb, List.mem_append_left _ (List.mem_flatMap.2 ⟨x, hx, hi⟩)⟩

theorem terminatorReads_sub (hb : block ∈ fcn.blocks) (hi : i ∈ terminatorReads block.terminator) :
    i ∈ readLocals fcn :=
  List.mem_flatMap.2 ⟨block, hb, List.mem_append_right _ hi⟩

theorem dropOf_sub (hb : block ∈ fcn.blocks) (hi : dropOf block.terminator = some i) :
    i ∈ droppedLocals fcn :=
  List.mem_filterMap.2 ⟨block, hb, hi⟩

theorem borrowed_sub (hb : block ∈ fcn.blocks) (hx : x ∈ block.statements)
    (hi : i ∈ x.borrowed.flatMap (·.locals)) : i ∈ borrowedLocals fcn := by
  obtain ⟨v, hv, hiv⟩ := List.mem_flatMap.1 hi
  refine List.mem_flatMap.2 ⟨block, hb, List.mem_flatMap.2 ⟨v, List.mem_append_left _ ?_, hiv⟩⟩
  exact List.mem_flatMap.2 ⟨x, hx, hv⟩

theorem borrowedByTerminator_sub (hb : block ∈ fcn.blocks)
    (hi : i ∈ block.terminator.borrowed.flatMap (·.locals)) : i ∈ borrowedLocals fcn := by
  obtain ⟨v, hv, hiv⟩ := List.mem_flatMap.1 hi
  exact List.mem_flatMap.2 ⟨block, hb, List.mem_flatMap.2 ⟨v, List.mem_append_right _ hv, hiv⟩⟩

theorem removed_of_assigned (hb : block ∈ fcn.blocks) (hx : x ∈ block.statements)
    (ha : assignsTo x = some i)
    (hu : isUnread borrowType fcn i = true) : i ∈ removedLocals borrowType fcn := by
  refine List.mem_flatMap.2 ⟨block, hb, List.mem_append_left _ (List.mem_filter.2 ⟨?_, hu⟩)⟩
  exact List.mem_filterMap.2 ⟨x, hx, ha⟩

theorem removed_of_dropped (hb : block ∈ fcn.blocks) (hd : dropOf block.terminator = some i)
    (hu : isUnreadBorrow borrowType fcn i = true) : i ∈ removedLocals borrowType fcn := by
  refine List.mem_flatMap.2 ⟨block, hb, List.mem_append_right _ (List.mem_filter.2 ⟨?_, hu⟩)⟩
  rw [hd]
  exact List.mem_singleton.2 rfl

/-- The locals that a statement names, in its places and in the operands that borrow. -/
def statementLocals (x : MIRStatement V) : List Nat := (x.places ++ x.borrowed).flatMap (·.locals)

def valueLocals (src : MIRRValue V) : List Nat :=
  (valuePlaces src ++ src.params.flatMap (·.borrowed)).flatMap (·.locals)

def terminatorLocals (t : MIRTerminator V) : List Nat := (t.places ++ t.borrowed).flatMap (·.locals)

variable (hc : Clean borrowType fcn) (hb : block ∈ fcn.blocks)
include hc hb

/-- A statement that is left names nothing that is taken out. -/
theorem alive_names (hx : x ∈ block.statements) (hd : isDead borrowType fcn x = false) :
    ∀ i ∈ statementLocals x, i ∉ removedLocals borrowType fcn := by
  intro i hi hr
  obtain ⟨hread, hunread⟩ := unread_of_removed hr
  rw [statementLocals, List.flatMap_append] at hi
  rcases List.mem_append.1 hi with hi | hi
  · by_cases hw : ∃ j, assignsTo x = some j
    · obtain ⟨j, hj⟩ := hw
      cases x with
      | Assign dst src =>
        rw [assignsTo] at hj
        obtain ⟨hlt, rfl⟩ := wholeLocal_eq hj
        have hsplit : i = j ∨ i ∈ statementReads (.Assign ⟨.Local j hlt, []⟩ src) := by
          rw [statementReads, if_pos (by rw [hj]; rfl)]
          simpa [MIRStatement.places, MIRStatement.direct, MIRStatement.params, valuePlaces,
            MIRLValue.locals,
            Storage.asLocal] using hi
        rcases hsplit with rfl | hi
        · rw [isDead, assignsTo, hj, Option.any_some, hunread] at hd
          cases hd
        · exact hread (statementReads_sub hb hx hi)
      | _ => cases hj
    · refine hread (statementReads_sub hb hx ?_)
      cases x with
      | Assign dst src =>
        have hn : (wholeLocal dst).isSome = false := by
          rw [Option.isSome_eq_false_iff, Option.isNone_iff_eq_none,
            Option.eq_none_iff_forall_ne_some]
          exact fun j hj => hw ⟨j, hj⟩
        rw [statementReads, hn, if_neg Bool.false_ne_true]
        exact hi
      | _ => exact hi
  · exact (hc i hr).1 (borrowed_sub hb hx hi)

/-- What is assigned by a statement that is taken out names nothing that is taken out. -/
theorem dead_names (hx : x ∈ block.statements) (hd : isDead borrowType fcn x = true) :
    ∃ i hi src, x = .Assign ⟨.Local i hi, []⟩ src ∧ i ∈ removedLocals borrowType fcn ∧
      ∀ j ∈ valueLocals src, j ∉ removedLocals borrowType fcn := by
  obtain ⟨i, ha, hu⟩ := (Option.any_eq_true _ _).1 hd
  have hr := removed_of_assigned hb hx ha hu
  cases x with
  | Assign dst src =>
    rw [assignsTo] at ha
    obtain ⟨hlt, rfl⟩ := wholeLocal_eq ha
    refine ⟨i, hlt, src, rfl, hr, fun j hj hrj => ?_⟩
    rw [valueLocals, List.flatMap_append] at hj
    rcases List.mem_append.1 hj with hj | hj
    · refine (unread_of_removed hrj).1 (statementReads_sub hb hx ?_)
      rw [statementReads, if_pos (by rw [ha]; rfl)]
      exact hj
    · exact (hc j hrj).1 (borrowed_sub hb hx hj)
  | _ => cases ha

/-- A terminator that stays names nothing that is taken out; else it is a drop of a reference that
    owns nothing. -/
theorem terminator_names :
    (withoutDrop borrowType fcn block.terminator = block.terminator ∧
      ∀ i ∈ terminatorLocals block.terminator, i ∉ removedLocals borrowType fcn) ∨
    ∃ kind i hi flag target unwind, block.terminator =
      .Drop kind ⟨.Local i hi, []⟩ flag target unwind ∧
      withoutDrop borrowType fcn block.terminator = .Goto target ∧
      isPlainReference borrowType fcn i = true := by
  by_cases hd : ∃ i, dropOf block.terminator = some i ∧ isUnreadBorrow borrowType fcn i = true
  · right
    obtain ⟨i, hdrop, hu⟩ := hd
    have hr := removed_of_dropped hb hdrop hu
    have howned := (hc i hr).2 (dropOf_sub hb hdrop)
    generalize ht : block.terminator = t at hdrop
    cases t with
    | Drop kind slot flag target unwind =>
      rw [dropOf] at hdrop
      obtain ⟨hlt, rfl⟩ := wholeLocal_eq hdrop
      refine ⟨kind, i, hlt, flag, target, unwind, rfl, ?_, ?_⟩
      · rw [withoutDrop, hdrop, Option.any_some, if_pos hu]
      · rw [isUnreadBorrow, Bool.and_eq_true] at hu
        obtain ⟨k, hk⟩ := Option.isSome_iff_exists.1 hu.2
        rw [isPlainReference, hk, Option.any_some, bne_iff_ne]
        exact fun h => howned (hk.trans (congrArg some h))
    | _ => cases hdrop
  · left
    refine ⟨?_, fun i hi hr => ?_⟩
    · generalize ht : block.terminator = t at hd
      cases t with
      | Drop kind slot flag target unwind =>
        rw [withoutDrop, if_neg]
        intro hany
        obtain ⟨i, hs, hu⟩ := (Option.any_eq_true _ _).1 hany
        exact hd ⟨i, hs, hu⟩
      | _ => rfl
    · obtain ⟨hread, hunread⟩ := unread_of_removed hr
      rw [terminatorLocals, List.flatMap_append] at hi
      rcases List.mem_append.1 hi with hi | hi
      · by_cases hdrop : ∃ j, dropOf block.terminator = some j
        · obtain ⟨j, hj⟩ := hdrop
          have hij : i = j := by
            generalize ht : block.terminator = t at hj hi
            cases t with
            | Drop kind slot flag target unwind =>
              rw [dropOf] at hj
              obtain ⟨hlt, rfl⟩ := wholeLocal_eq hj
              simpa [MIRTerminator.places, MIRTerminator.direct, MIRTerminator.params,
                MIRLValue.locals,
                Storage.asLocal] using hi
            | _ => cases hj
          subst hij
          refine hd ⟨i, hj, ?_⟩
          rw [isUnread, decide_eq_true (dropOf_sub hb hj), Bool.and_eq_true, Bool.true_and,
            Bool.not_not] at hunread
          rw [isUnreadBorrow, Bool.and_eq_true]
          exact hunread
        · refine hread (terminatorReads_sub hb ?_)
          have hn : (dropOf block.terminator).isSome = false := by
            rw [Option.isSome_eq_false_iff, Option.isNone_iff_eq_none,
              Option.eq_none_iff_forall_ne_some]
            exact fun j hj => hdrop ⟨j, hj⟩
          rw [terminatorReads, hn, if_neg Bool.false_ne_true]
          exact hi
      · exact (hc i hr).1 (borrowedByTerminator_sub hb hi)

end Scan

end Trustme.Mir
