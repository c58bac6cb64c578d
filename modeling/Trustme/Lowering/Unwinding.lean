/-
  Subject:   The drops `MirBuilder` emits at the end of scopes, at early exits, at assignments and
             at calls, and the cleanup blocks their terminators unwind to.

  * `DropBuilder`: the scopes, the states of the slots, the cleanup blocks and their caches;
  * `dropValueFromState`: the drop of a value by its state, part by part where it is split;
  * `unwindCleanupNode`, `unwindCleanupChain`, `makeUnwindAction`: the shared cleanup chain;
  * `dropScopeValues`, `terminateScope`, `terminateScopeEarly`, `emitUnwindCleanup`: scopes;
  * `getValStateMutP`, `markValueAssignedState`, `assignReplacing`, `dropLvalue`: parts of slots.
-/
import Trustme.Lowering.DropCode
import Trustme.Lowering.DropFlags

namespace Trustme.Lowering

open Lib (OrdMap)

/-! ## 1. The builder -/

namespace VarState

mutual

/-- `VarState::operator==`. -/
def beq : VarState → VarState → Bool
  | .invalid why, .invalid why' => why == why'
  | .valid, .valid => true
  | .optional flag, .optional flag' => flag == flag'
  | .movedOut innerState outerFlag, .movedOut innerState' outerFlag' =>
    outerFlag == outerFlag' && beq innerState innerState'
  | .partialOf innerStates outerFlag, .partialOf innerStates' outerFlag' =>
    outerFlag == outerFlag' && beqInner innerStates innerStates'
  | .partialArray fillState otherStates count, .partialArray fillState' otherStates' count' =>
    count == count' && beq fillState fillState' && beqOther otherStates otherStates'
  | _, _ => false

def beqInner : List VarState → List VarState → Bool
  | [], [] => true
  | s :: ss, t :: ts => beq s t && beqInner ss ts
  | _, _ => false

def beqOther : List (Nat × VarState) → List (Nat × VarState) → Bool
  | [], [] => true
  | (j, s) :: ss, (k, t) :: ts => j == k && beq s t && beqOther ss ts
  | _, _ => false

end

/-- What is left of a state when the value has been dropped. -/
def dropped : VarState → VarState
  | .invalid why => .invalid why
  | _ => .invalid .moved

end VarState

/-- `ScopeType`; of `Owning` the drop schedule, of `Freeze` whether it is unfrozen. -/
inductive Scope where
  | owning (dropSlots : List ScopeDropSlot)
  | split
  | loop
  | freeze (unfrozen : Bool)
  deriving Repr

namespace Scope

def dropSlots : Scope → List ScopeDropSlot
  | .owning dropSlots => dropSlots
  | _ => []

def isOwning : Scope → Bool
  | .owning _ => true
  | _ => false

/-- An early exit out of the scope leaves the states of the slots as they are. -/
def keepsStates : Scope → Bool
  | .owning _ => false
  | .split => true
  | .loop => true
  | .freeze unfrozen => !unfrozen

end Scope

structure UnwindDropNode where
  slotKey : Nat
  target : Nat
  flag : Option DropFlag
  block : Nat
  deriving Repr

structure UnwindStateNode where
  slotKey : Nat
  target : Nat
  state : VarState
  block : Nat
  deriving Repr

/-- What `MirBuilder` keeps for drops: the states of the slots (as the current arm sees them) and
    those of an early exit, the scope stack (outermost first), the saves in progress, the number of
    locals, and the cleanup blocks with the two tables of shared nodes (newest first). -/
structure DropBuilder where
  slotStates : ScopeDropSlot → VarState
  frozenExitStates : Option (ScopeDropSlot → Option VarState)
  scopeStack : List Scope
  codeSaveStack : List Nat
  locals : Nat
  blocks : List CleanupBlock
  unwindResumeBlock : Option Nat
  unwindDropNodes : List UnwindDropNode
  unwindStateNodes : List UnwindStateNode

abbrev Emit := Act DropBuilder

namespace DropBuilder

variable (b : DropBuilder)

def getSlotState (slot : ScopeDropSlot) : VarState :=
  match b.frozenExitStates with
  | none => b.slotStates slot
  | some states => (states slot).getD (b.slotStates slot)

/-- A write through the reference that `getSlotStateMut` gives. -/
def setSlotState (slot : ScopeDropSlot) (state : VarState) : DropBuilder :=
  match b.frozenExitStates with
  | none => { b with slotStates := fun s => if s = slot then state else b.slotStates s }
  | some states =>
    { b with frozenExitStates := some fun s => if s = slot then some state else states s }

/-- All slots with a scheduled drop, in the order of scheduling. -/
def scheduled : List ScopeDropSlot := b.scopeStack.flatMap Scope.dropSlots

end DropBuilder

def setSlotState (slot : ScopeDropSlot) (state : VarState) : Emit Unit :=
  modify fun b => b.setSlotState slot state

def newUnscopedLocal : Emit Nat := do
  let b ← get
  set { b with locals := b.locals + 1 }
  return b.locals

/-- A new cleanup block with its code. -/
def newCleanupBlock (code : List DropStep) (next : Option Nat) : Emit Nat := do
  let b ← get
  set { b with blocks := b.blocks ++ [CleanupBlock.mk code next] }
  return b.blocks.length

/-- Code for one thing after the other. -/
def emitEach {α : Type} (emit : α → Emit (List DropStep)) : List α → Emit (List DropStep)
  | [] => return []
  | a :: as => do
      let code ← emit a
      return code ++ (← emitEach emit as)

section Source

variable {Ty : Type} (tt : TypeTable Ty) (typeNeedsDropGlue : Ty → Bool) (rootTy : Storage → Ty)

/-! ## 2. Drops of values -/

section DropValue

-- the unwind action of a drop terminator: `Terminate` in a cleanup, a cleanup chain elsewhere
variable (unwindOf : LValue → Emit UnwindAction)

def pushDropTerminator (kind : DropKind) (val : LValue) (flag : Option DropFlag) :
    Emit (List DropStep) := do
  let unwind ← unwindOf val
  return [.drop kind val flag unwind]

def pushStmtDrop (val : LValue) (flag : Option DropFlag) : Emit (List DropStep) :=
  if !typeNeedsDropGlue (valType tt rootTy val) then return []
  else pushDropTerminator unwindOf .deep val flag

def pushStmtDropShallow (val : LValue) (flag : Option DropFlag) : Emit (List DropStep) :=
  pushDropTerminator unwindOf .shallow val flag

def emitArrayElementDropLoop (arrLv : LValue) (start stop : Nat) (dropFlag : Option DropFlag) :
    Emit (List DropStep) :=
  if stop ≤ start then return []
  else do
    let idxLocal ← newUnscopedLocal
    let _cmpLocal ← newUnscopedLocal
    let element := arrLv.newIndex idxLocal
    if !typeNeedsDropGlue (valType tt rootTy element) then return []
    else
      let unwind ← unwindOf element
      return [.elements arrLv idxLocal start stop dropFlag unwind]

/-- The elements that have the shared state, under its flag. -/
def emitFill (arrLv : LValue) (fillState : VarState) (start stop : Nat) : Emit (List DropStep) :=
  match fillState with
  | .valid => emitArrayElementDropLoop tt typeNeedsDropGlue rootTy unwindOf arrLv start stop none
  | .optional flag =>
    emitArrayElementDropLoop tt typeNeedsDropGlue rootTy unwindOf arrLv start stop (some flag)
  | _ => return []

mutual

/-- The drop of a value by its state. The caller sets the state to `dropped` first. -/
def dropValueFromState : VarState → LValue → Emit (List DropStep)
  | .invalid _, _ => return []
  | .valid, lv => pushStmtDrop tt typeNeedsDropGlue rootTy unwindOf lv none
  | .optional flag, lv => pushStmtDrop tt typeNeedsDropGlue rootTy unwindOf lv (some flag)
  | .movedOut innerState outerFlag, lv =>
    if !typeNeedsDropGlue (valType tt rootTy lv) then return []
    else if tt.isTypeOwnedBox (valType tt rootTy lv) then do
      let code ← dropValueFromState innerState lv.newDeref
      return code ++ (← pushStmtDropShallow unwindOf lv outerFlag)
    else bug ""
  | .partialOf innerStates outerFlag, lv =>
    let ty := valType tt rootTy lv
    if !typeNeedsDropGlue ty then return []
    else if tt.isEnum ty then
      if innerStates.all VarState.isInvalid then return []
      else if tt.hasDropImpl ty then
        pushStmtDrop tt typeNeedsDropGlue rootTy unwindOf lv outerFlag
      else do
        let arms ← dropVariants innerStates lv 0
        return [.switch lv outerFlag arms]
    else if tt.isUnion ty then return []
    else dropFields innerStates lv 0
  | .partialArray fillState otherStates count, lv =>
    if !typeNeedsDropGlue (valType tt rootTy lv) then return []
    else if !fillState.isWhole then bug "Composite fill state in PartialArray drop"
    else dropElements fillState otherStates lv 0 count

/-- The arms of the switch, one for each variant. -/
def dropVariants : List VarState → LValue → Nat → Emit (List (List DropStep))
  | [], _, _ => return []
  | s :: ss, lv, i => do
      let arm ← if s.isInvalid then pure [] else dropValueFromState s (lv.newDowncast i)
      return arm :: (← dropVariants ss lv (i + 1))

def dropFields : List VarState → LValue → Nat → Emit (List DropStep)
  | [], _, _ => return []
  | s :: ss, lv, i => do
      let code ← dropValueFromState s (lv.newField i)
      return code ++ (← dropFields ss lv (i + 1))

/-- The elements from `prev` on, the exceptions in between. -/
def dropElements (fillState : VarState) : List (Nat × VarState) → LValue → Nat → Nat →
    Emit (List DropStep)
  | [], lv, prev, count => emitFill tt typeNeedsDropGlue rootTy unwindOf lv fillState prev count
  | (k, s) :: ss, lv, prev, count => do
      let fill ← emitFill tt typeNeedsDropGlue rootTy unwindOf lv fillState prev k
      let code ← dropValueFromState s (lv.newField k)
      return fill ++ code ++ (← dropElements fillState ss lv (k + 1) count)

end

end DropValue

/-! ## 3. Cleanup chains -/

/-- A drop in a cleanup block. -/
def dropInCleanup (state : VarState) (lv : LValue) : Emit (List DropStep) :=
  dropValueFromState tt typeNeedsDropGlue rootTy (fun _ => return .terminate) state lv

def slotHasDropGlue (slot : ScopeDropSlot) : Bool := typeNeedsDropGlue (rootTy (.slot slot))

def slotKey (slot : ScopeDropSlot) : Nat := slot.index * 2 + if slot.isArgument then 1 else 0

/-- The node for a slot that has one state as a whole. -/
def unwindDropNode (slot : ScopeDropSlot) (flag : Option DropFlag) (target : Nat) (shared : Bool) :
    Emit Nat := do
  let b ← get
  let made := b.unwindDropNodes.find? fun node =>
    node.slotKey == slotKey slot && node.target == target && node.flag == flag
  match shared, made with
  | true, some node => return node.block
  | _, _ =>
    let block ← newCleanupBlock [.drop .deep (.ofSlot slot) flag .terminate] (some target)
    if shared then
      modify fun b => { b with
        unwindDropNodes := ⟨slotKey slot, target, flag, block⟩ :: b.unwindDropNodes }
    return block

/-- The node for a slot that is split, with the drops of its parts. -/
def unwindStateNode (slot : ScopeDropSlot) (state : VarState) (target : Nat) (shared : Bool) :
    Emit Nat := do
  let b ← get
  let made := b.unwindStateNodes.find? fun node =>
    node.slotKey == slotKey slot && node.target == target && node.state.beq state
  match shared, made with
  | true, some node => return node.block
  | _, _ =>
    let code ← dropInCleanup tt typeNeedsDropGlue rootTy state (.ofSlot slot)
    let block ← newCleanupBlock code (some target)
    if shared then
      modify fun b => { b with
        unwindStateNodes := ⟨slotKey slot, target, state, block⟩ :: b.unwindStateNodes }
    return block

def unwindCleanupNode (slot : ScopeDropSlot) (state : VarState) (target : Nat) (shared : Bool) :
    Emit Nat :=
  if state.isInvalid || !slotHasDropGlue typeNeedsDropGlue rootTy slot then return target
  else match state with
    | .valid => unwindDropNode slot none target shared
    | .optional flag => unwindDropNode slot (some flag) target shared
    | state => unwindStateNode tt typeNeedsDropGlue rootTy slot state target shared

/-- The nodes for the slots, the last one in front. -/
def unwindCleanupNodes (consumedValue : Option LValue) (shared : Bool) : List ScopeDropSlot → Nat →
    Emit Nat
  | [], target => return target
  | slot :: slots, target =>
    if !slotHasDropGlue typeNeedsDropGlue rootTy slot || consumedValue == some (.ofSlot slot) then
      unwindCleanupNodes consumedValue shared slots target
    else do
      let b ← get
      let target ← unwindCleanupNode tt typeNeedsDropGlue rootTy slot (b.getSlotState slot) target
        shared
      unwindCleanupNodes consumedValue shared slots target

def resumeBlock (shared : Bool) : Emit Nat := do
  let b ← get
  match shared, b.unwindResumeBlock with
  | true, some block => return block
  | _, _ =>
    let block ← newCleanupBlock [] none
    if shared then
      modify fun b => { b with unwindResumeBlock := some block }
    return block

def unwindCleanupChain (consumedValue : Option LValue) (shared : Bool) : Emit Nat := do
  let target ← resumeBlock shared
  let b ← get
  unwindCleanupNodes tt typeNeedsDropGlue rootTy consumedValue shared b.scheduled target

def makeUnwindAction (consumedValue : Option LValue) : Emit UnwindAction := do
  let b ← get
  return .cleanup (← unwindCleanupChain tt typeNeedsDropGlue rootTy consumedValue
    b.codeSaveStack.isEmpty)

/-- A drop outside of cleanup blocks. -/
def dropValue (state : VarState) (lv : LValue) : Emit (List DropStep) :=
  dropValueFromState tt typeNeedsDropGlue rootTy
    (fun val => makeUnwindAction tt typeNeedsDropGlue rootTy (some val)) state lv

/-! ## 4. Scopes -/

def dropSlot (slot : ScopeDropSlot) : Emit (List DropStep) := do
  let b ← get
  let state := b.getSlotState slot
  setSlotState slot state.dropped
  dropValue tt typeNeedsDropGlue rootTy state (.ofSlot slot)

def dropScopeValues (scope : Scope) : Emit (List DropStep) :=
  emitEach (dropSlot tt typeNeedsDropGlue rootTy) scope.dropSlots.reverse

def terminateScope : Emit (List DropStep) := do
  let b ← get
  match b.scopeStack.getLast? with
  | none => bug "Terminating scope when not at top of stack"
  | some scope =>
    let code ← dropScopeValues tt typeNeedsDropGlue rootTy scope
    modify fun b => { b with scopeStack := b.scopeStack.dropLast }
    return code

/-- The exit out of the scopes from the one in place `slot` of the stack on. -/
def terminateScopeEarly (slot : Nat) : Emit (List DropStep) := do
  let b ← get
  let scopes := b.scopeStack.drop slot
  if scopes.any Scope.keepsStates then
    if b.frozenExitStates.isSome then bug "Nested frozen early-exit state"
    else
      set { b with frozenExitStates := some fun _ => none }
      let code ← emitEach (dropScopeValues tt typeNeedsDropGlue rootTy) scopes.reverse
      modify fun b => { b with frozenExitStates := none }
      return code
  else emitEach (dropScopeValues tt typeNeedsDropGlue rootTy) scopes.reverse

/-- The owning scopes on the top of the stack. -/
def endSplitArmEarly : Emit (List DropStep) := do
  let b ← get
  emitEach (dropScopeValues tt typeNeedsDropGlue rootTy)
    (b.scopeStack.reverse.takeWhile Scope.isOwning)

/-- `dropScopeValues` in a cleanup. -/
def dropSlotInCleanup (slot : ScopeDropSlot) : Emit (List DropStep) :=
  if !slotHasDropGlue typeNeedsDropGlue rootTy slot then return []
  else do
    let b ← get
    dropInCleanup tt typeNeedsDropGlue rootTy (b.getSlotState slot) (.ofSlot slot)

def emitUnwindCleanup : Emit (List DropStep) := do
  let b ← get
  emitEach (fun scope => emitEach (dropSlotInCleanup tt typeNeedsDropGlue rootTy)
    scope.dropSlots.reverse) b.scopeStack.reverse

/-- The panic block of a call. -/
def unwindOfCall : Emit UnwindAction := do
  let code ← emitUnwindCleanup tt typeNeedsDropGlue rootTy
  return .cleanup (← newCleanupBlock code none)

/-! ## 5. Parts of slots -/

/-- A pointer into the state of a slot: the state there, and the state of the slot when another
    one is stored through the pointer. -/
structure StatePtr where
  state : VarState
  store : VarState → VarState

namespace StatePtr

/-- The pointer seen from the state around. -/
def inside (store : VarState → VarState) (r : StatePtr) : StatePtr :=
  ⟨r.state, fun s => store (r.store s)⟩

end StatePtr

def PARTIAL_ARRAY_MIN : Nat := 32

/-- The state of a value with a state for each field. -/
def splitFields (ty : Ty) (ivs : VarState) : Except BuildError VarState :=
  match ivs with
  | .partialOf _ _ => .ok ivs
  | .partialArray _ _ _ => .ok ivs
  | .movedOut _ _ => .error (.bug "Field on value with MovedOut state")
  | _ =>
    match tt.shape ty with
    | .struct fields _ => .ok (.partialOf (List.replicate fields.length ivs) none)
    | .tuple fields => .ok (.partialOf (List.replicate fields.length ivs) none)
    | .array _ size =>
      if PARTIAL_ARRAY_MIN ≤ size then .ok (.partialArray ivs [] size)
      else .ok (.partialOf (List.replicate size ivs) none)
    | _ => .error (.bug "Determine field count")

/-- The state of what a box holds, and the flag of the box. -/
def splitBox (ivs : VarState) : VarState × Option DropFlag :=
  match ivs with
  | .movedOut innerState outerFlag => (innerState, outerFlag)
  | .optional flag => (.valid, some flag)
  | _ => (.valid, none)

def variantCount (ty : Ty) : Option Nat :=
  match tt.shape ty with
  | .enum variants _ => some variants.length
  | .union variants => some variants.length
  | _ => none

/-- The states of the variants, and the flag of the whole. -/
def splitVariants (ty : Ty) (ivs : VarState) (variantIndex : Nat) :
    Except BuildError (List VarState × Option DropFlag) :=
  match ivs with
  | .partialOf innerStates outerFlag => .ok (innerStates, outerFlag)
  | .movedOut _ _ => .error (.bug "Downcast of a MovedOut value")
  | _ =>
    match variantCount tt ty with
    | none => .error (.bug "Downcast on non-Enum/Union")
    | some varCount =>
      let outerFlag := match ivs with
        | .optional flag => some flag
        | _ => none
      .ok ((List.replicate varCount (.invalid .uninit)).set variantIndex ivs, outerFlag)

/-- An entry of the state list, where there is one. -/
def statePart (innerStates : List VarState) (i : Nat) : Except BuildError VarState :=
  match innerStates[i]? with
  | some s => .ok s
  | none => .error (.bug "out of range")

/-- The way of `getValStateMutP` from a state along the wrappers: to a part that has a state of its
    own, or to the state of the whole with nothing to point to. -/
def walkState : List Wrapper → Ty → VarState → Except BuildError (StatePtr ⊕ VarState)
  | [], _, vs => .ok (.inl ⟨vs, id⟩)
  | .field fieldIndex :: ws, ty, ivs => do
      match ← splitFields tt ty ivs with
      | .partialArray fillState otherStates count =>
        if fieldIndex < count then
          let others := OrdMap.insert fieldIndex fillState otherStates
          let store := fun s => VarState.partialArray fillState
            (OrdMap.set fieldIndex s others) count
          let part ← walkState ws (tt.field ty fieldIndex)
            (VarState.element fillState otherStates fieldIndex)
          return part.map (·.inside store) store
        else .error (.bug "Array field index out of range")
      | .partialOf innerStates outerFlag =>
        let s ← statePart innerStates fieldIndex
        let store := fun s => VarState.partialOf (innerStates.set fieldIndex s) outerFlag
        let part ← walkState ws (tt.field ty fieldIndex) s
        return part.map (·.inside store) store
      | _ => .error (.bug "")
  | .deref :: ws, ty, ivs =>
    if tt.isTypeOwnedBox ty then do
      let (innerState, outerFlag) := splitBox ivs
      let store := fun s => VarState.movedOut s outerFlag
      let part ← walkState ws (tt.pointee ty) innerState
      return part.map (·.inside store) store
    else .ok (.inr ivs)
  | .index _ :: _, _, ivs => .ok (.inr ivs)
  | .downcast variantIndex :: ws, ty, ivs => do
      let (innerStates, outerFlag) ← splitVariants tt ty ivs variantIndex
      let s ← statePart innerStates variantIndex
      let store := fun s => VarState.partialOf (innerStates.set variantIndex s) outerFlag
      let part ← walkState ws (tt.variant ty variantIndex) s
      return part.map (·.inside store) store

/-- The state of a place, split off from that of its slot; `none` where the place has none. -/
def getValStateMutP (lv : LValue) (expectValid : Bool) : Emit (Option (ScopeDropSlot × StatePtr)) :=
  match lv.root with
  | .returned => bug "Move of return value"
  | .global _ => return none
  | .slot slot => do
      let b ← get
      let vs := b.getSlotState slot
      if expectValid && vs.isValid then return none
      else match walkState tt lv.wrappers (rootTy (.slot slot)) vs with
        | .error e => throw e
        | .ok (.inr root) =>
          setSlotState slot root
          return none
        | .ok (.inl ptr) =>
          setSlotState slot (ptr.store ptr.state)
          return some (slot, ptr)

def markValueAssignedState (dst : LValue) (newState : VarState) : Emit (List DropStep) :=
  if dst.root = .returned then
    if dst.wrappers.isEmpty then return []
    else bug "Assignment to a component of the return value should be impossible."
  else do
    match ← getValStateMutP tt rootTy dst newState.isValid with
    | none => dropValue tt typeNeedsDropGlue rootTy .valid dst
    | some (slot, ptr) =>
      match ptr.state with
      | .invalid .descoped => bug "Assining of descoped variable"
      | state =>
        setSlotState slot (ptr.store state.dropped)
        let code ← dropValue tt typeNeedsDropGlue rootTy state dst
        setSlotState slot (ptr.store newState)
        return code

/-- `none` where the assignment is left to `markValueAssignedState`. -/
def assignReplacing (dst rhs : LValue) : Emit (Option (List DropStep)) :=
  if dst.root = .returned || !typeNeedsDropGlue (valType tt rootTy dst) then return none
  else do
    let dstState ← getValStateMutP tt rootTy dst false
    if dstState.any fun p => !p.2.state.isValid then return none
    else
      match ← getValStateMutP tt rootTy rhs false with
      | none => return none
      | some (rhsSlot, rhsState) =>
        if rhsState.state.isInvalid then return none
        else
          setSlotState rhsSlot (rhsState.store (.invalid .moved))
          match ← makeUnwindAction tt typeNeedsDropGlue rootTy none with
          | .terminate => return some [.drop .deep dst none .terminate]
          | .cleanup cleanup =>
            let replaceBlock ← newCleanupBlock [.assign dst rhs] (some cleanup)
            return some [.drop .deep dst none (.cleanup replaceBlock)]

def dropLvalue (value : LValue) : Emit (List DropStep) := do
  match ← getValStateMutP tt rootTy value false with
  | none => bug "Dropping invalid value"
  | some (slot, ptr) =>
    setSlotState slot (ptr.store ptr.state.dropped)
    dropValue tt typeNeedsDropGlue rootTy ptr.state value

end Source

end Trustme.Lowering
