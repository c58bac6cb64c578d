/-
  Subject:   The states of the variables at the head of a loop: what `enterLoopHead` puts in place
             of the state before the loop, and what `writeLoopHead` sets at a back edge.

  * `enterLoopHead`: the head state, by the list of parts the body moves (`loopHeadWhole`) or by
    the shape of the state before the loop (`loopHeadTemplate`);
  * `writeLoopHeadState`, `writeLoopHeadWhole`: the flags of the head, from another state;
  * `resetStmts`: what `completeScope` puts in front of the loop block.
-/
import Mathlib.Algebra.Ring.Nat
import Trustme.Lowering.Joins

namespace Trustme.Lowering

open Lib (OrdMap)

/-! ## 1. Parts that are moved in the body -/

/-- A step into a field, and one into a variant, in one `u32`. -/
def loopPartField (index : Nat) : Nat := index * 2 % 2 ^ 32

def loopPartVariant (index : Nat) : Nat := (index * 2 + 1) % 2 ^ 32

/-- `MirLoopPart`: the steps from a variable to a part of it. -/
abbrev LoopPart := List Nat

def continuing (candidates : List LoopPart) (depth : Nat) : Bool :=
  candidates.any fun part => depth < part.length

def through (candidates : List LoopPart) (depth step : Nat) : List LoopPart :=
  candidates.filter fun part => part[depth]? == some step

/-! ## 2. The head -/

/-- The states of a list of places, one after the other. -/
def eachState (make : Nat → Build VarState) : List Nat → Build (List VarState)
  | [] => return []
  | i :: is => do
      let state ← make i
      return state :: (← eachState make is)

/-- A new flag for the state of a whole place. -/
def entryFlag (entry : VarState) : Build DropFlag :=
  match entry with
  | .optional flag => do
      let rv ← newDropFlag false
      pushStmtSetDropflagOther rv flag
      return rv
  | _ => do
      let valid := entry.isValid
      let rv ← newDropFlag valid
      pushStmtSetDropflagVal rv valid
      return rv

/-- `loopHeadTemplate` of the outer flag of a state. -/
def templateOuter (outerFlag : Option DropFlag) : Build (Option DropFlag) :=
  match outerFlag with
  | none => return none
  | some f => do
      let flag ← newDropFlag false
      pushStmtSetDropflagOther flag f
      return some flag

mutual

/-- The shape of the state before the loop, with new flags. -/
def loopHeadTemplate : VarState → Build VarState
  | .invalid why => do return .optional (← entryFlag (.invalid why))
  | .valid => do return .optional (← entryFlag .valid)
  | .optional flag => do return .optional (← entryFlag (.optional flag))
  | .partialOf innerStates outerFlag => do
      let inner ← loopHeadTemplates innerStates
      return .partialOf inner (← templateOuter outerFlag)
  | .movedOut innerState outerFlag => do
      let inner ← loopHeadTemplate innerState
      return .movedOut inner (← templateOuter outerFlag)
  | .partialArray fillState otherStates count => do
      let fill ← loopHeadTemplate fillState
      return .partialArray fill (← loopHeadTemplatesOther otherStates) count

def loopHeadTemplates : List VarState → Build (List VarState)
  | [] => return []
  | s :: ss => do
      let state ← loopHeadTemplate s
      return state :: (← loopHeadTemplates ss)

def loopHeadTemplatesOther : List (Nat × VarState) → Build (List (Nat × VarState))
  | [] => return []
  | (k, s) :: ss => do
      let state ← loopHeadTemplate s
      return (k, state) :: (← loopHeadTemplatesOther ss)

end

section Head

variable {Ty : Type} (tt : TypeTable Ty) (typeNeedsDropGlue : Ty → Bool)

def structFieldCount (ty : Ty) : Nat :=
  match tt.shape ty with
  | .struct fields _ => fields.length
  | _ => 0

/-- The fields of a head, each by the parts that go through it. -/
def fieldsOf (head : Ty → List LoopPart → Nat → Build VarState) (base : Ty) (fieldCount : Nat)
    (baseParts : List LoopPart) (depth : Nat) : Build VarState := do
  let fields ← eachState
    (fun j => head (tt.field base j) (through baseParts depth (loopPartField j)) (depth + 1))
    (List.range fieldCount)
  return .partialOf fields none

/-- One flag for the whole place, or flags for its parts where a part goes on; to a number of
    levels. -/
def loopHeadWhole : Nat → Ty → VarState → List LoopPart → Nat → Build VarState
  | 0, _, _, _, _ => throw .outOfFuel
  | n + 1, ty, entry, parts, depth =>
    let head := fun ty parts depth => loopHeadWhole n ty entry parts depth
    let whole : Build VarState := do return .optional (← entryFlag entry)
    if !continuing parts depth || !typeNeedsDropGlue ty then whole
    else match tt.shape ty with
      | .tuple fields =>
        if 0 < fields.length then fieldsOf tt head ty fields.length parts depth else whole
      | .struct _ hasDropImpl =>
        if hasDropImpl then whole
        else
          let fieldCount := structFieldCount tt ty
          if 0 < fieldCount then fieldsOf tt head ty fieldCount parts depth else whole
      | .enum variants hasDropImpl =>
        if hasDropImpl then whole
        else do
          let inner ← eachState (fun i =>
            let variantTy := tt.variant ty i
            let fieldCount := structFieldCount tt variantTy
            let variantParts := through parts depth (loopPartVariant i)
            if 0 < fieldCount && continuing variantParts (depth + 1) then
              fieldsOf tt head variantTy fieldCount variantParts (depth + 1)
            else whole) (List.range variants.length)
          return .partialOf inner (some (← entryFlag entry))
      -- a box is a struct with a drop impl, a union neither struct nor enum
      | .ownedBox _ => whole
      | .union _ => whole
      | .array _ _ => whole
      | .pointer _ => whole
      | .slice _ => whole
      | .plain => whole

/-- The levels of `loopHeadWhole` for a list of parts. -/
def levels (parts : List LoopPart) : Nat := (parts.map List.length).foldr max 0 + 1

/-- The head state of a variable, where the state before the loop is not kept. -/
def enterLoopHead (ty : Ty) (entry : VarState) (moved : Bool) (parts : List LoopPart) :
    Build (Option VarState) :=
  let needsDrop := typeNeedsDropGlue ty
  if entry.isValid && !(needsDrop && moved) then return none
  else if needsDrop && entry.isWhole then
    some <$> loopHeadWhole tt typeNeedsDropGlue (levels parts) ty entry parts 0
  else some <$> loopHeadTemplate entry

/-! ## 3. Back edges -/

/-- The fields of a struct with moved parts that need dropping. -/
def glueFields (ty : Ty) (innerStates : List VarState) : OrdMap VarState :=
  (byIndex innerStates).filter fun p => typeNeedsDropGlue (tt.field ty p.1)

/-- `sameState` of `writeLoopHeadWhole`: it compares the tags only. -/
def sameState : VarState → VarState → Bool
  | .valid, .valid => true
  | .invalid _, .invalid _ => true
  | .optional _, .optional _ => true
  | _, _ => false

/-- Whether all fields that need dropping have the state of the first one. -/
def uniform (fields : OrdMap VarState) : Bool :=
  match fields with
  | [] => true
  | (_, common) :: rest => rest.all fun p => sameState p.2 common

/-- The flag a field of the state is under, if any, else whether all fields are there. -/
def anyOptional (innerStates : List VarState) : Option DropFlag :=
  match innerStates.find? VarState.isOptional with
  | some (.optional flag) => some flag
  | _ => none

theorem depth_of_mem_glueFields {ty : Ty} {innerStates : List VarState} {p : Nat × VarState}
    (h : p ∈ glueFields tt typeNeedsDropGlue ty innerStates) :
    p.2.depth < VarState.depthInner innerStates + 1 := by
  obtain ⟨hp, -⟩ := List.mem_filter.mp h
  obtain ⟨q, hq, rfl⟩ := List.mem_map.mp hp
  exact Nat.lt_succ_of_le (VarState.depth_le_of_mem (List.fst_mem_of_mem_zipIdx hq))

/-- A flag of the head for a whole place. -/
def writeLoopHeadWhole (ty : Ty) (flag : DropFlag) (cur : VarState) : Build Unit :=
  if !typeNeedsDropGlue ty then return ()
  else match cur with
    | .valid => pushStmtSetDropflagVal flag true
    | .invalid _ => pushStmtSetDropflagVal flag false
    | .optional other =>
      if other ≠ flag then pushStmtSetDropflagOther flag (some other) else return ()
    | .partialOf innerStates outerFlag =>
      if !tt.isEnum ty then
        if outerFlag.isSome || !uniform (glueFields tt typeNeedsDropGlue ty innerStates) then
          bug "Loop back edge leaves a place partially moved"
        else match _h : glueFields tt typeNeedsDropGlue ty innerStates with
          | [] => match anyOptional innerStates with
              | some other => pushStmtSetDropflagOther flag (some other)
              | none => pushStmtSetDropflagVal flag (innerStates.all VarState.isValid)
          | (common, state) :: _ => writeLoopHeadWhole (tt.field ty common) flag state
      else match outerFlag with
        | none => pushStmtSetDropflagVal flag true
        | some other =>
          if other ≠ flag then pushStmtSetDropflagOther flag (some other) else return ()
    | .movedOut _ _ => bug "Loop back edge leaves a place partially moved"
    | .partialArray _ _ _ => bug "Loop back edge leaves a place partially moved"
termination_by cur.depth
decreasing_by
  rw [VarState.depth]
  exact depth_of_mem_glueFields tt typeNeedsDropGlue (_h ▸ List.mem_cons_self)

/-- The outer flags of a head and of a state with the same shape. -/
def writeLoopHeadOuter (headFlag curFlag : Option DropFlag) : Build Unit :=
  match headFlag, curFlag with
  | some h, none => pushStmtSetDropflagVal h true
  | some h, some c => if c ≠ h then pushStmtSetDropflagOther h (some c) else return ()
  | none, _ => return ()

/-- The outer flag of a head, and a state of the whole place. -/
def writeLoopHeadOuterWhole (ty : Ty) (headFlag : Option DropFlag) (cur : VarState) : Build Unit :=
  match headFlag with
  | some h => writeLoopHeadWhole tt typeNeedsDropGlue ty h cur
  | none => return ()

mutual

def writeLoopHeadState : Ty → VarState → VarState → Build Unit
  | ty, .optional flag, cur => writeLoopHeadWhole tt typeNeedsDropGlue ty flag cur
  | ty, .partialOf innerStates outerFlag, cur =>
    match cur with
    | .partialOf curStates curFlag =>
      if curStates.length ≠ innerStates.length then bug "Loop back edge changes the shape"
      else do
        writeLoopHeadParts ty 0 innerStates fun i => curStates.getD i .valid
        if outerFlag.isNone && curFlag.isSome then
          bug "Loop back edge leaves the discriminant maybe-uninitialised"
        else writeLoopHeadOuter outerFlag curFlag
    | .movedOut _ _ => bug "Loop back edge changes the shape"
    | .partialArray _ _ _ => bug "Loop back edge changes the shape"
    | cur => do
        writeLoopHeadParts ty 0 innerStates fun _ => cur
        writeLoopHeadOuterWhole tt typeNeedsDropGlue ty outerFlag cur
  | ty, .movedOut innerState outerFlag, cur =>
    match cur with
    | .movedOut curState curFlag => do
        writeLoopHeadState (tt.pointee ty) innerState curState
        writeLoopHeadOuter outerFlag curFlag
    | .partialOf _ _ => bug "Loop back edge changes the shape"
    | .partialArray _ _ _ => bug "Loop back edge changes the shape"
    | cur => do
        writeLoopHeadState (tt.pointee ty) innerState cur
        writeLoopHeadOuterWhole tt typeNeedsDropGlue ty outerFlag cur
  | ty, .partialArray fillState otherStates _, cur =>
    match cur with
    | .partialArray curFill curOther _ => do
        writeLoopHeadState (tt.field ty 0) fillState curFill
        writeLoopHeadOthers ty otherStates (.element curFill curOther)
    | .partialOf _ _ => bug "Loop back edge changes the shape"
    | .movedOut _ _ => bug "Loop back edge changes the shape"
    | cur => do
        writeLoopHeadState (tt.field ty 0) fillState cur
        writeLoopHeadOthers ty otherStates fun _ => cur
  | _, .valid, _ => return ()
  | _, .invalid _, _ => return ()

def writeLoopHeadParts : Ty → Nat → List VarState → (Nat → VarState) → Build Unit
  | _, _, [], _ => return ()
  | ty, i, s :: ss, curAt => do
      writeLoopHeadState (tt.part ty i) s (curAt i)
      writeLoopHeadParts ty (i + 1) ss curAt

def writeLoopHeadOthers : Ty → List (Nat × VarState) → (Nat → VarState) → Build Unit
  | _, [], _ => return ()
  | ty, (k, s) :: ss, curAt => do
      writeLoopHeadState (tt.field ty k) s (curAt k)
      writeLoopHeadOthers ty ss curAt

end

/-! ## 4. All variables of a loop -/

/-- A variable that is assigned in the body, and what the scan of the body says of it. -/
structure LoopVar where
  type : SlotType
  idx : Nat
  moved : Bool
  parts : List LoopPart
  deriving Repr

/-- The heads of a loop, the last one first. -/
abbrev LoopHeads := List (LoopVar × VarState)

def enterLoopHeads (slots : Slots Ty) : List LoopVar → LoopHeads → Build LoopHeads
  | [], heads => return heads
  | var :: vars, heads => do
      match ← enterLoopHead tt typeNeedsDropGlue (slots.slotTy var.type var.idx)
          (slots.getSlotState var.type var.idx) var.moved var.parts with
      | some head => enterLoopHeads slots vars ((var, head) :: heads)
      | none => enterLoopHeads slots vars heads

def writeLoopHeads (slots : Slots Ty) : LoopHeads → Build Unit
  | [] => return ()
  | (var, head) :: heads => do
      writeLoopHeadState tt typeNeedsDropGlue (slots.slotTy var.type var.idx) head
        (slots.getSlotState var.type var.idx)
      writeLoopHeads slots heads

end Head

/-- The statements `completeScope` puts in front of the loop block: the flags of the loop get
    their defaults, each before those it has put there already. -/
def resetStmts (b : Builder) (dropFlags : List DropFlag) : List SetDropFlag :=
  dropFlags.reverse.map fun idx => { idx := idx, newVal := b.default idx, other := none }

end Trustme.Lowering
