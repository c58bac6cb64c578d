/-
  Subject:   `mergeState`: the state of a place after a join, from the state the earlier arms
             left (`oldState`) and the one the arm just ended leaves (`newState`).

  The place itself is only used for its type, which is what is passed here. The recursion carries
  a bound on its depth; `mergeState` starts it with one that is never reached. One definition for
  each tag of the old state, in the order of the source's outer `switch`.
-/
import Trustme.Lowering.DropFlags

namespace Trustme.Lowering

open Lib (OrdMap)

/-! ## 1. Outer flags -/

/-- `mergeOuterValidity` with a `bool newValid`. -/
def mergeOuterValidity (oldFlag : Option DropFlag) (newValid : Bool) : Build (Option DropFlag) :=
  match oldFlag with
  | none =>
    if newValid then return none
    else return some (← newDropFlagAndSet false)
  | some f => do
      pushStmtSetDropflagVal f newValid
      return some f

/-- A flag of the new arm where the old arms have `was`: it is taken over when that is its default;
    otherwise a new flag with that default is set to it. -/
def takeFlag (was : Bool) (newFlag : DropFlag) : Build DropFlag := do
  if (← getDropFlagDefault newFlag) != was then
    let f ← newDropFlag was
    pushStmtSetDropflagOther f newFlag
    return f
  else
    return newFlag

/-- `mergeOuterValidity` with an `unsigned int newFlag`; its callers pass a flag, not `~0u`. -/
def mergeOuterValidityFlag (oldFlag : Option DropFlag) (newFlag : DropFlag) :
    Build (Option DropFlag) :=
  if oldFlag = some newFlag then return oldFlag
  else match oldFlag with
    | none => return some (← takeFlag true newFlag)
    | some f => do
        pushStmtSetDropflagOther f newFlag
        return some f

/-- The two calls of it that a `Partial` of the new arm makes. -/
def mergeOuterOf (oldFlag newFlag : Option DropFlag) : Build (Option DropFlag) :=
  match newFlag with
  | none => mergeOuterValidity oldFlag true
  | some g => mergeOuterValidityFlag oldFlag g

def mergeInvalidWithPartialOuter (newFlag : Option DropFlag) : Build DropFlag := do
  let outerFlag ← newDropFlag false
  match newFlag with
  | none => pushStmtSetDropflagVal outerFlag true
  | some g => pushStmtSetDropflagOther outerFlag g
  return outerFlag

/-- The shell of a box with moved contents that is gone on the old arms. -/
def mergeInvalidShell (newFlag : Option DropFlag) : Build DropFlag :=
  match newFlag with
  | some g => takeFlag false g
  | none => do
      let outerFlag ← newDropFlag false
      pushStmtSetDropflagVal outerFlag true
      return outerFlag

/-- The shell of such a box that is there on the old arms. -/
def mergeValidShell (newFlag : Option DropFlag) : Build (Option DropFlag) :=
  match newFlag with
  | some g => return some (← takeFlag true g)
  | none => return none

/-- The shell of such a box that is under a flag on the old arms. -/
def mergeOptionalShell (flag : DropFlag) (newFlag : Option DropFlag) : Build Unit :=
  if newFlag ≠ none ∧ some flag ≠ newFlag then pushStmtSetDropflagOther flag newFlag
  else return ()

/-- The shell of such a box on the old arms, and a state of the whole box on the new one. -/
def mergeMovedOutShellVal (outerFlag : Option DropFlag) (isValid : Bool) :
    Build (Option DropFlag) :=
  match outerFlag with
  | none =>
    if !isValid then do
      let newFlag ← newDropFlag true
      pushStmtSetDropflagVal newFlag false
      return some newFlag
    else return none
  | some f => do
      pushStmtSetDropflagVal f isValid
      return some f

/-- It does what `mergeOuterValidity` does. -/
theorem mergeMovedOutShellVal_eq (f : Option DropFlag) (v : Bool) :
    mergeMovedOutShellVal f v = mergeOuterValidity f v := by
  cases f with
  | none => cases v <;> rfl
  | some f => rfl

def mergeMovedOutShellFlag (outerFlag : Option DropFlag) (nse : DropFlag) :
    Build (Option DropFlag) :=
  match outerFlag with
  | none => return some (← takeFlag true nse)
  | some f => do
      pushStmtSetDropflagOther f nse
      return some f

/-- The shells of such boxes on both sides. -/
def mergeMovedOutShells (outerFlag newOuter : Option DropFlag) : Build (Option DropFlag) :=
  match outerFlag with
  | none => return newOuter
  | some f => do
      pushStmtSetDropflagOther f newOuter
      return some f

/-- A flag that follows `flag`, with the same default. -/
def newAliasFlag (flag : DropFlag) : Build DropFlag := do
  let newFlag ← newDropFlag (← getDropFlagDefault flag)
  dropFlagAlias flag newFlag
  return newFlag

/-- One alias for each of the given keys. -/
def newAliasFlags (flag : DropFlag) : List Nat → Build (OrdMap VarState)
  | [] => return []
  | k :: ks => do
      let newFlag ← newAliasFlag flag
      return (k, .optional newFlag) :: (← newAliasFlags flag ks)

/-! ## 2. The parts of a value -/

/-- An old and a new state for each key. -/
abbrev Pairs := List (Nat × VarState × VarState)

/-- The fields or variants of two `Partial`s, by index. -/
def innerPairs (olds : OrdMap VarState) (news : List VarState) : Pairs :=
  (olds.zip news).map fun p => (p.1.1, p.1.2, p.2)

/-- A list of parts as a map from their indices. -/
def byIndex (states : List VarState) : OrdMap VarState :=
  states.zipIdx.map fun p => (p.2, p.1)

/-- The elements of two arrays, at the keys of the old one. -/
def otherPairs (olds : OrdMap VarState) (newAt : Nat → VarState) : Pairs :=
  olds.map fun p => (p.1, p.2, newAt p.1)

/-- The merges of the parts, one after the other. -/
def mergeEach (merge : Nat → VarState → VarState → Build VarState) : Pairs → Build (OrdMap VarState)
  | [] => return []
  | (k, old, new) :: ps => do
      let merged ← merge k old new
      return (k, merged) :: (← mergeEach merge ps)

/-- The states of the parts without their indices. -/
def parts (m : OrdMap VarState) : List VarState := m.map (·.2)

section Merge

variable {Ty : Type} (tt : TypeTable Ty) (merge : Ty → VarState → VarState → Build VarState)

/-- What is done for an enum only; another type keeps the outer flag. -/
def ifEnum (ty : Ty) (outerFlag : Option DropFlag) (x : Build (Option DropFlag)) :
    Build (Option DropFlag) :=
  if tt.isEnum ty then x else return outerFlag

def mergeParts (ty : Ty) (ps : Pairs) : Build (OrdMap VarState) :=
  mergeEach (fun i => merge (tt.part ty i)) ps

def mergeElements (ty : Ty) (ps : Pairs) : Build (OrdMap VarState) :=
  mergeEach (fun i => merge (tt.field ty i)) ps

/-! ## 3. By the tag of the old state -/

def mergeIntoInvalid (ty : Ty) (why : InvalidType) (newState : VarState) : Build VarState :=
  match newState with
  | .invalid _ => return .invalid why
  | .valid => return .optional (← newDropFlagAndSet true)
  | .optional flagIdx => do
      let newFlag ← newDropFlag false
      pushStmtSetDropflagOther newFlag flagIdx
      return .optional newFlag
  | .movedOut innerState outerFlag => do
      let outerFlag ← mergeInvalidShell outerFlag
      return .movedOut (← merge (tt.pointee ty) (.invalid why) innerState) (some outerFlag)
  | .partialOf innerStates outerFlag => do
      let outerFlag ← ifEnum tt ty none (some <$> mergeInvalidWithPartialOuter outerFlag)
      let inner := byIndex (innerStates.map fun _ => .invalid why)
      return .partialOf (parts (← mergeParts tt merge ty (innerPairs inner innerStates))) outerFlag
  | .partialArray fillState otherStates count => do
      let other : OrdMap VarState := otherStates.map fun p => (p.1, .invalid why)
      let fill ← merge (tt.field ty 0) (.invalid why) fillState
      let other ← mergeElements tt merge ty (otherPairs other (.element fillState otherStates))
      return .partialArray fill other count

def mergeIntoValid (ty : Ty) (newState : VarState) : Build VarState :=
  match newState with
  | .invalid _ => return .optional (← newDropFlagAndSet false)
  | .valid => return .valid
  | .optional flagIdx => return .optional (← takeFlag true flagIdx)
  | .movedOut innerState outerFlag => do
      let outerFlag ← mergeValidShell outerFlag
      return .movedOut (← merge (tt.pointee ty) .valid innerState) outerFlag
  | .partialOf innerStates outerFlag => do
      let outerFlag ← ifEnum tt ty none (match outerFlag with
        | some g => mergeOuterValidityFlag none g
        | none => return none)
      let inner := byIndex (innerStates.map fun _ => .valid)
      return .partialOf (parts (← mergeParts tt merge ty (innerPairs inner innerStates))) outerFlag
  | .partialArray fillState otherStates count => do
      let other : OrdMap VarState := otherStates.map fun p => (p.1, .valid)
      let fill ← merge (tt.field ty 0) .valid fillState
      let other ← mergeElements tt merge ty (otherPairs other (.element fillState otherStates))
      return .partialArray fill other count

def mergeIntoOptional (ty : Ty) (flag : DropFlag) (newState : VarState) : Build VarState :=
  match newState with
  | .invalid _ => do
      pushStmtSetDropflagVal flag false
      return .optional flag
  | .valid => do
      pushStmtSetDropflagVal flag true
      return .optional flag
  | .optional newFlag =>
    if flag ≠ newFlag then do
      pushStmtSetDropflagOther flag newFlag
      return .optional flag
    else return .optional flag
  | .movedOut innerState outerFlag => do
      mergeOptionalShell flag outerFlag
      return .movedOut (← merge (tt.pointee ty) (.optional flag) innerState) (some flag)
  | .partialOf innerStates outerFlag =>
    if tt.isTypeOwnedBox ty then bug "!builder.isTypeOwnedBox(lvTy)"
    else do
      let inner ← newAliasFlags flag (List.range innerStates.length)
      let outerFlag ← ifEnum tt ty none (mergeOuterOf (some flag) outerFlag)
      let merged ← mergeParts tt merge ty (innerPairs inner innerStates)
      return .partialOf (parts merged) outerFlag
  | .partialArray fillState otherStates count => do
      let other ← newAliasFlags flag (otherStates.map (·.1))
      let fillFlag ← newAliasFlag flag
      let fill ← merge (tt.field ty 0) (.optional fillFlag) fillState
      let other ← mergeElements tt merge ty (otherPairs other (.element fillState otherStates))
      return .partialArray fill other count

def mergeIntoMovedOut (ty : Ty) (innerState : VarState) (outerFlag : Option DropFlag)
    (newState : VarState) : Build VarState :=
  match newState with
  | .invalid _ => do
      let outerFlag ← mergeMovedOutShellVal outerFlag false
      return .movedOut (← merge (tt.pointee ty) innerState newState) outerFlag
  | .valid => do
      let outerFlag ← mergeMovedOutShellVal outerFlag true
      return .movedOut (← merge (tt.pointee ty) innerState newState) outerFlag
  | .optional nse => do
      let outerFlag ← mergeMovedOutShellFlag outerFlag nse
      return .movedOut (← merge (tt.pointee ty) innerState newState) outerFlag
  | .movedOut newInner newOuter => do
      let outerFlag ← mergeMovedOutShells outerFlag newOuter
      return .movedOut (← merge (tt.pointee ty) innerState newInner) outerFlag
  | .partialOf _ _ => bug "MovedOut->Partial not valid"
  | .partialArray _ _ _ => bug "MovedOut->Partial not valid"

/-- A value with moved parts, and a state of the whole value on the new arm. -/
def mergePartialWhole (ty : Ty) (innerStates : List VarState) (newState : VarState)
    (outer : Build (Option DropFlag)) (outerFlag : Option DropFlag) : Build VarState := do
  let outerFlag ← ifEnum tt ty outerFlag outer
  let merged ← mergeParts tt merge ty (otherPairs (byIndex innerStates) fun _ => newState)
  return .partialOf (parts merged) outerFlag

def mergeIntoPartial (ty : Ty) (innerStates : List VarState) (outerFlag : Option DropFlag)
    (newState : VarState) : Build VarState :=
  if tt.isTypeOwnedBox ty then bug "!builder.isTypeOwnedBox(lvTy)"
  else match newState with
    | .invalid _ => mergePartialWhole tt merge ty innerStates newState
        (mergeOuterValidity outerFlag false) outerFlag
    | .valid => mergePartialWhole tt merge ty innerStates newState
        (mergeOuterValidity outerFlag true) outerFlag
    | .optional g => mergePartialWhole tt merge ty innerStates newState
        (mergeOuterValidityFlag outerFlag g) outerFlag
    | .movedOut _ _ => bug "Partial->MovedOut not valid"
    | .partialArray _ _ _ => bug "Partial->PartialArray not valid (threshold mismatch)"
    | .partialOf newInner newOuter =>
      if innerStates.length ≠ newInner.length then bug "Partial->Partial with mismatched sizes"
      else do
        let outerFlag ← ifEnum tt ty outerFlag (mergeOuterOf outerFlag newOuter)
        let merged ← mergeParts tt merge ty (innerPairs (byIndex innerStates) newInner)
        return .partialOf (parts merged) outerFlag

/-- The state of an exception that the old array lacks; an alias where the shared state of the old
    array is a flag. -/
def addedElement (fillState : VarState) : Build VarState :=
  match fillState with
  | .optional flag => return .optional (← newAliasFlag flag)
  | state => return state

/-- The exceptions of the new array come in. -/
def addElements (fillState : VarState) : OrdMap VarState → OrdMap VarState → Build (OrdMap VarState)
  | otherStates, [] => return otherStates
  | otherStates, (k, _) :: news =>
    match otherStates.find k with
    | some _ => addElements fillState otherStates news
    | none => do
        let state ← addedElement fillState
        addElements fillState (otherStates.insert k state) news

/-- An array with moved elements, and a state of the whole array on the new arm. -/
def mergeArrayWhole (ty : Ty) (fillState : VarState) (otherStates : OrdMap VarState)
    (count : Nat) (newState : VarState) : Build VarState := do
  let fill ← merge (tt.field ty 0) fillState newState
  let other ← mergeElements tt merge ty (otherPairs otherStates fun _ => newState)
  return .partialArray fill other count

def mergeIntoPartialArray (ty : Ty) (fillState : VarState) (otherStates : OrdMap VarState)
    (count : Nat) (newState : VarState) : Build VarState :=
  match newState with
  | .invalid _ => mergeArrayWhole tt merge ty fillState otherStates count newState
  | .valid => mergeArrayWhole tt merge ty fillState otherStates count newState
  | .optional _ => mergeArrayWhole tt merge ty fillState otherStates count newState
  | .movedOut _ _ => bug "PartialArray->MovedOut not valid"
  | .partialOf _ _ => bug "PartialArray->Partial not valid (threshold mismatch)"
  | .partialArray newFill newOther newCount =>
    if count ≠ newCount then bug "PartialArray size mismatch"
    else do
      let otherStates ← addElements fillState otherStates newOther
      let fill ← merge (tt.field ty 0) fillState newFill
      let other ← mergeElements tt merge ty (otherPairs otherStates (.element newFill newOther))
      return .partialArray fill other count

end Merge

/-! ## 4. The recursion -/

/-- `mergeState` to a nesting depth. -/
def mergeStateTo {Ty : Type} (tt : TypeTable Ty) : Nat → Ty → VarState → VarState → Build VarState
  | 0, _, _, _ => throw .outOfFuel
  | n + 1, ty, oldState, newState =>
    match oldState with
    | .invalid why => mergeIntoInvalid tt (mergeStateTo tt n) ty why newState
    | .valid => mergeIntoValid tt (mergeStateTo tt n) ty newState
    | .optional flag => mergeIntoOptional tt (mergeStateTo tt n) ty flag newState
    | .movedOut innerState outerFlag =>
      mergeIntoMovedOut tt (mergeStateTo tt n) ty innerState outerFlag newState
    | .partialOf innerStates outerFlag =>
      mergeIntoPartial tt (mergeStateTo tt n) ty innerStates outerFlag newState
    | .partialArray fillState otherStates count =>
      mergeIntoPartialArray tt (mergeStateTo tt n) ty fillState otherStates count newState

def mergeState {Ty : Type} (tt : TypeTable Ty) (ty : Ty) (oldState newState : VarState) :
    Build VarState :=
  mergeStateTo tt (oldState.depth + newState.depth + 1) ty oldState newState

end Trustme.Lowering
