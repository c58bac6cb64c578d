/-
  Subject:   The validity states of the variables, as `MirBuilder` keeps them while it lowers a
             body, and what a state says of a place for given drop-flag values.

  * `VarState`: one state for a slot, nested where parts of the value were moved;
  * `Shape`, `TypeTable`: what `valType` answers about the type of a place;
  * `TypeTable.Fits`: the state is one of a value of the type;
  * `SubPlace`: a part of a slot, `TypeTable.IsPlace` -- it is one by the type;
  * `VarState.reads`: whether the part is initialised, by the state and the flags.
-/
import Trustme.Lib.OrdMap
import Trustme.Lib.MirroredWrites

namespace Trustme.Lowering

open Lib (OrdMap Source)

/-! ## 1. States -/

/-- The index of a drop flag in `output.dropFlags`. -/
abbrev DropFlag := Nat

inductive InvalidType where
  | uninit
  | moved
  | descoped
  deriving DecidableEq, Repr

/-- The state of a slot or of a part of one. An `outerFlag` of `none` is the source's `~0u`: the
    outer discriminant (`partialOf`) or the outer box (`movedOut`) is always valid. -/
inductive VarState where
  | invalid (why : InvalidType)
  | partialOf (innerStates : List VarState) (outerFlag : Option DropFlag)
  | partialArray (fillState : VarState) (otherStates : List (Nat × VarState)) (count : Nat)
  | movedOut (innerState : VarState) (outerFlag : Option DropFlag)
  | optional (flag : DropFlag)
  | valid
  deriving Repr

namespace VarState

def isInvalid : VarState → Bool
  | .invalid _ => true
  | _ => false

def isValid : VarState → Bool
  | .valid => true
  | _ => false

def isOptional : VarState → Bool
  | .optional _ => true
  | _ => false

/-- The state is one of the whole place. -/
def isWhole : VarState → Bool
  | .valid => true
  | .invalid _ => true
  | .optional _ => true
  | _ => false

/-- A state of the whole place is no state of its parts. -/
@[elab_as_elim]
theorem isWhole_rec {motive : (s : VarState) → s.isWhole = true → Prop}
    (valid : motive .valid rfl) (invalid : ∀ why, motive (.invalid why) rfl)
    (optional : ∀ flag, motive (.optional flag) rfl) : ∀ s h, motive s h
  | .valid, _ => valid
  | .invalid why, _ => invalid why
  | .optional flag, _ => optional flag

/-- An element of an array state: its exception or the shared state. -/
def element (fillState : VarState) (otherStates : OrdMap VarState) (i : Nat) : VarState :=
  (OrdMap.find i otherStates).getD fillState

mutual

/-- How deep a state is nested. -/
def depth : VarState → Nat
  | .invalid _ => 0
  | .partialOf innerStates _ => depthInner innerStates + 1
  | .partialArray fillState otherStates _ => max (depth fillState) (depthOther otherStates) + 1
  | .movedOut innerState _ => depth innerState + 1
  | .optional _ => 0
  | .valid => 0

def depthInner : List VarState → Nat
  | [] => 0
  | s :: ss => max (depth s) (depthInner ss)

def depthOther : List (Nat × VarState) → Nat
  | [] => 0
  | (_, s) :: ss => max (depth s) (depthOther ss)

end

theorem depth_le_of_mem : ∀ {ss : List VarState} {s : VarState}, s ∈ ss → s.depth ≤ depthInner ss
  | t :: ss, s, h => by
    rw [depthInner]
    rcases List.mem_cons.mp h with rfl | h
    · exact Nat.le_max_left _ _
    · exact Nat.le_trans (depth_le_of_mem h) (Nat.le_max_right _ _)

theorem depth_le_of_mem_other : ∀ {ss : OrdMap VarState} {k : Nat} {s : VarState}, (k, s) ∈ ss →
    s.depth ≤ depthOther ss
  | (j, t) :: ss, k, s, h => by
    rw [depthOther]
    rcases List.mem_cons.mp h with e | h
    · cases e
      exact Nat.le_max_left _ _
    · exact Nat.le_trans (depth_le_of_mem_other h) (Nat.le_max_right _ _)

theorem depth_element (fillState : VarState) (otherStates : OrdMap VarState) (i : Nat) :
    (element fillState otherStates i).depth ≤ max fillState.depth (depthOther otherStates) := by
  unfold element
  cases h : OrdMap.find i otherStates with
  | none => exact Nat.le_max_left _ _
  | some s => exact Nat.le_trans (depth_le_of_mem_other (OrdMap.find_mem h)) (Nat.le_max_right _ _)

end VarState

/-! ## 2. Types of places -/

/-- What the lowering asks of a type. -/
inductive Shape (Ty : Type) where
  | tuple (fields : List Ty)
  | array (elem : Ty) (size : Nat)
  | struct (fields : List Ty) (hasDropImpl : Bool)
  | enum (variants : List Ty) (hasDropImpl : Bool)
  | union (variants : List Ty)
  | ownedBox (inner : Ty)
  | pointer (inner : Ty)
  | slice (elem : Ty)
  | plain
  deriving Repr

/-- The types of a crate by their shapes; a type may be reached again through its parts. -/
structure TypeTable (Ty : Type) where
  shape : Ty → Shape Ty

namespace TypeTable

variable {Ty : Type} (tt : TypeTable Ty)

def isEnum (ty : Ty) : Bool :=
  match tt.shape ty with
  | .enum _ _ => true
  | _ => false

def isTypeOwnedBox (ty : Ty) : Bool :=
  match tt.shape ty with
  | .ownedBox _ => true
  | _ => false

def isArray (ty : Ty) : Bool :=
  match tt.shape ty with
  | .array _ _ => true
  | _ => false

def isUnion (ty : Ty) : Bool :=
  match tt.shape ty with
  | .union _ => true
  | _ => false

/-- The `hasDropImpl` marking of a struct or an enum. -/
def hasDropImpl (ty : Ty) : Bool :=
  match tt.shape ty with
  | .struct _ hasDropImpl => hasDropImpl
  | .enum _ hasDropImpl => hasDropImpl
  | _ => false

/-- `valType` of a field or an element. -/
def field (ty : Ty) (i : Nat) : Ty :=
  match tt.shape ty with
  | .tuple fields => fields.getD i ty
  | .struct fields _ => fields.getD i ty
  | .array elem _ => elem
  | .slice elem => elem
  | _ => ty

/-- `valType` of a downcast. -/
def variant (ty : Ty) (i : Nat) : Ty :=
  match tt.shape ty with
  | .enum variants _ => variants.getD i ty
  | .union variants => variants.getD i ty
  | _ => ty

/-- `valType` of a dereferenced box or pointer. -/
def pointee (ty : Ty) : Ty :=
  match tt.shape ty with
  | .ownedBox inner => inner
  | .pointer inner => inner
  | _ => ty

/-- The type of a part of a `Partial`: a downcast for an enum, a field for the others. -/
def part (ty : Ty) (i : Nat) : Ty :=
  if tt.isEnum ty then tt.variant ty i else tt.field ty i

/-- All elements of an array have one type. -/
theorem field_of_isArray {ty : Ty} (h : tt.isArray ty = true) (i j : Nat) :
    tt.field ty i = tt.field ty j := by
  unfold isArray at h
  unfold field
  split at h
  · rename_i hs
    rw [hs]
  · cases h

theorem part_of_isEnum {ty : Ty} (h : tt.isEnum ty = true) (i : Nat) :
    tt.part ty i = tt.variant ty i := if_pos h

theorem part_of_not_isEnum {ty : Ty} (h : tt.isEnum ty = false) (i : Nat) :
    tt.part ty i = tt.field ty i := by
  simp [part, h]

variable (B : Nat)

mutual

/-- The state is one of a value of type `ty`, and its drop flags are below `B`. -/
def Fits : Ty → VarState → Prop
  | _, .invalid _ => True
  | ty, .partialOf innerStates outerFlag => (∀ f, outerFlag = some f → f < B) ∧
      FitsInner ty 0 innerStates
  | ty, .partialArray fillState otherStates _ => tt.isArray ty = true ∧
      Fits (tt.field ty 0) fillState ∧ FitsOther ty otherStates
  | ty, .movedOut innerState outerFlag => (∀ f, outerFlag = some f → f < B) ∧
      Fits (tt.pointee ty) innerState
  | _, .optional flag => flag < B
  | _, .valid => True

def FitsInner : Ty → Nat → List VarState → Prop
  | _, _, [] => True
  | ty, i, s :: ss => Fits (tt.part ty i) s ∧ FitsInner ty (i + 1) ss

def FitsOther : Ty → List (Nat × VarState) → Prop
  | _, [] => True
  | ty, (k, s) :: ss => Fits (tt.field ty k) s ∧ FitsOther ty ss

end

variable {tt B}

theorem FitsInner.getElem {ty : Ty} : ∀ {ss : List VarState} {i j : Nat} {s : VarState},
    FitsInner tt B ty i ss → ss[j]? = some s → Fits tt B (tt.part ty (i + j)) s
  | t :: ss, i, j, s, h, hs => by
    rw [FitsInner] at h
    cases j with
    | zero =>
      cases hs
      exact h.1
    | succ j =>
      rw [List.getElem?_cons_succ] at hs
      have := h.2.getElem hs
      rwa [Nat.add_right_comm] at this

theorem FitsOther.of_mem {ty : Ty} : ∀ {ss : OrdMap VarState} {k : Nat} {s : VarState},
    FitsOther tt B ty ss → (k, s) ∈ ss → Fits tt B (tt.field ty k) s
  | (j, t) :: ss, k, s, h, hs => by
    rw [FitsOther] at h
    rcases List.mem_cons.mp hs with e | hs
    · cases e
      exact h.1
    · exact h.2.of_mem hs

mutual

theorem Fits.mono {B' : Nat} (h : B ≤ B') : ∀ {s : VarState} {ty : Ty},
    Fits tt B ty s → Fits tt B' ty s
  | .invalid _, _, _ => by rw [Fits]; trivial
  | .valid, _, _ => by rw [Fits]; trivial
  | .optional _, _, hs => by
    rw [Fits] at hs ⊢
    exact Nat.lt_of_lt_of_le hs h
  | .movedOut _ _, _, hs => by
    rw [Fits] at hs ⊢
    exact ⟨fun f hf => Nat.lt_of_lt_of_le (hs.1 f hf) h, hs.2.mono h⟩
  | .partialOf _ _, _, hs => by
    rw [Fits] at hs ⊢
    exact ⟨fun f hf => Nat.lt_of_lt_of_le (hs.1 f hf) h, hs.2.mono h⟩
  | .partialArray _ _ _, _, hs => by
    rw [Fits] at hs ⊢
    exact ⟨hs.1, hs.2.1.mono h, hs.2.2.mono h⟩

theorem FitsInner.mono {B' : Nat} (h : B ≤ B') : ∀ {ss : List VarState} {ty : Ty} {i : Nat},
    FitsInner tt B ty i ss → FitsInner tt B' ty i ss
  | [], _, _, _ => by rw [FitsInner]; trivial
  | s :: ss, _, _, hs => by
    rw [FitsInner] at hs ⊢
    exact ⟨hs.1.mono h, hs.2.mono h⟩

theorem FitsOther.mono {B' : Nat} (h : B ≤ B') : ∀ {ss : List (Nat × VarState)} {ty : Ty},
    FitsOther tt B ty ss → FitsOther tt B' ty ss
  | [], _, _ => by rw [FitsOther]; trivial
  | (_, s) :: ss, _, hs => by
    rw [FitsOther] at hs ⊢
    exact ⟨hs.1.mono h, hs.2.mono h⟩

end

theorem FitsInner.intro {ty : Ty} : ∀ {ss : List VarState} {i : Nat},
    (∀ j s, ss[j]? = some s → Fits tt B (tt.part ty (i + j)) s) → FitsInner tt B ty i ss
  | [], _, _ => by rw [FitsInner]; trivial
  | s :: ss, i, h => by
    rw [FitsInner]
    refine ⟨h 0 s rfl, FitsInner.intro fun j t hj => ?_⟩
    have := h (j + 1) t hj
    rwa [Nat.add_right_comm]

theorem FitsOther.intro {ty : Ty} : ∀ {ss : OrdMap VarState},
    (∀ p ∈ ss, Fits tt B (tt.field ty p.1) p.2) → FitsOther tt B ty ss
  | [], _ => by rw [FitsOther]; trivial
  | (k, s) :: ss, h => by
    rw [FitsOther]
    exact ⟨h (k, s) List.mem_cons_self,
      FitsOther.intro fun p hp => h p (List.mem_cons_of_mem _ hp)⟩

theorem Fits.element {ty : Ty} {fillState : VarState} {otherStates : OrdMap VarState}
    (ha : tt.isArray ty = true) (hf : Fits tt B (tt.field ty 0) fillState)
    (ho : FitsOther tt B ty otherStates) (i : Nat) :
    Fits tt B (tt.field ty i) (VarState.element fillState otherStates i) := by
  unfold VarState.element
  cases h : OrdMap.find i otherStates with
  | none => exact tt.field_of_isArray ha 0 i ▸ hf
  | some s => exact ho.of_mem (OrdMap.find_mem h)

end TypeTable

/-! ## 3. Parts of a slot -/

/-- A part of a slot: the whole, the allocation of a box, or a part of a field (an element of an
    array), of an enum variant or of what a box holds. -/
inductive SubPlace where
  | here
  | boxAlloc
  | field (i : Nat) (p : SubPlace)
  | variant (i : Nat) (p : SubPlace)
  | deref (p : SubPlace)
  deriving DecidableEq, Repr

/-- `p` is a part of a value of type `ty`: only enums have variants, and these no fields. -/
def TypeTable.IsPlace {Ty : Type} (tt : TypeTable Ty) : Ty → SubPlace → Prop
  | _, .here => True
  | _, .boxAlloc => True
  | ty, .field i p => tt.isEnum ty = false ∧ tt.IsPlace (tt.field ty i) p
  | ty, .variant i p => tt.isEnum ty = true ∧ tt.IsPlace (tt.variant ty i) p
  | ty, .deref p => tt.IsPlace (tt.pointee ty) p

section NeedsDrop

variable {Ty : Type} (tt : TypeTable Ty) (typeNeedsDropGlue : Ty → Bool)

/-- A part of a value of the type that its drop glue reaches. -/
def NeedsDrop : Ty → SubPlace → Prop
  | ty, .here => typeNeedsDropGlue ty = true
  | ty, .boxAlloc => typeNeedsDropGlue ty = true ∧ tt.isTypeOwnedBox ty = true
  | ty, .field i p => typeNeedsDropGlue ty = true ∧ tt.isEnum ty = false ∧
      NeedsDrop (tt.field ty i) p
  | ty, .variant i p => typeNeedsDropGlue ty = true ∧ tt.isEnum ty = true ∧
      NeedsDrop (tt.variant ty i) p
  | ty, .deref p => typeNeedsDropGlue ty = true ∧ tt.isTypeOwnedBox ty = true ∧
      NeedsDrop (tt.pointee ty) p

theorem NeedsDrop.glue {ty : Ty} {p : SubPlace} (h : NeedsDrop tt typeNeedsDropGlue ty p) :
    typeNeedsDropGlue ty = true := by
  cases p with
  | here => exact h
  | boxAlloc => exact h.1
  | field i p => exact h.1
  | variant i p => exact h.1
  | deref p => exact h.1

end NeedsDrop

/-- The value of an outer flag: without one, the outer part is always valid. -/
def outerSource : Option DropFlag → Source DropFlag Bool
  | none => .const true
  | some f => .reg f

/-- Whether the part is initialised: what the drops emitted from the state take it for, under the
    flag values `ρ`. The answer is `none` where the state splits the part further up. -/
def VarState.reads (ρ : DropFlag → Bool) : VarState → SubPlace → Option Bool
  | .invalid _, _ => some false
  | .valid, _ => some true
  | .optional flag, _ => some (ρ flag)
  | .partialOf innerStates _, .field i p => innerStates[i]?.bind fun s => s.reads ρ p
  | .partialOf innerStates outerFlag, .variant i p =>
    innerStates[i]?.bind fun s => (s.reads ρ p).map fun v => (outerSource outerFlag).read ρ && v
  | .partialArray fillState otherStates count, .field i p =>
    if i < count then (VarState.element fillState otherStates i).reads ρ p else none
  | .movedOut _ outerFlag, .boxAlloc => some ((outerSource outerFlag).read ρ)
  | .movedOut innerState _, .deref p => innerState.reads ρ p
  | _, _ => none

end Trustme.Lowering
