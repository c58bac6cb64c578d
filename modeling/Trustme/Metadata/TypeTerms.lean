/-
  Subject:   Types and paths as a crate holds them, with pointers between them: hir_type.h,
             hir_path.h, and how types are printed (hir_type.cpp, hir_path.cpp).

  * `Pointers`: what a part of a type may point to;
  * `HIRConstGeneric` .. `HIRType` -- the parts of a type, for any pointers;
  * `Renaming`, `map`: the same part over other pointers;
  * `refs`: what a part points to;
  * `fmt`: how a part is printed, when what it points to is.
-/
import Trustme.Metadata.Enums

namespace Trustme.Metadata

open Trustme.Lib Trustme.Numeric

/-! ## 1. Pointers -/

/-- `const HIRType*`, `const HIRSimplePathData*`, `const EncodedLiteral*`,
    `const HIRConstGenericUnevaluated*`, and the trait paths that a trait path holds. -/
structure Pointers where
  Ty : Type
  PathData : Type
  Literal : Type
  Unevaluated : Type
  Trait : Type

variable (K : Pointers)

/-- What a type points to; simple paths hold nothing more. -/
inductive Node where
  | type (t : K.Ty)
  | literal (l : K.Literal)
  | unevaluated (u : K.Unevaluated)
  | traitpath (p : K.Trait)

/-- Null is the empty path. -/
abbrev HIRSimplePath := Option K.PathData

/-! ## 2. Paths -/

inductive HIRConstGeneric where
  | Infer (index : BitVec 32)
  | Unevaluated (v : K.Unevaluated)
  | Generic (v : HIRGenericRef)
  | Evaluated (v : K.Literal)

structure HIRPathParams where
  types : List K.Ty
  values : List (HIRConstGeneric K)

structure HIRGenericPath where
  path : HIRSimplePath K
  params : HIRPathParams K

structure AtyEqual where
  sourceTrait : HIRGenericPath K
  atyParams : HIRPathParams K
  type : K.Ty

structure AtyBound where
  sourceTrait : HIRGenericPath K
  atyParams : HIRPathParams K
  traits : List K.Trait

/-- The maps by their entries, in order. -/
structure HIRTraitPath where
  path : HIRGenericPath K
  typeBounds : List (RcString × AtyEqual K)
  traitBounds : List (RcString × AtyBound K)
  constness : HIRBoundConstness

inductive HIRPath where
  | Generic (path : HIRGenericPath K)
  | UfcsInherent (type : K.Ty) (item : RcString) (params implParams : HIRPathParams K)
  | UfcsKnown (type : K.Ty) (trait : HIRGenericPath K) (item : RcString) (params : HIRPathParams K)
  | UfcsUnknown (type : K.Ty) (item : RcString) (params : HIRPathParams K)

/-- Types and paths for the literals and array sizes that are in them. -/
abbrev vocabulary : Vocabulary :=
  ⟨K.Ty, HIRPath K, HIRGenericPath K, HIRPathParams K, HIRTraitPath K, HIRConstGeneric K,
    fun _ => false⟩

/-! ## 3. Types -/

inductive HIRInferClass where
  | None | Integer | Float
  deriving DecidableEq

/-- `HIRTypePathBinding`, without the item that is found. -/
inductive HIRTypePathBinding where
  | Unbound | Opaque | ExternType | Struct | Union | Enum
  deriving DecidableEq

/-- `HIRTypeDataErasedType::Use` -/
inductive ErasedUse where
  | OmittedOld | Omitted2024 | Present
  deriving DecidableEq

instance : CEnum ErasedUse :=
  .ofList [.OmittedOld, .Omitted2024, .Present] (by intro x; cases x <;> decide) (by decide)

inductive TypeDataErasedTypeInner where
  | Fcn (origin : HIRPath K) (index : BitVec 32)
  | Alias (params : HIRPathParams K) (path : Text) (index : BitVec 32)

/-- A bound is there if `hasStart` or `hasEnd` is. -/
structure HIRTypePatternRange where
  start : Option (HIRConstGeneric K)
  «end» : Option (HIRConstGeneric K)
  endInclusive : Bool

structure HIRTypePattern where
  notNull : Bool
  alternatives : List (HIRTypePatternRange K)

inductive HIRType where
  | Infer (index : BitVec 32) (tyClass : HIRInferClass)
  | Diverge
  | Primitive (e : HIRCoreType)
  | Path (path : HIRPath K) (binding : HIRTypePathBinding)
  | Generic (e : HIRGenericRef)
  | TraitObject (trait : HIRTraitPath K) (markers : List (HIRGenericPath K))
      (lifetimeIdentity : RcString) (lifetimeIdentityHasFree : Bool)
  | ErasedType (isSized : Bool) (traits : List (HIRTraitPath K)) (use : HIRPathParams K)
      (usePresent : ErasedUse) (inner : TypeDataErasedTypeInner K)
  | Array (inner : K.Ty) (size : HIRArraySize (vocabulary K))
  | Slice (inner : K.Ty)
  | Tuple (e : List K.Ty)
  | Borrow (type : HIRBorrowType) (inner : K.Ty)
  | Pointer (type : HIRBorrowType) (inner : K.Ty)
  /-- `undefined` is the null pointer for the function. -/
  | NamedFunction (path : HIRPath K) (undefined : Bool)
  | Function (isUnsafe isVariadic : Bool) (abi : RcString) (rettype : K.Ty) (argTypes : List K.Ty)
      (trackCaller : Bool) (lifetimeIdentity : RcString) (lifetimeIdentityHasFree : Bool)
  /-- A closure, a generator or an async block, as it is printed. -/
  | NodeType (shown : Text)
  | Pattern (inner : K.Ty) (pattern : HIRTypePattern K)

/-! ## 4. Bodies -/

/-- What a body refers to. -/
inductive Ref where
  | type (t : K.Ty)
  | path (p : HIRSimplePath K)

/-- `MIRFunction`, by the types and paths in it, in the order in which they are written. -/
abbrev BodyRefs := List (Ref K)

/-- `HIRExprPtr`, once it is lowered: the type of the result goes with the body. -/
structure HIRExprPtr where
  mir : Option (BodyRefs K × Option K.Ty)
  erasedTypes : List K.Ty

structure HIRConstGenericUnevaluated where
  selfType : Option K.Ty
  paramsImpl : HIRPathParams K
  paramsItem : HIRPathParams K
  expr : HIRExprPtr K

/-! ## 5. The same over other pointers -/

variable {K} {K' : Pointers}

/-- Where every pointer goes. -/
structure Targets (K K' : Pointers) where
  type : K.Ty → K'.Ty
  path : HIRSimplePath K → HIRSimplePath K'
  literal : K.Literal → K'.Literal
  unevaluated : K.Unevaluated → K'.Unevaluated
  traitpath : K.Trait → K'.Trait

/-- Where every pointer goes, and what becomes of the data that metadata leaves out. -/
structure Renaming (K K' : Pointers) extends Targets K K' where
  generic : HIRGenericRef → HIRGenericRef
  index : BitVec 32 → BitVec 32
  tyClass : HIRInferClass → HIRInferClass
  binding : HIRTypePathBinding → HIRTypePathBinding
  undefined : Bool → Bool

/-- All data stay. -/
abbrev Targets.whole (m : Targets K K') : Renaming K K' := ⟨m, id, id, id, id, id⟩

/-- A generic as it is read: its scope is not written, its number as one of 16 bits. -/
def HIRGenericRef.read (ge : HIRGenericRef) : HIRGenericRef :=
  ⟨ge.name, (ge.binding.setWidth 16).setWidth 32, 0⟩

/-- What is not written is read as its default: the numbers of inferred types, bindings, and the
    function of a function's type. -/
abbrev Targets.read (m : Targets K K') : Renaming K K' :=
  ⟨m, HIRGenericRef.read, fun _ => -1, fun _ => .None, fun _ => .Unbound, fun _ => true⟩

section Map

variable (m : Renaming K K')

def HIRConstGeneric.map : HIRConstGeneric K → HIRConstGeneric K'
  | .Infer index => .Infer (m.index index)
  | .Unevaluated v => .Unevaluated (m.unevaluated v)
  | .Generic v => .Generic (m.generic v)
  | .Evaluated v => .Evaluated (m.literal v)

def HIRPathParams.map (pp : HIRPathParams K) : HIRPathParams K' :=
  ⟨pp.types.map m.type, pp.values.map (·.map m)⟩

def HIRGenericPath.map (p : HIRGenericPath K) : HIRGenericPath K' :=
  ⟨m.path p.path, p.params.map m⟩

def AtyEqual.map (e : AtyEqual K) : AtyEqual K' :=
  ⟨e.sourceTrait.map m, e.atyParams.map m, m.type e.type⟩

def AtyBound.map (e : AtyBound K) : AtyBound K' :=
  ⟨e.sourceTrait.map m, e.atyParams.map m, e.traits.map m.traitpath⟩

def HIRTraitPath.map (p : HIRTraitPath K) : HIRTraitPath K' :=
  ⟨p.path.map m, p.typeBounds.map fun b => (b.1, b.2.map m),
    p.traitBounds.map fun b => (b.1, b.2.map m), p.constness⟩

def HIRPath.map : HIRPath K → HIRPath K'
  | .Generic path => .Generic (path.map m)
  | .UfcsInherent type item params implParams =>
    .UfcsInherent (m.type type) item (params.map m) (implParams.map m)
  | .UfcsKnown type trait item params =>
    .UfcsKnown (m.type type) (trait.map m) item (params.map m)
  | .UfcsUnknown type item params => .UfcsUnknown (m.type type) item (params.map m)

def HIRArraySize.map : HIRArraySize (vocabulary K) → HIRArraySize (vocabulary K')
  | .Unevaluated v => .Unevaluated (HIRConstGeneric.map m v)
  | .Known v => .Known v

def Reloc.map : Reloc (vocabulary K) → Reloc (vocabulary K')
  | .named ofs len p preserveTrackCaller => .named ofs len (HIRPath.map m p) preserveTrackCaller
  | .bytes ofs len data => .bytes ofs len data

def EncodedLiteral.map (l : EncodedLiteral (vocabulary K)) : EncodedLiteral (vocabulary K') :=
  ⟨l.bytes, l.relocations.map (Reloc.map m)⟩

def TypeDataErasedTypeInner.map : TypeDataErasedTypeInner K → TypeDataErasedTypeInner K'
  | .Fcn origin index => .Fcn (origin.map m) index
  | .Alias params path index => .Alias (params.map m) path index

def HIRTypePatternRange.map (r : HIRTypePatternRange K) : HIRTypePatternRange K' :=
  ⟨r.start.map (·.map m), r.end.map (·.map m), r.endInclusive⟩

def HIRTypePattern.map (p : HIRTypePattern K) : HIRTypePattern K' :=
  ⟨p.notNull, p.alternatives.map (·.map m)⟩

def HIRType.map : HIRType K → HIRType K'
  | .Infer index tyClass => .Infer (m.index index) (m.tyClass tyClass)
  | .Diverge => .Diverge
  | .Primitive e => .Primitive e
  | .Path path binding => .Path (path.map m) (m.binding binding)
  | .Generic e => .Generic (m.generic e)
  | .TraitObject trait markers lifetimeIdentity lifetimeIdentityHasFree =>
    .TraitObject (trait.map m) (markers.map (·.map m)) lifetimeIdentity lifetimeIdentityHasFree
  | .ErasedType isSized traits use usePresent inner =>
    .ErasedType isSized (traits.map (·.map m)) (use.map m) usePresent (inner.map m)
  | .Array inner size => .Array (m.type inner) (HIRArraySize.map m size)
  | .Slice inner => .Slice (m.type inner)
  | .Tuple e => .Tuple (e.map m.type)
  | .Borrow type inner => .Borrow type (m.type inner)
  | .Pointer type inner => .Pointer type (m.type inner)
  | .NamedFunction path undefined => .NamedFunction (path.map m) (m.undefined undefined)
  | .Function isUnsafe isVariadic abi rettype argTypes trackCaller identity hasFree =>
    .Function isUnsafe isVariadic abi (m.type rettype) (argTypes.map m.type) trackCaller identity
      hasFree
  | .NodeType shown => .NodeType shown
  | .Pattern inner pattern => .Pattern (m.type inner) (pattern.map m)

def Ref.map : Ref K → Ref K'
  | .type t => .type (m.type t)
  | .path p => .path (m.path p)

def HIRExprPtr.map (e : HIRExprPtr K) : HIRExprPtr K' :=
  ⟨e.mir.map fun b => (b.1.map (Ref.map m), b.2.map m.type), e.erasedTypes.map m.type⟩

def HIRConstGenericUnevaluated.map (v : HIRConstGenericUnevaluated K) :
    HIRConstGenericUnevaluated K' :=
  ⟨v.selfType.map m.type, v.paramsImpl.map m, v.paramsItem.map m, v.expr.map m⟩

end Map

/-! ## 6. What a part points to -/

section Refs

def HIRConstGeneric.refs : HIRConstGeneric K → List (Node K)
  | .Unevaluated v => [.unevaluated v]
  | .Evaluated v => [.literal v]
  | _ => []

def HIRPathParams.refs (pp : HIRPathParams K) : List (Node K) :=
  pp.types.map .type ++ pp.values.flatMap (·.refs)

def HIRGenericPath.refs (p : HIRGenericPath K) : List (Node K) := p.params.refs

def AtyEqual.refs (e : AtyEqual K) : List (Node K) :=
  e.sourceTrait.refs ++ e.atyParams.refs ++ [.type e.type]

def AtyBound.refs (e : AtyBound K) : List (Node K) :=
  e.sourceTrait.refs ++ e.atyParams.refs ++ e.traits.map .traitpath

def HIRTraitPath.refs (p : HIRTraitPath K) : List (Node K) :=
  p.path.refs ++ p.typeBounds.flatMap (·.2.refs) ++ p.traitBounds.flatMap (·.2.refs)

def HIRPath.refs : HIRPath K → List (Node K)
  | .Generic path => path.refs
  | .UfcsInherent type _ params implParams => .type type :: params.refs ++ implParams.refs
  | .UfcsKnown type trait _ params => .type type :: trait.refs ++ params.refs
  | .UfcsUnknown type _ params => .type type :: params.refs

def HIRArraySize.refs : HIRArraySize (vocabulary K) → List (Node K)
  | .Unevaluated v => HIRConstGeneric.refs v
  | .Known _ => []

def Reloc.refs : Reloc (vocabulary K) → List (Node K)
  | .named _ _ p _ => HIRPath.refs p
  | .bytes _ _ _ => []

def EncodedLiteral.refs (l : EncodedLiteral (vocabulary K)) : List (Node K) :=
  l.relocations.flatMap Reloc.refs

def TypeDataErasedTypeInner.refs : TypeDataErasedTypeInner K → List (Node K)
  | .Fcn origin _ => origin.refs
  | .Alias params _ _ => params.refs

def HIRTypePatternRange.refs (r : HIRTypePatternRange K) : List (Node K) :=
  r.start.toList.flatMap (·.refs) ++ r.end.toList.flatMap (·.refs)

def HIRType.refs : HIRType K → List (Node K)
  | .Path path _ | .NamedFunction path _ => path.refs
  | .TraitObject trait markers _ _ => trait.refs ++ markers.flatMap (·.refs)
  | .ErasedType _ traits use _ inner => traits.flatMap (·.refs) ++ use.refs ++ inner.refs
  | .Array inner size => .type inner :: HIRArraySize.refs size
  | .Slice inner | .Borrow _ inner | .Pointer _ inner => [.type inner]
  | .Tuple e => e.map .type
  | .Function _ _ _ rettype argTypes _ _ _ => .type rettype :: argTypes.map .type
  | .Pattern inner pattern => .type inner :: pattern.alternatives.flatMap (·.refs)
  | _ => []

def Ref.refs : Ref K → List (Node K)
  | .type t => [.type t]
  | .path _ => []

def HIRExprPtr.refs (e : HIRExprPtr K) : List (Node K) :=
  e.mir.toList.flatMap (fun b => b.1.flatMap Ref.refs ++ b.2.toList.map .type) ++
    e.erasedTypes.map .type

def HIRConstGenericUnevaluated.refs (v : HIRConstGenericUnevaluated K) : List (Node K) :=
  v.selfType.toList.map .type ++ v.paramsImpl.refs ++ v.paramsItem.refs ++ v.expr.refs

end Refs

def Targets.node (m : Targets K K') : Node K → Node K'
  | .type t => .type (m.type t)
  | .literal l => .literal (m.literal l)
  | .unevaluated u => .unevaluated (m.unevaluated u)
  | .traitpath p => .traitpath (m.traitpath p)

section RefsMap

variable (m : Renaming K K')

theorem map_type_node (l : List K.Ty) :
    (l.map m.type).map Node.type = (l.map Node.type).map m.node := by
  rw [List.map_map, List.map_map]
  rfl

theorem flatMap_refs_map {α β : Type} {f : α → β} {refs : α → List (Node K)}
    {refs' : β → List (Node K')} (h : ∀ a, refs' (f a) = (refs a).map m.node) (l : List α) :
    (l.map f).flatMap refs' = (l.flatMap refs).map m.node := by
  rw [List.flatMap_map, List.map_flatMap]
  exact List.flatMap_congr fun a _ => h a

theorem HIRConstGeneric.refs_map (v : HIRConstGeneric K) :
    (v.map m).refs = v.refs.map m.node := by
  cases v <;> rfl

theorem HIRPathParams.refs_map (pp : HIRPathParams K) :
    (pp.map m).refs = pp.refs.map m.node := by
  rw [refs, refs, List.map_append, ← flatMap_refs_map m (HIRConstGeneric.refs_map m)]
  exact congrArg (· ++ _) (map_type_node m pp.types)

theorem HIRGenericPath.refs_map (p : HIRGenericPath K) :
    (p.map m).refs = p.refs.map m.node :=
  p.params.refs_map m

theorem AtyEqual.refs_map (e : AtyEqual K) : (e.map m).refs = e.refs.map m.node := by
  rw [refs, refs, List.map_append, List.map_append, ← HIRGenericPath.refs_map,
    ← HIRPathParams.refs_map]
  rfl

theorem AtyBound.refs_map (e : AtyBound K) : (e.map m).refs = e.refs.map m.node := by
  have htraits : (e.traits.map m.traitpath).map Node.traitpath =
      (e.traits.map Node.traitpath).map m.node := by
    rw [List.map_map, List.map_map]
    rfl
  rw [refs, refs, List.map_append, List.map_append, ← HIRGenericPath.refs_map,
    ← HIRPathParams.refs_map, ← htraits]
  rfl

theorem HIRTraitPath.refs_map (p : HIRTraitPath K) : (p.map m).refs = p.refs.map m.node := by
  simp [map, refs, List.flatMap_map, List.map_flatMap, HIRGenericPath.refs_map,
    AtyEqual.refs_map, AtyBound.refs_map]

theorem HIRPath.refs_map (p : HIRPath K) : (p.map m).refs = p.refs.map m.node := by
  cases p with
  | Generic path => exact path.refs_map m
  | UfcsInherent type item params implParams =>
    simp [map, refs, HIRPathParams.refs_map, Targets.node]
  | UfcsKnown type trait item params =>
    simp [map, refs, HIRPathParams.refs_map, HIRGenericPath.refs_map, Targets.node]
  | UfcsUnknown type item params => simp [map, refs, HIRPathParams.refs_map, Targets.node]

theorem HIRArraySize.refs_map (size : HIRArraySize (vocabulary K)) :
    HIRArraySize.refs (HIRArraySize.map m size) = (HIRArraySize.refs size).map m.node := by
  cases size with
  | Unevaluated v => exact HIRConstGeneric.refs_map m v
  | Known v => rfl

theorem EncodedLiteral.refs_map (l : EncodedLiteral (vocabulary K)) :
    EncodedLiteral.refs (EncodedLiteral.map m l) = (EncodedLiteral.refs l).map m.node := by
  refine flatMap_refs_map m (fun r => ?_) l.relocations
  cases r with
  | named ofs len p preserveTrackCaller => exact HIRPath.refs_map m p
  | bytes ofs len data => rfl

theorem HIRTypePatternRange.refs_map (r : HIRTypePatternRange K) :
    (r.map m).refs = r.refs.map m.node := by
  obtain ⟨start, «end», endInclusive⟩ := r
  rw [refs, refs, List.map_append, ← flatMap_refs_map m (HIRConstGeneric.refs_map m),
    ← flatMap_refs_map m (HIRConstGeneric.refs_map m)]
  cases start <;> cases «end» <;> rfl

theorem HIRType.refs_map (t : HIRType K) : (t.map m).refs = t.refs.map m.node := by
  cases t with
  | Path path binding => exact path.refs_map m
  | NamedFunction path undefined => exact path.refs_map m
  | TraitObject trait markers identity hasFree =>
    rw [map, refs, refs, List.map_append, trait.refs_map m,
      flatMap_refs_map m (HIRGenericPath.refs_map m)]
  | ErasedType isSized traits use usePresent inner =>
    rw [map, refs, refs, List.map_append, List.map_append, use.refs_map m,
      flatMap_refs_map m (HIRTraitPath.refs_map m)]
    cases inner with
    | Fcn origin index => exact congrArg _ (origin.refs_map m)
    | Alias params path index => exact congrArg _ (params.refs_map m)
  | Array inner size => exact congrArg _ (HIRArraySize.refs_map m size)
  | Tuple e => exact map_type_node m e
  | Function isUnsafe isVariadic abi rettype argTypes trackCaller identity hasFree =>
    exact congrArg _ (map_type_node m argTypes)
  | Pattern inner pattern =>
    exact congrArg _ (flatMap_refs_map m (HIRTypePatternRange.refs_map m) pattern.alternatives)
  | _ => rfl

theorem HIRExprPtr.refs_map (e : HIRExprPtr K) : (e.map m).refs = e.refs.map m.node := by
  obtain ⟨mir, erasedTypes⟩ := e
  have hbody : ∀ b : BodyRefs K × Option K.Ty,
      (b.1.map (Ref.map m)).flatMap Ref.refs ++ (b.2.map m.type).toList.map Node.type =
        (b.1.flatMap Ref.refs ++ b.2.toList.map Node.type).map m.node := by
    intro b
    have hrefs : ∀ r : Ref K, (r.map m).refs = r.refs.map m.node := by
      intro r
      cases r <;> rfl
    rw [List.map_append, flatMap_refs_map m hrefs]
    cases b.2 <;> rfl
  rw [refs, refs, List.map_append]
  refine congrArg₂ (· ++ ·) ?_ (map_type_node m erasedTypes)
  cases mir with
  | none => rfl
  | some b => simpa [map] using hbody b

theorem HIRConstGenericUnevaluated.refs_map (v : HIRConstGenericUnevaluated K) :
    (v.map m).refs = v.refs.map m.node := by
  obtain ⟨selfType, paramsImpl, paramsItem, expr⟩ := v
  simp only [refs, map, List.map_append, HIRPathParams.refs_map, HIRExprPtr.refs_map]
  cases selfType <;> rfl

end RefsMap

/-! ## 7. How types are printed -/

/-- What is printed where a pointer stands: for types and trait paths what they are printed as, for
    literals and unevaluated constants their address. -/
abbrev shown : Pointers := ⟨Text, List RcString, Text, Text, Text⟩

def decimal (n : Nat) : Text := Nat.toDigits 10 n

/-- `<<` of `HIRSimplePath`: the crate and the components. -/
def fmtSimplePath (path : HIRSimplePath shown) : Text :=
  let members := path.getD []
  let components := members.tail.flatMap ("::".toList ++ ·)
  if members.headD [] ≠ [] then "::\"".toList ++ members.headD [] ++ "\"".toList ++ components
  else if members.tail = [] then "::".toList
  else components

/-- `HIRGenericRef::fmt` -/
def HIRGenericRef.fmt (ge : HIRGenericRef) : Text :=
  let idx := decimal (ge.binding &&& 0xFF).toNat
  ge.name ++ "/*".toList ++
    (if ge.isSolverExistential then
      "E:".toList ++ decimal ge.solverScope.toNat ++ ":".toList ++ idx
    else if ge.binding = 0xFFFF then []
    else
      match (ge.binding >>> 8).toNat with
      | 0 => "I:".toList ++ idx
      | 1 => "M:".toList ++ idx
      | 2 => "P:".toList ++ idx
      | 3 => "H:".toList ++ idx
      | _ => decimal ge.binding.toNat) ++
    "*/".toList

def HIRConstGeneric.fmt : HIRConstGeneric shown → Text
  | .Infer index =>
    "Infer(value = HIRInferData(index = ".toList ++ decimal index.toNat ++ "))".toList
  | .Unevaluated v => "Unevaluated(value = ".toList ++ v ++ ")".toList
  | .Generic v => "Generic(value = ".toList ++ v.fmt ++ ")".toList
  | .Evaluated v => "Evaluated(value = ".toList ++ v ++ ")".toList

def HIRPathParams.fmt (x : HIRPathParams shown) : Text :=
  let args := x.types.flatMap (· ++ ",".toList) ++
    x.values.flatMap fun v => "\x7b".toList ++ v.fmt ++ "\x7d,".toList
  if x.types ≠ [] ∨ x.values.length > 0 then "<".toList ++ args ++ ">".toList else args

def HIRGenericPath.fmt (x : HIRGenericPath shown) : Text := fmtSimplePath x.path ++ x.params.fmt

def HIRTraitPath.fmt (x : HIRTraitPath shown) : Text :=
  let constness := match x.constness with
    | .Always => "const ".toList
    | .Maybe => "[const] ".toList
    | .Never => []
  let params := x.path.params.types.flatMap (· ++ ",".toList) ++
    x.path.params.values.flatMap (·.fmt ++ ",".toList)
  let types := x.typeBounds.flatMap fun assoc =>
    assoc.1 ++ "\x7b".toList ++ assoc.2.sourceTrait.fmt ++ "\x7d=".toList ++ assoc.2.type ++
      ",".toList
  let bounds := x.traitBounds.flatMap fun assoc => assoc.2.traits.flatMap fun trait =>
    assoc.1 ++ "\x7b".toList ++ assoc.2.sourceTrait.fmt ++ "\x7d: ".toList ++ trait ++ ",".toList
  let args := params ++ types ++ bounds
  constness ++ fmtSimplePath x.path.path ++
    if x.path.params.types ≠ [] ∨ x.typeBounds.length > 0 ∨ x.traitBounds.length > 0 then
      "<".toList ++ args ++ ">".toList
    else args

def HIRPath.fmt : HIRPath shown → Text
  | .Generic e => e.fmt
  | .UfcsInherent type item params implParams =>
    "<".toList ++ type ++ " /*- ".toList ++ implParams.fmt ++ "*/>::".toList ++ item ++ params.fmt
  | .UfcsKnown type trait item params =>
    "<".toList ++ type ++ " as ".toList ++ trait.fmt ++ ">::".toList ++ item ++ params.fmt
  | .UfcsUnknown type item params =>
    "<".toList ++ type ++ " as _>::".toList ++ item ++ params.fmt

def HIRArraySize.fmt : HIRArraySize (vocabulary shown) → Text
  | .Unevaluated v => "Unevaluated(value = ".toList ++ HIRConstGeneric.fmt v ++ ")".toList
  | .Known v => "Known(value = ".toList ++ decimal v.toNat ++ ")".toList

def HIRTypePatternRange.fmt (r : HIRTypePatternRange shown) : Text :=
  (r.start.map HIRConstGeneric.fmt).getD [] ++
    (if r.endInclusive then "..=".toList else "..".toList) ++
    (r.end.map HIRConstGeneric.fmt).getD []

def HIRTypePattern.fmt (p : HIRTypePattern shown) : Text :=
  (if p.notNull then "!null".toList else []) ++
    " | ".toList.intercalate (p.alternatives.map (·.fmt))

def HIRTypePathBinding.fmt : HIRTypePathBinding → Text
  | .Unbound => "/*?*/".toList
  | .Opaque => "/*O*/".toList
  | .ExternType => "/*X*/".toList
  | .Struct => "/*S*/".toList
  | .Union => "/*U*/".toList
  | .Enum => "/*E*/".toList

def coreTypeName : HIRCoreType → Text
  | .Usize => "usize".toList | .Isize => "isize".toList
  | .U8 => "u8".toList | .I8 => "i8".toList
  | .U16 => "u16".toList | .I16 => "i16".toList
  | .U32 => "u32".toList | .I32 => "i32".toList
  | .U64 => "u64".toList | .I64 => "i64".toList
  | .U128 => "u128".toList | .I128 => "i128".toList
  | .F16 => "f16".toList | .F32 => "f32".toList
  | .F64 => "f64".toList | .F128 => "f128".toList
  | .Bool => "bool".toList | .Char => "char".toList | .Str => "str".toList

/-- The lifetime identity of a trait object or a function pointer, if it is not empty. -/
def fmtRegions (lifetimeIdentity : RcString) : Text :=
  if lifetimeIdentity ≠ [] then "/*regions:".toList ++ lifetimeIdentity ++ "*/".toList else []

/-- `HIRType::fmt` -/
def HIRType.fmt : HIRType shown → Text
  | .Infer index tyClass =>
    let number := if index ≠ -1 then decimal index.toNat else []
    let cls := match tyClass with
      | .None => []
      | .Float => ":f".toList
      | .Integer => ":i".toList
    "_".toList ++
      if index ≠ -1 ∨ tyClass ≠ .None then "/*".toList ++ number ++ cls ++ "*/".toList else []
  | .Diverge => "!".toList
  | .Primitive e => coreTypeName e
  | .Path path binding => path.fmt ++ binding.fmt
  | .Generic e => e.fmt
  | .TraitObject trait markers lifetimeIdentity _ =>
    "dyn (".toList ++
      (if trait.path.path.isSome ∨ trait.path.params.types ≠ [] ∨
        trait.path.params.values.length > 0 then trait.fmt else []) ++
      markers.flatMap ("+".toList ++ ·.fmt) ++ ")".toList ++ fmtRegions lifetimeIdentity
  | .ErasedType _ traits use _ inner =>
    "impl ".toList ++ "+".toList.intercalate (traits.map (·.fmt)) ++ "+use".toList ++ use.fmt ++
      "/*".toList ++
      (match inner with
        | .Fcn origin index => "fn ".toList ++ origin.fmt ++ "#".toList ++ decimal index.toNat
        | .Alias params path index =>
          "type".toList ++ params.fmt ++ " ".toList ++ path ++ "#".toList ++
            decimal index.toNat) ++
      "*/".toList
  | .Array inner size => "[".toList ++ inner ++ "; ".toList ++ HIRArraySize.fmt size ++ "]".toList
  | .Slice inner => "[".toList ++ inner ++ "]".toList
  | .Pattern inner pattern => inner ++ " is ".toList ++ pattern.fmt
  | .Tuple e => "(".toList ++ e.flatMap (· ++ ", ".toList) ++ ")".toList
  | .Borrow type inner =>
    "&".toList ++
      (match type with
        | .Shared => []
        | .Unique => "mut ".toList
        | .Owned => "move ".toList) ++
      inner
  | .Pointer type inner =>
    (match type with
      | .Shared => "*const ".toList
      | .Unique => "*mut ".toList
      | .Owned => "*move ".toList) ++
      inner
  | .NamedFunction path undefined =>
    "fn\x7b".toList ++ (if undefined then "!".toList else []) ++ path.fmt ++ "\x7d".toList
  | .Function isUnsafe isVariadic abi rettype argTypes trackCaller lifetimeIdentity _ =>
    (if trackCaller then "#[track_caller] ".toList else []) ++
      (if isUnsafe then "unsafe ".toList else []) ++
      (if abi ≠ [] then "extern \"".toList ++ abi ++ "\" ".toList else []) ++
      "fn(".toList ++ argTypes.flatMap (· ++ ", ".toList) ++
      (if isVariadic then "...".toList else []) ++ ") -> ".toList ++ rettype ++
      fmtRegions lifetimeIdentity
  | .NodeType text => text

end Trustme.Metadata
