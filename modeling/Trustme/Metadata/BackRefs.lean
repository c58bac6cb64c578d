/-
  Subject:   Types and simple paths in crate metadata: `serialiseType`, `serialiseSimplepath` and
             `endRegion` of `HirSerialiser`, `deserialiseType` and `deserialiseSimplepath` of
             `HirDeserialiser` (hir_main_bindings.cpp).

  * `Heap`, `RefTables`: what the writer's pointers point to, and its tables;
  * `serialiseType`, `serialiseSimplepath`: an index, or the thing itself;
  * `serialiseNode`: all that is reached, with a bound on the depth;
  * `Interner`, `ReadTables`, `nodeReader`: the same for the reader.
-/
import Trustme.Lib.Ids
import Trustme.Metadata.TypeTerms

namespace Trustme.Metadata

open Trustme.Lib

/-! ## 1. The writer's tables -/

/-- What pointers point to. -/
structure Heap (K : Pointers) where
  type : K.Ty → HIRType K
  members : K.PathData → List RcString
  literal : K.Literal → EncodedLiteral (vocabulary K)
  unevaluated : K.Unevaluated → HIRConstGenericUnevaluated K
  traitpath : K.Trait → HIRTraitPath K

variable {K K' : Pointers}

/-- What is printed for every pointer: for literals and unevaluated constants it is an address. -/
structure Printed (H : Heap K) where
  text : Targets K shown
  type_eq : ∀ t, text.type t = ((H.type t).map text.whole).fmt
  traitpath_eq : ∀ p, text.traitpath p = ((H.traitpath p).map text.whole).fmt
  path_eq : ∀ p, text.path p = p.map H.members

/-- The tables of `HirSerialiser`. -/
structure RefTables (K : Pointers) where
  types : Ids Text
  typeIds : Ids K.Ty
  simplePathIds : Ids K.PathData
  inRegion : Bool
  regionTypeKeys : List K.Ty
  regionTypeNames : List Text
  regionPathKeys : List K.PathData

namespace RefTables

def empty : RefTables K := ⟨[], [], [], false, [], [], []⟩

variable [DecidableEq K.Ty] [DecidableEq K.PathData]

/-- A type that is met for the first time. -/
def noteType (t : K.Ty) (s : RefTables K) : RefTables K :=
  if s.inRegion then { s with regionTypeKeys := s.regionTypeKeys ++ [t] } else s

def addTypeId (t : K.Ty) (id : Nat) (s : RefTables K) : RefTables K :=
  { s with typeIds := s.typeIds.insert t id }

/-- The end of `serialiseType`. -/
def addType (t : K.Ty) (interned : Text) (s : RefTables K) : RefTables K :=
  let inserted := (s.types.find interned).isNone
  let types := s.types.insert interned s.types.length
  let id := (types.find interned).getD 0
  { s with
    types := types
    regionTypeNames :=
      if s.inRegion && inserted then s.regionTypeNames ++ [interned] else s.regionTypeNames
    typeIds := s.typeIds.insert t id }

/-- The end of `serialiseSimplepath`. -/
def addPath (data : K.PathData) (s : RefTables K) : RefTables K :=
  { s with
    simplePathIds := s.simplePathIds.insert data s.simplePathIds.length
    regionPathKeys := if s.inRegion then s.regionPathKeys ++ [data] else s.regionPathKeys }

def beginRegion (s : RefTables K) : RefTables K := { s with inRegion := true }

def endRegion (s : RefTables K) : RefTables K :=
  { types := s.types.eraseAll s.regionTypeNames
    typeIds := s.typeIds.eraseAll s.regionTypeKeys
    simplePathIds := s.simplePathIds.eraseAll s.regionPathKeys
    inRegion := false
    regionTypeKeys := []
    regionTypeNames := []
    regionPathKeys := [] }

end RefTables

/-! ## 2. The writer -/

/-- What is written, with the writer's tables. -/
abbrev RefOut (K : Pointers) := Out (RefTables K) Unit

def FRESH : Nat := 0xFFFFFFFF

def SIMPLE_PATH_EMPTY : Nat := 0xFFFFFFFE

def SIMPLE_PATH_FRESH : Nat := 0xFFFFFFFF

/-- `serialiseList`, and `serialiseVec` of a `ThinVector`. -/
def serialiseList {α ω : Type} (t : String) (serialise : α → Out ω Unit) (list : List α) :
    Out ω Unit :=
  object (thinVectorName t) do
    writeCount list.length
    Write.each serialise list

def serialiseStrmap {α ω : Type} (serialise : α → Out ω Unit) (map : List (RcString × α)) :
    Out ω Unit := do
  writeCount map.length
  Write.each (fun v => do
    writeIstring v.1
    serialise v.2) map

/-- The key of a type in the table: its text, without a part in braces in front. -/
def typeKey (tyStr : Text) : Text :=
  if tyStr.head? = some '\x7b' ∧ '\x7d' ∈ tyStr then (tyStr.dropWhile (· ≠ '\x7d')).tail else tyStr

section Writer

variable [DecidableEq K.Ty] [DecidableEq K.PathData]

section Parts

variable (H : Heap K) (w : Node K → RefOut K)

def serialiseSimplepath : HIRSimplePath K → RefOut K
  | none => writeCount SIMPLE_PATH_EMPTY
  | some data => do
      let known ← lookRefs fun s => s.simplePathIds.find data
      match known with
      | some id => writeCount id
      | none => do
          writeCount SIMPLE_PATH_FRESH
          serialiseList "RcString" writeIstring (H.members data)
          changeRefs (·.addPath data)

def serialiseConstgeneric : HIRConstGeneric K → RefOut K
  | .Infer _ => writeTag 1
  | .Unevaluated v => do
      writeTag 2
      w (.unevaluated v)
  | .Generic v => do
      writeTag 3
      RefWriter.serialiseGenericref v
  | .Evaluated v => do
      writeTag 4
      w (.literal v)

def serialisePathparams (pp : HIRPathParams K) : RefOut K := do
  serialiseList "HIRType const*" (w ∘ .type) pp.types
  serialiseList "HIRConstGeneric" (serialiseConstgeneric w) pp.values

def serialiseGenericpath (path : HIRGenericPath K) : RefOut K := do
  serialiseSimplepath H path.path
  serialisePathparams w path.params

def serialiseAtyEqual (e : AtyEqual K) : RefOut K := do
  serialiseGenericpath H w e.sourceTrait
  serialisePathparams w e.atyParams
  w (.type e.type)

def serialiseAtyBound (e : AtyBound K) : RefOut K := do
  serialiseGenericpath H w e.sourceTrait
  serialisePathparams w e.atyParams
  serialiseVec "HIRTraitPath" (w ∘ .traitpath) e.traits

def serialiseTraitpath (path : HIRTraitPath K) : RefOut K :=
  object "HIR::TraitPath".toList do
    serialiseGenericpath H w path.path
    serialiseStrmap (serialiseAtyEqual H w) path.typeBounds
    serialiseStrmap (serialiseAtyBound H w) path.traitBounds
    RefWriter.writeKind path.constness

def serialisePath : HIRPath K → RefOut K
  | .Generic e => do
      writeTag 0
      serialiseGenericpath H w e
  | .UfcsInherent type item params implParams => do
      writeTag 1
      w (.type type)
      writeIstring item
      serialisePathparams w params
      serialisePathparams w implParams
  | .UfcsKnown type trait item params => do
      writeTag 2
      w (.type type)
      serialiseGenericpath H w trait
      writeIstring item
      serialisePathparams w params
  | .UfcsUnknown _ _ _ => Write.stop (.bug "Unexpected UfcsUnknown in a serialised path: ")

def refWriter : RefWriter (vocabulary K) (RefTables K) where
  serialiseType t := w (.type t)
  serialisePath := serialisePath H w
  serialiseGenericpath := serialiseGenericpath H w
  serialisePathparams := serialisePathparams w
  serialiseTraitpath := serialiseTraitpath H w
  serialiseConstgeneric := serialiseConstgeneric w
  unevaluatedBodyDepth := 0

def serialiseErasedInner : TypeDataErasedTypeInner K → RefOut K
  | .Fcn origin index => do
      writeTag 1
      serialisePath H w origin
      writeCount index.toNat
  | .Alias _ _ _ => do
      writeTag 2
      Write.stop (.bug "An opaque alias reached metadata unrevealed - ")

def serialisePatternRange (range : HIRTypePatternRange K) : RefOut K := do
  writeOptional (serialiseConstgeneric w) range.start
  writeOptional (serialiseConstgeneric w) range.end
  writeBool range.endInclusive

/-- The `switch` of `serialiseType`. -/
def serialiseTypeData : HIRType K → RefOut K
  | .Infer _ _ => writeTag 1
  | .Diverge => writeTag 2
  | .Primitive e => do
      writeTag 3
      writeEnum e
  | .Path path _ => do
      writeTag 4
      serialisePath H w path
  | .Generic e => do
      writeTag 5
      RefWriter.serialiseGenericref e
  | .TraitObject trait markers lifetimeIdentity lifetimeIdentityHasFree => do
      writeTag 6
      serialiseTraitpath H w trait
      serialiseVec "HIRGenericPath" (serialiseGenericpath H w) markers
      writeIstring lifetimeIdentity
      writeBool lifetimeIdentityHasFree
  | .ErasedType isSized traits use usePresent inner => do
      writeTag 7
      writeBool isSized
      serialiseVec "HIRTraitPath" (serialiseTraitpath H w) traits
      serialisePathparams w use
      writeEnum usePresent
      serialiseErasedInner H w inner
  | .Array inner size => do
      writeTag 8
      w (.type inner)
      (refWriter H w).serialiseArraysize size
  | .Slice inner => do
      writeTag 9
      w (.type inner)
  | .Tuple e => do
      writeTag 10
      serialiseVec "HIRType const*" (w ∘ .type) e
  | .Borrow type inner => do
      writeTag 11
      writeEnum type
      w (.type inner)
  | .Pointer type inner => do
      writeTag 12
      writeEnum type
      w (.type inner)
  | .NamedFunction path _ => do
      writeTag 13
      serialisePath H w path
  | .Function isUnsafe isVariadic abi rettype argTypes trackCaller identity hasFree => do
      writeTag 14
      writeBool isUnsafe
      writeBool isVariadic
      writeIstring abi
      w (.type rettype)
      serialiseVec "HIRType const*" (w ∘ .type) argTypes
      writeBool trackCaller
      writeIstring identity
      writeBool hasFree
  | .NodeType _ => do
      writeTag 15
      Write.stop (.bug "Encountered invalid type when serialising - ")
  | .Pattern inner pattern => do
      writeTag 16
      w (.type inner)
      writeBool pattern.notNull
      writeCount pattern.alternatives.length
      Write.each (serialisePatternRange w) pattern.alternatives

def serialiseType (P : Printed H) (ty : K.Ty) : RefOut K := do
  let known ← lookRefs fun s => s.typeIds.find ty
  match known with
  | some id => writeCount id
  | none => do
      changeRefs (·.noteType ty)
      let interned := typeKey (P.text.type ty)
      let it ← lookRefs fun s => s.types.find interned
      match it with
      | some id => do
          changeRefs (·.addTypeId ty id)
          writeCount id
      | none => do
          writeCount FRESH
          object "HIR::TypeData".toList do
            serialiseTypeData H w (H.type ty)
            changeRefs (·.addType ty interned)

def serialiseRef : Ref K → RefOut K
  | .type t => do
      writeTag 0
      w (.type t)
  | .path p => do
      writeTag 1
      serialiseSimplepath H p

/-- `serialise(const MIRFunction&)`, by what the body refers to. -/
def serialiseMir (mir : BodyRefs K) : RefOut K := do
  writeCount mir.length
  Write.each (serialiseRef H w) mir

def serialiseExprptr (exp : HIRExprPtr K) : RefOut K :=
  object "HIR::ExprPtr".toList do
    writeOptional (fun b => do
      serialiseMir H w b.1
      writeOptional (w ∘ .type) b.2) exp.mir
    serialiseVec "HIRType const*" (w ∘ .type) exp.erasedTypes

def serialiseUnevaluated (v : HIRConstGenericUnevaluated K) : RefOut K := do
  Write.check v.expr.mir.isSome (.bug "Encountered non-translated value in ConstGeneric: ")
  writeOptional (w ∘ .type) v.selfType
  serialisePathparams w v.paramsImpl
  serialisePathparams w v.paramsItem
  serialiseExprptr H w v.expr

end Parts

/-- Where the writer would not come to an end. -/
def endless : WriteStop := .bug ""

/-- All that is reached from a pointer, at most `n` pointers deep. -/
def serialiseNode (H : Heap K) (P : Printed H) : Nat → Node K → RefOut K
  | 0, _ => Write.stop endless
  | n + 1, .type t => serialiseType H (serialiseNode H P n) P t
  | n + 1, .literal l => (refWriter H (serialiseNode H P n)).serialiseEncoded (H.literal l)
  | n + 1, .unevaluated u => serialiseUnevaluated H (serialiseNode H P n) (H.unevaluated u)
  | n + 1, .traitpath p => serialiseTraitpath H (serialiseNode H P n) (H.traitpath p)

end Writer

/-! ## 3. The reader's tables -/

/-- How the reader makes things of their parts: equal parts make the same thing. Nothing is a part
    of itself. -/
structure Interner (K : Pointers) where
  /-- The name that the crate is loaded with. -/
  crateName : RcString
  crateName_ne : crateName ≠ []
  /-- `HIRSimplePath(crate, components)` -/
  path : RcString → List RcString → HIRSimplePath K
  /-- `typeInterner.intern` -/
  type : HIRType K → K.Ty
  /-- `freezeEncodedLiteral` -/
  literal : EncodedLiteral (vocabulary K) → K.Literal
  /-- `internUnevaluated` -/
  unevaluated : HIRConstGenericUnevaluated K → K.Unevaluated
  traitpath : HIRTraitPath K → K.Trait
  age : Node K → Nat
  type_older : ∀ d, ∀ x ∈ d.refs, age x < age (.type (type d))
  literal_older : ∀ d, ∀ x ∈ EncodedLiteral.refs d, age x < age (.literal (literal d))
  unevaluated_older : ∀ d, ∀ x ∈ d.refs, age x < age (.unevaluated (unevaluated d))
  traitpath_older : ∀ d, ∀ x ∈ d.refs, age x < age (.traitpath (traitpath d))

/-- `MIRLazyBody`: what there is from its offset on, and the sizes of the tables there. -/
structure LazyBody where
  stream : List Byte
  typeBase : Nat
  pathBase : Nat

/-- The tables of `HirDeserialiser`, with the bodies that it has skipped. Without a base there is no
    region (`NO_REGION`). -/
structure ReadTables (K : Pointers) where
  types : List K.Ty
  simplePaths : List (HIRSimplePath K)
  regionTypes : List K.Ty
  regionPaths : List (HIRSimplePath K)
  regionTypeBase : Option Nat
  regionPathBase : Option Nat
  bodies : List LazyBody

def ReadTables.empty : ReadTables K := ⟨[], [], [], [], none, none, []⟩

/-- What is read, with the reader's tables. -/
abbrev RefIn (K : Pointers) (α : Type) := In (ReadTables K) α

/-- `idx < base ? table[idx] : region[idx - base]` -/
def entryAt {α : Type} (table region : List α) (base : Option Nat) (idx : Nat) : Option α :=
  match base with
  | none => table[idx]?
  | some base => if idx < base then table[idx]? else region[idx - base]?

def typeAt (idx : Nat) : RefIn K K.Ty := fun bs t =>
  match entryAt t.refs.types t.refs.regionTypes t.refs.regionTypeBase idx with
  | some v => .ok (v, bs, t)
  | none => .error .overrun

def pathAt (idx : Nat) : RefIn K (HIRSimplePath K) := fun bs t =>
  match entryAt t.refs.simplePaths t.refs.regionPaths t.refs.regionPathBase idx with
  | some v => .ok (v, bs, t)
  | none => .error .overrun

def ReadTables.pushType (v : K.Ty) (t : ReadTables K) : ReadTables K :=
  match t.regionTypeBase with
  | none => { t with types := t.types ++ [v] }
  | some _ => { t with regionTypes := t.regionTypes ++ [v] }

def ReadTables.pushPath (v : HIRSimplePath K) (t : ReadTables K) : ReadTables K :=
  match t.regionPathBase with
  | none => { t with simplePaths := t.simplePaths ++ [v] }
  | some _ => { t with regionPaths := t.regionPaths ++ [v] }

def readRefs (f : ReadTables K → ReadTables K) : RefIn K Unit := fun bs t =>
  .ok ((), bs, { t with refs := f t.refs })

/-! ## 4. The reader -/

/-- `deserialiseThinvec` -/
def deserialiseThinvec {α ρ : Type} (t : String) (deserialise : In ρ α) : In ρ (List α) :=
  inObject (thinVectorName t) do
    let n ← readCount
    Read.times deserialise n

def deserialiseIstrmap {α ρ : Type} (deserialise : In ρ α) : In ρ (List (RcString × α)) := do
  let n ← readCount
  Read.times (do
    let s ← readIstring
    let v ← deserialise
    return (s, v)) n

/-- What reads the things behind pointers. -/
structure NodeReader (K : Pointers) where
  type : RefIn K K.Ty
  literal : RefIn K K.Literal
  unevaluated : RefIn K K.Unevaluated
  traitpath : RefIn K K.Trait

section Reader

variable (I : Interner K) (r : NodeReader K)

/-- A path without a crate is one of the crate that is loaded. -/
def Interner.pathOf : List RcString → HIRSimplePath K
  | [] => none
  | c :: cs => I.path (if c = [] ∧ cs ≠ [] then I.crateName else c) cs

def deserialiseSimplepath : RefIn K (HIRSimplePath K) := do
  let idx ← readCount
  if idx = SIMPLE_PATH_EMPTY then return none
  else if idx ≠ SIMPLE_PATH_FRESH then pathAt idx
  else do
    let members ← deserialiseThinvec "RcString" readIstring
    readRefs (·.pushPath (I.pathOf members))
    return I.pathOf members

def deserialiseConstgeneric : RefIn K (HIRConstGeneric K) := do
  let tag ← readTag
  match tag with
  | 1 => return .Infer (-1)
  | 2 =>
    let v ← r.unevaluated
    return .Unevaluated v
  | 3 =>
    let v ← RefReader.deserialiseGenericref
    return .Generic v
  | 4 =>
    let v ← r.literal
    return .Evaluated v
  | _ => Read.stop (.badTag "Unknown HIR::ConstGeneric tag when deserialising - ")

def deserialisePathparams : RefIn K (HIRPathParams K) := do
  let types ← deserialiseThinvec "HIRType const*" r.type
  let values ← deserialiseThinvec "HIRConstGeneric" (deserialiseConstgeneric r)
  return ⟨types, values⟩

def deserialiseGenericpath : RefIn K (HIRGenericPath K) := do
  let path ← deserialiseSimplepath I
  let params ← deserialisePathparams r
  return ⟨path, params⟩

def deserialiseAtyEqual : RefIn K (AtyEqual K) := do
  let sourceTrait ← deserialiseGenericpath I r
  let atyParams ← deserialisePathparams r
  let type ← r.type
  return ⟨sourceTrait, atyParams, type⟩

def deserialiseAtyBound : RefIn K (AtyBound K) := do
  let sourceTrait ← deserialiseGenericpath I r
  let atyParams ← deserialisePathparams r
  let traits ← deserialiseVec "HIRTraitPath" r.traitpath
  return ⟨sourceTrait, atyParams, traits⟩

def deserialiseTraitpath : RefIn K (HIRTraitPath K) :=
  inObject "HIR::TraitPath".toList do
    let path ← deserialiseGenericpath I r
    let tys ← deserialiseIstrmap (deserialiseAtyEqual I r)
    let bounds ← deserialiseIstrmap (deserialiseAtyBound I r)
    let constness ← RefReader.readKind
    return ⟨path, tys, bounds, constness⟩

def deserialisePath : RefIn K (HIRPath K) := do
  let tag ← readTag
  match tag with
  | 0 =>
    let path ← deserialiseGenericpath I r
    return .Generic path
  | 1 =>
    let type ← r.type
    let item ← readIstring
    let params ← deserialisePathparams r
    let implParams ← deserialisePathparams r
    return .UfcsInherent type item params implParams
  | 2 =>
    let type ← r.type
    let trait ← deserialiseGenericpath I r
    let item ← readIstring
    let params ← deserialisePathparams r
    return .UfcsKnown type trait item params
  | _ => Read.stop (.badTag "Bad tag for HIR::Path - ")

def refReader : RefReader (vocabulary K) (ReadTables K) where
  deserialiseType := r.type
  deserialisePath := deserialisePath I r
  deserialiseGenericpath := deserialiseGenericpath I r
  deserialisePathparams := deserialisePathparams r
  deserialiseTraitpath := deserialiseTraitpath I r
  deserialiseConstgeneric := deserialiseConstgeneric r

def deserialiseErasedInner : RefIn K (TypeDataErasedTypeInner K) := do
  let innerTag ← readTag
  match innerTag with
  | 1 =>
    let origin ← deserialisePath I r
    let index ← readUnsigned
    return .Fcn origin index
  | _ => Read.stop (.badTag "Bad tag for a serialised erased type - ")

def deserialisePatternRange : RefIn K (HIRTypePatternRange K) := do
  let start ← readOptional (deserialiseConstgeneric r)
  let «end» ← readOptional (deserialiseConstgeneric r)
  let endInclusive ← readBool
  return ⟨start, «end», endInclusive⟩

/-- The `switch` of `deserialiseType`. -/
def deserialiseTypeData : RefIn K (HIRType K) := do
  let tag ← readTag
  match tag with
  | 1 => return .Infer (-1) .None
  | 2 => return .Diverge
  | 3 =>
    let e ← readEnum
    return .Primitive e
  | 4 =>
    let path ← deserialisePath I r
    return .Path path .Unbound
  | 5 =>
    let e ← RefReader.deserialiseGenericref
    return .Generic e
  | 6 =>
    let trait ← deserialiseTraitpath I r
    let markers ← deserialiseVec "HIRGenericPath" (deserialiseGenericpath I r)
    let lifetimeIdentity ← readIstring
    let lifetimeIdentityHasFree ← readBool
    return .TraitObject trait markers lifetimeIdentity lifetimeIdentityHasFree
  | 7 =>
    let isSized ← readBool
    let traits ← deserialiseVec "HIRTraitPath" (deserialiseTraitpath I r)
    let use ← deserialisePathparams r
    let usePresent ← readEnum
    let inner ← deserialiseErasedInner I r
    return .ErasedType isSized traits use usePresent inner
  | 8 =>
    let inner ← r.type
    let size ← (refReader I r).deserialiseArraysize
    return .Array inner size
  | 9 =>
    let inner ← r.type
    return .Slice inner
  | 10 =>
    let e ← deserialiseVec "HIRType const*" r.type
    return .Tuple e
  | 11 =>
    let type ← readEnum
    let inner ← r.type
    return .Borrow type inner
  | 12 =>
    let type ← readEnum
    let inner ← r.type
    return .Pointer type inner
  | 13 =>
    let path ← deserialisePath I r
    return .NamedFunction path true
  | 14 =>
    let isUnsafe ← readBool
    let isVariadic ← readBool
    let abi ← readIstring
    let rettype ← r.type
    let argTypes ← deserialiseVec "HIRType const*" r.type
    let trackCaller ← readBool
    let identity ← readIstring
    let hasFree ← readBool
    return .Function isUnsafe isVariadic abi rettype argTypes trackCaller identity hasFree
  | 16 =>
    let inner ← r.type
    let notNull ← readBool
    let count ← readCount
    let alternatives ← Read.times (deserialisePatternRange r) count
    return .Pattern inner ⟨notNull, alternatives⟩
  | _ => Read.stop (.badTag "Bad tag for HIR::ASTType* - ")

def deserialiseType : RefIn K K.Ty := do
  let idx ← readCount
  if idx ≠ FRESH then typeAt idx
  else
    inObject "HIR::TypeData".toList do
      let data ← deserialiseTypeData I r
      readRefs (·.pushType (I.type data))
      return I.type data

def deserialiseRef : RefIn K (Ref K) := do
  let tag ← readTag
  match tag with
  | 0 =>
    let t ← r.type
    return .type t
  | 1 =>
    let p ← deserialiseSimplepath I
    return .path p
  | _ => Read.stop (.badTag "")

/-- `deserialiseMirFunction`, by what the body refers to. -/
def deserialiseMir : RefIn K (BodyRefs K) := do
  let n ← readCount
  Read.times (deserialiseRef I r) n

def deserialiseExprptr : RefIn K (HIRExprPtr K) :=
  inObject "HIR::ExprPtr".toList do
    let mir ← readOptional do
      let mir ← deserialiseMir I r
      let extResultType ← readOptional r.type
      return (mir, extResultType)
    let erasedTypes ← deserialiseVec "HIRType const*" r.type
    return ⟨mir, erasedTypes⟩

def deserialiseUnevaluated : RefIn K (HIRConstGenericUnevaluated K) := do
  let selfType ← readOptional r.type
  let pI ← deserialisePathparams r
  let pM ← deserialisePathparams r
  let expr ← deserialiseExprptr I r
  return ⟨selfType, pI, pM, expr⟩

end Reader

/-- Where the reader would not come to an end. -/
def readEndless : ReadStop := .bug ""

/-- What reads all that is reached from a pointer, at most `n` pointers deep. -/
def nodeReader (I : Interner K) : Nat → NodeReader K
  | 0 => ⟨Read.stop readEndless, Read.stop readEndless, Read.stop readEndless,
      Read.stop readEndless⟩
  | n + 1 =>
    let r := nodeReader I n
    { type := deserialiseType I r
      literal := do
        let l ← (refReader I r).deserialiseEncodedliteral
        return I.literal l
      unevaluated := do
        let v ← deserialiseUnevaluated I r
        return I.unevaluated v
      traitpath := do
        let p ← deserialiseTraitpath I r
        return I.traitpath p }

end Trustme.Metadata
