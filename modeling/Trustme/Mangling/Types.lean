/-
  Subject:   The paths, types and constants that symbols are made of.

  * `RcString`: a name: a string of bytes without a zero;
  * `HIRSimplePath`: a crate and the names of the items down to one;
  * `HIRType`, `HIRPath`, `HIRGenericPath`, `HIRPathParams`, `HIRConstGeneric`, `Reloc`,
    `HIRTraitPath`, `HIRTypePatternRange`: the mutually recursive syntax;
  * `erase`: a value without the fields that no symbol carries.
-/
import Mathlib.Data.Nat.Basic

namespace Trustme.Mangling

/-! ## 1. Names -/

/-- A name, as the bytes before its terminating zero; each byte stands as the character with its
    code. -/
structure RcString where
  bytes : List Char
  isBytes : ∀ c ∈ bytes, 0 < c.toNat ∧ c.toNat < 256
deriving DecidableEq

namespace RcString

def size (s : RcString) : Nat := s.bytes.length

def empty : RcString := ⟨[], by simp⟩

end RcString

structure HIRSimplePath where
  crateName : RcString
  components : List RcString
deriving DecidableEq

/-! ## 2. Enumerations -/

inductive HIRBorrowType
  | Shared | Unique | Owned
deriving DecidableEq

inductive HIRCoreType
  | Usize | Isize | U8 | I8 | U16 | I16 | U32 | I32 | U64 | I64 | U128 | I128
  | F16 | F32 | F64 | F128 | Bool | Char | Str
deriving DecidableEq

inductive HIRBoundConstness
  | Never | Always | Maybe
deriving DecidableEq

/-- The length of an array type; only a known one can be written. -/
inductive HIRArraySize
  | Unevaluated
  | Known (n : Nat)
deriving DecidableEq

/-! ## 3. Types, paths and constants -/

/-
  Two maps of the source are lists here. `typeBounds` and `traitBounds` of a trait path map names
  to what they are bound to; the mangler sorts the first by the contents of the names before it
  writes it, and the list is the map in that order. A range of a pattern type has a start and an
  end or lacks them, and says of an end whether it is included.
-/

mutual

inductive HIRType
  | Infer
  | Diverge
  | Primitive (ct : HIRCoreType)
  | Path (path : HIRPath)
  | Generic
  | TraitObject (trait : HIRTraitPath) (markers : List HIRGenericPath)
      (lifetimeIdentity : RcString) (lifetimeIdentityHasFree : Bool)
  | ErasedType
  | Array (inner : HIRType) (size : HIRArraySize)
  | Slice (inner : HIRType)
  | Tuple (types : List HIRType)
  | Borrow (type : HIRBorrowType) (inner : HIRType)
  | Pointer (type : HIRBorrowType) (inner : HIRType)
  | NamedFunction (path : HIRPath)
  | Function (isUnsafe isVariadic : Bool) (abi : RcString) (rettype : HIRType)
      (argTypes : List HIRType) (trackCaller : Bool)
      (lifetimeIdentity : RcString) (lifetimeIdentityHasFree : Bool)
  | NodeType
  | Pattern (inner : HIRType) (alternatives : List HIRTypePatternRange) (notNull : Bool)

inductive HIRPath
  | Generic (gp : HIRGenericPath)
  | UfcsInherent (type : HIRType) (item : RcString) (params implParams : HIRPathParams)
  | UfcsKnown (type : HIRType) (trait : HIRGenericPath) (item : RcString) (params : HIRPathParams)
  | UfcsUnknown (type : HIRType) (item : RcString) (params : HIRPathParams)

inductive HIRGenericPath
  | mk (path : HIRSimplePath) (params : HIRPathParams)

inductive HIRPathParams
  | mk (types : List HIRType) (values : List HIRConstGeneric)

inductive HIRConstGeneric
  | Infer
  | Unevaluated
  | Generic
  | Evaluated (bytes : List (BitVec 8)) (relocations : List Reloc)

/-- Where a constant holds an address: of an item (`p`), or of some bytes. -/
inductive Reloc
  | newNamed (ofs len : Nat) (p : HIRPath) (preserveTrackCaller : Bool)
  | newBytes (ofs len : Nat) (bytes : List (BitVec 8))

inductive HIRTraitPath
  | mk (path : HIRGenericPath) (typeBounds : List AtyEqual) (traitBounds : List AtyBound)
      (constness : HIRBoundConstness)

/-- `name = type` in a trait path. -/
inductive AtyEqual
  | mk (name : RcString) (sourceTrait : HIRGenericPath) (atyParams : HIRPathParams)
      (type : HIRType)

/-- `name: traits` in a trait path. -/
inductive AtyBound
  | mk (name : RcString) (sourceTrait : HIRGenericPath) (atyParams : HIRPathParams)
      (traits : List HIRTraitPath)

inductive HIRTypePatternRange
  | mk (start : Option HIRConstGeneric) (stop : Option HIRConstGeneric) (endInclusive : Bool)

end

/-! ## 4. What is not written -/

/-- The path that stands in an erased value for one that is not written. -/
def HIRPathParams.none : HIRPathParams := .mk [] []

def HIRGenericPath.none : HIRGenericPath := .mk ⟨.empty, []⟩ .none

mutual

/-- Without the lifetimes and the other fields that no symbol carries: the trait an associated
    type comes from and its parameters, the bounds on associated types, the constness of a trait,
    the parameters of an inherent impl, the caller tracking of an address, and whether the end is
    included in a range that has none. -/
def HIRType.erase : HIRType → HIRType
  | .Infer => .Infer
  | .Diverge => .Diverge
  | .Primitive ct => .Primitive ct
  | .Path path => .Path path.erase
  | .Generic => .Generic
  | .TraitObject trait markers _ _ => .TraitObject trait.erase (eraseMarkers markers) .empty false
  | .ErasedType => .ErasedType
  | .Array inner size => .Array inner.erase size
  | .Slice inner => .Slice inner.erase
  | .Tuple types => .Tuple (eraseTypes types)
  | .Borrow type inner => .Borrow type inner.erase
  | .Pointer type inner => .Pointer type inner.erase
  | .NamedFunction path => .NamedFunction path.erase
  | .Function isUnsafe isVariadic abi rettype argTypes trackCaller _ _ =>
    .Function isUnsafe isVariadic abi rettype.erase (eraseTypes argTypes) trackCaller .empty false
  | .NodeType => .NodeType
  | .Pattern inner alternatives notNull => .Pattern inner.erase (eraseRanges alternatives) notNull

def HIRPath.erase : HIRPath → HIRPath
  | .Generic gp => .Generic gp.erase
  | .UfcsInherent type item params _ => .UfcsInherent type.erase item params.erase .none
  | .UfcsKnown type trait item params => .UfcsKnown type.erase trait.erase item params.erase
  | .UfcsUnknown type item params => .UfcsUnknown type.erase item params.erase

def HIRGenericPath.erase : HIRGenericPath → HIRGenericPath
  | .mk path params => .mk path params.erase

def HIRPathParams.erase : HIRPathParams → HIRPathParams
  | .mk types values => .mk (eraseTypes types) (eraseValues values)

def HIRConstGeneric.erase : HIRConstGeneric → HIRConstGeneric
  | .Infer => .Infer
  | .Unevaluated => .Unevaluated
  | .Generic => .Generic
  | .Evaluated bytes relocations => .Evaluated bytes (eraseRelocs relocations)

def Reloc.erase : Reloc → Reloc
  | .newNamed ofs len p _ => .newNamed ofs len p.erase false
  | .newBytes ofs len bytes => .newBytes ofs len bytes

def HIRTraitPath.erase : HIRTraitPath → HIRTraitPath
  | .mk path typeBounds _ _ => .mk path.erase (eraseBounds typeBounds) [] .Never

def AtyEqual.erase : AtyEqual → AtyEqual
  | .mk name _ _ type => .mk name .none .none type.erase

def HIRTypePatternRange.erase : HIRTypePatternRange → HIRTypePatternRange
  | .mk start stop endInclusive =>
    .mk (eraseValue? start) (eraseValue? stop) (stop.isSome && endInclusive)

def eraseValue? : Option HIRConstGeneric → Option HIRConstGeneric
  | none => none
  | some value => some value.erase

def eraseTypes : List HIRType → List HIRType
  | [] => []
  | ty :: types => ty.erase :: eraseTypes types

def eraseValues : List HIRConstGeneric → List HIRConstGeneric
  | [] => []
  | v :: values => v.erase :: eraseValues values

def eraseRelocs : List Reloc → List Reloc
  | [] => []
  | r :: relocations => r.erase :: eraseRelocs relocations

def eraseMarkers : List HIRGenericPath → List HIRGenericPath
  | [] => []
  | p :: markers => p.erase :: eraseMarkers markers

def eraseBounds : List AtyEqual → List AtyEqual
  | [] => []
  | aty :: bounds => aty.erase :: eraseBounds bounds

def eraseRanges : List HIRTypePatternRange → List HIRTypePatternRange
  | [] => []
  | range :: alternatives => range.erase :: eraseRanges alternatives

end

section

-- The equations of the erasure are derived here once, not in each of the proofs that rewrite by
-- them.
attribute [local simp] HIRType.erase HIRPath.erase HIRGenericPath.erase HIRPathParams.erase
  HIRConstGeneric.erase Reloc.erase HIRTraitPath.erase AtyEqual.erase HIRTypePatternRange.erase
  eraseValue? eraseTypes eraseValues eraseRelocs eraseMarkers eraseBounds eraseRanges

end

end Trustme.Mangling
