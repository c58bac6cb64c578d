/-
  Subject:   `Mangler`: the text that is hashed into a symbol.

  * `fmtBase26Int`, `fmtCString`, `fmtName`: numbers and names;
  * `fmtSimplePath`, `fmtPathParams`, `fmtConstGeneric`, `fmtGenericPath`, `fmtPath`, `fmtType`:
    the syntax.

  The state of these printers is the window of `names` that belongs to this mangler: the names it
  has written, each once. Where the source reports a bug, they stop.
-/
import Trustme.Lib.Printers
import Trustme.Mangling.Types

namespace Trustme.Mangling

open Lib (Text Printer)
open Lib.Printer (put skip stop number)

/-! ## 1. Numbers and names -/

/-- Digits of base 26 from the lowest up, the last one a capital. -/
def fmtBase26Int (val : Nat) : Text :=
  if val < 26 then [Char.ofNat ('A'.toNat + val)]
  else Char.ofNat ('a'.toNat + val % 26) :: fmtBase26Int (val / 26)
termination_by val
decreasing_by omega

/-- The lower four bits of `value`. -/
def hexDigit (value : Nat) : Char := Nat.digitChar (value % 16)

/-- `-` and `#`, which are written alike. -/
def isSign (c : Char) : Bool := c == '#' || c == '-'

def canEmitRaw (c : Char) : Bool := c.isDigit || c.isUpper || c.isLower || c == '_' || isSign c

def needsByteEncoding (s : List Char) : Bool := s.any (fun c => !canEmitRaw c)

/-- A `U` escapes both names with other bytes, which go in hexadecimal, and names with a `U` in
    front. -/
def encoded (s : List Char) : List Char :=
  if needsByteEncoding s then
    'U' :: s.flatMap (fun c => [hexDigit (c.toNat / 16), hexDigit c.toNat])
  else if s.head? = some 'U' then 'U' :: s
  else s

/-- The last sign of a name. -/
def hashPos : List Char → Option Nat
  | [] => none
  | c :: cs =>
    match hashPos cs with
    | some i => some (i + 1)
    | none => if isSign c then some 0 else none

def needsLeadingEscape (name : List Char) : Bool :=
  match name with
  | [] => false
  | c :: _ => c.isDigit || c == '_'

/-- The underscore of an escape. -/
def leadingEscape (escape : Bool) : Text := if escape then ['_'] else []

/-- `fmtName(const char*)`: the text of a name, which no earlier name changes. -/
def fmtCString (s : List Char) : Option Text :=
  let name := encoded s
  if name.any (fun c => !(c.isAlphanum || c == '_' || isSign c)) then none
  else
    match hashPos name with
    | some preHashLen =>
      if preHashLen = 0 ∧ needsLeadingEscape (name.drop 1) then
        if (name.drop 1).head? = some '_' then none
        else some (fmtBase26Int (name.length - 1) ++ ['_'] ++ name.drop 1)
      else
        some (fmtBase26Int preHashLen
          ++ Nat.toDigits 10 (name.length - 1 + (needsLeadingEscape name).toNat)
          ++ leadingEscape (needsLeadingEscape name)
          ++ (name.take preHashLen).map (fun c => if isSign c then '_' else c)
          ++ name.drop (preHashLen + 1))
    | none =>
      some (Nat.toDigits 10 (name.length + (needsLeadingEscape name).toNat)
        ++ leadingEscape (needsLeadingEscape name) ++ name)

inductive LifetimeIdentityMode
  | Erased | Closed | All
deriving DecidableEq

/-- `indexLen idx` is how long the mangler takes a reference to name `idx` of its window to be,
    which the source computes in floating point from logarithms: a name is referred to when it is
    longer than that. -/
structure Mangler where
  lifetimeIdentityMode : LifetimeIdentityMode
  indexLen : Nat → Nat

namespace Mangler

variable (m : Mangler)

def includeLifetimeIdentity (hasFree : Bool) : Bool :=
  m.lifetimeIdentityMode = .All || (m.lifetimeIdentityMode = .Closed && !hasFree)

/-- A name of the window, by its place in it or in full. -/
def fmtName (s : RcString) : Printer (List RcString) := fun names =>
  match names.findIdx? (· = s) with
  | some idx =>
    if m.indexLen idx < s.size then some (['_'] ++ fmtBase26Int idx, names)
    else (fmtCString s.bytes).map (·, names)
  | none => (fmtCString s.bytes).map (·, names ++ [s])

def fmtNames : List RcString → Printer (List RcString)
  | [] => skip
  | c :: components => m.fmtName c ++ fmtNames components

def fmtSimplePath (sp : HIRSimplePath) : Printer (List RcString) :=
  number sp.components.length ++ put ['c'] ++ m.fmtName sp.crateName ++ m.fmtNames sp.components

/-- The lifetimes of a trait object or a function pointer. -/
def fmtLifetimeIdentity (lifetimeIdentity : RcString) (hasFree : Bool) :
    Printer (List RcString) :=
  if m.includeLifetimeIdentity hasFree ∧ lifetimeIdentity ≠ .empty then
    put ['l'] ++ m.fmtName lifetimeIdentity
  else skip

end Mangler

/-! ## 2. Types, paths and constants -/

/-- Two digits for each byte. -/
def fmtBytes (bytes : List (BitVec 8)) : Text :=
  bytes.flatMap (fun byte => [hexDigit (byte.toNat / 16), hexDigit byte.toNat])

def borrowTypeLetter : HIRBorrowType → Char
  | .Shared => 's'
  | .Unique => 'u'
  | .Owned => 'o'

def coreTypeLetter : HIRCoreType → Char
  | .U8 => 'a'
  | .I8 => 'b'
  | .U16 => 'c'
  | .I16 => 'd'
  | .U32 => 'e'
  | .I32 => 'f'
  | .U64 => 'g'
  | .I64 => 'h'
  | .U128 => 'i'
  | .I128 => 'j'
  | .F16 => 'm'
  | .F32 => 'n'
  | .F64 => 'o'
  | .F128 => 'p'
  | .Usize => 'u'
  | .Isize => 'v'
  | .Bool => 'w'
  | .Char => 'x'
  | .Str => 'y'

/-- A letter if the condition holds. -/
def flag (c : Char) (b : Bool) : Text := if b then [c] else []

/-- `fmtName(e.abi.c_str())`, for another ABI than Rust's. -/
def fmtAbi (abi : RcString) : Printer (List RcString) :=
  if abi.bytes ≠ ['R', 'u', 's', 't'] then
    match fmtCString abi.bytes with
    | none => stop
    | some t => put ['e'] ++ put t
  else skip

namespace Mangler

variable (m : Mangler)

mutual

def fmtType : HIRType → Printer (List RcString)
  | .Infer => stop
  | .Generic => stop
  | .ErasedType => stop
  | .NodeType => stop
  | .Tuple types => put ['T'] ++ (number types.length ++ fmtTypes types)
  | .Slice inner => put ['S'] ++ fmtType inner
  | .Array _ .Unevaluated => stop
  | .Array inner (.Known n) => put ['A'] ++ (number n ++ fmtType inner)
  | .Path path => fmtPath path
  | .TraitObject (.mk path typeBounds _ _) markers lifetimeIdentity lifetimeIdentityHasFree =>
    put ['D'] ++ (fmtGenericPath path
      ++ (number typeBounds.length ++ (fmtBounds typeBounds
      ++ (number markers.length ++ (fmtMarkers markers
      ++ m.fmtLifetimeIdentity lifetimeIdentity lifetimeIdentityHasFree)))))
  | .NamedFunction path => put ['f'] ++ fmtPath path
  | .Function isUnsafe isVariadic abi rettype argTypes trackCaller lifetimeIdentity
      lifetimeIdentityHasFree =>
    put ['F'] ++ (put (flag 'u' isUnsafe) ++ (put (flag 'c' trackCaller)
      ++ (put (flag 'v' isVariadic) ++ (fmtAbi abi
      ++ (number argTypes.length ++ (fmtTypes argTypes ++ (fmtType rettype
      ++ m.fmtLifetimeIdentity lifetimeIdentity lifetimeIdentityHasFree)))))))
  | .Borrow type inner => put ['B'] ++ (put [borrowTypeLetter type] ++ fmtType inner)
  | .Pointer type inner => put ['P'] ++ (put [borrowTypeLetter type] ++ fmtType inner)
  | .Primitive ct => put ['C'] ++ put [coreTypeLetter ct]
  | .Diverge => put ['C'] ++ put ['z']
  | .Pattern inner alternatives notNull =>
    put ['Q'] ++ (fmtType inner ++ (put (flag 'N' notNull)
      ++ (number alternatives.length ++ (put ['r'] ++ fmtRanges alternatives))))

def fmtPath : HIRPath → Printer (List RcString)
  | .Generic gp => put ['G'] ++ fmtGenericPath gp
  | .UfcsInherent type item params _ =>
    put ['I'] ++ (fmtType type ++ (m.fmtName item ++ fmtPathParams params))
  | .UfcsKnown type trait item params =>
    put ['Q'] ++ (fmtType type
      ++ (fmtGenericPath trait ++ (m.fmtName item ++ fmtPathParams params)))
  | .UfcsUnknown _ _ _ => stop

def fmtGenericPath : HIRGenericPath → Printer (List RcString)
  | .mk path params => m.fmtSimplePath path ++ fmtPathParams params

def fmtPathParams : HIRPathParams → Printer (List RcString)
  | .mk types values =>
    number types.length
      ++ ((if values.length > 0 then put ['v'] ++ number values.length else skip)
      ++ (put ['g'] ++ (fmtTypes types ++ fmtConstGenerics values)))

def fmtConstGeneric : HIRConstGeneric → Printer (List RcString)
  | .Infer => stop
  | .Unevaluated => stop
  | .Generic => stop
  | .Evaluated bytes relocations =>
    put ['V'] ++ (number bytes.length ++ (put ['_'] ++ (put (fmtBytes bytes)
      ++ (if relocations.isEmpty then skip
          else put ['_'] ++ (number relocations.length ++ (put ['R'] ++ fmtRelocs relocations))))))

def fmtReloc : Reloc → Printer (List RcString)
  | .newNamed ofs len p _ =>
    number ofs ++ (put ['o'] ++ (number len ++ (put ['p'] ++ fmtPath p)))
  | .newBytes ofs len bytes =>
    number ofs ++ (put ['o'] ++ (number len ++ (put ['b'] ++ (number bytes.length
      ++ (put ['_'] ++ put (fmtBytes bytes))))))

def fmtAtyEqual : AtyEqual → Printer (List RcString)
  | .mk name _ _ type => m.fmtName name ++ fmtType type

def fmtRange : HIRTypePatternRange → Printer (List RcString)
  | .mk start stop endInclusive =>
    put [if start.isSome then 's' else 'n'] ++ (fmtValue? start
      ++ (put [if stop.isSome then (if endInclusive then 'i' else 'e') else 'n']
      ++ fmtValue? stop))

def fmtValue? : Option HIRConstGeneric → Printer (List RcString)
  | none => skip
  | some value => fmtConstGeneric value

def fmtTypes : List HIRType → Printer (List RcString)
  | [] => skip
  | ty :: types => fmtType ty ++ fmtTypes types

def fmtConstGenerics : List HIRConstGeneric → Printer (List RcString)
  | [] => skip
  | v :: values => fmtConstGeneric v ++ fmtConstGenerics values

def fmtRelocs : List Reloc → Printer (List RcString)
  | [] => skip
  | relocation :: relocations => fmtReloc relocation ++ fmtRelocs relocations

def fmtMarkers : List HIRGenericPath → Printer (List RcString)
  | [] => skip
  | p :: markers => fmtGenericPath p ++ fmtMarkers markers

def fmtBounds : List AtyEqual → Printer (List RcString)
  | [] => skip
  | aty :: bounds => fmtAtyEqual aty ++ fmtBounds bounds

def fmtRanges : List HIRTypePatternRange → Printer (List RcString)
  | [] => skip
  | range :: alternatives => fmtRange range ++ fmtRanges alternatives

end

end Mangler

end Trustme.Mangling
