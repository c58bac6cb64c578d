/-
  Subject:   The bodies of functions as crate metadata holds them: mir_mir.h, mir_mir.tu, hir_asm.h.

  * `CEnum`: enumerations, with the numbers of their members;
  * `Vocabulary`: types and paths, which a body refers to;
  * `Storage`, `MIRLValue`: places, with indices up to the limits of their packed form;
  * `MIRConstant` .. `MIRFunction` -- the parts of a body.

  The numbers of union members are those that dev/tu_gen.py gives: from 1 on, in their order.
-/
import Trustme.Metadata.Stream

namespace Trustme.Metadata

open Trustme.Lib Trustme.Numeric

/-! ## 1. Enumerations -/

/-- An enumeration: a number for every member, from which it is found again. -/
class CEnum (α : Type) where
  number : α → Nat
  named : Nat → Option α
  number_lt : ∀ x, number x < 256
  named_number : ∀ x, named (number x) = some x

/-- Members with the numbers from 0 on. -/
abbrev CEnum.ofList {α : Type} [DecidableEq α] (members : List α) (h : ∀ x, x ∈ members)
    (hlen : members.length ≤ 256) : CEnum α where
  number x := members.idxOf x
  named n := members[n]?
  number_lt x := Nat.lt_of_lt_of_le (List.idxOf_lt_length_of_mem (h x)) hlen
  named_number x := List.getElem?_idxOf (h x)

inductive HIRCoreType where
  | Usize | Isize | U8 | I8 | U16 | I16 | U32 | I32 | U64 | I64 | U128 | I128
  | F16 | F32 | F64 | F128
  | Bool | Char | Str
  deriving DecidableEq

instance : CEnum HIRCoreType :=
  .ofList [.Usize, .Isize, .U8, .I8, .U16, .I16, .U32, .I32, .U64, .I64, .U128, .I128,
    .F16, .F32, .F64, .F128, .Bool, .Char, .Str] (by intro x; cases x <;> decide) (by decide)

inductive HIRBorrowType where
  | Shared | Unique | Owned
  deriving DecidableEq

instance : CEnum HIRBorrowType :=
  .ofList [.Shared, .Unique, .Owned] (by intro x; cases x <;> decide) (by decide)

inductive MIRBinOp where
  | ADD | SUB | MUL | DIV | MOD | BIT_OR | BIT_AND | BIT_XOR | BIT_SHR | BIT_SHL
  | EQ | NE | GT | GE | LT | LE
  deriving DecidableEq

/-- The first five have even numbers, the others follow on. -/
def MIRBinOp.number : MIRBinOp → Nat
  | ADD => 0 | SUB => 2 | MUL => 4 | DIV => 6 | MOD => 8
  | BIT_OR => 9 | BIT_AND => 10 | BIT_XOR => 11 | BIT_SHR => 12 | BIT_SHL => 13
  | EQ => 14 | NE => 15 | GT => 16 | GE => 17 | LT => 18 | LE => 19

def MIRBinOp.named : Nat → Option MIRBinOp
  | 0 => ADD | 2 => SUB | 4 => MUL | 6 => DIV | 8 => MOD
  | 9 => BIT_OR | 10 => BIT_AND | 11 => BIT_XOR | 12 => BIT_SHR | 13 => BIT_SHL
  | 14 => EQ | 15 => NE | 16 => GT | 17 => GE | 18 => LT | 19 => LE
  | _ => none

instance : CEnum MIRBinOp where
  number := MIRBinOp.number
  named := MIRBinOp.named
  number_lt x := by cases x <;> decide
  named_number x := by cases x <;> rfl

inductive MIRUniOp where
  | INV | NEG
  deriving DecidableEq

instance : CEnum MIRUniOp := .ofList [.INV, .NEG] (by intro x; cases x <;> decide) (by decide)

inductive MIRDropKind where
  | SHALLOW | DEEP
  deriving DecidableEq

instance : CEnum MIRDropKind :=
  .ofList [.SHALLOW, .DEEP] (by intro x; cases x <;> decide) (by decide)

inductive AsmDirection where
  | In | Out | LateOut | InOut | InLateOut
  deriving DecidableEq

instance : CEnum AsmDirection :=
  .ofList [.In, .Out, .LateOut, .InOut, .InLateOut] (by intro x; cases x <;> decide) (by decide)

inductive AsmRegisterClass where
  | x86Reg | x86RegAbcd | x86RegByte | x86Xmm | x86Ymm | x86Zmm | x86Kreg | riscvReg | riscvFreg
  deriving DecidableEq

instance : CEnum AsmRegisterClass :=
  .ofList [.x86Reg, .x86RegAbcd, .x86RegByte, .x86Xmm, .x86Ymm, .x86Zmm, .x86Kreg, .riscvReg,
    .riscvFreg] (by intro x; cases x <;> decide) (by decide)

/-! ## 2. Types, paths, and what is made of them -/

/-- Types and paths, with the constants that types hold. -/
structure Vocabulary where
  HIRType : Type
  HIRPath : Type
  HIRGenericPath : Type
  HIRPathParams : Type
  HIRTraitPath : Type
  HIRConstGeneric : Type
  monomorphisePathNeeded : HIRPath → Bool

structure HIRGenericRef where
  name : RcString
  binding : BitVec 32
  solverScope : BitVec 32

def HIRGenericRef.isSolverExistential (ge : HIRGenericRef) : Bool := ge.solverScope != 0

variable (V : Vocabulary)

inductive HIRArraySize where
  | Unevaluated (v : V.HIRConstGeneric)
  | Known (v : BitVec 64)

/-- `Reloc::newNamed` and `Reloc::newBytes`. -/
inductive Reloc where
  | named (ofs len : Nat) (p : V.HIRPath) (preserveTrackCaller : Bool)
  | bytes (ofs len : Nat) (bytes : Str)

structure EncodedLiteral where
  bytes : List Byte
  relocations : List (Reloc V)

/-! ## 3. Places -/

def MAX_ARG : Nat := 2 ^ 30 - 1

/-- `MIRLValue::Storage`, with the bounds that `newArgument` and `newLocal` assert. -/
inductive Storage where
  | Return
  | Argument (idx : Nat) (h : idx < MAX_ARG)
  | Local (idx : Nat) (h : idx ≤ MAX_ARG)
  | Static (p : V.HIRPath)

/-- `MIRLValue::Wrapper`: an index over two bits for the kind. -/
structure Wrapper where
  val : BitVec 32
  deriving DecidableEq

structure MIRLValue where
  root : Storage V
  wrappers : List Wrapper

variable {V} in
/-- `getInner`, of a storage that is no static. -/
def Storage.getInner : Storage V → Option Nat
  | .Return => some 0
  | .Argument idx _ => some ((idx + 1) * 4)
  | .Local idx _ => some (idx * 4 + 1)
  | .Static _ => none

variable {V} in
/-- `fromInner`, with its assertion. A number of 32 bits is within the bounds. -/
def Storage.fromInner (v : Nat) : Option (Storage V) :=
  if v % 4 ≥ 2 then none
  else if v = 0 then some .Return
  else if v % 4 = 0 then
    if h : v / 4 - 1 < MAX_ARG then some (.Argument (v / 4 - 1) h) else none
  else
    if h : v / 4 ≤ MAX_ARG then some (.Local (v / 4) h) else none

/-! ## 4. Values -/

inductive MIRConstant where
  | Int (v : S128) (t : HIRCoreType)
  | Uint (v : U128) (t : HIRCoreType)
  | Float (v : Float128) (t : HIRCoreType)
  | Bool (v : Bool)
  | Bytes (v : List Byte)
  | StaticString (v : Str)
  | Const (p : V.HIRPath)
  | Generic (v : HIRGenericRef)
  | Function (p : V.HIRPath)
  /-- `ItemAddress`, whose path may be null. -/
  | ItemAddr (p : Option V.HIRPath) (offset : U128)
  | Encoded (type : V.HIRType) (value : EncodedLiteral V)

inductive MIRParam where
  | LValue (v : MIRLValue V)
  | Borrow (type : HIRBorrowType) (val : MIRLValue V)
  | Constant (v : MIRConstant V)

inductive MIRRValue where
  | Use (v : MIRLValue V)
  | Borrow (type : HIRBorrowType) (isRaw : Bool) (val : MIRLValue V)
  | Constant (v : MIRConstant V)
  | SizedArray (val : MIRParam V) (count : HIRArraySize V)
  | Cast (val : MIRLValue V) (type : V.HIRType)
  | BinOp (valL : MIRParam V) (op : MIRBinOp) (valR : MIRParam V)
  | UniOp (val : MIRLValue V) (op : MIRUniOp)
  | DstMeta (val : MIRLValue V)
  | DstPtr (val : MIRLValue V)
  /-- With `ItemAddr(nullptr)` for `metaVal` a coercion that is still to be resolved. -/
  | MakeDst (ptrVal metaVal : MIRParam V)
  | Tuple (vals : List (MIRParam V))
  | Array (vals : List (MIRParam V))
  | UnionVariant (path : V.HIRGenericPath) (index : BitVec 32) (val : MIRParam V)
  | EnumVariant (path : V.HIRGenericPath) (index : BitVec 32) (vals : List (MIRParam V))
  | Struct (path : V.HIRGenericPath) (vals : List (MIRParam V))

/-! ## 5. Inline assembly -/

structure AsmOptions where
  pure : Bool
  nomem : Bool
  readonly : Bool
  preservesFlags : Bool
  noreturn : Bool
  nostack : Bool
  attSyntax : Bool
  raw : Bool
  naked : Bool
  deriving DecidableEq

/-- `modifier` is a signed `char`. -/
structure AsmLineFragment where
  before : Str
  index : BitVec 32
  modifier : BitVec 8

structure AsmLine where
  frags : List AsmLineFragment
  trailing : Str

inductive AsmRegisterSpec where
  | Class (c : AsmRegisterClass)
  | Explicit (name : Str)

inductive MIRAsmParam where
  | Const (v : MIRConstant V)
  | Sym (p : V.HIRPath)
  | Reg (dir : AsmDirection) (spec : AsmRegisterSpec) (input : Option (MIRParam V))
      (output : Option (MIRLValue V))
  | Label (target : BitVec 32)

/-! ## 6. Statements, terminators, functions -/

inductive MIRStatement where
  | Assign (dst : MIRLValue V) (src : MIRRValue V)
  | Asm (tpl : Str) (outputs inputs : List (Str × MIRLValue V)) (clobbers flags : List Str)
  | Asm2 (options : AsmOptions) (lines : List AsmLine) (params : List (MIRAsmParam V))
  | SetDropFlag (idx : BitVec 32) (newVal : Bool) (other : BitVec 32)
  | SaveDropFlag (slot : MIRLValue V) (bitIndex idx : BitVec 32)
  | LoadDropFlag (idx : BitVec 32) (slot : MIRLValue V) (bitIndex : BitVec 32)

inductive MIRCallTarget where
  | Value (v : MIRLValue V)
  | Path (p : V.HIRPath)
  | Intrinsic (name : RcString) (params : V.HIRPathParams)

inductive MIRTailCallTarget where
  | Value (v : MIRLValue V)
  | Path (p : V.HIRPath)

inductive MIRSwitchValues where
  | Unsigned (v : List (BitVec 64))
  | Signed (v : List (BitVec 64))
  | String (v : List Str)

inductive MIRUnwindAction where
  | Continue
  | Cleanup (target : BitVec 32)
  | Terminate
  | Unreachable

structure SourceLocation where
  filename : RcString
  line : BitVec 32
  column : BitVec 32

inductive MIRTerminator where
  | Incomplete
  | Return
  | UnwindResume
  | UnwindTerminate
  | Unreachable
  | Goto (target : BitVec 32)
  | If (cond : MIRLValue V) (bbTrue bbFalse : BitVec 32)
  | Switch (val : MIRLValue V) (targets : List (BitVec 32)) (validFlag invalidTarget : BitVec 32)
  | SwitchValue (val : MIRLValue V) (defTarget : BitVec 32) (targets : List (BitVec 32))
      (values : MIRSwitchValues)
  | Drop (kind : MIRDropKind) (slot : MIRLValue V) (flagIdx target : BitVec 32)
      (unwind : MIRUnwindAction)
  | Call (retBlock : BitVec 32) (unwind : MIRUnwindAction) (retVal : MIRLValue V)
      (fcn : MIRCallTarget V) (args : List (MIRParam V)) (source : SourceLocation)
      (tracksCaller : Bool)
  | TailCall (fcn : MIRTailCallTarget V) (args : List (MIRParam V)) (source : SourceLocation)
      (tracksCaller : Bool)
  | Asm2 (options : AsmOptions) (lines : List AsmLine) (params : List (MIRAsmParam V))
      (retBlock : BitVec 32)

structure MIRBasicBlock where
  statements : List (MIRStatement V)
  terminator : MIRTerminator V
  isCleanup : Bool

structure MIRFunction where
  locals : List V.HIRType
  dropFlags : List Bool
  blocks : List (MIRBasicBlock V)

/-! ## 7. The packed form of a place -/

variable {V}

theorem Storage.fromInner_getInner {s : Storage V} {v : Nat} (h : s.getInner = some v) :
    Storage.fromInner v = some s ∧ v ≤ 0xFFFFFFFF ∧ v ≠ 3 := by
  cases s with
  | Return =>
    cases h
    exact ⟨rfl, by decide, by decide⟩
  | Argument idx hidx =>
    cases h
    have hmod : (idx + 1) * 4 % 4 = 0 := Nat.mul_mod_left _ _
    have hdiv : (idx + 1) * 4 / 4 - 1 = idx := by omega
    have hmax : MAX_ARG = 2 ^ 30 - 1 := rfl
    refine ⟨?_, by omega, by omega⟩
    unfold fromInner
    rw [if_neg (by omega), if_neg (by omega), if_pos hmod, dif_pos (by omega)]
    simp only [hdiv]
  | Local idx hidx =>
    cases h
    have hdiv : (idx * 4 + 1) / 4 = idx := by omega
    have hmax : MAX_ARG = 2 ^ 30 - 1 := rfl
    refine ⟨?_, by omega, by omega⟩
    unfold fromInner
    rw [if_neg (by omega), if_neg (by omega), if_neg (by omega), dif_pos (by omega)]
    simp only [hdiv]
  | Static p => cases h

end Trustme.Metadata
