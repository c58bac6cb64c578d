/-
  Subject:   The bodies of functions in crate metadata: `serialise` of `HirSerialiser` and
             `deserialiseMir..` of `HirDeserialiser` (hir_main_bindings.cpp).

  * `RefWriter`, `RefReader`: what writes and reads the types and paths of a body;
  * sections 2 and 3 -- the writer, then the reader, in the order of the source.
-/
import Trustme.Metadata.MirBody

namespace Trustme.Metadata

open Trustme.Lib Trustme.Numeric

variable {V : Vocabulary} {ω ρ α : Type}

/-! ## 1. Types and paths -/

/-- The writer's functions for types and paths, and how deep it is in unevaluated constants. -/
structure RefWriter (V : Vocabulary) (ω : Type) where
  serialiseType : V.HIRType → Out ω Unit
  serialisePath : V.HIRPath → Out ω Unit
  serialiseGenericpath : V.HIRGenericPath → Out ω Unit
  serialisePathparams : V.HIRPathParams → Out ω Unit
  serialiseTraitpath : V.HIRTraitPath → Out ω Unit
  serialiseConstgeneric : V.HIRConstGeneric → Out ω Unit
  unevaluatedBodyDepth : Nat

/-- The reader's functions for types and paths. -/
structure RefReader (V : Vocabulary) (ρ : Type) where
  deserialiseType : In ρ V.HIRType
  deserialisePath : In ρ V.HIRPath
  deserialiseGenericpath : In ρ V.HIRGenericPath
  deserialisePathparams : In ρ V.HIRPathParams
  deserialiseTraitpath : In ρ V.HIRTraitPath
  deserialiseConstgeneric : In ρ V.HIRConstGeneric

/-- `out.writeTag(static_cast<int>(x))` -/
def writeEnum [CEnum α] (x : α) : Out ω Unit := writeTag (CEnum.number x)

/-- `static_cast<T>(in.readTag())` -/
def readEnum [CEnum α] : In ρ α := do
  let tag ← readTag
  match CEnum.named tag with
  | some x => return x
  | none => Read.stop .unnamed

/-- `out.writeBool(bool(x)); if (x) serialise(x);` -/
def writeOptional (serialise : α → Out ω Unit) (x : Option α) : Out ω Unit := do
  writeBool x.isSome
  match x with
  | some x => serialise x
  | none => pure ()

/-- `in.readBool() ? box(deserialise()) : nullptr` -/
def readOptional (deserialise : In ρ α) : In ρ (Option α) := do
  let b ← readBool
  if b then do
    let x ← deserialise
    return some x
  else return none

/-! ## 2. The writer -/

namespace RefWriter

variable (W : RefWriter V ω)

/-- Only the low 16 bits of the binding are written. -/
def serialiseGenericref (ge : HIRGenericRef) : Out ω Unit := do
  Write.check (!ge.isSolverExistential) (.bug "solver existential escaped into serialised HIR: ")
  writeIstring ge.name
  writeU16 (ge.binding.setWidth 16)

def serialiseArraysize : HIRArraySize V → Out ω Unit
  | .Unevaluated se => do
      writeTag 1
      W.serialiseConstgeneric se
  | .Known se => do
      writeTag 2
      writeU64 se

/-- The flag of a relocation to bytes is always `false`. -/
def serialiseReloc : Reloc V → Out ω Unit
  | .named ofs len p preserveTrackCaller => do
      writeCount ofs
      writeCount len
      writeBool preserveTrackCaller
      writeTag 0
      W.serialisePath p
  | .bytes ofs len bytes => do
      writeCount ofs
      writeCount len
      writeBool false
      writeTag 1
      writeString bytes

def serialiseEncoded (lit : EncodedLiteral V) : Out ω Unit := do
  serialiseVec "u8" writeU8 lit.bytes
  writeCount lit.relocations.length
  Write.each W.serialiseReloc lit.relocations

/-- A static has the number 3 to itself; any other root is its one word. -/
def serialiseRoot : Storage V → Out ω Unit
  | .Static p => do
      writeCount 3
      W.serialisePath p
  | root =>
    match root.getInner with
    | some v => writeCount v
    | none => Write.stop (.bug "!is_Static()")

def serialiseWrapper (w : Wrapper) : Out ω Unit := writeCount w.val.toNat

def serialiseLvalue (lv : MIRLValue V) : Out ω Unit := do
  W.serialiseRoot lv.root
  serialiseVec "MIRLValue::Wrapper" serialiseWrapper lv.wrappers

/-- The path of a constant stands only in an unevaluated body, or with parameters in it. -/
def serialiseConstant : MIRConstant V → Out ω Unit
  | .Int v t => do
      writeTag 1
      writeU128 v.inner
      writeEnum t
  | .Uint v t => do
      writeTag 2
      writeU128 v
      writeEnum t
  | .Float v t => do
      writeTag 3
      writeFloatValue v
      writeEnum t
  | .Bool v => do
      writeTag 4
      writeBool v
  | .Bytes v => do
      writeTag 5
      writeCount v.length
      Write.put v
  | .StaticString v => do
      writeTag 6
      writeString v
  | .Const p => do
      writeTag 7
      Write.check (W.unevaluatedBodyDepth > 0 || V.monomorphisePathNeeded p)
        (.bug "Unexpected Constant: ")
      W.serialisePath p
  | .Generic v => do
      writeTag 8
      serialiseGenericref v
  | .Function p => do
      writeTag 9
      W.serialisePath p
  | .ItemAddr p offset => do
      writeTag 10
      match p with
      | some p => do
          W.serialisePath p
          writeU128 offset
      | none => Write.stop .nullPointer
  | .Encoded type value => do
      writeTag 11
      W.serialiseType type
      W.serialiseEncoded value

def serialiseParam : MIRParam V → Out ω Unit
  | .LValue v => do
      writeTag 1
      W.serialiseLvalue v
  | .Borrow type val => do
      writeTag 2
      writeEnum type
      W.serialiseLvalue val
  | .Constant v => do
      writeTag 3
      W.serialiseConstant v

def serialiseParams (vals : List (MIRParam V)) : Out ω Unit :=
  serialiseVec "MIRParam" W.serialiseParam vals

/-- A metadata operand that is still to come: `ItemAddr(nullptr)`. -/
def isAbsent : MIRParam V → Bool
  | .Constant (.ItemAddr none _) => true
  | _ => false

def serialiseRvalue : MIRRValue V → Out ω Unit
  | .Use v => do
      writeTag 1
      W.serialiseLvalue v
  | .Borrow type isRaw val => do
      writeTag 2
      writeEnum type
      writeBool isRaw
      W.serialiseLvalue val
  | .Constant v => do
      writeTag 3
      W.serialiseConstant v
  | .SizedArray val count => do
      writeTag 4
      W.serialiseParam val
      W.serialiseArraysize count
  | .Cast val type => do
      writeTag 5
      W.serialiseLvalue val
      W.serialiseType type
  | .BinOp valL op valR => do
      writeTag 6
      W.serialiseParam valL
      writeEnum op
      W.serialiseParam valR
  | .UniOp val op => do
      writeTag 7
      W.serialiseLvalue val
      writeEnum op
  | .DstMeta val => do
      writeTag 8
      W.serialiseLvalue val
  | .DstPtr val => do
      writeTag 9
      W.serialiseLvalue val
  | .MakeDst ptrVal metaVal => do
      writeTag 10
      W.serialiseParam ptrVal
      let b := !isAbsent metaVal
      writeBool b
      if b then W.serialiseParam metaVal else pure ()
  | .Tuple vals => do
      writeTag 11
      W.serialiseParams vals
  | .Array vals => do
      writeTag 12
      W.serialiseParams vals
  | .UnionVariant path index val => do
      writeTag 13
      W.serialiseGenericpath path
      writeCount index.toNat
      W.serialiseParam val
  | .EnumVariant path index vals => do
      writeTag 14
      W.serialiseGenericpath path
      writeCount index.toNat
      W.serialiseParams vals
  | .Struct path vals => do
      writeTag 15
      W.serialiseGenericpath path
      W.serialiseParams vals

def serialiseAsmLineFrag (l : AsmLineFragment) : Out ω Unit := do
  writeString l.before
  writeCount l.index.toNat
  writeI64 (l.modifier.signExtend 64)

def serialiseAsmLine (l : AsmLine) : Out ω Unit := do
  serialiseVec "AsmLineFragment" serialiseAsmLineFrag l.frags
  writeString l.trailing

def serialiseAsmSpec : AsmRegisterSpec → Out ω Unit
  | .Class c => do
      writeTag 1
      writeEnum c
  | .Explicit name => do
      writeTag 2
      writeString name

def serialiseAsmParam : MIRAsmParam V → Out ω Unit
  | .Const v => do
      writeTag 1
      W.serialiseConstant v
  | .Sym p => do
      writeTag 2
      W.serialisePath p
  | .Reg dir spec input output => do
      writeTag 3
      writeEnum dir
      serialiseAsmSpec spec
      writeOptional W.serialiseParam input
      writeOptional W.serialiseLvalue output
  | .Label target => do
      writeTag 4
      writeCount target.toNat

/-- `BIT(i, fld)` -/
def flagBit {w : Nat} (i : Nat) (fld : Bool) : BitVec w := if fld then 1#w <<< i else 0

def asmFlags (o : AsmOptions) : BitVec 16 :=
  flagBit 0 o.pure ||| flagBit 1 o.nomem ||| flagBit 2 o.readonly ||| flagBit 3 o.preservesFlags |||
    flagBit 4 o.noreturn ||| flagBit 5 o.nostack ||| flagBit 6 o.attSyntax ||| flagBit 7 o.raw

def serialiseAsmOptions (o : AsmOptions) : Out ω Unit := writeU16 (asmFlags o)

def serialiseNamed (e : Str × MIRLValue V) : Out ω Unit := do
  writeString e.1
  W.serialiseLvalue e.2

def serialiseAsmLines (lines : List AsmLine) : Out ω Unit :=
  serialiseVec "AsmLine" serialiseAsmLine lines

def serialiseAsmParams (params : List (MIRAsmParam V)) : Out ω Unit :=
  serialiseVec "MIRAsmParam" W.serialiseAsmParam params

/-- The numbers 1 and 4 are those of the obsolete `Drop` and `ScopeEnd`. -/
def serialiseStatement (stmt : MIRStatement V) : Out ω Unit :=
  object "MIR::Statement".toList <|
    match stmt with
    | .Assign dst src => do
        writeTag 0
        W.serialiseLvalue dst
        W.serialiseRvalue src
    | .Asm tpl outputs inputs clobbers flags => do
        writeTag 2
        writeString tpl
        serialiseVec "std::pair<std::string, MIRLValue>" W.serialiseNamed outputs
        serialiseVec "std::pair<std::string, MIRLValue>" W.serialiseNamed inputs
        serialiseVec "std::string" writeString clobbers
        serialiseVec "std::string" writeString flags
    | .SetDropFlag idx newVal other => do
        writeTag 3
        writeCount idx.toNat
        writeBool newVal
        writeCount other.toNat
    | .Asm2 options lines params => do
        writeTag 5
        serialiseAsmOptions options
        serialiseAsmLines lines
        W.serialiseAsmParams params
    | .SaveDropFlag slot bitIndex idx => do
        writeTag 6
        W.serialiseLvalue slot
        writeCount bitIndex.toNat
        writeCount idx.toNat
    | .LoadDropFlag idx slot bitIndex => do
        writeTag 7
        writeCount idx.toNat
        W.serialiseLvalue slot
        writeCount bitIndex.toNat

def serialiseUnwind : MIRUnwindAction → Out ω Unit
  | .Continue => writeTag 1
  | .Cleanup target => do
      writeTag 2
      writeCount target.toNat
  | .Terminate => writeTag 3
  | .Unreachable => writeTag 4

def serialiseSwitchvalues : MIRSwitchValues → Out ω Unit
  | .Unsigned v => do
      writeTag 1
      serialiseVec "u64" writeU64 v
  | .Signed v => do
      writeTag 2
      serialiseVec "i64" writeI64 v
  | .String v => do
      writeTag 3
      serialiseVec "std::string" writeString v

def serialiseCalltarget : MIRCallTarget V → Out ω Unit
  | .Value v => do
      writeTag 1
      W.serialiseLvalue v
  | .Path p => do
      writeTag 2
      W.serialisePath p
  | .Intrinsic name params => do
      writeTag 3
      writeIstring name
      W.serialisePathparams params

def serialiseTailCallTarget : MIRTailCallTarget V → Out ω Unit
  | .Value v => do
      writeTag 1
      W.serialiseLvalue v
  | .Path p => do
      writeTag 2
      W.serialisePath p

def serialiseTargets (targets : List (BitVec 32)) : Out ω Unit :=
  serialiseVec "unsigned int" (fun t => writeCount t.toNat) targets

def serialiseSource (source : SourceLocation) : Out ω Unit := do
  writeIstring source.filename
  writeCount source.line.toNat
  writeCount source.column.toNat

/-- Blocks and flags are written as counts and read as numbers of 32 bits. -/
def serialiseTerminator : MIRTerminator V → Out ω Unit
  | .Incomplete => writeTag 1
  | .Return => writeTag 2
  | .UnwindResume => writeTag 3
  | .UnwindTerminate => writeTag 4
  | .Unreachable => writeTag 5
  | .Goto target => do
      writeTag 6
      writeCount target.toNat
  | .If cond bbTrue bbFalse => do
      writeTag 7
      W.serialiseLvalue cond
      writeCount bbTrue.toNat
      writeCount bbFalse.toNat
  | .Switch val targets validFlag invalidTarget => do
      writeTag 8
      W.serialiseLvalue val
      serialiseTargets targets
      writeCount validFlag.toNat
      writeCount invalidTarget.toNat
  | .SwitchValue val defTarget targets values => do
      writeTag 9
      W.serialiseLvalue val
      writeCount defTarget.toNat
      serialiseTargets targets
      serialiseSwitchvalues values
  | .Drop kind slot flagIdx target unwind => do
      writeTag 10
      writeEnum kind
      W.serialiseLvalue slot
      writeCount flagIdx.toNat
      writeCount target.toNat
      serialiseUnwind unwind
  | .Call retBlock unwind retVal fcn args source tracksCaller => do
      writeTag 11
      writeCount retBlock.toNat
      serialiseUnwind unwind
      W.serialiseLvalue retVal
      W.serialiseCalltarget fcn
      W.serialiseParams args
      serialiseSource source
      writeBool tracksCaller
  | .TailCall fcn args source tracksCaller => do
      writeTag 12
      W.serialiseTailCallTarget fcn
      W.serialiseParams args
      serialiseSource source
      writeBool tracksCaller
  | .Asm2 options lines params retBlock => do
      writeTag 13
      serialiseAsmOptions options
      serialiseAsmLines lines
      W.serialiseAsmParams params
      writeCount retBlock.toNat

def serialiseBasicblock (block : MIRBasicBlock V) : Out ω Unit := do
  serialiseVec "MIRStatement" W.serialiseStatement block.statements
  W.serialiseTerminator block.terminator
  writeBool block.isCleanup

def serialiseFunction (mir : MIRFunction V) : Out ω Unit := do
  serialiseVec "HIRType const*" W.serialiseType mir.locals
  serialiseVec "bool" writeBool mir.dropFlags
  serialiseVec "MIRBasicBlock" W.serialiseBasicblock mir.blocks

end RefWriter

/-! ## 3. The reader -/

namespace RefReader

variable (R : RefReader V ρ)

/-- The scope of the solver is not in the metadata. -/
def deserialiseGenericref : In ρ HIRGenericRef := do
  let name ← readIstring
  let binding ← readU16
  return ⟨name, binding.setWidth 32, 0⟩

def deserialiseArraysize : In ρ (HIRArraySize V) := do
  let tag ← readTag
  match tag with
  | 2 =>
    let v ← readU64
    return .Known v
  | 1 =>
    let v ← R.deserialiseConstgeneric
    return .Unevaluated v
  | _ => Read.stop (.badTag "Bad tag for HIR::ArraySize - ")

/-- The flag is read in either case and dropped with bytes. -/
def deserialiseReloc : In ρ (Reloc V) := do
  let ofs ← readCount
  let len ← readCount
  let preserveTrackCaller ← readBool
  let tag ← readTag
  match tag with
  | 0 =>
    let p ← R.deserialisePath
    return .named ofs len p preserveTrackCaller
  | 1 =>
    let bytes ← readString
    return .bytes ofs len bytes
  | _ => Read.stop (.badTag "")

def deserialiseEncodedliteral : In ρ (EncodedLiteral V) := do
  let bytes ← deserialiseVec "u8" readU8
  let nreloc ← readCount
  let relocations ← Read.times R.deserialiseReloc nreloc
  return ⟨bytes, relocations⟩

/-- `Storage::fromInner` stops at words that no root has. -/
def deserialiseRoot : In ρ (Storage V) := do
  let rootV ← readCount
  if rootV = 3 then do
    let p ← R.deserialisePath
    return .Static p
  else
    match Storage.fromInner rootV with
    | some root => return root
    | none => Read.stop (.bug "(v & 3) < 2")

def deserialiseMirLvalueWrapper : In ρ Wrapper := do
  let v ← readUnsigned
  return ⟨v⟩

def deserialiseMirLvalue : In ρ (MIRLValue V) := do
  let root ← R.deserialiseRoot
  let wrappers ← deserialiseVec "MIRLValue::Wrapper" deserialiseMirLvalueWrapper
  return ⟨root, wrappers⟩

def deserialiseMirConstant : In ρ (MIRConstant V) := do
  let tag ← readTag
  match tag with
  | 1 =>
    let v ← readI128
    let t ← readEnum
    return .Int v t
  | 2 =>
    let v ← readU128
    let t ← readEnum
    return .Uint v t
  | 3 =>
    let v ← readFloatValue
    let t ← readEnum
    return .Float v t
  | 4 =>
    let v ← readBool
    return .Bool v
  | 5 =>
    let len ← readCount
    let v ← Read.take len .overrun
    return .Bytes v
  | 6 =>
    let v ← readString
    return .StaticString v
  | 11 =>
    let type ← R.deserialiseType
    let value ← R.deserialiseEncodedliteral
    return .Encoded type value
  | 7 =>
    let p ← R.deserialisePath
    return .Const p
  | 8 =>
    let v ← deserialiseGenericref
    return .Generic v
  | 9 =>
    let p ← R.deserialisePath
    return .Function p
  | 10 =>
    let p ← R.deserialisePath
    let offset ← readU128
    return .ItemAddr (some p) offset
  | _ => Read.stop (.badTag "Bad tag for MIR::Const - ")

def deserialiseMirParam : In ρ (MIRParam V) := do
  let tag ← readTag
  match tag with
  | 1 =>
    let v ← R.deserialiseMirLvalue
    return .LValue v
  | 2 =>
    let type ← readEnum
    let val ← R.deserialiseMirLvalue
    return .Borrow type val
  | 3 =>
    let v ← R.deserialiseMirConstant
    return .Constant v
  | _ => Read.stop (.badTag "Bad tag for MIR::Param - ")

def deserialiseMirParams : In ρ (List (MIRParam V)) :=
  deserialiseVec "MIRParam" R.deserialiseMirParam

/-- `in.readBool() ? deserialiseMirParam() : MIRConstant::make_ItemAddr({})` -/
def deserialiseMetaVal : In ρ (MIRParam V) := do
  let b ← readBool
  if b then R.deserialiseMirParam else return .Constant (.ItemAddr none ⟨0, 0⟩)

def deserialiseMirRvalue : In ρ (MIRRValue V) := do
  let tag ← readTag
  match tag with
  | 1 =>
    let v ← R.deserialiseMirLvalue
    return .Use v
  | 3 =>
    let v ← R.deserialiseMirConstant
    return .Constant v
  | 4 =>
    let val ← R.deserialiseMirParam
    let count ← R.deserialiseArraysize
    return .SizedArray val count
  | 2 =>
    let type ← readEnum
    let isRaw ← readBool
    let val ← R.deserialiseMirLvalue
    return .Borrow type isRaw val
  | 5 =>
    let val ← R.deserialiseMirLvalue
    let type ← R.deserialiseType
    return .Cast val type
  | 6 =>
    let valL ← R.deserialiseMirParam
    let op ← readEnum
    let valR ← R.deserialiseMirParam
    return .BinOp valL op valR
  | 7 =>
    let val ← R.deserialiseMirLvalue
    let op ← readEnum
    return .UniOp val op
  | 8 =>
    let val ← R.deserialiseMirLvalue
    return .DstMeta val
  | 9 =>
    let val ← R.deserialiseMirLvalue
    return .DstPtr val
  | 10 =>
    let ptrVal ← R.deserialiseMirParam
    let metaVal ← R.deserialiseMetaVal
    return .MakeDst ptrVal metaVal
  | 11 =>
    let vals ← R.deserialiseMirParams
    return .Tuple vals
  | 12 =>
    let vals ← R.deserialiseMirParams
    return .Array vals
  | 13 =>
    let path ← R.deserialiseGenericpath
    let index ← readUnsigned
    let val ← R.deserialiseMirParam
    return .UnionVariant path index val
  | 14 =>
    let path ← R.deserialiseGenericpath
    let index ← readUnsigned
    let vals ← R.deserialiseMirParams
    return .EnumVariant path index vals
  | 15 =>
    let path ← R.deserialiseGenericpath
    let vals ← R.deserialiseMirParams
    return .Struct path vals
  | _ => Read.stop (.badTag "Bad tag for MIR::RValue - ")

/-- `naked` keeps its default. -/
def deserialiseAsmOptions : In ρ AsmOptions := do
  let bitflag1 ← readU16
  return {
    pure := bitflag1.getLsbD 0
    nomem := bitflag1.getLsbD 1
    readonly := bitflag1.getLsbD 2
    preservesFlags := bitflag1.getLsbD 3
    noreturn := bitflag1.getLsbD 4
    nostack := bitflag1.getLsbD 5
    attSyntax := bitflag1.getLsbD 6
    raw := bitflag1.getLsbD 7
    naked := false }

def deserialiseAsmLineFrag : In ρ AsmLineFragment := do
  let before ← readString
  let index ← readUnsigned
  let modifier ← readI64
  return ⟨before, index, modifier.setWidth 8⟩

def deserialiseAsmLine : In ρ AsmLine := do
  let frags ← deserialiseVec "AsmLineFragment" deserialiseAsmLineFrag
  let trailing ← readString
  return ⟨frags, trailing⟩

def deserialiseAsmSpec : In ρ AsmRegisterSpec := do
  let tag ← readTag
  match tag with
  | 1 =>
    let c ← readEnum
    return .Class c
  | 2 =>
    let name ← readString
    return .Explicit name
  | _ => Read.stop (.badTag "Bad tag for AsmCommon::RegisterSpec - ")

def deserialiseAsmParam : In ρ (MIRAsmParam V) := do
  let tag ← readTag
  match tag with
  | 2 =>
    let p ← R.deserialisePath
    return .Sym p
  | 1 =>
    let v ← R.deserialiseMirConstant
    return .Const v
  | 3 =>
    let dir ← readEnum
    let spec ← deserialiseAsmSpec
    let input ← readOptional R.deserialiseMirParam
    let output ← readOptional R.deserialiseMirLvalue
    return .Reg dir spec input output
  | 4 =>
    let target ← readUnsigned
    return .Label target
  | _ => Read.stop (.badTag "Bad tag for MIR::AsmParam - ")

def deserialiseNamed : In ρ (Str × MIRLValue V) := do
  let name ← readString
  let val ← R.deserialiseMirLvalue
  return (name, val)

def deserialiseAsmLines : In ρ (List AsmLine) := deserialiseVec "AsmLine" deserialiseAsmLine

def deserialiseAsmParams : In ρ (List (MIRAsmParam V)) :=
  deserialiseVec "MIRAsmParam" R.deserialiseAsmParam

/-- Nothing for the obsolete `ScopeEnd`, which is left out of the block. -/
def deserialiseMirStatement : In ρ (Option (MIRStatement V)) :=
  inObject "MIR::Statement".toList do
    let tag ← readTag
    match tag with
    | 0 =>
      let dst ← R.deserialiseMirLvalue
      let src ← R.deserialiseMirRvalue
      return some (.Assign dst src)
    | 1 => Read.stop (.bug "Obsolete MIR statement Drop in metadata")
    | 2 =>
      let tpl ← readString
      let outputs ← deserialiseVec "std::pair<std::string, MIRLValue>" R.deserialiseNamed
      let inputs ← deserialiseVec "std::pair<std::string, MIRLValue>" R.deserialiseNamed
      let clobbers ← deserialiseVec "std::string" readString
      let flags ← deserialiseVec "std::string" readString
      return some (.Asm tpl outputs inputs clobbers flags)
    | 3 =>
      let idx ← readUnsigned
      let newVal ← readBool
      let other ← readUnsigned
      return some (.SetDropFlag idx newVal other)
    | 4 =>
      let _ ← deserialiseVec "unsigned int" readUnsigned
      return none
    | 5 =>
      let options ← deserialiseAsmOptions
      let lines ← deserialiseAsmLines
      let params ← R.deserialiseAsmParams
      return some (.Asm2 options lines params)
    | 6 =>
      let slot ← R.deserialiseMirLvalue
      let bitIndex ← readUnsigned
      let idx ← readUnsigned
      return some (.SaveDropFlag slot bitIndex idx)
    | 7 =>
      let idx ← readUnsigned
      let slot ← R.deserialiseMirLvalue
      let bitIndex ← readUnsigned
      return some (.LoadDropFlag idx slot bitIndex)
    | _ => Read.stop (.badTag "Bad tag for MIR::Statement - ")

def deserialiseMirUnwindAction : In ρ MIRUnwindAction := do
  let tag ← readTag
  match tag with
  | 1 => return .Continue
  | 2 =>
    let target ← readUnsigned
    return .Cleanup target
  | 3 => return .Terminate
  | 4 => return .Unreachable
  | _ => Read.stop (.badTag "Bad tag for MIR::UnwindAction - ")

def deserialiseMirSwitchvalues : In ρ MIRSwitchValues := do
  let tag ← readTag
  match tag with
  | 1 =>
    let v ← deserialiseVec "u64" readU64
    return .Unsigned v
  | 2 =>
    let v ← deserialiseVec "i64" readI64
    return .Signed v
  | 3 =>
    let v ← deserialiseVec "std::string" readString
    return .String v
  | _ => Read.stop (.badTag "Bad tag for MIR::SwitchValues - ")

def deserialiseMirCalltarget : In ρ (MIRCallTarget V) := do
  let tag ← readTag
  match tag with
  | 1 =>
    let v ← R.deserialiseMirLvalue
    return .Value v
  | 2 =>
    let p ← R.deserialisePath
    return .Path p
  | 3 =>
    let name ← readIstring
    let params ← R.deserialisePathparams
    return .Intrinsic name params
  | _ => Read.stop (.badTag "Bad tag for MIR::CallTarget - ")

def deserialiseMirTailCallTarget : In ρ (MIRTailCallTarget V) := do
  let tag ← readTag
  match tag with
  | 1 =>
    let v ← R.deserialiseMirLvalue
    return .Value v
  | 2 =>
    let p ← R.deserialisePath
    return .Path p
  | _ => Read.stop (.badTag "Invalid explicit tail-call target in crate metadata: ")

def deserialiseTargets : In ρ (List (BitVec 32)) := deserialiseVec "unsigned int" readUnsigned

def deserialiseSource : In ρ SourceLocation := do
  let filename ← readIstring
  let line ← readUnsigned
  let column ← readUnsigned
  return ⟨filename, line, column⟩

def deserialiseMirTerminator : In ρ (MIRTerminator V) := do
  let tag ← readTag
  match tag with
  | 1 => return .Incomplete
  | 2 => return .Return
  | 3 => return .UnwindResume
  | 4 => return .UnwindTerminate
  | 5 => return .Unreachable
  | 6 =>
    let target ← readUnsigned
    return .Goto target
  | 7 =>
    let cond ← R.deserialiseMirLvalue
    let bbTrue ← readUnsigned
    let bbFalse ← readUnsigned
    return .If cond bbTrue bbFalse
  | 8 =>
    let val ← R.deserialiseMirLvalue
    let targets ← deserialiseTargets
    let validFlag ← readUnsigned
    let invalidTarget ← readUnsigned
    return .Switch val targets validFlag invalidTarget
  | 9 =>
    let val ← R.deserialiseMirLvalue
    let defTarget ← readUnsigned
    let targets ← deserialiseTargets
    let values ← deserialiseMirSwitchvalues
    return .SwitchValue val defTarget targets values
  | 10 =>
    let kind ← readEnum
    let slot ← R.deserialiseMirLvalue
    let flagIdx ← readUnsigned
    let target ← readUnsigned
    let unwind ← deserialiseMirUnwindAction
    return .Drop kind slot flagIdx target unwind
  | 11 =>
    let retBlock ← readUnsigned
    let unwind ← deserialiseMirUnwindAction
    let retVal ← R.deserialiseMirLvalue
    let fcn ← R.deserialiseMirCalltarget
    let args ← R.deserialiseMirParams
    let source ← deserialiseSource
    let tracksCaller ← readBool
    return .Call retBlock unwind retVal fcn args source tracksCaller
  | 12 =>
    let fcn ← R.deserialiseMirTailCallTarget
    let args ← R.deserialiseMirParams
    let source ← deserialiseSource
    let tracksCaller ← readBool
    return .TailCall fcn args source tracksCaller
  | 13 =>
    let options ← deserialiseAsmOptions
    let lines ← deserialiseAsmLines
    let params ← R.deserialiseAsmParams
    let retBlock ← readUnsigned
    return .Asm2 options lines params retBlock
  | _ => Read.stop (.badTag "Bad tag for MIR::Terminator - ")

/-- The statements of a block; an obsolete `ScopeEnd` leaves none. -/
def deserialiseMirStatements : In ρ (List (MIRStatement V)) := do
  let statements ← deserialiseVec "MIRStatement" R.deserialiseMirStatement
  return statements.filterMap id

def deserialiseMirBasicblock : In ρ (MIRBasicBlock V) := do
  let statements ← R.deserialiseMirStatements
  let terminator ← R.deserialiseMirTerminator
  let isCleanup ← readBool
  return ⟨statements, terminator, isCleanup⟩

def deserialiseMirFunction : In ρ (MIRFunction V) := do
  let locals ← deserialiseVec "HIRType const*" R.deserialiseType
  let dropFlags ← deserialiseVec "bool" readBool
  let blocks ← deserialiseVec "MIRBasicBlock" R.deserialiseMirBasicblock
  return ⟨locals, dropFlags, blocks⟩

end RefReader

end Trustme.Metadata
