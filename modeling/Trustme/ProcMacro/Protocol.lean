/-
  Subject:   The wire between the compiler and a procedural macro (libproc_macro, protocol.rs).

  * `Token`: what goes over the wire;
  * `Writer.writeEnt`: the writer, over a stream that may take less of a slice than it is given;
  * `Reader.readEnt`: the reader, over the bytes that are left; `none` at their end.
-/
import Trustme.Lib.Printers
import Trustme.Lib.Slices

namespace Trustme.ProcMacro

open Trustme.Lib

abbrev Byte := BitVec 8

/-! ## 1. Tokens -/

structure SpanDef where
  idx : BitVec 64
  parentIdx : BitVec 64
  path : Text
  isPathReal : Bool
  startLine : BitVec 64
  endLine : BitVec 64
  startOfs : BitVec 64
  endOfs : BitVec 64
  deriving DecidableEq

/-- `protocol::Token`; an `f64` is its bits. -/
inductive Token where
  | EndOfStream
  | Symbol (v : Text)
  | Ident (v : Text)
  | Lifetime (v : Text)
  | String (v : Text)
  | ByteString (v : List Byte)
  | Char (v : Char)
  | Unsigned (v : BitVec 128) (sz : Byte)
  | Signed (v : BitVec 128) (sz : Byte)
  | Float (v : BitVec 64) (sz : Byte)
  | SpanRef (idx : BitVec 64)
  | SpanDef (sd : SpanDef)
  | RawLiteral (v : Text)
  | Joined (v : Byte)
  | OpenInvisible (i : BitVec 32)
  | CloseInvisible
  | Fragment (i : BitVec 32)
  deriving DecidableEq

/-- `str::as_bytes` -/
def asBytes (v : Text) : List Byte := (v.flatMap String.utf8EncodeChar).map UInt8.toBitVec

/-- `String::from_utf8` -/
def fromUtf8 (raw : List Byte) : Option Text :=
  (ByteArray.mk (raw.map UInt8.ofBitVec).toArray).utf8Decode?.map Array.toList

/-- `char::from_u32` -/
def fromU32 (v : BitVec 32) : Option Char :=
  if v.toNat.isValidChar then some (Char.ofNat v.toNat) else none

inductive Panic where
  /-- `unwrap` of `None` -/
  | none
  | expect (msg : String)
  /-- `assert!(ofs < 18*7)` -/
  | length
  /-- `assert!(size < (1<<30))` -/
  | size
  | malformedChar (v : BitVec 128)
  | overflow
  | shortRead
  | unknownTag (b : Byte)
  deriving DecidableEq

/-! ## 2. The writer -/

/-- A writer over a stream in a state of `S`; the bytes are those that the stream takes. -/
abbrev Out (S α : Type) : Type := Write Byte S Panic α

namespace Writer

variable {S : Type} (inner : Sink Byte S)

/-- `self.inner.write(v).expect("")`: an error stops the writer, and the count is dropped. -/
def write (v : List Byte) : Out S Unit := .hand inner (.expect "") v

def putb (v : Byte) : Out S Unit := write inner [v]

def putU128v (v : BitVec 128) : Out S Unit :=
  if _h : v ≥ 128#128 then do
    putb inner ((v &&& 0x7F#128).setWidth 8 ||| 0x80#8)
    putU128v (v >>> 7)
  else putb inner ((v &&& 0x7F#128).setWidth 8)
termination_by v.toNat
decreasing_by
  rw [ge_iff_le, BitVec.le_def] at _h
  rw [BitVec.toNat_ushiftRight, Nat.shiftRight_eq_div_pow]
  exact Nat.div_lt_self (Nat.lt_of_lt_of_le (by decide) _h) (by decide)

/-- A shift drops what does not fit. -/
def putI128v (v : BitVec 128) : Out S Unit :=
  if v.slt 0 then putU128v inner (((v + 1) <<< 1) ||| 1) else putU128v inner (v <<< 1)

def putBytes (v : List Byte) : Out S Unit := do
  putU128v inner (BitVec.ofNat 128 v.length)
  write inner v

def putF64 (v : BitVec 64) : Out S Unit := write inner (leBytes 8 v.toNat)

/-- `v as u128` of a `usize` or a `u32` -/
def putWord {w : Nat} (v : BitVec w) : Out S Unit := putU128v inner (v.setWidth 128)

def writeEnt : Token → Out S Unit
  | .EndOfStream => putb inner 0
  | .Symbol v => do putb inner 1; putBytes inner (asBytes v)
  | .Ident v => do putb inner 2; putBytes inner (asBytes v)
  | .Lifetime v => do putb inner 3; putBytes inner (asBytes v)
  | .String v => do putb inner 4; putBytes inner (asBytes v)
  | .ByteString v => do putb inner 5; putBytes inner v
  | .Char v => do putb inner 6; putU128v inner (BitVec.ofNat 128 v.toNat)
  | .Unsigned v sz => do putb inner 7; putb inner sz; putU128v inner v
  | .Signed v sz => do putb inner 8; putb inner sz; putI128v inner v
  | .Float v sz => do putb inner 9; putb inner sz; putF64 inner v
  | .SpanRef idx => do putb inner 10; putWord inner idx
  | .SpanDef sd => do
      putb inner 11
      putWord inner sd.idx
      putWord inner sd.parentIdx
      putBytes inner (asBytes sd.path)
      putb inner (if sd.isPathReal then 1 else 0)
      putWord inner sd.startLine
      putWord inner sd.endLine
      putWord inner sd.startOfs
      putWord inner sd.endOfs
  | .RawLiteral v => do putb inner 12; putBytes inner (asBytes v)
  | .Joined v => do putb inner 13; putb inner v
  | .OpenInvisible i => do putb inner 15; putWord inner i
  | .CloseInvisible => putb inner 16
  | .Fragment i => do putb inner 17; putWord inner i

end Writer

/-! ## 3. The reader -/

abbrev In (α : Type) := Read Byte Unit Panic α

namespace Reader

def getb : In (Option Byte)
  | [], t => .ok (none, [], t)
  | b :: bs, t => .ok (some b, bs, t)

/-- `self.getb().expect(msg)` -/
def getbExpect (msg : String) : In Byte := do
  match ← getb with
  | some b => return b
  | none => Read.stop (.expect msg)

/-- The loop of `get_u128v`. No shift is by more than 126. -/
def u128vFrom (ofs : Nat) (rawRv : BitVec 128) : In (BitVec 128)
  | [], _ => .error .none
  | b :: bs, t =>
    let rawRv := rawRv ||| ((b &&& 0x7F#8).setWidth 128 <<< ofs)
    if b < 128#8 then .ok (rawRv, bs, t)
    else if ofs < 18 * 7 then u128vFrom (ofs + 7) rawRv bs t
    else .error .length

def getU128v : In (BitVec 128) := u128vFrom 0 0

section Checked

-- whether the library is compiled with checks for overflow
variable (overflowChecks : Bool)

def getI128v : In (BitVec 128) := do
  let rawRv ← getU128v
  if rawRv &&& 1 ≠ 0 then
    let half := rawRv >>> 1
    if overflowChecks && (half.saddOverflow 1 || (half + 1).negOverflow) then Read.stop .overflow
    else return -(half + 1)
  else return rawRv >>> 1

def getByteVec : In (List Byte) := do
  let size ← getU128v
  if size < BitVec.ofNat 128 (1 <<< 30) then Read.take size.toNat .shortRead else Read.stop .size

def getString : In Text := do
  let raw ← getByteVec
  match fromUtf8 raw with
  | some v => return v
  | none => Read.stop (.expect "Invalid UTF-8 passed from compiler")

def getF64 : In (BitVec 64) := do
  let buf ← Read.take 8 .shortRead
  return BitVec.ofNat 64 (leValue buf)

/-- `self.get_u128v() as usize`, or `as u32` -/
def getWord (w : Nat) : In (BitVec w) := do
  let v ← getU128v
  return v.setWidth w

def getChar : In Char := do
  let v ← getU128v
  if v < 0x10FFFF#128 then
    match fromU32 (v.setWidth 32) with
    | some c => return c
    | none => Read.stop (.expect "protocol: char lit invalid")
  else Read.stop (.malformedChar v)

/-- What follows the byte of the kind. -/
def entOf (hdrB : Byte) : In Token :=
  if hdrB = 0 then return .EndOfStream
  else if hdrB = 1 then do let v ← getString; return .Symbol v
  else if hdrB = 2 then do let v ← getString; return .Ident v
  else if hdrB = 3 then do let v ← getString; return .Lifetime v
  else if hdrB = 4 then do let v ← getString; return .String v
  else if hdrB = 5 then do let v ← getByteVec; return .ByteString v
  else if hdrB = 6 then do let v ← getChar; return .Char v
  else if hdrB = 7 then do
    let ty ← getbExpect "getb int ty"
    let val ← getU128v
    return .Unsigned val ty
  else if hdrB = 8 then do
    let ty ← getbExpect "getb int ty"
    let val ← getI128v overflowChecks
    return .Signed val ty
  else if hdrB = 9 then do
    let ty ← getbExpect "getb int ty"
    let val ← getF64
    return .Float val ty
  else if hdrB = 10 then do let idx ← getWord 64; return .SpanRef idx
  else if hdrB = 11 then do
    let idx ← getWord 64
    let parentIdx ← getWord 64
    let path ← getString
    let isPathReal ← getbExpect "getb span path_is_real"
    let startLine ← getWord 64
    let endLine ← getWord 64
    let startOfs ← getWord 64
    let endOfs ← getWord 64
    return .SpanDef ⟨idx, parentIdx, path, isPathReal != 0, startLine, endLine, startOfs, endOfs⟩
  else if hdrB = 12 then do let v ← getString; return .RawLiteral v
  else if hdrB = 13 then do let v ← getbExpect "getb joined"; return .Joined v
  else if hdrB = 15 then do let i ← getWord 32; return .OpenInvisible i
  else if hdrB = 16 then return .CloseInvisible
  else if hdrB = 17 then do let i ← getWord 32; return .Fragment i
  else Read.stop (.unknownTag hdrB)

def readEnt : In (Option Token) := do
  match ← getb with
  | none => return none
  | some hdrB => do
      let ent ← entOf overflowChecks hdrB
      return some ent

end Checked

end Reader

end Trustme.ProcMacro
