/-
  Subject:   The pool of the constant evaluator: allocations, constants and statics behind one
             interface, references into them, and the operations on references.

  * `Constant`, `StaticRef`, `Obj`: the storages; a constant and a static are never written;
  * `ValueRef.writeBytes`, `writeUint`, `writePtr`, `copyFrom`, `copyFromOverlapping`: writes;
  * `ValueRef.extReadBytes`, `readUsize`, `readPtr`: reads;
  * `Op`, `step`: one operation on the pool.

  An operation that runs into an assertion of the source, or into `abort`, gives `none`.
-/
import Trustme.Eval.Allocation

namespace Trustme.Eval

open Trustme.Lib

/-- What is read of the target. -/
structure TargetArch where
  pointerBits : Nat
  whole_bytes : pointerBits % 8 = 0
  pos : 0 < pointerBits
  le_u64 : pointerBits ≤ 64

/-- The bytes of a pointer. -/
def TargetArch.ptrSize (arch : TargetArch) : Nat := arch.pointerBits / 8

/-- A target with pointers of 8 bytes. -/
def wide : TargetArch := ⟨64, by decide, by decide, by decide⟩

theorem TargetArch.ptrSize_pos (arch : TargetArch) : 0 < arch.ptrSize := by
  have h1 := arch.whole_bytes
  have h2 := arch.pos
  unfold ptrSize
  omega

theorem TargetArch.ptrSize_le (arch : TargetArch) : arch.ptrSize ≤ 8 := by
  have h := arch.le_u64
  unfold ptrSize
  omega

/-! ## 1. Constants and statics -/

/-- `length` is an `unsigned`. -/
structure Constant where
  length : Nat
  data : List Byte
deriving DecidableEq

def Constant.new (data : List Byte) : Constant := ⟨data.length % 2 ^ 32, data⟩

def Constant.getBytes (c : Constant) (ofs len : Nat) : Option (List Byte) :=
  if ofs ≤ c.length ∧ len ≤ c.length ∧ ofs + len ≤ c.length then some ((c.data.drop ofs).take len)
  else none

variable {Path : Type}

/-- A relocation of a literal points to an item (`p`) or to bytes of its own. -/
structure EncodedReloc (Path : Type) where
  ofs : Nat
  len : Nat
  p : Option Path
  bytes : List Byte

structure EncodedLiteral (Path : Type) where
  bytes : List Byte
  relocations : List (EncodedReloc Path)

/-- The constructor asserts that the value, where there is one, has the length. -/
structure StaticRef (Path : Type) where
  path : Path
  encoded : Option (EncodedLiteral Path)
  length : Nat
  length_eq : ∀ lit, encoded = some lit → lit.bytes.length = length

/-- `MIREvalStaticRefPtr::allocate` as `getReloc` calls it: a name and no value. -/
def StaticRef.unread (path : Path) : StaticRef Path where
  path := path
  encoded := none
  length := 0
  length_eq := nofun

def StaticRef.getBytes (s : StaticRef Path) (ofs len : Nat) : Option (List Byte) :=
  match s.encoded with
  | some lit =>
    if ofs ≤ lit.bytes.length ∧ len ≤ lit.bytes.length ∧ ofs + len ≤ lit.bytes.length then
      some ((lit.bytes.drop ofs).take len)
    else none
  | none => if len = 0 ∧ ofs ≤ s.length then some [] else none

/-- The relocation at `ofs`. -/
def StaticRef.findReloc (s : StaticRef Path) (ofs : Nat) : Option (EncodedReloc Path) :=
  match s.encoded with
  | some lit => lit.relocations.find? fun r => r.ofs == ofs
  | none => none

/-! ## 2. The pool -/

inductive Obj (Path : Type) where
  | allocation (a : Allocation)
  | constant (c : Constant)
  | staticRef (s : StaticRef Path)

abbrev Memory (Path : Type) := List (Obj Path)

def Obj.getBytes : Obj Path → Nat → Nat → Bool → Option (List Byte)
  | .allocation a, ofs, len, checkMask => a.getBytes ofs len checkMask
  | .constant c, ofs, len, _ => c.getBytes ofs len
  | .staticRef s, ofs, len, _ => s.getBytes ofs len

def allocateRo (data : List Byte) : Option Allocation :=
  ((Allocation.new data.length).writeBytes 0 data).map fun a => { a with isReadonly := true }

/-- The object that `getReloc` of a static makes for a relocation. -/
def EncodedReloc.target (r : EncodedReloc Path) : Option (Obj Path) :=
  match r.p with
  | some p => some (.staticRef (.unread p))
  | none => (allocateRo r.bytes).map .allocation

/-- `getReloc`, with the pool after it: a static makes a new object every time. -/
def Obj.getReloc (mem : Memory Path) : Obj Path → Nat → Option (Option RelocPtr × Memory Path)
  | .allocation a, ofs => some (a.getReloc ofs, mem)
  | .constant _, _ => some (none, mem)
  | .staticRef s, ofs =>
    match s.findReloc ofs with
    | none => some (none, mem)
    | some r => r.target.map fun obj => (some mem.length, mem ++ [obj])

namespace Memory

/-- `asValue`: the null pointer names nothing. -/
def asValue (mem : Memory Path) (storage : Option RelocPtr) : Option (Obj Path) :=
  storage.bind fun id => mem[id]?

/-- An operation that only an allocation has; the others abort. -/
def update (mem : Memory Path) (storage : Option RelocPtr)
    (f : Allocation → Option Allocation) : Option (Memory Path) :=
  match storage, mem.asValue storage with
  | some id, some (.allocation a) => (f a).map fun a => mem.set id (.allocation a)
  | _, _ => none

def isWritable (mem : Memory Path) (storage : Option RelocPtr) : Option Bool :=
  (mem.asValue storage).map fun
    | .allocation a => a.isWritable
    | _ => false

/-- `writeMaskFrom`; a mask copied inside one allocation is read while it is written. -/
def writeMaskFrom (mem : Memory Path) (storage : Option RelocPtr) (ofs : Nat)
    (srcStorage : Option RelocPtr) (srcOfs len : Nat) : Option (Memory Path) := do
  let src ← mem.asValue srcStorage
  mem.update storage fun a =>
    if a.inside ofs len then
      match src with
      | .allocation s =>
        if s.inside srcOfs len then
          let read := if storage = srcStorage then fun m => m else fun _ => s.mask
          some { a with mask := readMask read a.mask ofs srcOfs len }
        else none
      | _ => some { a with mask := readMaskSet a.mask ofs len }
    else none

end Memory

/-! ## 3. References -/

/-- A part of an object; `ofs` and `len` are `u32`. -/
structure ValueRef where
  storage : Option RelocPtr
  ofs : Nat
  len : Nat
  ofs_lt : ofs < 2 ^ 32
  len_lt : len < 2 ^ 32
deriving DecidableEq

def toLeBytes (v : BitVec 128) (maxLen : Nat) : List Byte :=
  (List.range (min maxLen 16)).map fun i => v.extractLsb' (8 * i) 8

/-- A float is known by its images in the four formats. -/
structure FloatValue where
  f16 : Vector Byte 2
  f32 : Vector Byte 4
  f64 : Vector Byte 8
  f128 : Vector Byte 16

def FloatValue.image (v : FloatValue) : Nat → Option (List Byte)
  | 16 => some v.f16.toList
  | 32 => some v.f32.toList
  | 64 => some v.f64.toList
  | 128 => some v.f128.toList
  | _ => none

namespace ValueRef

/-- No use of a deallocated allocation. Every pointer is one into the pool. -/
def ensureLive (mem : Memory Path) (v : ValueRef) : Bool :=
  match v.storage with
  | none => true
  | some id =>
    match mem[id]? with
    | some (.allocation a) => a.isLive
    | some _ => true
    | none => false

def slice (v : ValueRef) (ofs len : Nat) : Option ValueRef :=
  if ofs ≤ v.len ∧ ofs + len ≤ v.len then
    some { storage := v.storage
           ofs := (v.ofs + ofs) % 2 ^ 32
           len := len % 2 ^ 32
           ofs_lt := Nat.mod_lt _ (by decide)
           len_lt := Nat.mod_lt _ (by decide) }
  else none

theorem zero_lt_u32 : 0 < 2 ^ 32 := by decide

/-- All of an object of `size` bytes. -/
def whole (id : RelocPtr) (size : Nat) : ValueRef where
  storage := some id
  ofs := 0
  len := size % 2 ^ 32
  ofs_lt := zero_lt_u32
  len_lt := Nat.mod_lt _ (by decide)

/-- The checks before a write. -/
def checkWrite (mem : Memory Path) (v : ValueRef) : Option Unit :=
  if v.ensureLive mem && mem.isWritable v.storage == some true then some () else none

def writeBytes (mem : Memory Path) (v : ValueRef) (data : List Byte) : Option (Memory Path) := do
  v.checkWrite mem
  if data.length > 0 then mem.update v.storage fun a => a.writeBytes v.ofs data else some mem

def writeFloat (mem : Memory Path) (v : ValueRef) (bits : Nat) (value : FloatValue) :
    Option (Memory Path) := do
  v.writeBytes mem (← value.image bits)

def writeUint (mem : Memory Path) (v : ValueRef) (bits : Nat) (value : BitVec 128) :
    Option (Memory Path) := do
  v.checkWrite mem
  let nBytes := (bits + 7) / 8
  mem.update v.storage fun a =>
    (a.extWriteBytes v.ofs nBytes).map fun a => a.memcpy v.ofs (toLeBytes value nBytes)

/-- `getInner` of a signed value has the same bits. -/
def writeSint (mem : Memory Path) (v : ValueRef) (bits : Nat) (value : BitVec 128) :
    Option (Memory Path) := v.writeUint mem bits value

def setReloc (mem : Memory Path) (v : ValueRef) (reloc : Option RelocPtr) :
    Option (Memory Path) :=
  mem.update v.storage fun a => some (a.setReloc v.ofs reloc)

def writePtr (arch : TargetArch) (mem : Memory Path) (v : ValueRef) (value : BitVec 64)
    (reloc : Option RelocPtr) : Option (Memory Path) := do
  let mem ← v.writeUint mem arch.pointerBits (value.setWidth 128)
  v.setReloc mem reloc

/-- `setReloc` of a relocation found. -/
def takeReloc (mem : Memory Path) (v : ValueRef) (i : Nat) :
    Option RelocPtr → Option (Memory Path)
  | some r => mem.update v.storage fun a => some (a.setReloc (v.ofs + i) (some r))
  | none => some mem

/-- The last loop of `copyFrom`, from byte `i` on. -/
def copyRelocs (v other : ValueRef) : Memory Path → Nat → Nat → Option (Memory Path)
  | mem, _, 0 => some mem
  | mem, i, n + 1 => do
      let src ← mem.asValue other.storage
      let (r, mem) ← src.getReloc mem (other.ofs + i)
      let mem ← v.takeReloc mem i r
      copyRelocs v other mem (i + 1) n

/-- Two parts of one storage must not overlap. -/
def apart (v other : ValueRef) (len : Nat) : Bool :=
  if v.storage = other.storage then
    if v.ofs < other.ofs then v.ofs + len ≤ other.ofs else other.ofs + len ≤ v.ofs
  else true

def copyFrom (mem : Memory Path) (v other : ValueRef) : Option (Memory Path) := do
  if v.ensureLive mem && other.ensureLive mem then
    let len := min v.len other.len
    if v.apart other len then
      let src ← mem.asValue other.storage
      let bytes ← src.getBytes other.ofs len false
      let mem ← mem.update v.storage fun a => a.writeBytes v.ofs bytes
      let mem ← mem.writeMaskFrom v.storage v.ofs other.storage other.ofs len
      copyRelocs v other mem 0 len
    else none
  else none

/-- Nothing points to the scratch allocation, so that it is dropped from the pool again. -/
def copyFromOverlapping (mem : Memory Path) (v other : ValueRef) : Option (Memory Path) := do
  if v.ensureLive mem && other.ensureLive mem then
    let copyLen := min v.len other.len
    if copyLen = 0 ∨ (v.storage = other.storage ∧ v.ofs = other.ofs) then some mem
    else if v.storage ≠ other.storage ∨ v.ofs + copyLen ≤ other.ofs ∨
        other.ofs + copyLen ≤ v.ofs then v.copyFrom mem other
    else
      let temporary := whole mem.length copyLen
      let source ← other.slice 0 copyLen
      let target ← v.slice 0 copyLen
      let mem' ← temporary.copyFrom (mem ++ [.allocation (.new copyLen)]) source
      let mem' ← target.copyFrom mem' temporary
      some (mem'.take mem.length)
  else none

/-! ## 4. Reads -/

def extReadBytes (mem : Memory Path) (v : ValueRef) (len : Nat) : Option (List Byte) := do
  if v.ensureLive mem && 1 ≤ len then
    let src ← mem.asValue v.storage
    src.getBytes v.ofs len true
  else none

/-- The number that bytes of little-endian order make. -/
def fromLeBytes (bytes : List Byte) : Nat :=
  (bytes.take 16).foldr (fun b n => b.toNat + 256 * n) 0

def readUint (mem : Memory Path) (v : ValueRef) (bits : Nat) : Option Nat := do
  if bits ≤ 128 then
    let bytes ← v.extReadBytes mem ((bits + 7) / 8)
    some (fromLeBytes bytes)
  else none

def readUsize (arch : TargetArch) (mem : Memory Path) (v : ValueRef) : Option Nat :=
  v.readUint mem arch.pointerBits

/-- The address, the object it points into, and the pool after. -/
def readPtr (arch : TargetArch) (mem : Memory Path) (v : ValueRef) :
    Option ((Nat × Option RelocPtr) × Memory Path) := do
  let address ← v.readUsize arch mem
  let src ← mem.asValue v.storage
  let (reloc, mem) ← src.getReloc mem v.ofs
  some ((address, reloc), mem)

end ValueRef

/-! ## 5. Operations -/

inductive Op (Path : Type) where
  | allocate (size : Nat)
  | allocateHeap (size : Nat)
  | allocateRo (data : List Byte)
  | constant (data : List Byte)
  | staticRef (s : StaticRef Path)
  | makeGlobal (id : RelocPtr)
  | deallocate (id : RelocPtr)
  | writeBytes (dst : ValueRef) (data : List Byte)
  | writeFloat (dst : ValueRef) (bits : Nat) (value : FloatValue)
  | writeUint (dst : ValueRef) (bits : Nat) (value : BitVec 128)
  | writeSint (dst : ValueRef) (bits : Nat) (value : BitVec 128)
  | writePtr (dst : ValueRef) (value : BitVec 64) (reloc : Option RelocPtr)
  | copyFrom (dst src : ValueRef)
  | copyFromOverlapping (dst src : ValueRef)
  | readPtr (src : ValueRef)

def Allocation.makeGlobal (a : Allocation) : Option Allocation :=
  if a.isConstHeap && a.isLive && !a.isGlobal then
    some { a with isGlobal := true, isReadonly := true }
  else none

def Allocation.deallocate (a : Allocation) : Option Allocation :=
  if a.isConstHeap && a.isLive && !a.isGlobal then some { a with isLive := false } else none

def step (arch : TargetArch) (mem : Memory Path) : Op Path → Option (Memory Path)
  | .allocate size => some (mem ++ [.allocation (.new size)])
  | .allocateHeap size =>
    some (mem ++ [.allocation { Allocation.new size with isConstHeap := true }])
  | .allocateRo data => (Eval.allocateRo data).map fun a => mem ++ [.allocation a]
  | .constant data => some (mem ++ [.constant (.new data)])
  | .staticRef s => some (mem ++ [.staticRef s])
  | .makeGlobal id => mem.update (some id) Allocation.makeGlobal
  | .deallocate id => mem.update (some id) Allocation.deallocate
  | .writeBytes dst data => dst.writeBytes mem data
  | .writeFloat dst bits value => dst.writeFloat mem bits value
  | .writeUint dst bits value => dst.writeUint mem bits value
  | .writeSint dst bits value => dst.writeSint mem bits value
  | .writePtr dst value reloc => dst.writePtr arch mem value reloc
  | .copyFrom dst src => dst.copyFrom mem src
  | .copyFromOverlapping dst src => dst.copyFromOverlapping mem src
  | .readPtr src => (src.readPtr arch mem).map Prod.snd

end Trustme.Eval
