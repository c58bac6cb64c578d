/-
  Subject:   The stream of crate metadata: `HIRSerialiseWriter` and `HIRSerialiseReader` of
             hir_serialise_lowlevel.cpp, and the containers of hir_main_bindings.cpp over it.

  * `writeU8` .. `writeString`, `readU8` .. `readString` -- the parts of a stream;
  * `object`: a part between its name and its end;
  * `serialiseVec`, `deserialiseVec`: vectors;
  * `inStep`, `Saves`: how reader and writer go together.

  The caches of object names on both sides answer as the table of strings does; they are left out.
-/
import Trustme.Lib.Codec
import Trustme.Lib.Printers
import Trustme.Numeric.Float128
import Trustme.Numeric.S128

namespace Trustme.Metadata

open Trustme.Lib Trustme.Numeric

abbrev Byte := BitVec 8

/-- `std::string`: bytes of any value. -/
abbrev Str := List Byte

/-- An interned string. -/
abbrev RcString := Text

/-- Where the writer stops. -/
inductive WriteStop where
  /-- `BUG_ASSERT(c <= 0xFFFFFFFFu)` -/
  | count
  /-- `BUG_ASSERT(t < 256)` -/
  | tag
  | bug (msg : String)
  | nullPointer
  deriving DecidableEq

/-- Where the reader stops. -/
inductive ReadStop where
  | overrun
  | badBool
  | badClose
  | badOpen
  /-- An index behind the table of strings. -/
  | noString
  | badTag (msg : String)
  /-- A number that the enumeration has no name for. -/
  | unnamed
  | bug (msg : String)
  deriving DecidableEq

/-- The writer's table of strings, and the tables for what bodies refer to. -/
structure Writer (ω : Type) where
  istrings : List RcString
  refs : ω

structure Reader (ρ : Type) where
  strings : List RcString
  refs : ρ

abbrev Out (ω α : Type) := Write Byte (Writer ω) WriteStop α

abbrev In (ρ α : Type) := Read Byte (Reader ρ) ReadStop α

variable {ω ρ α γ : Type}

/-! ## 1. The writer -/

def writeU8 (v : BitVec 8) : Out ω Unit := .put [v]

def writeU16 (v : BitVec 16) : Out ω Unit := .put (leBytes 2 v.toNat)

def writeU32 (v : BitVec 32) : Out ω Unit := .put (leBytes 4 v.toNat)

def writeU64 (v : BitVec 64) : Out ω Unit := .put (leBytes 8 v.toNat)

/-- `i64` in two's complement. -/
def writeI64 (v : BitVec 64) : Out ω Unit := writeU64 v

def writeU128 (v : U128) : Out ω Unit := do
  writeU64 v.lo
  writeU64 v.hi

/-- `F128` has the bits of the number. -/
def writeFloatValue (v : Float128) : Out ω Unit := do
  writeU64 v.lo
  writeU64 v.hi

def writeTag (t : Nat) : Out ω Unit := do
  Write.check (t < 256) .tag
  writeU8 (BitVec.ofNat 8 t)

def writeCount (c : Nat) : Out ω Unit := do
  Write.check (c ≤ 0xFFFFFFFF) .count
  writeU32 (BitVec.ofNat 32 c)

/-- The place of a string in the table, where it is put at its first use. -/
def stringIndex (v : RcString) : Out ω Nat := fun s =>
  .ok (s.istrings.idxOf v, [],
    if v ∈ s.istrings then s else { s with istrings := s.istrings ++ [v] })

def writeIstring (v : RcString) : Out ω Unit := do
  let index ← stringIndex v
  writeCount index

def writeString (v : Str) : Out ω Unit := do
  writeCount v.length
  Write.put v

def writeBool (v : Bool) : Out ω Unit := writeU8 (if v then 1 else 0)

def TAG_OPEN_NAMED : Byte := 0xFD

def TAG_CLOSE : Byte := 0xFF

def openObject (name : RcString) : Out ω Unit := do
  writeU8 TAG_OPEN_NAMED
  writeIstring name

def closeObject : Out ω Unit := writeU8 TAG_CLOSE

/-- `auto _ = out.openObject(name);` in front of a body. -/
def object (name : RcString) (body : Out ω Unit) : Out ω Unit := do
  openObject name
  body
  closeObject

/-- `typeid(std::vector<T>).name()` -/
def vectorName (t : String) : RcString := "std::vector<".toList ++ t.toList ++ ">".toList

/-- `typeid(ThinVector<T>).name()` -/
def thinVectorName (t : String) : RcString := "ThinVector<".toList ++ t.toList ++ ">".toList

def serialiseVec (t : String) (serialise : α → Out ω Unit) (vec : List α) : Out ω Unit :=
  object (vectorName t) do
    writeCount vec.length
    Write.each serialise vec

/-- A look at the tables for types and paths. -/
def lookRefs (f : ω → γ) : Out ω γ := Write.look fun s => f s.refs

def changeRefs (f : ω → ω) : Out ω Unit := Write.change fun s => { s with refs := f s.refs }

/-! ## 2. The reader -/

def readRaw (n : Nat) : In ρ Nat := do
  let bs ← Read.take n .overrun
  return leValue bs

def readU8 : In ρ (BitVec 8) := do
  let v ← readRaw 1
  return BitVec.ofNat 8 v

def readU16 : In ρ (BitVec 16) := do
  let v ← readRaw 2
  return BitVec.ofNat 16 v

def readU32 : In ρ (BitVec 32) := do
  let v ← readRaw 4
  return BitVec.ofNat 32 v

def readU64 : In ρ (BitVec 64) := do
  let v ← readRaw 8
  return BitVec.ofNat 64 v

def readI64 : In ρ (BitVec 64) := readU64

def readU128 : In ρ U128 := do
  let lo ← readU64
  let hi ← readU64
  return ⟨lo, hi⟩

def readI128 : In ρ S128 := do
  let v ← readU128
  return ⟨v⟩

def readFloatValue : In ρ Float128 := do
  let lo ← readU64
  let hi ← readU64
  return ⟨hi, lo⟩

def readTag : In ρ Nat := do
  let v ← readU8
  return v.toNat

def readCount : In ρ Nat := do
  let v ← readU32
  return v.toNat

/-- `static_cast<unsigned int>(in.readCount())` -/
def readUnsigned : In ρ (BitVec 32) := do
  let v ← readCount
  return BitVec.ofNat 32 v

/-- `strings[index]` -/
def stringAt (index : Nat) : In ρ RcString := fun bs t =>
  match t.strings[index]? with
  | some v => .ok (v, bs, t)
  | none => .error .noString

def readIstring : In ρ RcString := do
  let index ← readCount
  stringAt index

def readString : In ρ Str := do
  let len ← readCount
  Read.take len .overrun

def readBool : In ρ Bool := do
  let v ← readU8
  if v.toNat > 1 then Read.stop .badBool else return v != 0

def expectOpen (name : RcString) : In ρ Unit := do
  let v ← readU8
  if v != TAG_OPEN_NAMED then Read.stop .badOpen
  else do
    let got ← readIstring
    if got != name then Read.stop .badOpen else return ()

def expectClose : In ρ Unit := do
  let v ← readU8
  if v != TAG_CLOSE then Read.stop .badClose else return ()

/-- `auto _ = in.openObject(name);` in front of a body. -/
def inObject (name : RcString) (body : In ρ α) : In ρ α := do
  expectOpen name
  let v ← body
  expectClose
  return v

def deserialiseVec (t : String) (deserialise : In ρ α) : In ρ (List α) :=
  inObject (vectorName t) do
    let n ← readCount
    Read.times deserialise n

/-! ## 3. What the reader makes of the writer's parts -/

/-- The reader has the table of strings that the writer has at the end; `refs` ties the tables for
    types and paths. -/
abbrev inStep (strings : List RcString) (refs : ω → ρ → Prop) (s : Writer ω)
    (t : Reader ρ) : Prop :=
  t.strings = strings ∧ refs s.refs t.refs

/-- A count that has no 32 bits is a stop. -/
class MayCount (stop : WriteStop → Prop) : Prop where
  count : stop .count

instance : MayCount (· = .count) := ⟨rfl⟩

/-- From states in `P` on `w` is read as `a`, with states in `Q` at the end. -/
abbrev SavesFrom (stop : WriteStop → Prop) (strings : List RcString) (P Q : ω → ρ → Prop)
    (w : Out ω Unit) (r : In ρ α) (a : α) : Prop :=
  Carries stop (fun s => s.istrings <+: strings) (inStep strings P) (inStep strings Q) w r a

/-- `w` is read as `a`, where it does not stop. -/
abbrev SavesOr (stop : WriteStop → Prop) (strings : List RcString) (refs : ω → ρ → Prop)
    (w : Out ω Unit) (r : In ρ α) (a : α) : Prop :=
  SavesFrom stop strings refs refs w r a

/-- `w` is read as `a`. The only stop is at a count that has no 32 bits. -/
abbrev Saves (strings : List RcString) (refs : ω → ρ → Prop) (w : Out ω Unit) (r : In ρ α) (a : α) :
    Prop :=
  SavesOr (· = .count) strings refs w r a

namespace SavesFrom

variable {stop : WriteStop → Prop} {strings : List RcString} {P Q T : ω → ρ → Prop}
  {w : Out ω Unit} {r : In ρ α} {a : α} {χ : Type}

/-- The writer looks at its tables for types and paths. -/
theorem look {f : ω → χ} {k : χ → Out ω Unit}
    (h : ∀ x, SavesFrom stop strings (fun s t => P s t ∧ f s = x) Q (k x) r a) :
    SavesFrom stop strings P Q (lookRefs f >>= k) r a :=
  Carries.look fun x => (h x).imp (fun _ _ hs => ⟨hs.1.1, hs.1.2, hs.2⟩) fun _ _ hs => hs

/-- The tables for types and paths are taken for known. -/
theorem given (h : ∀ x, SavesFrom stop strings (fun s t => P s t ∧ s = x) Q w r a) :
    SavesFrom stop strings P Q w r a :=
  Carries.given (fun s => s.refs) fun x =>
    (h x).imp (fun _ _ hs => ⟨hs.1.1, hs.1.2, hs.2⟩) fun _ _ hs => hs

/-- The writer changes its tables for types and paths. -/
theorem change {f : ω → ω} (h : ∀ s t, P s t → Q (f s) t) :
    SavesFrom stop strings P Q (changeRefs f) (pure () : In ρ Unit) () :=
  Carries.change (fun s t hs => ⟨hs.1, h s.refs t.refs hs.2⟩) fun _ hs => hs

theorem imp {P' Q' : ω → ρ → Prop} (h : SavesFrom stop strings P Q w r a)
    (hP : ∀ s t, P' s t → P s t) (hQ : ∀ s t, Q s t → Q' s t) :
    SavesFrom stop strings P' Q' w r a :=
  Carries.imp h (fun s t hs => ⟨hs.1, hP s.refs t.refs hs.2⟩)
    fun s t hs => ⟨hs.1, hQ s.refs t.refs hs.2⟩

/-- What does not speak of the tables stays true. -/
theorem frame (φ : Prop) (h : SavesFrom stop strings P Q w r a) :
    SavesFrom stop strings (fun s t => P s t ∧ φ) (fun s t => Q s t ∧ φ) w r a :=
  Carries.imp (Carries.frame φ h) (fun _ _ hs => ⟨⟨hs.1, hs.2.1⟩, hs.2.2⟩)
    fun _ _ hs => ⟨hs.1.1, hs.1.2, hs.2⟩

end SavesFrom

section Saves

variable {stop : WriteStop → Prop} {strings : List RcString} {refs : ω → ρ → Prop}

theorem readRaw_saves {n v : Nat} (h : v < 256 ^ n) :
    SavesOr stop strings refs (.put (leBytes n v)) (readRaw n) v := by
  have hbytes : SavesOr stop strings refs (.put (leBytes n v))
      (Read.take (leBytes n v).length .overrun) (leBytes n v) := Carries.take
  rw [leBytes_length] at hbytes
  exact hbytes.last (by rw [leValue_leBytes h])

/-- A number of `k` bits in `n` bytes. -/
theorem bits_saves {k n : Nat} (hk : 2 ^ k ≤ 256 ^ n) (v : BitVec k) :
    SavesOr stop strings refs (.put (leBytes n v.toNat))
      (do let x ← readRaw n; return BitVec.ofNat k x) v := by
  refine (readRaw_saves (Nat.lt_of_lt_of_le v.isLt hk)).last ?_
  rw [BitVec.ofNat_toNat, BitVec.setWidth_eq]

theorem u8_saves (v : BitVec 8) : SavesOr stop strings refs (writeU8 v) readU8 v := by
  have hb : leBytes 1 v.toNat = [v] := by
    rw [leBytes, leBytes, BitVec.ofNat_toNat, BitVec.setWidth_eq]
  unfold writeU8
  rw [← hb]
  exact bits_saves (by decide) v

theorem u16_saves (v : BitVec 16) : SavesOr stop strings refs (writeU16 v) readU16 v :=
  bits_saves (by decide) v

theorem u32_saves (v : BitVec 32) : SavesOr stop strings refs (writeU32 v) readU32 v :=
  bits_saves (by decide) v

theorem u64_saves (v : BitVec 64) : SavesOr stop strings refs (writeU64 v) readU64 v :=
  bits_saves (by decide) v

theorem i64_saves (v : BitVec 64) : SavesOr stop strings refs (writeI64 v) readI64 v := u64_saves v

theorem u128_saves (v : U128) : SavesOr stop strings refs (writeU128 v) readU128 v :=
  (u64_saves v.lo).bind (u64_saves v.hi).map

theorem i128_saves (v : S128) : SavesOr stop strings refs (writeU128 v.inner) readI128 v :=
  (u128_saves v.inner).map

theorem float_saves (v : Float128) :
    SavesOr stop strings refs (writeFloatValue v) readFloatValue v :=
  (u64_saves v.lo).bind (u64_saves v.hi).map

theorem tag_saves {t : Nat} (h : t < 256) : SavesOr stop strings refs (writeTag t) readTag t := by
  have hread : SavesOr stop strings refs (writeU8 (BitVec.ofNat 8 t)) readTag t := by
    refine (u8_saves (BitVec.ofNat 8 t)).last ?_
    rw [BitVec.toNat_ofNat, Nat.mod_eq_of_lt h]
  exact (Carries.check (decide_eq_true h)).after hread

/-- A count of 32 bits, wherever it stands. -/
theorem readCount_leBytes {c : Nat} (h : c ≤ 0xFFFFFFFF) (rest : List Byte) (t : Reader ρ) :
    readCount (leBytes 4 c ++ rest) t = .ok (c, rest, t) := by
  have hcount : SavesOr (fun _ => True) t.strings (fun (_ : Unit) x => x = t.refs)
      (.put (leBytes 4 c)) readCount c := by
    refine ((readRaw_saves (by omega)).map (f := BitVec.ofNat 32)).last ?_
    rw [BitVec.toNat_ofNat, Nat.mod_eq_of_lt (by omega)]
  have hnil : ([] : List RcString) <+: t.strings := List.nil_prefix
  obtain ⟨t', hr, hstrings, hrefs⟩ := hcount.reads (s := ⟨[], ()⟩) rfl hnil rest ⟨rfl, rfl⟩
  obtain ⟨strings, refs⟩ := t'
  subst hstrings hrefs
  exact hr

section Counts

variable [MayCount stop]

theorem count_saves (c : Nat) : SavesOr stop strings refs (writeCount c) readCount c := by
  by_cases h : c ≤ 0xFFFFFFFF
  · have hread : SavesOr stop strings refs (writeU32 (BitVec.ofNat 32 c)) readCount c := by
      refine (u32_saves (BitVec.ofNat 32 c)).last ?_
      rw [BitVec.toNat_ofNat, Nat.mod_eq_of_lt (by omega)]
    exact (Carries.check (decide_eq_true h)).after hread
  · have hstop : ∀ s, (writeCount c : Out ω Unit) s = .error .count := by
      intro s
      unfold writeCount Write.check
      rw [decide_eq_false h]
      rfl
    constructor
    · intro s e he
      rw [hstop] at he
      cases he
      exact (inferInstance : MayCount stop).count
    · intro s bs s' hok
      rw [hstop] at hok
      cases hok
    · intro s bs s' hok
      rw [hstop] at hok
      cases hok

theorem unsigned_saves (v : BitVec 32) :
    SavesOr stop strings refs (writeCount v.toNat) readUnsigned v := by
  refine (count_saves v.toNat).last ?_
  rw [BitVec.ofNat_toNat, BitVec.setWidth_eq]

end Counts

theorem bool_saves (v : Bool) : SavesOr stop strings refs (writeBool v) readBool v := by
  cases v with
  | false => exact (u8_saves 0).last rfl
  | true => exact (u8_saves 1).last rfl

variable [MayCount stop]

/-- A string is in the table from its first use on, at the place that is written. -/
theorem istring_saves (v : RcString) :
    SavesOr stop strings refs (writeIstring v) readIstring v := by
  have hindex : ∀ s : Writer ω, ∃ s' : Writer ω,
      stringIndex v s = .ok (s.istrings.idxOf v, [], s') ∧ s'.refs = s.refs ∧
        s.istrings <+: s'.istrings ∧ s'.istrings[s.istrings.idxOf v]? = some v := by
    intro s
    refine ⟨_, rfl, ?_⟩
    split
    · next hv =>
      exact ⟨rfl, List.prefix_refl _, List.getElem?_idxOf hv⟩
    · next hv =>
      refine ⟨rfl, List.prefix_append _ _, ?_⟩
      rw [List.idxOf_eq_length hv, List.getElem?_append_right (Nat.le_refl _), Nat.sub_self]
      rfl
  have hcount : ∀ i, SavesOr stop strings refs (writeCount i) readCount i := count_saves
  constructor
  · intro s e he
    obtain ⟨s', hi, _⟩ := hindex s
    rcases Write.bind_error he with he | ⟨_, _, _, hi', he⟩
    · rw [hi] at he
      cases he
    · exact (hcount _).stops he
  · intro s bs s'' hok hk
    obtain ⟨s', hi, _, hpre, _⟩ := hindex s
    obtain ⟨_, _, _, _, hi', hc, _⟩ := Write.bind_ok hok
    rw [hi] at hi'
    cases hi'
    exact hpre.trans ((hcount _).kept hc hk)
  · intro s bs s'' hok hk t rest hs
    obtain ⟨s', hi, hrefs, _, hget⟩ := hindex s
    obtain ⟨_, _, _, _, hi', hc, rfl⟩ := Write.bind_ok hok
    rw [hi] at hi'
    cases hi'
    have hkept : s'.istrings <+: strings := (hcount _).kept hc hk
    obtain ⟨t', hr, hs'⟩ := (hcount _).reads hc hk rest ⟨hs.1, by rw [hrefs]; exact hs.2⟩
    refine ⟨t', ?_, hs'⟩
    have hat : t'.strings[s.istrings.idxOf v]? = some v := by
      rw [hs'.1]
      obtain ⟨hi, hv⟩ := List.getElem?_eq_some_iff.1 hget
      exact List.getElem?_eq_some_iff.2 ⟨Nat.lt_of_lt_of_le hi hkept.length_le,
        (hkept.getElem hi).symm.trans hv⟩
    rw [List.nil_append, readIstring, Read.bind_of_ok hr, stringAt, hat]

theorem string_saves (v : Str) : SavesOr stop strings refs (writeString v) readString v :=
  (count_saves v.length).bind Carries.take

theorem object_saves (name : RcString) {P Q : ω → ρ → Prop} {w : Out ω Unit} {r : In ρ α}
    {a : α} (h : SavesFrom stop strings P Q w r a) :
    SavesFrom stop strings P Q (object name w) (inObject name r) a := by
  have hopen : SavesOr stop strings P (openObject name : Out ω Unit)
      (expectOpen name : In ρ Unit) () := by
    refine (u8_saves TAG_OPEN_NAMED).bind ?_
    exact (istring_saves name).last (by rw [bne_self_eq_false]; rfl)
  have hclose : SavesOr stop strings Q (closeObject : Out ω Unit) (expectClose : In ρ Unit) () :=
    (u8_saves TAG_CLOSE).last rfl
  exact hopen.bind (h.bind (hclose.last rfl))

theorem vec_saves {t : String} {w : γ → Out ω Unit} {r : In ρ α} {f : γ → α} {l : List γ}
    (h : ∀ c ∈ l, SavesOr stop strings refs (w c) r (f c)) :
    SavesOr stop strings refs (serialiseVec t w l) (deserialiseVec t r) (l.map f) :=
  object_saves _ ((count_saves l.length).bind (Carries.list h))

end Saves

end Trustme.Metadata
