/-
  Subject:   Enums in crate metadata (hir_main_bindings.cpp), and what of bodies and enums survives.

  * `HIREnum` and its parts -- what metadata holds of an enum: expressions, and what is only
    needed while the enum's own crate is compiled, are left out;
  * `enum_item_saves`: an enum comes back with discriminants of 64 bits;
  * `metadata_exact`: exactly which bodies and enums come back as they were.
-/
import Trustme.Metadata.MirRoundTrip

namespace Trustme.Metadata

open Trustme.Lib Trustme.Numeric

variable {V : Vocabulary} {ω ρ α : Type}

/-! ## 1. Enums and generics -/

inductive HIRGenericParamKind where
  | Type | Value
  deriving DecidableEq

inductive HIRBoundConstness where
  | Never | Always | Maybe
  deriving DecidableEq

instance : CEnum HIRGenericParamKind :=
  .ofList [.Type, .Value] (by intro x; cases x <;> decide) (by decide)

instance : CEnum HIRBoundConstness :=
  .ofList [.Never, .Always, .Maybe] (by intro x; cases x <;> decide) (by decide)

inductive Repr where
  | Auto | Usize | U8 | U16 | U32 | U64 | Isize | I8 | I16 | I32 | I64 | U128 | I128
  deriving DecidableEq

instance : CEnum Repr :=
  .ofList [.Auto, .Usize, .U8, .U16, .U32, .U64, .Isize, .I8, .I16, .I32, .I64, .U128, .I128]
    (by intro x; cases x <;> decide) (by decide)

structure HIRTypeParamDef (V : Vocabulary) where
  name : RcString
  defaultValue : V.HIRType
  isSized : Bool

structure HIRValueParamDef (V : Vocabulary) where
  name : RcString
  type : V.HIRType
  defaultValue : V.HIRConstGeneric

/-- `TraitBound`, the only kind of bound. -/
structure HIRGenericBound (V : Vocabulary) where
  type : V.HIRType
  trait : V.HIRTraitPath
  constness : HIRBoundConstness
  isTrivial : Bool

structure HIRGenericParams (V : Vocabulary) where
  paramKinds : List HIRGenericParamKind
  types : List (HIRTypeParamDef V)
  values : List (HIRValueParamDef V)
  bounds : List (HIRGenericBound V)

structure HIRTraitMarkings where
  hasADeref : Bool
  isCopy : Bool
  hasDropImpl : Bool
  hasConstDropImpl : Bool

structure ValueVariant where
  name : RcString
  val : U128

structure DataVariant (V : Vocabulary) where
  name : RcString
  isStruct : Bool
  type : V.HIRType
  discriminantValue : U128

inductive HIREnumClass (V : Vocabulary) where
  | Data (variants : List (DataVariant V))
  | Value (variants : List ValueVariant)

structure HIREnum (V : Vocabulary) where
  params : HIRGenericParams V
  isCRepr : Bool
  tagRepr : Repr
  forcedAlignment : BitVec 32
  mustUse : Bool
  data : HIREnumClass V
  markings : HIRTraitMarkings

/-! ## 2. The writer -/

namespace RefWriter

variable (W : RefWriter V ω)

/-- An enumeration over `u8`. -/
def writeKind [CEnum α] (x : α) : Out ω Unit := writeU8 (BitVec.ofNat 8 (CEnum.number x))

def serialiseTyparamdef (pd : HIRTypeParamDef V) : Out ω Unit := do
  writeIstring pd.name
  W.serialiseType pd.defaultValue
  writeBool pd.isSized

def serialiseValueparamdef (pd : HIRValueParamDef V) : Out ω Unit := do
  writeIstring pd.name
  W.serialiseType pd.type
  W.serialiseConstgeneric pd.defaultValue

def serialiseGenericbound (b : HIRGenericBound V) : Out ω Unit := do
  writeTag 2
  W.serialiseType b.type
  W.serialiseTraitpath b.trait
  writeKind b.constness
  writeBool b.isTrivial

def serialiseParamKinds (paramKinds : List HIRGenericParamKind) : Out ω Unit := do
  writeCount paramKinds.length
  Write.each writeKind paramKinds

def serialiseGenerics (params : HIRGenericParams V) : Out ω Unit := do
  Write.check
    (params.paramKinds.isEmpty ||
      params.paramKinds.length == params.types.length + params.values.length)
    (.bug "Incomplete generic parameter order: ")
  serialiseParamKinds params.paramKinds
  serialiseVec "HIRTypeParamDef" W.serialiseTyparamdef params.types
  serialiseVec "HIRValueParamDef" W.serialiseValueparamdef params.values
  serialiseVec "HIRGenericBound" W.serialiseGenericbound params.bounds

def markingFlags (m : HIRTraitMarkings) : BitVec 8 :=
  flagBit 0 m.hasADeref ||| flagBit 1 m.isCopy ||| flagBit 2 m.hasDropImpl |||
    flagBit 3 m.hasConstDropImpl

def serialiseMarkings (m : HIRTraitMarkings) : Out ω Unit := writeU8 (markingFlags m)

/-- `truncateU64` keeps the low half of the discriminant. -/
def serialiseEnumvaluevariant (v : ValueVariant) : Out ω Unit := do
  writeIstring v.name
  writeU64 v.val.lo

def serialiseEnumdatavariant (v : DataVariant V) : Out ω Unit := do
  writeIstring v.name
  writeBool v.isStruct
  W.serialiseType v.type
  writeU64 v.discriminantValue.lo

def serialiseEnumclass : HIREnumClass V → Out ω Unit
  | .Data variants => do
      writeTag 1
      serialiseVec "HIREnum::DataVariant" W.serialiseEnumdatavariant variants
  | .Value variants => do
      writeTag 2
      serialiseVec "HIREnum::ValueVariant" serialiseEnumvaluevariant variants

def serialiseEnum (item : HIREnum V) : Out ω Unit :=
  object "HIR::Enum".toList do
    W.serialiseGenerics item.params
    writeBool item.isCRepr
    writeEnum item.tagRepr
    writeCount item.forcedAlignment.toNat
    writeBool item.mustUse
    W.serialiseEnumclass item.data
    serialiseMarkings item.markings

end RefWriter

/-! ## 3. The reader -/

namespace RefReader

variable (R : RefReader V ρ)

def readKind [CEnum α] : In ρ α := do
  let v ← readU8
  match CEnum.named v.toNat with
  | some x => return x
  | none => Read.stop .unnamed

def deserialiseTyparamdef : In ρ (HIRTypeParamDef V) := do
  let name ← readIstring
  let defaultValue ← R.deserialiseType
  let isSized ← readBool
  return ⟨name, defaultValue, isSized⟩

def deserialiseValueparamdef : In ρ (HIRValueParamDef V) := do
  let name ← readIstring
  let type ← R.deserialiseType
  let defaultValue ← R.deserialiseConstgeneric
  return ⟨name, type, defaultValue⟩

def deserialiseGenericbound : In ρ (HIRGenericBound V) := do
  let tag ← readTag
  match tag with
  | 2 =>
    let type ← R.deserialiseType
    let trait ← R.deserialiseTraitpath
    let constness ← readKind
    let isTrivial ← readBool
    return ⟨type, trait, constness, isTrivial⟩
  | _ => Read.stop (.badTag "Bad tag for HIR::GenericBound - ")

def deserialiseParamKinds : In ρ (List HIRGenericParamKind) := do
  let paramKindCount ← readCount
  Read.times readKind paramKindCount

def deserialiseGenericparams : In ρ (HIRGenericParams V) := do
  let paramKinds ← deserialiseParamKinds
  let types ← deserialiseVec "HIRTypeParamDef" R.deserialiseTyparamdef
  let values ← deserialiseVec "HIRValueParamDef" R.deserialiseValueparamdef
  let bounds ← deserialiseVec "HIRGenericBound" R.deserialiseGenericbound
  return ⟨paramKinds, types, values, bounds⟩

def deserialiseMarkings : In ρ HIRTraitMarkings := do
  let bitflag1 ← readU8
  return {
    hasADeref := bitflag1.getLsbD 0
    isCopy := bitflag1.getLsbD 1
    hasDropImpl := bitflag1.getLsbD 2
    hasConstDropImpl := bitflag1.getLsbD 3 }

def deserialiseEnumvaluevariant : In ρ ValueVariant := do
  let name ← readIstring
  let val ← readU64
  return ⟨name, ⟨val, 0⟩⟩

def deserialiseEnumdatavariant : In ρ (DataVariant V) := do
  let name ← readIstring
  let isStruct ← readBool
  let type ← R.deserialiseType
  let discriminantValue ← readU64
  return ⟨name, isStruct, type, ⟨discriminantValue, 0⟩⟩

def deserialiseEnumclass : In ρ (HIREnumClass V) := do
  let tag ← readTag
  match tag with
  | 1 =>
    let variants ← deserialiseVec "HIREnum::DataVariant" R.deserialiseEnumdatavariant
    return .Data variants
  | 2 =>
    let variants ← deserialiseVec "HIREnum::ValueVariant" deserialiseEnumvaluevariant
    return .Value variants
  | _ => Read.stop (.badTag "Bad tag for HIR::Enum::Class - ")

def deserialiseEnum : In ρ (HIREnum V) :=
  inObject "HIR::Enum".toList do
    let params ← R.deserialiseGenericparams
    let isCRepr ← readBool
    let tagRepr ← readEnum
    let forcedAlignment ← readUnsigned
    let mustUse ← readBool
    let data ← R.deserialiseEnumclass
    let markings ← deserialiseMarkings
    return ⟨params, isCRepr, tagRepr, forcedAlignment, mustUse, data, markings⟩

end RefReader

/-! ## 4. What comes back of an enum -/

/-- The low half of a discriminant. -/
def savedDiscriminant (v : U128) : U128 := ⟨v.lo, 0⟩

def HIREnumClass.saved : HIREnumClass V → HIREnumClass V
  | .Data variants =>
    .Data (variants.map fun v =>
      { v with discriminantValue := savedDiscriminant v.discriminantValue })
  | .Value variants => .Value (variants.map fun v => { v with val := savedDiscriminant v.val })

def HIREnum.saved (item : HIREnum V) : HIREnum V := { item with data := item.data.saved }

/-- The order of the generics is complete, as the assertion asks. -/
def HIRGenericParams.Whole (params : HIRGenericParams V) : Prop :=
  params.paramKinds = [] ∨ params.paramKinds.length = params.types.length + params.values.length

section Enums

variable {strings : List RcString} {refs : ω → ρ → Prop} {W : RefWriter V ω} {R : RefReader V ρ}

open RefWriter RefReader

theorem kind_saves {stop : WriteStop → Prop} [CEnum α] (x : α) :
    SavesOr stop strings refs (writeKind x : Out ω Unit) readKind x := by
  have hv : (BitVec.ofNat 8 (CEnum.number x)).toNat = CEnum.number x := by
    rw [BitVec.toNat_ofNat]
    exact Nat.mod_eq_of_lt (CEnum.number_lt x)
  refine (u8_saves (BitVec.ofNat 8 (CEnum.number x))).last ?_
  rw [hv, CEnum.named_number]

variable (h : RoundTrips strings refs W R)

include h

theorem typaramdef_saves (pd : HIRTypeParamDef V) :
    Saves strings refs (W.serialiseTyparamdef pd) R.deserialiseTyparamdef pd :=
  (istring_saves pd.name).bind ((h.type pd.defaultValue).bind (bool_saves pd.isSized).map)

theorem valueparamdef_saves (pd : HIRValueParamDef V) :
    Saves strings refs (W.serialiseValueparamdef pd) R.deserialiseValueparamdef pd :=
  (istring_saves pd.name).bind ((h.type pd.type).bind (h.constgeneric pd.defaultValue).map)

theorem genericbound_saves (b : HIRGenericBound V) :
    Saves strings refs (W.serialiseGenericbound b) R.deserialiseGenericbound b :=
  (tag_saves (by decide)).bind ((h.type b.type).bind ((h.traitpath b.trait).bind
    ((kind_saves b.constness).bind (bool_saves b.isTrivial).map)))

theorem genericparams_saves {params : HIRGenericParams V}
    (hp : params.Whole) :
    Saves strings refs (W.serialiseGenerics params) R.deserialiseGenericparams params := by
  have hcheck : (params.paramKinds.isEmpty ||
      params.paramKinds.length == params.types.length + params.values.length) = true := by
    rcases hp with hp | hp
    · rw [hp]
      rfl
    · rw [hp, beq_self_eq_true, Bool.or_true]
  have hkinds : Saves strings refs (serialiseParamKinds params.paramKinds) deserialiseParamKinds
      params.paramKinds := by
    have hlist : Saves strings refs (Write.each writeKind params.paramKinds)
        (Read.times readKind params.paramKinds.length) (params.paramKinds.map id) :=
      Carries.list fun k _ => kind_saves k
    rw [List.map_id] at hlist
    exact (count_saves params.paramKinds.length).bind hlist
  exact (Carries.check hcheck).after (hkinds.bind
    ((vec_saves_self fun pd _ => typaramdef_saves h pd).bind
      ((vec_saves_self fun pd _ => valueparamdef_saves h pd).bind
        (vec_saves_self fun b _ => genericbound_saves h b).map)))

omit h in
theorem markings_saves (m : HIRTraitMarkings) :
    Saves strings refs (serialiseMarkings m : Out ω Unit) deserialiseMarkings m := by
  have hflags : ∀ {j}, j < 8 → (markingFlags m).getLsbD j = (m.hasADeref && decide (0 = j) ||
      m.isCopy && decide (1 = j) || m.hasDropImpl && decide (2 = j) ||
      m.hasConstDropImpl && decide (3 = j)) := by
    intro j hj
    simp only [markingFlags, BitVec.getLsbD_or, flagBit_getLsbD hj]
  refine (u8_saves (markingFlags m)).last (congrArg pure ?_)
  rw [hflags (by decide), hflags (by decide), hflags (by decide), hflags (by decide)]
  simp

theorem enumclass_saves (data : HIREnumClass V) :
    Saves strings refs (W.serialiseEnumclass data) R.deserialiseEnumclass data.saved := by
  cases data with
  | Data variants =>
    refine (tag_saves (by decide)).bind (Carries.map (vec_saves fun v _ => ?_))
    exact (istring_saves v.name).bind ((bool_saves v.isStruct).bind ((h.type v.type).bind
      (u64_saves v.discriminantValue.lo).map))
  | Value variants =>
    refine (tag_saves (by decide)).bind (Carries.map (vec_saves fun v _ => ?_))
    exact (istring_saves v.name).bind (u64_saves v.val.lo).map

/-- **An enum comes back from metadata**, with the low halves of its discriminants. -/
theorem enum_item_saves {item : HIREnum V}
    (hp : item.params.Whole) :
    Saves strings refs (W.serialiseEnum item) R.deserialiseEnum item.saved := by
  refine object_saves _ ?_
  exact (genericparams_saves h hp).bind ((bool_saves item.isCRepr).bind
    ((enum_saves item.tagRepr).bind ((unsigned_saves item.forcedAlignment).bind
      ((bool_saves item.mustUse).bind ((enumclass_saves h item.data).bind
        (markings_saves item.markings).map)))))

end Enums

/-! ## 5. What survives -/

def MIRStatement.asmOptions : MIRStatement V → List AsmOptions
  | .Asm2 options _ _ => [options]
  | _ => []

def MIRTerminator.asmOptions : MIRTerminator V → List AsmOptions
  | .Asm2 options _ _ _ => [options]
  | _ => []

/-- The options of all inline assembly in a body. -/
def MIRFunction.asmOptions (mir : MIRFunction V) : List AsmOptions :=
  mir.blocks.flatMap fun block =>
    block.statements.flatMap MIRStatement.asmOptions ++ block.terminator.asmOptions

def HIREnum.discriminants (item : HIREnum V) : List U128 :=
  match item.data with
  | .Data variants => variants.map (·.discriminantValue)
  | .Value variants => variants.map (·.val)

theorem map_eq_self {f : α → α} {l : List α} : l.map f = l ↔ ∀ x ∈ l, f x = x := by
  have h := List.map_eq_map_iff (l := l) (f := f) (g := id)
  rwa [List.map_id] at h

theorem options_saved_eq {o : AsmOptions} : o.saved = o ↔ o.naked = false := by
  obtain ⟨_, _, _, _, _, _, _, _, naked⟩ := o
  simp [AsmOptions.saved, eq_comm]

theorem statement_saved_eq {stmt : MIRStatement V} :
    stmt.saved = stmt ↔ ∀ o ∈ stmt.asmOptions, o.naked = false := by
  cases stmt with
  | Asm2 options lines params =>
    simp [MIRStatement.saved, MIRStatement.asmOptions, options_saved_eq]
  | _ => simp [MIRStatement.saved, MIRStatement.asmOptions]

theorem terminator_saved_eq {term : MIRTerminator V} :
    term.saved = term ↔ ∀ o ∈ term.asmOptions, o.naked = false := by
  cases term with
  | Asm2 options lines params retBlock =>
    simp [MIRTerminator.saved, MIRTerminator.asmOptions, options_saved_eq]
  | _ => simp [MIRTerminator.saved, MIRTerminator.asmOptions]

theorem function_saved_eq {mir : MIRFunction V} :
    mir.saved = mir ↔ ∀ o ∈ mir.asmOptions, o.naked = false := by
  have hblock : ∀ block : MIRBasicBlock V, block.saved = block ↔
      ∀ o ∈ block.statements.flatMap MIRStatement.asmOptions ++ block.terminator.asmOptions,
        o.naked = false := by
    intro block
    obtain ⟨statements, terminator, isCleanup⟩ := block
    simp only [MIRBasicBlock.saved, MIRBasicBlock.mk.injEq, and_true, map_eq_self,
      statement_saved_eq, terminator_saved_eq, List.mem_append, List.mem_flatMap]
    constructor
    · rintro ⟨hs, ht⟩ o (⟨stmt, hmem, ho⟩ | ho)
      · exact hs stmt hmem o ho
      · exact ht o ho
    · intro h
      exact ⟨fun stmt hmem o ho => h o (.inl ⟨stmt, hmem, ho⟩), fun o ho => h o (.inr ho)⟩
  obtain ⟨locals, dropFlags, blocks⟩ := mir
  simp only [MIRFunction.saved, MIRFunction.mk.injEq, true_and, map_eq_self, hblock,
    MIRFunction.asmOptions, List.mem_flatMap]
  constructor
  · intro h o ⟨block, hmem, ho⟩
    exact h block hmem o ho
  · intro h block hmem o ho
    exact h o ⟨block, hmem, ho⟩

theorem discriminant_saved_eq {v : U128} : savedDiscriminant v = v ↔ v.hi = 0 := by
  obtain ⟨lo, hi⟩ := v
  simp only [savedDiscriminant, U128.mk.injEq, true_and]
  exact eq_comm

theorem enum_saved_eq {item : HIREnum V} :
    item.saved = item ↔ ∀ v ∈ item.discriminants, v.hi = 0 := by
  obtain ⟨params, isCRepr, tagRepr, forcedAlignment, mustUse, data, markings⟩ := item
  cases data with
  | Data variants =>
    simp only [HIREnum.saved, HIREnumClass.saved, HIREnum.discriminants, HIREnum.mk.injEq,
      HIREnumClass.Data.injEq, true_and, and_true, map_eq_self, List.forall_mem_map]
    refine forall₂_congr fun v _ => ?_
    rw [← discriminant_saved_eq]
    obtain ⟨_, _, _, d⟩ := v
    simp
  | Value variants =>
    simp only [HIREnum.saved, HIREnumClass.saved, HIREnum.discriminants, HIREnum.mk.injEq,
      HIREnumClass.Value.injEq, true_and, and_true, map_eq_self, List.forall_mem_map]
    refine forall₂_congr fun v _ => ?_
    rw [← discriminant_saved_eq]
    obtain ⟨_, d⟩ := v
    simp

/-- There is a crate that the writer saves, and a reader for it. -/
def Written (strings : List RcString) (refs : ω → ρ → Prop) (w : Out ω Unit) : Prop :=
  ∃ s bs s', w s = .ok ((), bs, s') ∧ s'.istrings <+: strings ∧ ∃ t, refs s.refs t

/-- What is written is read in one way. -/
theorem Saves.unique {strings : List RcString} {refs : ω → ρ → Prop} {w : Out ω Unit} {r : In ρ α}
    {a b : α} (h : Saves strings refs w r a) (h' : Saves strings refs w r b)
    (hw : Written strings refs w) : a = b := by
  obtain ⟨s, bs, s', hok, hk, t, ht⟩ := hw
  obtain ⟨_, hr, _⟩ := h.reads hok hk [] (t := ⟨strings, t⟩) ⟨rfl, ht⟩
  obtain ⟨_, hr', _⟩ := h'.reads hok hk [] (t := ⟨strings, t⟩) ⟨rfl, ht⟩
  rw [hr] at hr'
  cases hr'
  rfl

section Exact

variable {strings : List RcString} {refs : ω → ρ → Prop} {W : RefWriter V ω} {R : RefReader V ρ}

/-- **What comes back from metadata as it was**: the bodies without naked assembly, and the enums
    whose discriminants have no more than 64 bits. -/
theorem metadata_exact (h : RoundTrips strings refs W R) :
    (∀ mir : MIRFunction V, mir.Whole W → Written strings refs (W.serialiseFunction mir) →
      (Saves strings refs (W.serialiseFunction mir) R.deserialiseMirFunction mir ↔
        ∀ o ∈ mir.asmOptions, o.naked = false)) ∧
    (∀ item : HIREnum V, item.params.Whole → Written strings refs (W.serialiseEnum item) →
      (Saves strings refs (W.serialiseEnum item) R.deserialiseEnum item ↔
        ∀ v ∈ item.discriminants, v.hi = 0)) := by
  constructor
  · intro mir hm hw
    have hsaved := function_saves h hm
    rw [← function_saved_eq]
    constructor
    · intro hself
      exact hsaved.unique hself hw
    · intro he
      rwa [he] at hsaved
  · intro item hp hw
    have hsaved := enum_item_saves h hp
    rw [← enum_saved_eq]
    constructor
    · intro hself
      exact hsaved.unique hself hw
    · intro he
      rwa [he] at hsaved

end Exact

/-- Types and paths that are names. -/
def named : Vocabulary := ⟨RcString, RcString, RcString, RcString, RcString, RcString,
    fun _ => false⟩

def namedWriter : RefWriter named Unit :=
  ⟨writeIstring, writeIstring, writeIstring, writeIstring, writeIstring, writeIstring, 0⟩

def namedReader : RefReader named Unit :=
  ⟨readIstring, readIstring, readIstring, readIstring, readIstring, readIstring⟩

theorem named_roundTrips (strings : List RcString) :
    RoundTrips strings (fun _ _ => True) namedWriter namedReader :=
  ⟨istring_saves, istring_saves, istring_saves, istring_saves, istring_saves, istring_saves⟩

/-- The table of strings after a run. -/
def stringsOf (w : Out Unit Unit) : List RcString :=
  match w ⟨[], ()⟩ with
  | .ok (_, _, s) => s.istrings
  | .error _ => []

def runs (w : Out Unit Unit) : Bool :=
  match w ⟨[], ()⟩ with
  | .ok _ => true
  | .error _ => false

theorem written_of_runs {w : Out Unit Unit} (h : runs w = true) :
    Written (stringsOf w) (fun _ (_ : Unit) => True) w := by
  unfold runs at h
  split at h
  · next x hx =>
    obtain ⟨_, bs, s⟩ := x
    have hs : stringsOf w = s.istrings := by
      unfold stringsOf
      rw [hx]
    exact ⟨_, bs, s, hx, hs ▸ List.prefix_refl _, (), trivial⟩
  · cases h

/-- `enum { A = v }` with `repr(i8)`. -/
def oneVariant (v : U128) : HIREnum named where
  params := ⟨[], [], [], []⟩
  isCRepr := false
  tagRepr := .I8
  forcedAlignment := 0
  mustUse := false
  data := .Value [⟨"A".toList, v⟩]
  markings := ⟨false, false, false, false⟩

/-- A body of one `asm!` or `naked_asm!`. -/
def asmBody (naked : Bool) : MIRFunction named :=
  ⟨[], [], [⟨[.Asm2 ⟨false, false, false, false, false, false, false, false, naked⟩ [] []],
    .Return, false⟩]⟩

theorem asmBody_whole (naked : Bool) : (asmBody naked).Whole namedWriter := by
  simp [asmBody, MIRFunction.Whole, MIRBasicBlock.Whole, MIRStatement.Whole, MIRTerminator.Whole]

/-- An enum `A = -1` does not come back, nor does a body of naked assembly. -/
theorem metadata_cuts :
    ¬ Saves (stringsOf (namedWriter.serialiseEnum (oneVariant ⟨-1, -1⟩))) (fun _ _ => True)
        (namedWriter.serialiseEnum (oneVariant ⟨-1, -1⟩)) namedReader.deserialiseEnum
        (oneVariant ⟨-1, -1⟩) ∧
      ¬ Saves (stringsOf (namedWriter.serialiseFunction (asmBody true))) (fun _ _ => True)
        (namedWriter.serialiseFunction (asmBody true)) namedReader.deserialiseMirFunction
        (asmBody true) := by
  constructor
  · intro h
    have heq := (enum_item_saves (named_roundTrips _) (.inl rfl)).unique h
      (written_of_runs (by decide +kernel))
    exact absurd (enum_saved_eq.1 heq ⟨-1, -1⟩ List.mem_cons_self) (by decide)
  · intro h
    have heq := (function_saves (named_roundTrips _) (asmBody_whole true)).unique h
      (written_of_runs (by decide +kernel))
    exact absurd (function_saved_eq.1 heq _ List.mem_cons_self) (by decide)

/-- A body of other assembly and an enum `A = 1` come back. -/
theorem metadata_exact_asm :
    Saves (stringsOf (namedWriter.serialiseFunction (asmBody false))) (fun _ _ => True)
        (namedWriter.serialiseFunction (asmBody false)) namedReader.deserialiseMirFunction
        (asmBody false) ∧
      Saves (stringsOf (namedWriter.serialiseEnum (oneVariant ⟨1, 0⟩))) (fun _ _ => True)
        (namedWriter.serialiseEnum (oneVariant ⟨1, 0⟩)) namedReader.deserialiseEnum
        (oneVariant ⟨1, 0⟩) := by
  constructor
  · refine ((metadata_exact (named_roundTrips _)).1 (asmBody false) (asmBody_whole false)
      (written_of_runs (by decide +kernel))).2 ?_
    simp [asmBody, MIRFunction.asmOptions, MIRStatement.asmOptions, MIRTerminator.asmOptions]
  · refine ((metadata_exact (named_roundTrips _)).2 (oneVariant ⟨1, 0⟩) (.inl rfl)
      (written_of_runs (by decide +kernel))).2 ?_
    simp [oneVariant, HIREnum.discriminants]

end Trustme.Metadata
