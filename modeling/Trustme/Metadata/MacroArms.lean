/-
  Subject:   Arms of macro_rules in crate metadata: `serialise` of `HirSerialiser` and
             `deserialiseMacrorulesarm` of `HirDeserialiser` (hir_main_bindings.cpp).

  * section 1 -- the writer, in the order of the source;
  * section 2 -- the reader. The contents are read to a given depth of loops.
-/
import Trustme.Metadata.MacroTokens

namespace Trustme.Metadata

open Trustme.Lib Trustme.Numeric

variable {ω ρ α : Type}

/-! ## 1. The writer -/

/-- `typeid(std::set<T>).name()` -/
def setName (t : String) : RcString := "std::set<".toList ++ t.toList ++ ">".toList

def hygieneName : RcString := "Ident::Hygiene".toList

def serialiseHygiene (h : Ident.Hygiene) : Out ω Unit :=
  object hygieneName do
    writeBool h.modPath.isSome
    match h.modPath with
    | some p => do
        writeIstring p.crate
        serialiseVec "RcString" writeIstring p.ents
    | none => pure ()

def serialiseTokenData : TokenData → Out ω Unit
  | .None => writeTag 1
  | .Ident e => do
      writeTag 2
      serialiseHygiene e.hygiene
      writeIstring e.name
  | .String value spelling => do
      writeTag 3
      writeString value
      writeIstring spelling
  | .Integer datatype intval spelling => do
      writeTag 4
      writeEnum datatype
      writeU128 intval
      writeIstring spelling
  | .Float datatype floatval spelling => do
      writeTag 5
      writeEnum datatype
      writeFloatValue floatval
      writeIstring spelling
  | .Fragment => do
      writeTag 6
      Write.stop
        (.bug "Serialising interpolated macro fragment - should have been handled in HIR lowering")

def serialiseToken (tok : Token) : Out ω Unit := do
  writeEnum tok.type
  serialiseTokenData tok.data
  writeU8 (BitVec.ofNat 8 (CEnum.number tok.spacing))

def serialiseSimplePatIfCheck (e : SimplePatIfCheck Token) : Out ω Unit := do
  writeEnum e.ty
  serialiseToken e.tok

def serialiseSimplePatEnt : SimplePatEnt Token → Out ω Unit
  | .End => writeTag 1
  | .LoopStart index => do
      writeTag 2
      writeCount index.toNat
  | .LoopNext => writeTag 3
  | .LoopEnd => writeTag 4
  | .Jump jumpTarget => do
      writeTag 5
      writeCount jumpTarget
  | .ExpectTok e => do
      writeTag 6
      serialiseToken e
  | .ExpectPat type idx => do
      writeTag 7
      writeEnum type
      writeCount idx.toNat
  | .If isEqual jumpTarget ents => do
      writeTag 8
      writeBool isEqual
      writeCount jumpTarget
      serialiseVec "SimplePatIfCheck" serialiseSimplePatIfCheck ents

def serialiseMacroExpansionConcatEnt : MacroExpansionConcatEnt Ident → Out ω Unit
  | .Named v => do
      writeTag 1
      writeCount v.toNat
  | .Ident i => do
      writeTag 2
      serialiseHygiene i.hygiene
      writeIstring i.name

mutual

def serialiseMacroExpansionEnt : MacroExpansionEnt Token Ident → Out ω Unit
  | .Token e => do
      writeTag 0
      serialiseToken e
  | .NamedValue e => do
      writeTag 1
      writeU8 ((e >>> 24).setWidth 8)
      writeCount (e &&& 0x00FFFFFF#32).toNat
  | .Loop entries joiner controllingInputLoops => do
      writeTag 2
      object (vectorName "MacroExpansionEnt") do
        writeCount entries.length
        serialiseContents entries
      serialiseToken joiner
      object (setName "unsigned int") do
        writeCount controllingInputLoops.1.length
        Write.each (fun v => writeCount v.toNat) controllingInputLoops.1
  | .Concat e => do
      writeTag 3
      serialiseVec "MacroExpansionConcatEnt" serialiseMacroExpansionConcatEnt e

/-- The loop over the entries. -/
def serialiseContents : List (MacroExpansionEnt Token Ident) → Out ω Unit
  | [] => pure ()
  | ent :: ents => do
      serialiseMacroExpansionEnt ent
      serialiseContents ents

end

def serialiseMacroRulesArm (arm : MacroRulesArm) : Out ω Unit := do
  serialiseVec "RcString" writeIstring arm.paramNames
  serialiseVec "SimplePatEnt" serialiseSimplePatEnt arm.pattern
  serialiseVec "MacroExpansionEnt" serialiseMacroExpansionEnt arm.contents

/-! ## 2. The reader -/

section Reader

-- the name of the crate that is read, and an address that the pool gives out
variable (crateName : RcString) (pool : Ident.ObjPool)

def deserialiseHygine : In ρ Ident.Hygiene :=
  inObject hygieneName do
    let hasModPath ← readBool
    if hasModPath then do
      let crate ← readIstring
      let ents ← deserialiseVec "RcString" readIstring
      if crate = [] then
        if crateName = [] then Read.stop (.bug "crateName != \"\"")
        else return (Ident.Hygiene.setModPath {} pool ⟨crateName, ents⟩).1
      else return (Ident.Hygiene.setModPath {} pool ⟨crate, ents⟩).1
    else return {}

def deserialiseTokendata : In ρ TokenData := do
  let tag ← readTag
  if tag = 1 then return .None
  else if tag = 2 then do
    let hygine ← deserialiseHygine crateName pool
    let name ← readIstring
    return .Ident { hygiene := hygine, name := name }
  else if tag = 3 then do
    let value ← readString
    let spelling ← readIstring
    return .String value spelling
  else if tag = 4 then do
    let dty ← readEnum
    let value ← readU128
    let spelling ← readIstring
    return .Integer dty value spelling
  else if tag = 5 then do
    let dty ← readEnum
    let value ← readFloatValue
    let spelling ← readIstring
    return .Float dty value spelling
  else Read.stop (.badTag "Bad tag for Token::Data - ")

def deserialiseToken : In ρ Token := do
  let ty ← readEnum
  let d ← deserialiseTokendata crateName pool
  let spacing ← readEnum
  return { type := ty, data := d, spacing := spacing }

def deserialiseSimplepatifcheck : In ρ (SimplePatIfCheck Token) := do
  let ty ← readEnum
  let tok ← deserialiseToken crateName pool
  return ⟨ty, tok⟩

def deserialiseSimplepatent : In ρ (SimplePatEnt Token) := do
  let tag ← readTag
  if tag = 1 then return .End
  else if tag = 2 then do
    let index ← readUnsigned
    return .LoopStart index
  else if tag = 3 then return .LoopNext
  else if tag = 4 then return .LoopEnd
  else if tag = 5 then do
    let jumpTarget ← readCount
    return .Jump jumpTarget
  else if tag = 6 then do
    let e ← deserialiseToken crateName pool
    return .ExpectTok e
  else if tag = 7 then do
    let type ← readEnum
    let idx ← readUnsigned
    return .ExpectPat type idx
  else if tag = 8 then do
    let isEqual ← readBool
    let jumpTarget ← readCount
    let ents ← deserialiseVec "SimplePatIfCheck" (deserialiseSimplepatifcheck crateName pool)
    return .If isEqual jumpTarget ents
  else Read.stop (.badTag "Bad tag for MacroPatEnt - #")

def deserialiseMacroexpansionconcatent : In ρ (MacroExpansionConcatEnt Ident) := do
  let tag ← readTag
  if tag = 2 then do
    let h ← deserialiseHygine crateName pool
    let n ← readIstring
    return .Ident { hygiene := h, name := n }
  else if tag = 1 then do
    let v ← readUnsigned
    return .Named v
  else Read.stop (.badTag "Bad tag for MacroExpansionConcatEnt - ")

/-- `std::set::insert`. -/
def insertLoop (v : BitVec 32) : List (BitVec 32) → List (BitVec 32)
  | [] => [v]
  | w :: ws => if v < w then v :: w :: ws else if v = w then w :: ws else w :: insertLoop v ws

theorem insertLoop_pairwise {l : List (BitVec 32)} (h : l.Pairwise (· < ·)) (v : BitVec 32) :
    (insertLoop v l).Pairwise (· < ·) ∧ ∀ x ∈ insertLoop v l, x = v ∨ x ∈ l := by
  induction l with
  | nil => exact ⟨List.pairwise_singleton .., fun x hx => .inl (List.mem_singleton.mp hx)⟩
  | cons w ws ih =>
    obtain ⟨hw, hws⟩ := List.pairwise_cons.mp h
    obtain ⟨ih, hmem⟩ := ih hws
    unfold insertLoop
    split_ifs with hlt heq
    · refine ⟨List.pairwise_cons.mpr ⟨fun x hx => ?_, h⟩, fun x hx => List.mem_cons.mp hx⟩
      rcases List.mem_cons.mp hx with rfl | hx
      · exact hlt
      · exact BitVec.lt_trans hlt (hw x hx)
    · exact ⟨h, fun x hx => .inr hx⟩
    · have hgt : w < v := by
        rw [BitVec.lt_def] at hlt ⊢
        rw [BitVec.toNat_eq] at heq
        omega
      refine ⟨List.pairwise_cons.mpr ⟨fun x hx => ?_, ih⟩, fun x hx => ?_⟩
      · exact (hmem x hx).elim (fun he => he ▸ hgt) (hw x)
      · rcases List.mem_cons.mp hx with rfl | hx
        · exact .inr List.mem_cons_self
        · exact (hmem x hx).imp_right (List.mem_cons_of_mem w)

def insertLoops (l : List (BitVec 32)) : {l : List (BitVec 32) // l.Pairwise (· < ·)} :=
  l.foldl (fun s v => ⟨insertLoop v s.1, (insertLoop_pairwise s.2 v).1⟩) ⟨[], .nil⟩

/-- An entry, where `nested` reads those in a loop. -/
def macroexpansionentOver (nested : In ρ (MacroExpansionEnt Token Ident)) :
    In ρ (MacroExpansionEnt Token Ident) := do
  let tag ← readTag
  if tag = 0 then do
    let e ← deserialiseToken crateName pool
    return .Token e
  else if tag = 1 then do
    let kind ← readU8
    let v ← readUnsigned
    return .NamedValue ((kind.setWidth 32 <<< 24) ||| v)
  else if tag = 2 then do
    let entries ← deserialiseVec "MacroExpansionEnt" nested
    let joiner ← deserialiseToken crateName pool
    let controllers ← inObject (setName "unsigned int") do
      let n ← readCount
      Read.times readUnsigned n
    return .Loop entries joiner (insertLoops controllers)
  else if tag = 3 then do
    let entries ← deserialiseVec "MacroExpansionConcatEnt"
      (deserialiseMacroexpansionconcatent crateName pool)
    return .Concat entries
  else Read.stop (.badTag "Bad tag for MacroExpansionEnt - ")

/-- An entry whose loops are nested no deeper than the number. -/
def deserialiseMacroexpansionent : Nat → In ρ (MacroExpansionEnt Token Ident)
  | 0 => macroexpansionentOver crateName pool (Read.stop (.bug "depth"))
  | depth + 1 => macroexpansionentOver crateName pool (deserialiseMacroexpansionent depth)

def deserialiseMacrorulesarm (depth : Nat) : In ρ MacroRulesArm := do
  let paramNames ← deserialiseVec "RcString" readIstring
  let pattern ← deserialiseVec "SimplePatEnt" (deserialiseSimplepatent crateName pool)
  let contents ← deserialiseVec "MacroExpansionEnt"
    (deserialiseMacroexpansionent crateName pool depth)
  return ⟨paramNames, pattern, contents, findTokenCaptures Token.type contents, rfl⟩

end Reader

end Trustme.Metadata
