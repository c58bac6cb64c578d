/-
  Subject:   What the texts of the mangler can begin with.

  Lists are written with their lengths in front and have no brackets, so what may follow a part is
  what keeps its end in place. Two facts are enough: no text begins like the relocations of a
  constant, an underscore and a digit (`Clear`), and types begin with a letter.

  * `Clear`: the texts that may follow a constant;
  * `HIRType.lead`, `HIRPath.lead`: the letter that a type or a path begins with;
  * `fmtType_leads`, ..., `fmtRanges_clear` -- the beginnings.
-/
import Trustme.Mangling.Names

namespace Trustme.Mangling

open Lib (Text Printer)
open Lib.Printer

/-! ## 1. The texts that may follow -/

/-- Does not begin with an underscore and a digit. -/
def Clear (r : Text) : Prop := ∀ c r', r = '_' :: c :: r' → c.isDigit = false

theorem Clear.of_head {c : Char} {r : Text} (h : c ≠ '_') : Clear (c :: r) := by
  intro d r' he
  exact absurd (List.cons.inj he).1 h

theorem Clear.of_digit {c : Char} {r : Text} (h : c.isDigit = true) : Clear (c :: r) := by
  refine Clear.of_head ?_
  rintro rfl
  exact absurd h (by decide)

/-- The letter a path begins with; a mark for one that is not encoded. -/
def HIRPath.lead : HIRPath → Char
  | .Generic _ => 'G'
  | .UfcsInherent _ _ _ _ => 'I'
  | .UfcsKnown _ _ _ _ => 'Q'
  | .UfcsUnknown _ _ _ => '!'

/-- The letter a type begins with; a mark for one that is not encoded. -/
def HIRType.lead : HIRType → Char
  | .Infer | .Generic | .ErasedType | .NodeType => '!'
  | .Tuple _ => 'T'
  | .Slice _ => 'S'
  | .Array _ _ => 'A'
  | .Path path => path.lead
  | .TraitObject _ _ _ _ => 'D'
  | .NamedFunction _ => 'f'
  | .Function _ _ _ _ _ _ _ _ => 'F'
  | .Borrow _ _ => 'B'
  | .Pointer _ _ => 'P'
  | .Primitive _ | .Diverge => 'C'
  | .Pattern _ _ _ => 'Q'

theorem HIRPath.lead_letter (p : HIRPath) : p.lead.isDigit = false ∧ p.lead ≠ '_' := by
  cases p <;> exact ⟨rfl, by simp [HIRPath.lead]⟩

theorem HIRPath.lead_mem (p : HIRPath) : p.lead ∈ ['G', 'I', 'Q', '!'] := by
  cases p <;> simp [HIRPath.lead]

theorem HIRType.lead_letter (ty : HIRType) : ty.lead.isDigit = false ∧ ty.lead ≠ '_' := by
  cases ty with
  | Path path => exact path.lead_letter
  | _ => exact ⟨rfl, by simp [HIRType.lead]⟩

namespace Mangler

variable {m : Mangler} {N : RcString → Prop} {F : Text → Prop}

/-! ## 2. One printer -/

/-- A repeated name begins with an underscore and a letter, any other with no underscore. -/
theorem fmtName_clear (hN : NamesApart N) {s : RcString} (hs : N s) :
    Leads F (m.fmtName s) Clear := by
  intro w t w' r h _
  rcases m.fmtName_cases h with ⟨idx, _, rfl, _⟩ | ⟨ht, _⟩
  · obtain ⟨c, u, hc, hd, _⟩ := fmtBase26Int_head idx
    intro d r' he
    rw [hc, List.cons_append, List.cons_append, List.cons.injEq, List.cons.injEq] at he
    rw [← he.2.1]
    exact hd
  · intro d r' he
    exact absurd (by rw [he]; rfl) (hN.head_ne_underscore (r := r) hs ht)

/-- A list begins with the digits of its length. -/
theorem number_clear {n : Nat} {p : Printer (List RcString)} : Leads F (number n ++ p) Clear :=
  Leads.number_append (fun _ _ hc => Clear.of_digit hc)

/-- A path begins with its letter; what has none is not written at all. -/
theorem fmtPath_leads (p : HIRPath) :
    Leads F (m.fmtPath p) (fun t => t.head? = some p.lead) := by
  cases p with
  | UfcsUnknown type item params => rw [fmtPath]; exact Leads.of_stop
  | _ => rw [fmtPath]; exact Leads.put_append (fun _ => rfl)

theorem fmtType_leads (ty : HIRType) :
    Leads F (m.fmtType ty) (fun t => t.head? = some ty.lead) := by
  cases ty with
  | Path path => rw [fmtType]; exact fmtPath_leads path
  | Infer => rw [fmtType]; exact Leads.of_stop
  | Generic => rw [fmtType]; exact Leads.of_stop
  | ErasedType => rw [fmtType]; exact Leads.of_stop
  | NodeType => rw [fmtType]; exact Leads.of_stop
  | Array inner size =>
    cases size with
    | Unevaluated => rw [fmtType]; exact Leads.of_stop
    | Known n => rw [fmtType]; exact Leads.put_append (fun _ => rfl)
  | TraitObject trait markers lifetimeIdentity hasFree =>
    obtain ⟨path, typeBounds, traitBounds, constness⟩ := trait
    rw [fmtType]
    exact Leads.put_append (fun _ => rfl)
  | _ => rw [fmtType]; exact Leads.put_append (fun _ => rfl)

theorem noDigit_of_head {c : Char} (hc : c.isDigit = false) {t : Text} (h : t.head? = some c) :
    NoDigit t := by
  intro d hd
  rw [h] at hd
  rw [← Option.some.inj hd]
  exact hc

theorem clear_of_head {c : Char} (hc : c ≠ '_') {t : Text} (h : t.head? = some c) : Clear t := by
  rintro d r' rfl
  exact absurd (Option.some.inj h).symm hc

/-- So a number before a type ends where the type begins. -/
theorem fmtType_noDigit (ty : HIRType) : Leads F (m.fmtType ty) NoDigit :=
  fun s t s' r h hr => noDigit_of_head ty.lead_letter.1 (fmtType_leads ty s t s' r h hr)

theorem fmtType_clear (ty : HIRType) : Leads F (m.fmtType ty) Clear :=
  fun s t s' r h hr => clear_of_head ty.lead_letter.2 (fmtType_leads ty s t s' r h hr)

/-- What follows a simple path is moved behind its components. -/
theorem fmtSimplePath_append (sp : HIRSimplePath) (p : Printer (List RcString)) :
    m.fmtSimplePath sp ++ p = number sp.components.length
      ++ (put ['c'] ++ (m.fmtName sp.crateName ++ (m.fmtNames sp.components ++ p))) := by
  rw [fmtSimplePath, append_assoc, append_assoc, append_assoc]

theorem fmtGenericPath_clear (gp : HIRGenericPath) : Leads F (m.fmtGenericPath gp) Clear := by
  obtain ⟨path, params⟩ := gp
  rw [fmtGenericPath, fmtSimplePath_append]
  exact number_clear

/-- A constant begins with a letter; only one that is evaluated is written. -/
theorem fmtConstGeneric_clear (value : HIRConstGeneric) :
    Leads F (m.fmtConstGeneric value) Clear := by
  cases value with
  | Evaluated bytes relocations =>
    rw [fmtConstGeneric]
    exact Leads.put_append (fun _ => Clear.of_head (by decide))
  | _ => rw [fmtConstGeneric]; exact Leads.of_stop

theorem fmtReloc_clear (relocation : Reloc) : Leads F (m.fmtReloc relocation) Clear := by
  cases relocation with
  | newNamed ofs len p preserve => rw [fmtReloc]; exact number_clear
  | newBytes ofs len bytes => rw [fmtReloc]; exact number_clear

theorem fmtRange_clear (range : HIRTypePatternRange) : Leads F (m.fmtRange range) Clear := by
  obtain ⟨start, stop, inclusive⟩ := range
  rw [fmtRange]
  refine Leads.put_append (fun _ => Clear.of_head ?_)
  split <;> decide

/-! ## 3. Lists -/

theorem fmtTypes_clear (types : List HIRType) : Leads Clear (m.fmtTypes types) Clear := by
  cases types with
  | nil => rw [fmtTypes]; exact Leads.of_skip
  | cons ty types => rw [fmtTypes]; exact Leads.of_append (fun _ => fmtType_clear ty)

theorem fmtTypes_noDigit (types : List HIRType) : Leads NoDigit (m.fmtTypes types) NoDigit := by
  cases types with
  | nil => rw [fmtTypes]; exact Leads.of_skip
  | cons ty types => rw [fmtTypes]; exact Leads.of_append (fun _ => fmtType_noDigit ty)

/-- With a type in the list nothing need be known of what follows it. -/
theorem fmtTypes_noDigit_of_ne {types : List HIRType} (h : types.length ≠ 0) :
    Leads F (m.fmtTypes types) NoDigit := by
  cases types with
  | nil => exact absurd rfl h
  | cons ty types => rw [fmtTypes]; exact Leads.of_append (fun _ => fmtType_noDigit ty)

theorem fmtConstGenerics_clear (values : List HIRConstGeneric) :
    Leads Clear (m.fmtConstGenerics values) Clear := by
  cases values with
  | nil => rw [fmtConstGenerics]; exact Leads.of_skip
  | cons v values =>
    rw [fmtConstGenerics]
    exact Leads.of_append (fun _ => fmtConstGeneric_clear v)

theorem fmtRelocs_clear (relocations : List Reloc) :
    Leads Clear (m.fmtRelocs relocations) Clear := by
  cases relocations with
  | nil => rw [fmtRelocs]; exact Leads.of_skip
  | cons r relocations => rw [fmtRelocs]; exact Leads.of_append (fun _ => fmtReloc_clear r)

theorem fmtMarkers_clear (markers : List HIRGenericPath) :
    Leads Clear (m.fmtMarkers markers) Clear := by
  cases markers with
  | nil => rw [fmtMarkers]; exact Leads.of_skip
  | cons p markers => rw [fmtMarkers]; exact Leads.of_append (fun _ => fmtGenericPath_clear p)

theorem fmtRanges_clear (alternatives : List HIRTypePatternRange) :
    Leads Clear (m.fmtRanges alternatives) Clear := by
  cases alternatives with
  | nil => rw [fmtRanges]; exact Leads.of_skip
  | cons range alternatives => rw [fmtRanges]; exact Leads.of_append (fun _ => fmtRange_clear range)

end Mangler

end Trustme.Mangling
