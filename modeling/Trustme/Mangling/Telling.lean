/-
  Subject:   One constructor of the syntax at a time: if the parts are told apart by their texts, so
             is the whole.

  * `Within`: made of a given set of names, trait objects of at most nine bounds and nine markers
    each, and no lifetimes that are written;
  * `Told`, `ToldAll`: told apart from every other value by the text;
  * `params_told`, `evaluated_told`, `newNamed_told`: parameters, values and relocations.
-/
import Trustme.Mangling.Beginnings

namespace Trustme.Mangling

open Lib (Text Printer)
open Lib.Printer

/-! ## 1. What is encoded without ambiguity -/

/-- No lifetimes are written. -/
def Mangler.Silent (m : Mangler) (lifetimeIdentity : RcString) (hasFree : Bool) : Prop :=
  ¬ (m.includeLifetimeIdentity hasFree = true ∧ lifetimeIdentity ≠ .empty)

def HIRSimplePath.Within (N : RcString → Prop) (sp : HIRSimplePath) : Prop :=
  N sp.crateName ∧ ∀ c ∈ sp.components, N c

section Within

variable (m : Mangler) (N : RcString → Prop)

mutual

/-- All names lie in `N`; a trait object has at most nine bounds and nine markers, whose numbers
    are written right in front of other numbers; and no lifetimes are written, which could belong
    to any of the types that end there. -/
def HIRType.Within : HIRType → Prop
  | .Infer | .Generic | .ErasedType | .NodeType | .Diverge | .Primitive _ => True
  | .Path path => path.Within
  | .TraitObject (.mk path typeBounds _ _) markers lifetimeIdentity lifetimeIdentityHasFree =>
    path.Within ∧ typeBounds.length < 10 ∧ boundsWithin typeBounds ∧ markers.length < 10
      ∧ markersWithin markers ∧ m.Silent lifetimeIdentity lifetimeIdentityHasFree
  | .Array inner _ => inner.Within
  | .Slice inner => inner.Within
  | .Tuple types => typesWithin types
  | .Borrow _ inner => inner.Within
  | .Pointer _ inner => inner.Within
  | .NamedFunction path => path.Within
  | .Function _ _ abi rettype argTypes _ lifetimeIdentity lifetimeIdentityHasFree =>
    N abi ∧ typesWithin argTypes ∧ rettype.Within
      ∧ m.Silent lifetimeIdentity lifetimeIdentityHasFree
  | .Pattern inner alternatives _ => inner.Within ∧ rangesWithin alternatives

def HIRPath.Within : HIRPath → Prop
  | .Generic gp => gp.Within
  | .UfcsInherent type item params _ => type.Within ∧ N item ∧ params.Within
  | .UfcsKnown type trait item params => type.Within ∧ trait.Within ∧ N item ∧ params.Within
  | .UfcsUnknown _ _ _ => True

def HIRGenericPath.Within : HIRGenericPath → Prop
  | .mk path params => path.Within N ∧ params.Within

def HIRPathParams.Within : HIRPathParams → Prop
  | .mk types values => typesWithin types ∧ valuesWithin values

def HIRConstGeneric.Within : HIRConstGeneric → Prop
  | .Infer | .Unevaluated | .Generic => True
  | .Evaluated _ relocations => relocsWithin relocations

def Reloc.Within : Reloc → Prop
  | .newNamed _ _ p _ => p.Within
  | .newBytes _ _ _ => True

def AtyEqual.Within : AtyEqual → Prop
  | .mk name _ _ type => N name ∧ type.Within

def HIRTypePatternRange.Within : HIRTypePatternRange → Prop
  | .mk start stop _ => valueWithin? start ∧ valueWithin? stop

def valueWithin? : Option HIRConstGeneric → Prop
  | none => True
  | some value => value.Within

def typesWithin : List HIRType → Prop
  | [] => True
  | ty :: types => ty.Within ∧ typesWithin types

def valuesWithin : List HIRConstGeneric → Prop
  | [] => True
  | v :: values => v.Within ∧ valuesWithin values

def relocsWithin : List Reloc → Prop
  | [] => True
  | r :: relocations => r.Within ∧ relocsWithin relocations

def markersWithin : List HIRGenericPath → Prop
  | [] => True
  | p :: markers => p.Within ∧ markersWithin markers

def boundsWithin : List AtyEqual → Prop
  | [] => True
  | aty :: bounds => aty.Within ∧ boundsWithin bounds

def rangesWithin : List HIRTypePatternRange → Prop
  | [] => True
  | range :: alternatives => range.Within ∧ rangesWithin alternatives

end

-- Their equations are derived here once, not in each of the proofs that rewrite by them.
attribute [local simp] HIRType.Within HIRPath.Within HIRGenericPath.Within HIRPathParams.Within
  HIRConstGeneric.Within Reloc.Within AtyEqual.Within HIRTypePatternRange.Within valueWithin?
  typesWithin valuesWithin relocsWithin markersWithin boundsWithin rangesWithin

end Within

/-! ## 2. Told apart -/

/-- No other value that `W` holds of has the text of `x`, whatever follows. -/
def Told {α : Type} (W : α → Prop) (f : α → Printer (List RcString)) (e : α → α) (x : α) : Prop :=
  ∀ y, W x → W y → Splits Clear (f x) (f y) (e x = e y)

/-- The same for lists of one length. -/
def ToldAll {α : Type} (W : List α → Prop) (f : List α → Printer (List RcString))
    (e : List α → List α) (xs : List α) : Prop :=
  ∀ ys, xs.length = ys.length → W xs → W ys → Splits Clear (f xs) (f ys) (e xs = e ys)

section Lists

variable {α : Type} {W : α → Prop} {f : α → Printer (List RcString)} {e : α → α}
  {Ws : List α → Prop} {fs : List α → Printer (List RcString)} {es : List α → List α}

theorem toldAll_nil (hf : fs [] = skip) : ToldAll Ws fs es [] := by
  intro ys hlen _ _
  obtain rfl := List.eq_nil_of_length_eq_zero hlen.symm
  rw [hf]
  exact Splits.same.imp (fun _ => rfl)

theorem toldAll_cons (hf : ∀ a as, fs (a :: as) = f a ++ fs as)
    (he : ∀ a as, es (a :: as) = e a :: es as) (hW : ∀ a as, Ws (a :: as) → W a ∧ Ws as)
    (hlead : ∀ as, Ws as → Leads Clear (fs as) Clear) {x : α} {xs : List α}
    (hx : Told W f e x) (hxs : ToldAll Ws fs es xs) : ToldAll Ws fs es (x :: xs) := by
  intro ys hlen hw hw'
  cases ys with
  | nil => exact absurd hlen (by simp)
  | cons y ys =>
    rw [hf, hf, he, he]
    refine (Splits.append (hx y (hW _ _ hw).1 (hW _ _ hw').1)
      (fun _ => hxs ys (by simpa using hlen) (hW _ _ hw).2 (hW _ _ hw').2)
      (hlead _ (hW _ _ hw).2) (hlead _ (hW _ _ hw').2)).imp ?_
    rintro ⟨h₁, h₂⟩
    rw [h₁, h₂]

end Lists

namespace Mangler

variable {m : Mangler} {N : RcString → Prop} {F : Text → Prop}

/-! ## 3. Names and simple paths -/

theorem fmtNames_splits (hN : NamesApart N) {xs ys : List RcString} (hlen : xs.length = ys.length)
    (hx : ∀ c ∈ xs, N c) (hy : ∀ c ∈ ys, N c) :
    Splits F (m.fmtNames xs) (m.fmtNames ys) (xs = ys) := by
  induction xs generalizing ys with
  | nil =>
    obtain rfl := List.eq_nil_of_length_eq_zero hlen.symm
    exact Splits.same.imp (fun _ => rfl)
  | cons x xs ih =>
    cases ys with
    | nil => exact absurd hlen (by simp)
    | cons y ys =>
      rw [fmtNames, fmtNames]
      refine (Splits.append_free
        (fun _ => m.fmtName_splits hN (hx x List.mem_cons_self) (hy y List.mem_cons_self))
        (fun _ => ih (by simpa using hlen) (fun c hc => hx c (List.mem_cons_of_mem _ hc))
          (fun c hc => hy c (List.mem_cons_of_mem _ hc)))).imp ?_
      rintro ⟨rfl, rfl⟩
      rfl

variable {p : Printer (List RcString)}

/-- A simple path and what comes after it. -/
theorem fmtSimplePath_splits (hN : NamesApart N) {sp sp' : HIRSimplePath} (h : sp.Within N)
    (h' : sp'.Within N) {q : Printer (List RcString)} {P : Prop} (hpq : Splits F p q P) :
    Splits F (m.fmtSimplePath sp ++ p) (m.fmtSimplePath sp' ++ q) (sp = sp' ∧ P) := by
  have hc : ∀ (q : Printer (List RcString)), Leads F (put ['c'] ++ q) NoDigit :=
    fun q => Leads.put_append (fun _ => NoDigit.cons rfl)
  rw [fmtSimplePath_append, fmtSimplePath_append]
  refine (Splits.number_append (fun hlen => Splits.put_append (Splits.append_free
    (fun _ => m.fmtName_splits hN h.1 h'.1) (fun _ => Splits.append_free
      (fun _ => fmtNames_splits hN hlen h.2 h'.2) (fun _ => hpq)))) (fun _ => hc _)
    (fun _ => hc _)).imp ?_
  rintro ⟨_, h₁, h₂, hP⟩
  cases sp
  cases sp'
  exact ⟨by rw [HIRSimplePath.mk.injEq]; exact ⟨h₁, h₂⟩, hP⟩

theorem fmtLifetimeIdentity_silent {lifetimeIdentity : RcString} {hasFree : Bool}
    (h : m.Silent lifetimeIdentity hasFree) :
    m.fmtLifetimeIdentity lifetimeIdentity hasFree = skip := if_neg h

section Syntax

variable (m N)

abbrev TypeTold := Told (HIRType.Within m N) m.fmtType HIRType.erase
abbrev PathTold := Told (HIRPath.Within m N) m.fmtPath HIRPath.erase
abbrev GenericTold := Told (HIRGenericPath.Within m N) m.fmtGenericPath HIRGenericPath.erase
abbrev ParamsTold := Told (HIRPathParams.Within m N) m.fmtPathParams HIRPathParams.erase
abbrev ConstTold := Told (HIRConstGeneric.Within m N) m.fmtConstGeneric HIRConstGeneric.erase
abbrev RelocTold := Told (Reloc.Within m N) m.fmtReloc Reloc.erase
abbrev AtyTold := Told (AtyEqual.Within m N) m.fmtAtyEqual AtyEqual.erase
abbrev RangeTold := Told (HIRTypePatternRange.Within m N) m.fmtRange HIRTypePatternRange.erase
abbrev TypesTold := ToldAll (typesWithin m N) m.fmtTypes eraseTypes
abbrev ValuesTold := ToldAll (valuesWithin m N) m.fmtConstGenerics eraseValues
abbrev RelocsTold := ToldAll (relocsWithin m N) m.fmtRelocs eraseRelocs
abbrev MarkersTold := ToldAll (markersWithin m N) m.fmtMarkers eraseMarkers
abbrev BoundsTold := ToldAll (boundsWithin m N) m.fmtBounds eraseBounds
abbrev RangesTold := ToldAll (rangesWithin m N) m.fmtRanges eraseRanges

end Syntax

/-! ## 4. Parameters and constants -/

theorem put_noDigit {c : Char} (hc : c.isDigit = false) :
    Leads F (put [c] ++ p) NoDigit := Leads.put_append (fun _ => NoDigit.cons hc)

theorem params_told {types : List HIRType} {values : List HIRConstGeneric}
    (ht : TypesTold m N types) (hv : ValuesTold m N values) :
    ParamsTold m N (.mk types values) := by
  rintro ⟨types', values'⟩ hw hw'
  rw [HIRPathParams.Within] at hw hw'
  rw [fmtPathParams, fmtPathParams, HIRPathParams.erase, HIRPathParams.erase]
  have hvg : types.length = types'.length → values.length = values'.length →
      Splits Clear (m.fmtTypes types ++ m.fmtConstGenerics values)
        (m.fmtTypes types' ++ m.fmtConstGenerics values')
        (eraseTypes types = eraseTypes types' ∧ eraseValues values = eraseValues values') :=
    fun htl hvl => Splits.append (ht _ htl hw.1 hw'.1)
      (fun _ => hv _ hvl hw.2 hw'.2) (fmtConstGenerics_clear _) (fmtConstGenerics_clear _)
  have hlead : ∀ (n : Nat) (p : Printer (List RcString)),
      Leads Clear ((if n > 0 then put ['v'] ++ number n else skip) ++ (put ['g'] ++ p))
        NoDigit := by
    intro n p
    by_cases hn : n > 0
    · rw [if_pos hn, append_assoc]
      exact put_noDigit rfl
    · rw [if_neg hn, skip_append]
      exact put_noDigit rfl
  refine (Splits.number_append (P := eraseTypes types = eraseTypes types'
    ∧ eraseValues values = eraseValues values') (fun htl => ?_) (fun _ => hlead _ _)
    (fun _ => hlead _ _)).imp ?_
  · by_cases hv₁ : values.length > 0 <;> by_cases hv₂ : values'.length > 0
    · rw [if_pos hv₁, if_pos hv₂, append_assoc, append_assoc]
      exact Splits.put_append ((Splits.number_put rfl (hvg htl)).imp And.right)
    · rw [if_pos hv₁, if_neg hv₂, append_assoc, skip_append]
      exact Splits.of_head (by decide)
    · rw [if_neg hv₁, if_pos hv₂, append_assoc, skip_append]
      exact Splits.of_head (by decide)
    · rw [if_neg hv₁, if_neg hv₂, skip_append, skip_append]
      exact Splits.put_append (hvg htl (by omega))
  · rintro ⟨_, h₁, h₂⟩
    rw [h₁, h₂]

variable {bytes : List (BitVec 8)}

/-- Bytes behind their number. -/
theorem bytes_splits {bytes' : List (BitVec 8)} (hlen : bytes.length = bytes'.length) :
    Splits F (put (fmtBytes bytes) : Printer (List RcString)) (put (fmtBytes bytes'))
      (bytes = bytes') := by
  refine (Splits.texts ?_).imp fmtBytes_injective
  rw [fmtBytes_eq, fmtBytes_eq, length_hexText, length_hexText, List.length_map, List.length_map,
    hlen]

/-- Relocations begin as nothing that may follow a constant does. -/
theorem relocations_lead {n : Nat} :
    Leads F (put ['_'] ++ (number n ++ p)) (fun t => ¬ Clear t) := by
  refine Leads.append (G := fun t => ∃ c r, t = c :: r ∧ c.isDigit = true) ?_
    (Leads.number_append (fun c r hc => ⟨c, r, rfl, hc⟩))
  intro s t s' r h hr hclear
  obtain ⟨rfl, _⟩ := put_eq_some.1 h
  obtain ⟨c, r', rfl, hc⟩ := hr
  rw [hclear c r' rfl] at hc
  exact Bool.false_ne_true hc

theorem evaluated_told {relocations : List Reloc}
    (hr : RelocsTold m N relocations) : ConstTold m N (.Evaluated bytes relocations) := by
  intro y hw hw'
  cases y with
  | Infer => rw [fmtConstGeneric, fmtConstGeneric]; exact Splits.of_stop.symm
  | Unevaluated => rw [fmtConstGeneric, fmtConstGeneric]; exact Splits.of_stop.symm
  | Generic => rw [fmtConstGeneric, fmtConstGeneric]; exact Splits.of_stop.symm
  | Evaluated bytes' relocations' =>
    rw [HIRConstGeneric.Within] at hw hw'
    rw [fmtConstGeneric, fmtConstGeneric, HIRConstGeneric.erase, HIRConstGeneric.erase]
    refine (Splits.put_append (Splits.number_put rfl (fun hlen =>
      Splits.append_free (Q := eraseRelocs relocations = eraseRelocs relocations')
        (fun _ => bytes_splits hlen) (fun _ => ?_)))).imp ?_
    · cases relocations with
      | nil =>
        cases relocations' with
        | nil => exact Splits.same.imp (fun _ => rfl)
        | cons r' relocations' =>
          exact Splits.of_leads (A := Clear) Leads.of_skip relocations_lead
            (fun _ hc hn => hn hc)
      | cons r relocations =>
        cases relocations' with
        | nil =>
          exact (Splits.of_leads (A := Clear) Leads.of_skip relocations_lead
            (fun _ hc hn => hn hc)).symm
        | cons r' relocations' =>
          exact Splits.put_append ((Splits.number_put rfl
            (fun hlen => hr _ hlen hw hw')).imp And.right)
    · rintro ⟨_, rfl, h⟩
      rw [h]

/-- An item and some bytes. -/
theorem newNamed_newBytes_splits {ofs len ofs' len' : Nat} {p : HIRPath} {preserve : Bool}
    {P : Prop} :
    Splits F (m.fmtReloc (.newNamed ofs len p preserve)) (m.fmtReloc (.newBytes ofs' len' bytes))
      P := by
  rw [fmtReloc, fmtReloc]
  exact (Splits.number_put (P := P) rfl
    (fun _ => Splits.number_of_head rfl rfl (by decide))).imp And.right

theorem newNamed_told {ofs len : Nat} {p : HIRPath} {preserve : Bool} (hp : PathTold m N p) :
    RelocTold m N (.newNamed ofs len p preserve) := by
  intro y hw hw'
  cases y with
  | newNamed ofs' len' p' preserve' =>
    rw [Reloc.Within] at hw hw'
    rw [fmtReloc, fmtReloc, Reloc.erase, Reloc.erase]
    refine (Splits.number_put rfl (fun _ => Splits.number_put rfl (fun _ => hp p' hw hw'))).imp ?_
    rintro ⟨rfl, rfl, h⟩
    rw [h]
  | newBytes ofs' len' bytes' => exact newNamed_newBytes_splits

theorem newBytes_told {ofs len : Nat} :
    RelocTold m N (.newBytes ofs len bytes) := by
  intro y hw hw'
  cases y with
  | newNamed ofs' len' p' preserve' => exact newNamed_newBytes_splits.symm
  | newBytes ofs' len' bytes' =>
    rw [fmtReloc, fmtReloc, Reloc.erase, Reloc.erase]
    refine (Splits.number_put rfl (fun _ => Splits.number_put rfl (fun _ =>
      Splits.number_put rfl bytes_splits))).imp ?_
    rintro ⟨rfl, rfl, _, rfl⟩
    rfl

end Mangler

end Trustme.Mangling
