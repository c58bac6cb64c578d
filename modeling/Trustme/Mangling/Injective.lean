/-
  Subject:   Texts of different items are different.

  * `typeTold`, `pathTold`, ... -- the induction over the syntax, one case for each constructor;
  * `mangling_injective`: simple paths, generic paths, paths and types;
  * `mangling_not_injective`: names and counts that the mangler merges.
-/
import Mathlib.Data.Nat.Log
import Trustme.Mangling.TypesTold

namespace Trustme.Mangling

open Lib (Text Printer)
open Lib.Printer

namespace Mangler

variable {m : Mangler} {N : RcString → Prop} {F : Text → Prop}

/-! ## 1. The induction over the syntax -/

section Induction

set_option linter.unusedSectionVars false

variable (hN : NamesApart N)

include hN

mutual

theorem typeTold : (x : HIRType) → TypeTold m N x
  | .Infer => nonEncodable_told (by rw [fmtType])
  | .Diverge => diverge_told
  | .Primitive _ => primitive_told
  | .Path (.Generic gp) =>
    path_told (genericPath_told (genericTold gp)) (fun _ _ _ _ h => nomatch h)
  | .Path (.UfcsInherent type _ params _) =>
    path_told (inherent_told hN (typeTold type) (paramsTold params)) (fun _ _ _ _ h => nomatch h)
  | .Path (.UfcsKnown type trait _ params) =>
    path_told (known_told hN (typeTold type) (genericTold trait) (paramsTold params))
      (fun _ _ _ _ h => (HIRPath.UfcsKnown.inj h).1 ▸ typeTold type)
  | .Path (.UfcsUnknown _ _ _) => path_told unknown_told (fun _ _ _ _ h => nomatch h)
  | .Generic => nonEncodable_told (by rw [fmtType])
  | .TraitObject (.mk path typeBounds _ _) markers _ _ =>
    traitObject_told (genericTold path) (boundsTold typeBounds) (markersTold markers)
  | .ErasedType => nonEncodable_told (by rw [fmtType])
  | .Array _ .Unevaluated => nonEncodable_told (by rw [fmtType])
  | .Array inner (.Known _) => array_told (typeTold inner)
  | .Slice inner => slice_told (typeTold inner)
  | .Tuple types => tuple_told (typesTold types)
  | .Borrow _ inner => borrow_told (typeTold inner)
  | .Pointer _ inner => pointer_told (typeTold inner)
  | .NamedFunction path => namedFunction_told (pathTold path)
  | .Function _ _ _ rettype argTypes _ _ _ =>
    function_told hN (typeTold rettype) (typesTold argTypes)
  | .NodeType => nonEncodable_told (by rw [fmtType])
  | .Pattern inner alternatives _ => pattern_told (typeTold inner) (rangesTold alternatives)

theorem pathTold : (x : HIRPath) → PathTold m N x
  | .Generic gp => genericPath_told (genericTold gp)
  | .UfcsInherent type _ params _ => inherent_told hN (typeTold type) (paramsTold params)
  | .UfcsKnown type trait _ params =>
    known_told hN (typeTold type) (genericTold trait) (paramsTold params)
  | .UfcsUnknown _ _ _ => unknown_told

theorem genericTold : (x : HIRGenericPath) → GenericTold m N x
  | .mk _ params => generic_told hN (paramsTold params)

theorem paramsTold : (x : HIRPathParams) → ParamsTold m N x
  | .mk types values => params_told (typesTold types) (valuesTold values)

theorem constTold : (x : HIRConstGeneric) → ConstTold m N x
  | .Infer => fun _ _ _ => by rw [fmtConstGeneric]; exact Splits.of_stop
  | .Unevaluated => fun _ _ _ => by rw [fmtConstGeneric]; exact Splits.of_stop
  | .Generic => fun _ _ _ => by rw [fmtConstGeneric]; exact Splits.of_stop
  | .Evaluated _ relocations => evaluated_told (relocsTold relocations)

theorem relocTold : (x : Reloc) → RelocTold m N x
  | .newNamed _ _ p _ => newNamed_told (pathTold p)
  | .newBytes _ _ _ => newBytes_told

theorem atyTold : (x : AtyEqual) → AtyTold m N x
  | .mk _ _ _ type => aty_told hN (typeTold type)

theorem rangeTold : (x : HIRTypePatternRange) → RangeTold m N x
  | .mk start stop _ => range_told (valueTold? start) (valueTold? stop)

theorem valueTold? : (x : Option HIRConstGeneric) → ValueTold m N x
  | none => noValue_told
  | some value => value_told (constTold value)

theorem typesTold : (xs : List HIRType) → TypesTold m N xs
  | [] => toldAll_nil (by rw [fmtTypes])
  | ty :: types => toldAll_cons (fun _ _ => by rw [fmtTypes]) (fun _ _ => by rw [eraseTypes])
      (fun _ _ h => by rwa [typesWithin] at h) (fun as _ => fmtTypes_clear as) (typeTold ty)
      (typesTold types)

theorem valuesTold : (xs : List HIRConstGeneric) → ValuesTold m N xs
  | [] => toldAll_nil (by rw [fmtConstGenerics])
  | v :: values => toldAll_cons (fun _ _ => by rw [fmtConstGenerics])
      (fun _ _ => by rw [eraseValues]) (fun _ _ h => by rwa [valuesWithin] at h)
      (fun as _ => fmtConstGenerics_clear as) (constTold v) (valuesTold values)

theorem relocsTold : (xs : List Reloc) → RelocsTold m N xs
  | [] => toldAll_nil (by rw [fmtRelocs])
  | r :: relocations => toldAll_cons (fun _ _ => by rw [fmtRelocs])
      (fun _ _ => by rw [eraseRelocs]) (fun _ _ h => by rwa [relocsWithin] at h)
      (fun as _ => fmtRelocs_clear as) (relocTold r) (relocsTold relocations)

theorem markersTold : (xs : List HIRGenericPath) → MarkersTold m N xs
  | [] => toldAll_nil (by rw [fmtMarkers])
  | p :: markers => toldAll_cons (fun _ _ => by rw [fmtMarkers])
      (fun _ _ => by rw [eraseMarkers]) (fun _ _ h => by rwa [markersWithin] at h)
      (fun as _ => fmtMarkers_clear as) (genericTold p) (markersTold markers)

theorem boundsTold : (xs : List AtyEqual) → BoundsTold m N xs
  | [] => toldAll_nil (by rw [fmtBounds])
  | aty :: bounds => toldAll_cons (fun _ _ => by rw [fmtBounds]) (fun _ _ => by rw [eraseBounds])
      (fun _ _ h => by rwa [boundsWithin] at h) (fun _ h => fmtBounds_clear hN h) (atyTold aty)
      (boundsTold bounds)

theorem rangesTold : (xs : List HIRTypePatternRange) → RangesTold m N xs
  | [] => toldAll_nil (by rw [fmtRanges])
  | range :: alternatives => toldAll_cons (fun _ _ => by rw [fmtRanges])
      (fun _ _ => by rw [eraseRanges]) (fun _ _ h => by rwa [rangesWithin] at h)
      (fun as _ => fmtRanges_clear as) (rangeTold range) (rangesTold alternatives)

end

end Induction

/-! ## 2. Different items, different texts -/

/-- Both write the same text, each with a window of its own. -/
def SameText (p q : Printer (List RcString)) : Prop :=
  ∃ t w w', p [] = some (t, w) ∧ q [] = some (t, w')

/-- Do two printers write one text when nothing has been written before? -/
def writesSame (p q : Printer (List RcString)) : Bool :=
  (p []).isSome && (p []).map Prod.fst == (q []).map Prod.fst

theorem SameText.of_writesSame {p q : Printer (List RcString)} (h : writesSame p q = true) :
    SameText p q := by
  obtain ⟨hsome, heq⟩ := Bool.and_eq_true_iff.1 h
  obtain ⟨⟨t, w⟩, hp⟩ := Option.isSome_iff_exists.1 hsome
  have hmap := eq_of_beq heq
  rw [hp] at hmap
  obtain ⟨⟨t', w'⟩, hq, ht⟩ := Option.map_eq_some_iff.1 hmap.symm
  obtain rfl : t' = t := ht
  exact ⟨t', w, w', hp, hq⟩

theorem SameText.of_splits {p q : Printer (List RcString)} {P : Prop} (h : Splits Clear p q P)
    (hpq : SameText p q) : P := by
  obtain ⟨t, w, w', hp, hq⟩ := hpq
  have hnil : Clear [] := fun _ _ he => nomatch he
  exact (h [] t w t w' [] [] hp hq hnil hnil rfl).1

/-- **Different items have different texts.** Their names are none that the mangler merges; trait
    objects have at most nine bounds and nine markers; no lifetimes are written. What no text
    carries is erased from the items before they are compared. -/
theorem mangling_injective (m : Mangler) (N : RcString → Prop) (hN : NamesApart N) :
    (∀ sp sp' : HIRSimplePath, sp.Within N → sp'.Within N →
      SameText (m.fmtSimplePath sp) (m.fmtSimplePath sp') → sp = sp')
    ∧ (∀ gp gp' : HIRGenericPath, gp.Within m N → gp'.Within m N →
      SameText (m.fmtGenericPath gp) (m.fmtGenericPath gp') → gp.erase = gp'.erase)
    ∧ (∀ p p' : HIRPath, p.Within m N → p'.Within m N →
      SameText (m.fmtPath p) (m.fmtPath p') → p.erase = p'.erase)
    ∧ (∀ ty ty' : HIRType, ty.Within m N → ty'.Within m N →
      SameText (m.fmtType ty) (m.fmtType ty') → ty.erase = ty'.erase) := by
  refine ⟨?_, ?_, ?_, ?_⟩
  · intro sp sp' h h' hs
    have hsp := fmtSimplePath_splits (m := m) (F := Clear) (p := skip) (q := skip) hN h h'
      Splits.same
    rw [append_skip, append_skip] at hsp
    exact (SameText.of_splits hsp hs).1
  · exact fun gp gp' h h' => SameText.of_splits (genericTold hN gp gp' h h')
  · exact fun p p' h h' => SameText.of_splits (pathTold hN p p' h h')
  · exact fun ty ty' h h' => SameText.of_splits (typeTold hN ty ty' h h')

/-- The mangler of ordinary symbols, with the length of a reference computed exactly. -/
def ordinary : Mangler := ⟨.Erased, fun idx => 1 + Nat.clog 26 (idx + 1)⟩

/-- A name given by its bytes. -/
def lit (bytes : List Char)
    (h : (bytes.all fun c => decide (0 < c.toNat ∧ c.toNat < 256)) = true) : RcString :=
  ⟨bytes, fun c hc => by simpa using List.all_eq_true.1 h c hc⟩

/-- The function pointers `fn(a-b) -> !` of two lifetimes have one symbol, and are the same but for
    that. -/
def fnPointer (lifetimeIdentity : RcString) : HIRType :=
  .Function false false (lit ['R', 'u', 's', 't'] rfl) .Diverge
    [.Path (.Generic (.mk ⟨lit ['a', '-', 'b'] rfl, []⟩ (.mk [] [])))] false lifetimeIdentity false

theorem mangling_injective_fnPointer :
    fnPointer (lit ['x'] rfl) ≠ fnPointer (lit ['y'] rfl)
      ∧ (fnPointer (lit ['x'] rfl)).erase = (fnPointer (lit ['y'] rfl)).erase := by
  let N : RcString → Prop :=
    fun s => s = lit ['R', 'u', 's', 't'] rfl ∨ s = lit ['a', '-', 'b'] rfl
  have hN : NamesApart N := by
    refine ⟨?_, ?_⟩
    · rintro s (rfl | rfl) _ c cs h hc
      · obtain rfl : 'R' = c := (List.cons.inj h).1
        exact absurd hc (by decide)
      · obtain rfl : 'a' = c := (List.cons.inj h).1
        exact absurd hc (by decide)
    · rintro s s' (rfl | rfl) (rfl | rfl) h
      · rfl
      · exact absurd h (by decide)
      · exact absurd h (by decide)
      · rfl
  have hw : ∀ s, (fnPointer s).Within ordinary N := by
    intro s
    simp [fnPointer, HIRType.Within, typesWithin, HIRPath.Within, HIRGenericPath.Within,
      HIRSimplePath.Within, HIRPathParams.Within, valuesWithin, Mangler.Silent,
      Mangler.includeLifetimeIdentity, ordinary, N]
  refine ⟨fun h => ?_, (mangling_injective ordinary N hN).2.2.2 _ _ (hw _) (hw _) ?_⟩
  · injection h with _ _ _ _ _ _ hid _
    exact absurd hid (by decide)
  · exact SameText.of_writesSame (by decide +kernel)

/-- A type that is named like its crate. -/
def crateType (crateName : RcString) : HIRType :=
  .Path (.Generic (.mk ⟨crateName, []⟩ (.mk [] [])))

/-- A trait object without markers and lifetimes, of a trait in a crate without a name. -/
def dynType (typeBounds : List AtyEqual) : HIRType :=
  .TraitObject (.mk (.mk ⟨.empty, []⟩ (.mk [] [])) typeBounds [] .Never) [] .empty false

def atyEqual (name : RcString) (type : HIRType) : AtyEqual := .mk name .none .none type

/-- A path of `n` items called `a` in a crate. -/
def deepType (crateName : RcString) (n : Nat) : HIRType :=
  .Path (.Generic (.mk ⟨crateName, List.replicate n (lit ['a'] rfl)⟩ (.mk [] [])))

/-- The texts of the bounds `d = u8` to `p = u8`, one after the other. -/
def innerBounds : List Char :=
  ['d', 'e', 'f', 'g', 'h', 'i', 'j', 'k', 'l', 'm', 'n', 'o', 'p'].flatMap
    fun c => ['1', c, 'C', 'a']

/-- One bound, whose text goes on like that of sixteen. -/
def oneBound : List AtyEqual :=
  [atyEqual (lit ['A', '1', 'a', 'S', 'C', 'a'] rfl)
    (deepType (lit (['x', 'y', 'z', 'C', 'a'] ++ innerBounds ++ ['1', 'q', 'G', '5', 'c']) rfl) 6)]

def sixteenBounds : List AtyEqual :=
  [atyEqual (lit ['#', 'a'] rfl) (.Slice (.Primitive .U8)),
    atyEqual (lit ['c', '6', '2', 'x', 'y', 'z', '#'] rfl) (.Primitive .U8)]
  ++ ([lit ['d'] rfl, lit ['e'] rfl, lit ['f'] rfl, lit ['g'] rfl, lit ['h'] rfl, lit ['i'] rfl,
      lit ['j'] rfl, lit ['k'] rfl, lit ['l'] rfl, lit ['m'] rfl, lit ['n'] rfl, lit ['o'] rfl,
      lit ['p'] rfl].map fun name => atyEqual name (.Primitive .U8))
  ++ [atyEqual (lit ['q'] rfl) (deepType (lit ['a'] rfl) 5)]

/-- **Two texts that are written twice.** The two signs are written alike, so the types of crates
    `a-b` and `a#b` share their symbols; and a number of bounds runs into the length of the first
    name behind it. -/
theorem mangling_not_injective :
    (SameText (ordinary.fmtSimplePath ⟨lit ['a', '-', 'b'] rfl, []⟩)
        (ordinary.fmtSimplePath ⟨lit ['a', '#', 'b'] rfl, []⟩)
      ∧ SameText (ordinary.fmtType (crateType (lit ['a', '-', 'b'] rfl)))
        (ordinary.fmtType (crateType (lit ['a', '#', 'b'] rfl)))
      ∧ (crateType (lit ['a', '-', 'b'] rfl)).erase ≠ (crateType (lit ['a', '#', 'b'] rfl)).erase)
    ∧ SameText (ordinary.fmtType (dynType oneBound)) (ordinary.fmtType (dynType sixteenBounds))
      ∧ (dynType oneBound).erase ≠ (dynType sixteenBounds).erase := by
  have htexts : (writesSame (ordinary.fmtSimplePath ⟨lit ['a', '-', 'b'] rfl, []⟩)
        (ordinary.fmtSimplePath ⟨lit ['a', '#', 'b'] rfl, []⟩)
      && writesSame (ordinary.fmtType (crateType (lit ['a', '-', 'b'] rfl)))
        (ordinary.fmtType (crateType (lit ['a', '#', 'b'] rfl)))
      && writesSame (ordinary.fmtType (dynType oneBound))
        (ordinary.fmtType (dynType sixteenBounds))) = true := by decide +kernel
  simp only [Bool.and_eq_true] at htexts
  obtain ⟨⟨hpath, hcrate⟩, hdyn⟩ := htexts
  refine ⟨⟨SameText.of_writesSame hpath, SameText.of_writesSame hcrate, ?_⟩,
    SameText.of_writesSame hdyn, ?_⟩
  · intro h
    simp [crateType, HIRType.erase, HIRPath.erase, HIRGenericPath.erase, lit] at h
  · intro h
    simp [dynType, HIRType.erase, HIRTraitPath.erase, oneBound, sixteenBounds, eraseBounds] at h

end Mangler

end Trustme.Mangling
