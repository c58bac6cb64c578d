/-
  Subject:   The constructors of paths and types.

  Of two types one letter tells most constructors apart; a known associated item and a pattern type
  begin alike and differ behind their inner type.

  * `genericPath_told`, `inherent_told`, `known_told`: paths;
  * `tuple_told`, ..., `traitObject_told`, `function_told` -- types.
-/
import Trustme.Mangling.Telling

namespace Trustme.Mangling

open Lib (Text Printer)
open Lib.Printer

namespace Mangler

variable {m : Mangler} {N : RcString → Prop} {F : Text → Prop}

/-! ## 1. Paths -/

variable {params : HIRPathParams}

theorem generic_told {path : HIRSimplePath} (hN : NamesApart N)
    (hp : ParamsTold m N params) : GenericTold m N (.mk path params) := by
  rintro ⟨path', params'⟩ hw hw'
  rw [HIRGenericPath.Within] at hw hw'
  rw [fmtGenericPath, fmtGenericPath, HIRGenericPath.erase, HIRGenericPath.erase]
  refine (fmtSimplePath_splits hN hw.1 hw'.1 (hp params' hw.2 hw'.2)).imp ?_
  rintro ⟨rfl, h⟩
  rw [h]

variable {item abi : RcString}

/-- An item and its parameters. -/
theorem item_splits (hN : NamesApart N) {item' : RcString} {params' : HIRPathParams}
    (hp : ParamsTold m N params) (hi : N item) (hi' : N item') (hw : params.Within m N)
    (hw' : params'.Within m N) :
    Splits Clear (m.fmtName item ++ m.fmtPathParams params)
      (m.fmtName item' ++ m.fmtPathParams params')
      (item = item' ∧ params.erase = params'.erase) :=
  Splits.append_free (fun _ => m.fmtName_splits hN hi hi') (fun _ => hp params' hw hw')

variable {p : Printer (List RcString)}

theorem item_clear (hN : NamesApart N) (hi : N item) : Leads F (m.fmtName item ++ p) Clear :=
  Leads.of_append (fun _ => fmtName_clear hN hi)

theorem generic_append_clear (gp : HIRGenericPath) :
    Leads F (m.fmtGenericPath gp ++ p) Clear :=
  Leads.of_append (fun _ => fmtGenericPath_clear gp)

variable {type x inner : HIRType} {trait : HIRGenericPath}

theorem known_splits (hN : NamesApart N) {type' : HIRType} {trait' : HIRGenericPath}
    {item' : RcString} {params' : HIRPathParams} (ht : TypeTold m N type)
    (hg : GenericTold m N trait) (hp : ParamsTold m N params)
    (hw : (HIRPath.UfcsKnown type trait item params).Within m N)
    (hw' : (HIRPath.UfcsKnown type' trait' item' params').Within m N) :
    Splits Clear (m.fmtPath (.UfcsKnown type trait item params))
      (m.fmtPath (.UfcsKnown type' trait' item' params'))
      ((HIRPath.UfcsKnown type trait item params).erase
        = (HIRPath.UfcsKnown type' trait' item' params').erase) := by
  rw [HIRPath.Within] at hw hw'
  rw [fmtPath, fmtPath, HIRPath.erase, HIRPath.erase]
  refine (Splits.put_append (Splits.append (ht type' hw.1 hw'.1)
    (fun _ => Splits.append (hg trait' hw.2.1 hw'.2.1)
      (fun _ => item_splits hN hp hw.2.2.1 hw'.2.2.1 hw.2.2.2 hw'.2.2.2)
      (item_clear hN hw.2.2.1) (item_clear hN hw'.2.2.1))
    (generic_append_clear trait) (generic_append_clear trait'))).imp ?_
  rintro ⟨h₁, h₂, rfl, h₃⟩
  rw [h₁, h₂, h₃]

/-- Of two paths that begin differently. -/
theorem path_of_lead {p p' : HIRPath} (h : p.lead ≠ p'.lead) {P : Prop} :
    Splits F (m.fmtPath p) (m.fmtPath p') P :=
  Splits.of_leads (fmtPath_leads p) (fmtPath_leads p')
    (fun _ h₁ h₂ => h (Option.some.inj (h₁.symm.trans h₂)))

theorem genericPath_told {gp : HIRGenericPath} (hg : GenericTold m N gp) :
    PathTold m N (.Generic gp) := by
  intro y hw hw'
  cases y with
  | Generic gp' =>
    rw [HIRPath.Within] at hw hw'
    rw [fmtPath, fmtPath, HIRPath.erase, HIRPath.erase]
    exact (Splits.put_append (hg gp' hw hw')).imp (fun h => by rw [h])
  | _ => exact path_of_lead (by simp [HIRPath.lead])

theorem inherent_told {implParams : HIRPathParams} (hN : NamesApart N) (ht : TypeTold m N type)
    (hp : ParamsTold m N params) :
    PathTold m N (.UfcsInherent type item params implParams) := by
  intro y hw hw'
  cases y with
  | UfcsInherent type' item' params' implParams' =>
    rw [HIRPath.Within] at hw hw'
    rw [fmtPath, fmtPath, HIRPath.erase, HIRPath.erase]
    refine (Splits.put_append (Splits.append (ht type' hw.1 hw'.1)
      (fun _ => item_splits hN hp hw.2.1 hw'.2.1 hw.2.2 hw'.2.2)
      (item_clear hN hw.2.1) (item_clear hN hw'.2.1))).imp ?_
    rintro ⟨h₁, rfl, h₂⟩
    rw [h₁, h₂]
  | _ => exact path_of_lead (by simp [HIRPath.lead])

theorem known_told (hN : NamesApart N) (ht : TypeTold m N type) (hg : GenericTold m N trait)
    (hp : ParamsTold m N params) :
    PathTold m N (.UfcsKnown type trait item params) := by
  intro y hw hw'
  cases y with
  | UfcsKnown type' trait' item' params' => exact known_splits hN ht hg hp hw hw'
  | _ => exact path_of_lead (by simp [HIRPath.lead])

theorem unknown_told :
    PathTold m N (.UfcsUnknown type item params) := by
  intro y _ _
  rw [fmtPath]
  exact Splits.of_stop

/-! ## 2. Bounds and ranges -/

theorem aty_told {name : RcString} {sourceTrait : HIRGenericPath} {atyParams : HIRPathParams}
    (hN : NamesApart N) (ht : TypeTold m N type) :
    AtyTold m N (.mk name sourceTrait atyParams type) := by
  rintro ⟨name', sourceTrait', atyParams', type'⟩ hw hw'
  rw [AtyEqual.Within] at hw hw'
  rw [fmtAtyEqual, fmtAtyEqual, AtyEqual.erase, AtyEqual.erase]
  refine (Splits.append_free (fun _ => m.fmtName_splits hN hw.1 hw'.1)
    (fun _ => ht type' hw.2 hw'.2)).imp ?_
  rintro ⟨rfl, h⟩
  rw [h]

theorem fmtBounds_clear (hN : NamesApart N) {bounds : List AtyEqual}
    (hw : boundsWithin m N bounds) : Leads Clear (m.fmtBounds bounds) Clear := by
  cases bounds with
  | nil => rw [fmtBounds]; exact Leads.of_skip
  | cons aty bounds =>
    obtain ⟨name, sourceTrait, atyParams, type⟩ := aty
    rw [boundsWithin, AtyEqual.Within] at hw
    rw [fmtBounds, fmtAtyEqual]
    exact Leads.of_append (fun _ => item_clear hN hw.1.1)

/-- Two ends of ranges, both there or both missing. -/
def ValueTold (m : Mangler) (N : RcString → Prop) (x : Option HIRConstGeneric) : Prop :=
  ∀ y, x.isSome = y.isSome → valueWithin? m N x → valueWithin? m N y →
    Splits Clear (m.fmtValue? x) (m.fmtValue? y) (eraseValue? x = eraseValue? y)

theorem noValue_told : ValueTold m N none := by
  intro y hy _ _
  obtain rfl := Option.isNone_iff_eq_none.1 (by simpa using hy.symm)
  exact Splits.same.imp (fun _ => rfl)

theorem value_told {value : HIRConstGeneric} (hv : ConstTold m N value) :
    ValueTold m N (some value) := by
  intro y hy hw hw'
  obtain ⟨value', rfl⟩ := Option.isSome_iff_exists.1 hy.symm
  rw [valueWithin?] at hw hw'
  rw [fmtValue?, fmtValue?, eraseValue?, eraseValue?]
  exact (hv value' hw hw').imp (fun h => by rw [h])

theorem letter_clear {c : Char} (hc : c ≠ '_') :
    Leads F (put [c] ++ p) Clear := Leads.put_append (fun _ => Clear.of_head hc)

theorem range_told {start stop : Option HIRConstGeneric} {endInclusive : Bool}
    (hs : ValueTold m N start) (he : ValueTold m N stop) :
    RangeTold m N (.mk start stop endInclusive) := by
  rintro ⟨start', stop', endInclusive'⟩ hw hw'
  rw [HIRTypePatternRange.Within] at hw hw'
  rw [fmtRange, fmtRange, HIRTypePatternRange.erase, HIRTypePatternRange.erase]
  have hletter : ∀ (x : Option HIRConstGeneric) (b : Bool),
      (if x.isSome then (if b then 'i' else 'e') else 'n') ≠ '_' := by
    intro x b
    cases x <;> cases b <;> simp
  have hstart : (if start.isSome then 's' else 'n') = (if start'.isSome then 's' else 'n') →
      start.isSome = start'.isSome := by
    cases start <;> cases start' <;> simp
  have hstop : (if stop.isSome then (if endInclusive then 'i' else 'e') else 'n')
        = (if stop'.isSome then (if endInclusive' then 'i' else 'e') else 'n') →
      stop.isSome = stop'.isSome
        ∧ (stop.isSome && endInclusive) = (stop'.isSome && endInclusive') := by
    cases stop <;> cases stop' <;> cases endInclusive <;> cases endInclusive' <;> simp
  refine (Splits.append_free (fun _ => Splits.char) (fun h₁ => Splits.append
    (hs start' (hstart h₁) hw.1 hw'.1) (fun _ => Splits.append_free (fun _ => Splits.char)
      (fun h₂ => he stop' (hstop h₂).1 hw.2 hw'.2))
    (letter_clear (hletter _ _)) (letter_clear (hletter _ _)))).imp ?_
  rintro ⟨_, h₁, h₂, h₃⟩
  rw [h₁, h₃, (hstop h₂).2]

/-! ## 3. Types -/

/-- Of two types that begin differently. -/
theorem type_of_lead {y : HIRType} (h : x.lead ≠ y.lead) {P : Prop} :
    Splits F (m.fmtType x) (m.fmtType y) P :=
  Splits.of_leads (fmtType_leads x) (fmtType_leads y)
    (fun _ h₁ h₂ => h (Option.some.inj (h₁.symm.trans h₂)))

/-- A path begins with one of its own letters. -/
theorem type_path_of_lead (h : x.lead ∉ ['G', 'I', 'Q', '!']) {path : HIRPath}
    {P : Prop} : Splits F (m.fmtType x) (m.fmtType (.Path path)) P := by
  refine type_of_lead (fun he => h ?_)
  rw [he]
  exact path.lead_mem

theorem nonEncodable_told (h : m.fmtType x = stop) : TypeTold m N x := by
  intro y _ _
  rw [h]
  exact Splits.of_stop

theorem tuple_told {types : List HIRType} (ht : TypesTold m N types) :
    TypeTold m N (.Tuple types) := by
  intro y hw hw'
  cases y with
  | Tuple types' =>
    rw [HIRType.Within] at hw hw'
    rw [fmtType, fmtType, HIRType.erase, HIRType.erase]
    refine (Splits.put_append (Splits.number_append (fun hlen => ht types' hlen hw hw')
      fmtTypes_noDigit_of_ne fmtTypes_noDigit_of_ne)).imp ?_
    rintro ⟨_, h⟩
    rw [h]
  | Path path => exact type_path_of_lead (by simp [HIRType.lead])
  | _ => exact type_of_lead (by simp [HIRType.lead])

theorem slice_told (hi : TypeTold m N inner) : TypeTold m N (.Slice inner) := by
  intro y hw hw'
  cases y with
  | Slice inner' =>
    rw [HIRType.Within] at hw hw'
    rw [fmtType, fmtType, HIRType.erase, HIRType.erase]
    exact (Splits.put_append (hi inner' hw hw')).imp (fun h => by rw [h])
  | Path path => exact type_path_of_lead (by simp [HIRType.lead])
  | _ => exact type_of_lead (by simp [HIRType.lead])

theorem array_told {n : Nat} (hi : TypeTold m N inner) :
    TypeTold m N (.Array inner (.Known n)) := by
  intro y hw hw'
  cases y with
  | Array inner' size' =>
    cases size' with
    | Unevaluated => rw [fmtType, fmtType]; exact Splits.of_stop.symm
    | Known n' =>
      rw [HIRType.Within] at hw hw'
      rw [fmtType, fmtType, HIRType.erase, HIRType.erase]
      refine (Splits.put_append (Splits.number_append (fun _ => hi inner' hw hw')
        (fun _ => fmtType_noDigit _) (fun _ => fmtType_noDigit _))).imp ?_
      rintro ⟨rfl, h⟩
      rw [h]
  | Path path => exact type_path_of_lead (by simp [HIRType.lead])
  | _ => exact type_of_lead (by simp [HIRType.lead])

theorem namedFunction_told {path : HIRPath} (hp : PathTold m N path) :
    TypeTold m N (.NamedFunction path) := by
  intro y hw hw'
  cases y with
  | NamedFunction path' =>
    rw [HIRType.Within] at hw hw'
    rw [fmtType, fmtType, HIRType.erase, HIRType.erase]
    exact (Splits.put_append (hp path' hw hw')).imp (fun h => by rw [h])
  | Path path => exact type_path_of_lead (by simp [HIRType.lead])
  | _ => exact type_of_lead (by simp [HIRType.lead])

theorem borrowTypeLetter_injective {a b : HIRBorrowType}
    (h : borrowTypeLetter a = borrowTypeLetter b) : a = b := by
  cases a <;> cases b <;> first | rfl | exact absurd h (by decide)

theorem coreTypeLetter_injective {a b : HIRCoreType}
    (h : coreTypeLetter a = coreTypeLetter b) : a = b := by
  cases a <;> cases b <;> first | rfl | exact absurd h (by decide)

theorem coreTypeLetter_ne_z (a : HIRCoreType) : coreTypeLetter a ≠ 'z' := by
  cases a <;> decide

/-- The kind of a borrow or a pointer, and what it points to. -/
theorem pointee_splits {a b : HIRBorrowType} {inner' : HIRType} (hi : TypeTold m N inner)
    (hw : inner.Within m N) (hw' : inner'.Within m N) :
    Splits Clear (put [borrowTypeLetter a] ++ m.fmtType inner)
      (put [borrowTypeLetter b] ++ m.fmtType inner') (a = b ∧ inner.erase = inner'.erase) :=
  (Splits.append_free (fun _ => Splits.char) (fun _ => hi inner' hw hw')).imp
    (fun h => ⟨borrowTypeLetter_injective h.1, h.2⟩)

theorem borrow_told {type : HIRBorrowType} (hi : TypeTold m N inner) :
    TypeTold m N (.Borrow type inner) := by
  intro y hw hw'
  cases y with
  | Borrow type' inner' =>
    rw [HIRType.Within] at hw hw'
    rw [fmtType, fmtType, HIRType.erase, HIRType.erase]
    refine (Splits.put_append (pointee_splits hi hw hw')).imp ?_
    rintro ⟨rfl, h⟩
    rw [h]
  | Path path => exact type_path_of_lead (by simp [HIRType.lead])
  | _ => exact type_of_lead (by simp [HIRType.lead])

theorem pointer_told {type : HIRBorrowType} (hi : TypeTold m N inner) :
    TypeTold m N (.Pointer type inner) := by
  intro y hw hw'
  cases y with
  | Pointer type' inner' =>
    rw [HIRType.Within] at hw hw'
    rw [fmtType, fmtType, HIRType.erase, HIRType.erase]
    refine (Splits.put_append (pointee_splits hi hw hw')).imp ?_
    rintro ⟨rfl, h⟩
    rw [h]
  | Path path => exact type_path_of_lead (by simp [HIRType.lead])
  | _ => exact type_of_lead (by simp [HIRType.lead])

theorem primitive_told {ct : HIRCoreType} : TypeTold m N (.Primitive ct) := by
  intro y _ _
  cases y with
  | Primitive ct' =>
    rw [fmtType, fmtType]
    exact (Splits.put_append Splits.char).imp (fun h => by rw [coreTypeLetter_injective h])
  | Diverge =>
    rw [fmtType, fmtType]
    exact (Splits.put_append Splits.char).imp (fun h => absurd h (coreTypeLetter_ne_z ct))
  | Path path => exact type_path_of_lead (by simp [HIRType.lead])
  | _ => exact type_of_lead (by simp [HIRType.lead])

theorem diverge_told : TypeTold m N .Diverge := by
  intro y _ _
  cases y with
  | Primitive ct' =>
    rw [fmtType, fmtType]
    exact (Splits.put_append Splits.char).imp (fun h => absurd h.symm (coreTypeLetter_ne_z ct'))
  | Diverge => exact Splits.put_append (Splits.same.imp (fun _ => rfl))
  | Path path => exact type_path_of_lead (by simp [HIRType.lead])
  | _ => exact type_of_lead (by simp [HIRType.lead])

/-! ## 4. Pattern types, trait objects and function pointers -/

section Flags

variable {p q : Printer (List RcString)} {P : Prop} {c d : Char} {b b' : Bool}

theorem flag_true : (put (flag c true) : Printer (List RcString)) = put [c] := rfl

theorem flag_false : (put (flag c false) : Printer (List RcString)) = skip := rfl

/-- A letter that may be there, in front of what does not begin with it. -/
theorem flag_splits (h : Splits F p q P) (hp : Leads F p (fun t => t.head? ≠ some c))
    (hq : Leads F q (fun t => t.head? ≠ some c)) :
    Splits F (put (flag c b) ++ p) (put (flag c b') ++ q) (b = b' ∧ P) := by
  have hc : ∀ p : Printer (List RcString),
      Leads F (put [c] ++ p) (fun t => t.head? = some c) := fun p => Leads.put_append (fun _ => rfl)
  cases b <;> cases b'
  · rw [flag_false, skip_append, skip_append]
    exact h.imp (fun hP => ⟨rfl, hP⟩)
  · rw [flag_false, flag_true, skip_append]
    exact Splits.of_leads hp (hc q) (fun _ h₁ h₂ => h₁ h₂)
  · rw [flag_false, flag_true, skip_append]
    exact Splits.of_leads (hc p) hq (fun _ h₁ h₂ => h₂ h₁)
  · exact (Splits.put_append h).imp (fun hP => ⟨rfl, hP⟩)

theorem flag_leads (hcd : c ≠ d) (hp : Leads F p (fun t => t.head? ≠ some d)) :
    Leads F (put (flag c b) ++ p) (fun t => t.head? ≠ some d) := by
  cases b
  · rw [flag_false, skip_append]
    exact hp
  · rw [flag_true]
    exact Leads.put_append (fun _ => by simpa using hcd)

theorem number_leads {n : Nat} (hd : d.isDigit = false) :
    Leads F (number n ++ p) (fun t => t.head? ≠ some d) := by
  refine Leads.number_append (fun c r hc he => ?_)
  rw [← Option.some.inj he, hc] at hd
  exact absurd hd (by decide)

end Flags

/-- A known associated item and a pattern type begin alike, and go on with the path of a trait,
    where `c` follows a number, and with the ranges of a pattern, where `r` does. -/
theorem known_pattern_splits {alternatives : List HIRTypePatternRange} {notNull : Bool} {R : Prop}
    (h : Splits Clear (m.fmtType type) (m.fmtType inner) R) {P : Prop} :
    Splits Clear (m.fmtPath (.UfcsKnown type trait item params))
      (m.fmtType (.Pattern inner alternatives notNull)) P := by
  obtain ⟨path, traitParams⟩ := trait
  rw [fmtPath, fmtType]
  refine (Splits.put_append (Splits.append (Q := False) h (fun _ => ?_)
    (generic_append_clear _) ?_)).imp (fun h => h.2.elim)
  · rw [fmtGenericPath, append_assoc, fmtSimplePath_append]
    cases notNull
    · rw [flag_false, skip_append]
      exact Splits.number_of_head rfl rfl (by decide)
    · rw [flag_true]
      exact Splits.of_leads (number_leads (d := 'N') rfl)
        (Leads.put_append (G := fun t => t.head? = some 'N') (fun _ => rfl))
        (fun _ h₁ h₂ => h₁ h₂)
  · cases notNull
    · rw [flag_false, skip_append]
      exact number_clear
    · exact letter_clear (by decide)

theorem pattern_told {alternatives : List HIRTypePatternRange} {notNull : Bool}
    (hi : TypeTold m N inner) (hr : RangesTold m N alternatives) :
    TypeTold m N (.Pattern inner alternatives notNull) := by
  intro y hw hw'
  have hclear : ∀ (b : Bool) (n : Nat) (p : Printer (List RcString)),
      Leads Clear (put (flag 'N' b) ++ (number n ++ p)) Clear := by
    intro b n p
    cases b
    · rw [flag_false, skip_append]
      exact number_clear
    · exact letter_clear (by decide)
  rw [HIRType.Within] at hw
  cases y with
  | Pattern inner' alternatives' notNull' =>
    rw [HIRType.Within] at hw'
    rw [fmtType, fmtType, HIRType.erase, HIRType.erase]
    refine (Splits.put_append (Splits.append (hi inner' hw.1 hw'.1)
      (fun _ => flag_splits (Splits.number_put rfl
        (fun hlen => hr alternatives' hlen hw.2 hw'.2)) (number_leads rfl) (number_leads rfl))
      (hclear _ _ _) (hclear _ _ _))).imp ?_
    rintro ⟨h₁, rfl, _, h₂⟩
    rw [h₁, h₂]
  | Path path =>
    cases path with
    | UfcsKnown type trait item params =>
      rw [HIRType.Within, HIRPath.Within] at hw'
      rw [fmtType.eq_def m (.Path _)]
      exact (known_pattern_splits (hi type hw.1 hw'.1).symm).symm
    | _ => exact type_of_lead (by simp [HIRType.lead, HIRPath.lead])
  | _ => exact type_of_lead (by simp [HIRType.lead])

theorem path_told {path : HIRPath} (hp : PathTold m N path)
    (hk : ∀ type trait item params, path = .UfcsKnown type trait item params →
      TypeTold m N type) : TypeTold m N (.Path path) := by
  intro y hw hw'
  cases y with
  | Path path' =>
    rw [HIRType.Within] at hw hw'
    rw [fmtType, fmtType, HIRType.erase, HIRType.erase]
    exact (hp path' hw hw').imp (fun h => by rw [h])
  | Pattern inner alternatives notNull =>
    cases path with
    | UfcsKnown type trait item params =>
      rw [HIRType.Within, HIRPath.Within] at hw
      rw [HIRType.Within] at hw'
      rw [fmtType.eq_def m (.Path _)]
      exact known_pattern_splits (hk _ _ _ _ rfl inner hw.1 hw'.1)
    | _ => exact type_of_lead (by simp [HIRType.lead, HIRPath.lead])
  | Infer => rw [fmtType.eq_def m .Infer]; exact Splits.of_stop.symm
  | Generic => rw [fmtType.eq_def m .Generic]; exact Splits.of_stop.symm
  | ErasedType => rw [fmtType.eq_def m .ErasedType]; exact Splits.of_stop.symm
  | NodeType => rw [fmtType.eq_def m .NodeType]; exact Splits.of_stop.symm
  | _ => exact (type_path_of_lead (by simp [HIRType.lead])).symm

theorem traitObject_told {path : HIRGenericPath} {typeBounds : List AtyEqual}
    {traitBounds : List AtyBound} {constness : HIRBoundConstness}
    {markers : List HIRGenericPath} {lifetimeIdentity : RcString} {hasFree : Bool}
    (hp : GenericTold m N path) (hb : BoundsTold m N typeBounds)
    (hm : MarkersTold m N markers) :
    TypeTold m N (.TraitObject (.mk path typeBounds traitBounds constness) markers
      lifetimeIdentity hasFree) := by
  intro y hw hw'
  cases y with
  | TraitObject trait' markers' lifetimeIdentity' hasFree' =>
    obtain ⟨path', typeBounds', traitBounds', constness'⟩ := trait'
    rw [HIRType.Within] at hw hw'
    obtain ⟨hwp, hwl, hwb, hwk, hwm, hws⟩ := hw
    obtain ⟨hwp', hwl', hwb', hwk', hwm', hws'⟩ := hw'
    rw [fmtType, fmtType, HIRType.erase, HIRType.erase, HIRTraitPath.erase, HIRTraitPath.erase,
      fmtLifetimeIdentity_silent hws, fmtLifetimeIdentity_silent hws', append_skip, append_skip]
    have hmarkers : markers.length = markers'.length →
        Splits Clear (m.fmtMarkers markers) (m.fmtMarkers markers')
          (eraseMarkers markers = eraseMarkers markers') := fun hlen => hm markers' hlen hwm hwm'
    refine (Splits.put_append (Splits.append (hp path' hwp hwp')
      (fun _ => Splits.append_free (fun _ => Splits.digit hwl hwl')
        (fun hlen => Splits.append (hb typeBounds' hlen hwb hwb')
          (fun _ => Splits.append_free (fun _ => Splits.digit hwk hwk') hmarkers)
          number_clear number_clear)) number_clear number_clear)).imp ?_
    rintro ⟨h₁, _, h₂, _, h₃⟩
    rw [h₁, h₂, h₃]
  | Path path => exact type_path_of_lead (by simp [HIRType.lead])
  | _ => exact type_of_lead (by simp [HIRType.lead])

/-- The name of an ABI, or nothing for Rust's. -/
theorem fmtAbi_splits (hN : NamesApart N) {abi' : RcString} (ha : N abi) (ha' : N abi') :
    Splits (fun t => t.head? ≠ some 'e') (fmtAbi abi) (fmtAbi abi') (abi = abi') := by
  intro w t w₁ t' w₂ r r' h h' hr hr' he
  have cases_abi : ∀ {a : RcString} {u : Text} {v : List RcString}, fmtAbi a w = some (u, v) →
      v = w ∧ (a.bytes = ['R', 'u', 's', 't'] ∧ u = []
        ∨ ∃ s, fmtCString a.bytes = some s ∧ u = 'e' :: s) := by
    intro a u v hu
    unfold fmtAbi at hu
    split at hu
    · cases hs : fmtCString a.bytes with
      | none => simp [hs] at hu
      | some s =>
        simp only [hs] at hu
        obtain ⟨_, _, _, h₁, h₂, rfl⟩ := append_eq_some.1 hu
        obtain ⟨rfl, rfl⟩ := put_eq_some.1 h₁
        obtain ⟨rfl, rfl⟩ := put_eq_some.1 h₂
        exact ⟨rfl, Or.inr ⟨_, rfl, rfl⟩⟩
    · rename_i hrust
      obtain ⟨rfl, rfl⟩ := skip_eq_some.1 hu
      exact ⟨rfl, Or.inl ⟨by simpa using hrust, rfl⟩⟩
  obtain ⟨rfl, hu⟩ := cases_abi h
  obtain ⟨rfl, hu'⟩ := cases_abi h'
  rcases hu with ⟨hrust, rfl⟩ | ⟨s, hs, rfl⟩ <;> rcases hu' with ⟨hrust', rfl⟩ | ⟨s', hs', rfl⟩
  · have habi : abi = abi' := by
      cases abi
      cases abi'
      rw [RcString.mk.injEq]
      exact hrust.trans hrust'.symm
    exact ⟨habi, he, rfl⟩
  · rw [List.nil_append] at he
    exact absurd (by rw [he]; rfl) hr
  · rw [List.nil_append] at he
    exact absurd (by rw [← he]; rfl) hr'
  · rw [List.cons_append, List.cons_append, List.cons.injEq] at he
    obtain ⟨habi, hrest⟩ := hN.eq_of_append ha ha' hs hs' he.2
    exact ⟨habi, hrest, rfl⟩

theorem fmtAbi_leads {c : Char} (hc : c ≠ 'e') (hp : Leads F p (fun t => t.head? ≠ some c)) :
    Leads F (fmtAbi abi ++ p) (fun t => t.head? ≠ some c) := by
  unfold fmtAbi
  split
  · cases fmtCString abi.bytes with
    | none => exact Leads.of_append (fun _ => Leads.of_stop)
    | some t =>
      exact Leads.of_append (fun _ => Leads.put_append (fun _ he => hc (Option.some.inj he).symm))
  · rw [skip_append]
    exact hp

theorem function_told {isUnsafe isVariadic trackCaller : Bool} {rettype : HIRType}
    {argTypes : List HIRType} {lifetimeIdentity : RcString} {hasFree : Bool} (hN : NamesApart N)
    (hr : TypeTold m N rettype) (ha : TypesTold m N argTypes) :
    TypeTold m N (.Function isUnsafe isVariadic abi rettype argTypes trackCaller
      lifetimeIdentity hasFree) := by
  intro y hw hw'
  cases y with
  | Function isUnsafe' isVariadic' abi' rettype' argTypes' trackCaller' lifetimeIdentity'
      hasFree' =>
    rw [HIRType.Within] at hw hw'
    obtain ⟨hwn, hwa, hwr, hws⟩ := hw
    obtain ⟨hwn', hwa', hwr', hws'⟩ := hw'
    rw [fmtType, fmtType, HIRType.erase, HIRType.erase, fmtLifetimeIdentity_silent hws,
      fmtLifetimeIdentity_silent hws', append_skip, append_skip]
    have hargs : ∀ (types : List HIRType) (ty : HIRType),
        Leads Clear (m.fmtTypes types ++ m.fmtType ty) NoDigit :=
      fun types ty => Leads.append (fmtTypes_noDigit types) (fmtType_noDigit ty)
    have hnumber := Splits.number_append (F := Clear)
      (fun hlen => Splits.append (ha argTypes' hlen hwa hwa') (fun _ => hr rettype' hwr hwr')
        (fmtType_clear _) (fmtType_clear _))
      (fun _ => hargs argTypes rettype) (fun _ => hargs argTypes' rettype')
    have habi := Splits.append (fmtAbi_splits hN hwn hwn') (fun _ => hnumber)
      (number_leads rfl) (number_leads rfl)
    have hlead : ∀ (c : Char) (a : RcString) (n : Nat) (p : Printer (List RcString)),
        c.isDigit = false → c ≠ 'e' →
        Leads Clear (fmtAbi a ++ (number n ++ p)) (fun t => t.head? ≠ some c) :=
      fun c a n p hc he => fmtAbi_leads he (number_leads hc)
    refine (Splits.put_append (flag_splits (flag_splits (flag_splits habi
      (hlead _ _ _ _ rfl (by decide)) (hlead _ _ _ _ rfl (by decide)))
      (flag_leads (by decide) (hlead _ _ _ _ rfl (by decide)))
      (flag_leads (by decide) (hlead _ _ _ _ rfl (by decide))))
      (flag_leads (by decide) (flag_leads (by decide) (hlead _ _ _ _ rfl (by decide))))
      (flag_leads (by decide) (flag_leads (by decide)
        (hlead _ _ _ _ rfl (by decide)))))).imp ?_
    rintro ⟨rfl, rfl, rfl, rfl, _, h₁, h₂⟩
    rw [h₁, h₂]
  | Path path => exact type_path_of_lead (by simp [HIRType.lead])
  | _ => exact type_of_lead (by simp [HIRType.lead])

end Mangler

end Trustme.Mangling
