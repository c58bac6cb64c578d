/-
  Subject:   The readings of a merged state, from the readings of the cells it is built of.

  * `Agrees`: the merged state reads as the new one when the cells read as the new arm wants, and
    as the old one when they read as the old arms had it;
  * `Agrees.leaf`, `Agrees.box`, `Agrees.parts`, `Agrees.array`: one rule for each shape;
  * `LeafOf`, `BoxOf`, `PartsOf`, `ElementsOf`: what a state says of the parts of that shape.
-/
import Trustme.Lowering.MergeRuns

namespace Trustme.Lowering

open Lib (OrdMap Source)

/-! ## 1. Shapes of a state -/

/-- The state says the same of every part. -/
def LeafOf (s : VarState) (c : Source DropFlag Bool) : Prop :=
  ∀ ρ p, s.reads ρ p = some (c.read ρ)

/-- What a state says of a box: of its allocation and of what is in it. -/
structure BoxOf (s : VarState) (outer : Source DropFlag Bool) (inner : VarState) : Prop where
  alloc : ∀ ρ, s.reads ρ .boxAlloc = some (outer.read ρ)
  deref : ∀ ρ p, s.reads ρ (.deref p) = inner.reads ρ p

/-- What a state says of fields and variants. -/
structure PartsOf (s : VarState) (outer : Source DropFlag Bool) (inner : Nat → Option VarState) :
    Prop where
  field : ∀ ρ i p, s.reads ρ (.field i p) = (inner i).bind fun t => t.reads ρ p
  variant : ∀ ρ i p, s.reads ρ (.variant i p) =
    (inner i).bind fun t => (t.reads ρ p).map fun v => outer.read ρ && v

/-- What a state says of the first `count` elements. -/
def ElementsOf (s : VarState) (count : Nat) (element : Nat → VarState) : Prop :=
  ∀ ρ i p, i < count → s.reads ρ (.field i p) = (element i).reads ρ p

theorem leafOf_invalid (why : InvalidType) : LeafOf (.invalid why) (.const false) := fun _ _ => by
  simp [VarState.reads]

theorem leafOf_valid : LeafOf .valid (.const true) := fun _ _ => by simp [VarState.reads]

theorem leafOf_optional (f : DropFlag) : LeafOf (.optional f) (.reg f) := fun _ _ => by
  simp [VarState.reads]

namespace LeafOf

variable {s : VarState} {c : Source DropFlag Bool} (h : LeafOf s c)

include h

theorem box : BoxOf s c s := ⟨fun ρ => h ρ _, fun ρ p => by rw [h, h]⟩

theorem parts : PartsOf s c fun _ => some s :=
  ⟨fun ρ i p => by simp [h ρ], fun ρ i p => by simp [h ρ]⟩

theorem elements (count : Nat) : ElementsOf s count fun _ => s := fun ρ i p _ => by rw [h, h]

end LeafOf

theorem boxOf_movedOut (inner : VarState) (outerFlag : Option DropFlag) :
    BoxOf (.movedOut inner outerFlag) (outerSource outerFlag) inner :=
  ⟨fun _ => by simp [VarState.reads], fun _ _ => by simp [VarState.reads]⟩

theorem partsOf_partialOf (inner : List VarState) (outerFlag : Option DropFlag) :
    PartsOf (.partialOf inner outerFlag) (outerSource outerFlag) fun i => inner[i]? :=
  ⟨fun _ _ _ => by simp [VarState.reads], fun _ _ _ => by simp [VarState.reads]⟩

theorem elementsOf_partialArray (fill : VarState) (others : OrdMap VarState) (count : Nat) :
    ElementsOf (.partialArray fill others count) count (.element fill others) :=
  fun _ _ _ hi => by simp [VarState.reads, hi]

/-! ## 2. Agreement -/

/-- An alias from `B` on has the value of the flag it stands for. -/
def Follows (B : Nat) (b : Builder) (ρ : DropFlag → Bool) : Prop :=
  ∀ f a, (f, a) ∈ b.dropFlagAliases → B ≤ a → ρ a = ρ f

theorem Follows.mono {B : Nat} {b b' : Builder} {ρ : DropFlag → Bool} (h : Follows B b' ρ)
    (hg : Grown b b') : Follows B b ρ := fun f a ha => h f a (hg.mem ha)

/-- The merged state reads as it should in every part of the place that both states decide, once
    the cells of the meetings `ms` read as they should. -/
structure Agrees {Ty : Type} (tt : TypeTable Ty) (B : Nat) (ty : Ty) (b : Builder)
    (old new merged : VarState) (ms : List Met) : Prop where
  onNew : ∀ ρ σ, (∀ m ∈ ms, m.cell.read σ = m.meeting.want.read ρ) → ∀ ρ' p v w,
    tt.IsPlace ty p → old.reads ρ' p = some v → new.reads ρ p = some w →
    merged.reads σ p = some w
  onOld : ∀ ρ, Follows B b ρ → (∀ m ∈ ms, m.cell.read ρ = m.was.read ρ) → ∀ ρ' p v w,
    tt.IsPlace ty p → old.reads ρ p = some v → new.reads ρ' p = some w →
    merged.reads ρ p = some v

namespace Agrees

variable {Ty : Type} {tt : TypeTable Ty} {B : Nat} {ty : Ty} {b b' : Builder}
  {old new merged : VarState} {ms ms' : List Met}

/-- More meetings and a later builder do not hurt. -/
theorem mono (h : Agrees tt B ty b old new merged ms) (hg : Grown b b') (hms : ∀ m ∈ ms, m ∈ ms') :
    Agrees tt B ty b' old new merged ms' :=
  ⟨fun ρ σ hσ => h.onNew ρ σ fun m hm => hσ m (hms m hm),
    fun ρ hf hρ => h.onOld ρ (hf.mono hg) fun m hm => hρ m (hms m hm)⟩

/-- An alias may stand for its flag in the old state. -/
theorem of_alias {f a : DropFlag} (h : Agrees tt B ty b (.optional a) new merged ms)
    (ha : (f, a) ∈ b.dropFlagAliases) (hB : B ≤ a) :
    Agrees tt B ty b (.optional f) new merged ms := by
  refine ⟨fun ρ σ hσ ρ' p v w hp _ hw => ?_, fun ρ hf hρ ρ' p v w hp hv hw => ?_⟩
  · exact h.onNew ρ σ hσ ρ' p (ρ' a) w hp (leafOf_optional a ρ' p) hw
  · refine h.onOld ρ hf hρ ρ' p v w hp ?_ hw
    rw [leafOf_optional a]
    rw [leafOf_optional f] at hv
    rw [← hv, Source.read_reg, Source.read_reg, hf f a ha hB]

theorem leaf {o w c : Source DropFlag Bool} (ho : LeafOf old o) (hn : LeafOf new w)
    (hm : LeafOf merged c) {m : Met} (hmem : m ∈ ms) (hwas : m.was = o)
    (hwant : m.meeting.want = w) (hcell : m.cell = c) : Agrees tt B ty b old new merged ms := by
  refine ⟨fun ρ σ hσ ρ' p v x _ _ hx => ?_, fun ρ _ hρ ρ' p v x _ hv _ => ?_⟩
  · rw [hn] at hx
    rw [hm, ← hx, ← hcell, ← hwant, hσ m hmem]
  · rw [ho] at hv
    rw [hm, ← hv, ← hcell, ← hwas, hρ m hmem]

theorem reads_movedOut {ρ : DropFlag → Bool} {inner : VarState} {outerFlag : Option DropFlag}
    {p : SubPlace} {v : Bool} (h : (VarState.movedOut inner outerFlag).reads ρ p = some v) :
    p = .boxAlloc ∨ ∃ q, p = .deref q := by
  cases p with
  | boxAlloc => exact Or.inl rfl
  | deref q => exact Or.inr ⟨q, rfl⟩
  | here => cases h
  | field i q => cases h
  | variant i q => cases h

theorem box {o w : Source DropFlag Bool} {oldInner newInner inner : VarState}
    {outerFlag : Option DropFlag} (ho : BoxOf old o oldInner) (hn : BoxOf new w newInner)
    (hsplit : (∃ i f, old = .movedOut i f) ∨ ∃ i f, new = .movedOut i f) {m : Met} (hmem : m ∈ ms)
    (hwas : m.was = o) (hwant : m.meeting.want = w) (hcell : m.cell = outerSource outerFlag)
    (hi : Agrees tt B (tt.pointee ty) b oldInner newInner inner ms) :
    Agrees tt B ty b old new (.movedOut inner outerFlag) ms := by
  have hplace {ρ ρ' : DropFlag → Bool} {p : SubPlace} {v x : Bool}
      (hv : old.reads ρ p = some v) (hx : new.reads ρ' p = some x) :
      p = .boxAlloc ∨ ∃ q, p = .deref q := by
    rcases hsplit with ⟨i, f, rfl⟩ | ⟨i, f, rfl⟩
    · exact reads_movedOut hv
    · exact reads_movedOut hx
  have hmo := boxOf_movedOut inner outerFlag
  refine ⟨fun ρ σ hσ ρ' p v x hp hv hx => ?_, fun ρ hf hρ ρ' p v x hp hv hx => ?_⟩
  · rcases hplace hv hx with rfl | ⟨q, rfl⟩
    · rw [hn.alloc] at hx
      rw [hmo.alloc, ← hx, ← hcell, ← hwant, hσ m hmem]
    · rw [hn.deref] at hx
      rw [ho.deref] at hv
      rw [hmo.deref]
      exact hi.onNew ρ σ hσ ρ' q v x hp hv hx
  · rcases hplace hv hx with rfl | ⟨q, rfl⟩
    · rw [ho.alloc] at hv
      rw [hmo.alloc, ← hv, ← hcell, ← hwas, hρ m hmem]
    · rw [hn.deref] at hx
      rw [ho.deref] at hv
      rw [hmo.deref]
      exact hi.onOld ρ hf hρ ρ' q v x hp hv hx

theorem reads_partialOf {ρ : DropFlag → Bool} {inner : List VarState}
    {outerFlag : Option DropFlag} {p : SubPlace} {v : Bool}
    (h : (VarState.partialOf inner outerFlag).reads ρ p = some v) :
    (∃ i q, p = .field i q) ∨ ∃ i q, p = .variant i q := by
  cases p with
  | field i q => exact Or.inl ⟨i, q, rfl⟩
  | variant i q => exact Or.inr ⟨i, q, rfl⟩
  | here => cases h
  | boxAlloc => cases h
  | deref q => cases h

theorem parts {o w : Source DropFlag Bool} {oldInner newInner : Nat → Option VarState}
    {inner : List VarState} {outerFlag : Option DropFlag} (ho : PartsOf old o oldInner)
    (hn : PartsOf new w newInner)
    (hsplit : (∃ i f, old = .partialOf i f) ∨ ∃ i f, new = .partialOf i f)
    (houter : tt.isEnum ty = true →
      ∃ m ∈ ms, m.was = o ∧ m.meeting.want = w ∧ m.cell = outerSource outerFlag)
    (hi : ∀ i s t, oldInner i = some s → newInner i = some t →
      ∃ r, inner[i]? = some r ∧ Agrees tt B (tt.part ty i) b s t r ms) :
    Agrees tt B ty b old new (.partialOf inner outerFlag) ms := by
  have hplace {ρ ρ' : DropFlag → Bool} {p : SubPlace} {v x : Bool}
      (hv : old.reads ρ p = some v) (hx : new.reads ρ' p = some x) :
      (∃ i q, p = .field i q) ∨ ∃ i q, p = .variant i q := by
    rcases hsplit with ⟨i, f, rfl⟩ | ⟨i, f, rfl⟩
    · exact reads_partialOf hv
    · exact reads_partialOf hx
  have hpo := partsOf_partialOf inner outerFlag
  refine ⟨fun ρ σ hσ ρ' p v x hp hv hx => ?_, fun ρ hf hρ ρ' p v x hp hv hx => ?_⟩
  · rcases hplace hv hx with ⟨i, q, rfl⟩ | ⟨i, q, rfl⟩
    · obtain ⟨hen, hq⟩ := hp
      rw [ho.field] at hv
      rw [hn.field] at hx
      obtain ⟨s, hs, hv⟩ := Option.bind_eq_some_iff.mp hv
      obtain ⟨t, ht, hx⟩ := Option.bind_eq_some_iff.mp hx
      obtain ⟨r, hr, ha⟩ := hi i s t hs ht
      rw [hpo.field, hr, Option.bind_some]
      exact ha.onNew ρ σ hσ ρ' q v x (tt.part_of_not_isEnum hen i ▸ hq) hv hx
    · obtain ⟨hen, hq⟩ := hp
      obtain ⟨m, hmem, -, hwant, hcell⟩ := houter hen
      rw [ho.variant] at hv
      rw [hn.variant] at hx
      obtain ⟨s, hs, hv⟩ := Option.bind_eq_some_iff.mp hv
      obtain ⟨t, ht, hx⟩ := Option.bind_eq_some_iff.mp hx
      obtain ⟨v', hv', -⟩ := Option.map_eq_some_iff.mp hv
      obtain ⟨x', hx', rfl⟩ := Option.map_eq_some_iff.mp hx
      obtain ⟨r, hr, ha⟩ := hi i s t hs ht
      have hread := ha.onNew ρ σ hσ ρ' q v' x' (tt.part_of_isEnum hen i ▸ hq) hv' hx'
      rw [hpo.variant, hr, Option.bind_some, hread, Option.map_some, ← hcell, hσ m hmem, hwant]
  · rcases hplace hv hx with ⟨i, q, rfl⟩ | ⟨i, q, rfl⟩
    · obtain ⟨hen, hq⟩ := hp
      rw [ho.field] at hv
      rw [hn.field] at hx
      obtain ⟨s, hs, hv⟩ := Option.bind_eq_some_iff.mp hv
      obtain ⟨t, ht, hx⟩ := Option.bind_eq_some_iff.mp hx
      obtain ⟨r, hr, ha⟩ := hi i s t hs ht
      rw [hpo.field, hr, Option.bind_some]
      exact ha.onOld ρ hf hρ ρ' q v x (tt.part_of_not_isEnum hen i ▸ hq) hv hx
    · obtain ⟨hen, hq⟩ := hp
      obtain ⟨m, hmem, hwas, -, hcell⟩ := houter hen
      rw [ho.variant] at hv
      rw [hn.variant] at hx
      obtain ⟨s, hs, hv⟩ := Option.bind_eq_some_iff.mp hv
      obtain ⟨t, ht, hx⟩ := Option.bind_eq_some_iff.mp hx
      obtain ⟨v', hv', rfl⟩ := Option.map_eq_some_iff.mp hv
      obtain ⟨x', hx', -⟩ := Option.map_eq_some_iff.mp hx
      obtain ⟨r, hr, ha⟩ := hi i s t hs ht
      have hread := ha.onOld ρ hf hρ ρ' q v' x' (tt.part_of_isEnum hen i ▸ hq) hv' hx'
      rw [hpo.variant, hr, Option.bind_some, hread, Option.map_some, ← hcell, hρ m hmem, hwas]

theorem reads_partialArray {ρ : DropFlag → Bool} {fill : VarState} {others : OrdMap VarState}
    {count : Nat} {p : SubPlace} {v : Bool}
    (h : (VarState.partialArray fill others count).reads ρ p = some v) :
    ∃ i q, p = .field i q ∧ i < count := by
  cases p with
  | field i q =>
    refine ⟨i, q, rfl, ?_⟩
    by_contra hi
    simp [VarState.reads, hi] at h
  | here => cases h
  | boxAlloc => cases h
  | variant i q => cases h
  | deref q => cases h

theorem array {oldElement newElement : Nat → VarState} {fill : VarState}
    {others : OrdMap VarState} {count : Nat} (ho : ElementsOf old count oldElement)
    (hn : ElementsOf new count newElement)
    (hsplit : (∃ f os, old = .partialArray f os count) ∨ ∃ f os, new = .partialArray f os count)
    (hi : ∀ i, Agrees tt B (tt.field ty i) b (oldElement i) (newElement i)
      (.element fill others i) ms) :
    Agrees tt B ty b old new (.partialArray fill others count) ms := by
  have hplace {ρ ρ' : DropFlag → Bool} {p : SubPlace} {v x : Bool}
      (hv : old.reads ρ p = some v) (hx : new.reads ρ' p = some x) :
      ∃ i q, p = .field i q ∧ i < count := by
    rcases hsplit with ⟨f, os, rfl⟩ | ⟨f, os, rfl⟩
    · exact reads_partialArray hv
    · exact reads_partialArray hx
  have hpa := elementsOf_partialArray fill others count
  refine ⟨fun ρ σ hσ ρ' p v x hp hv hx => ?_, fun ρ hf hρ ρ' p v x hp hv hx => ?_⟩
  · obtain ⟨i, q, rfl, hlt⟩ := hplace hv hx
    rw [ho _ _ _ hlt] at hv
    rw [hn _ _ _ hlt] at hx
    rw [hpa _ _ _ hlt]
    exact (hi i).onNew ρ σ hσ ρ' q v x hp.2 hv hx
  · obtain ⟨i, q, rfl, hlt⟩ := hplace hv hx
    rw [ho _ _ _ hlt] at hv
    rw [hn _ _ _ hlt] at hx
    rw [hpa _ _ _ hlt]
    exact (hi i).onOld ρ hf hρ ρ' q v x hp.2 hv hx

end Agrees

end Trustme.Lowering
