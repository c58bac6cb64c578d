/-
  Subject:   The parts of types come back, if what they point to does; then all comes back, by
             induction on the depth.

  * `NodeSaves`: the thing behind a pointer comes back;
  * `.._loads`: one lemma for every part;
  * `node_saves`: the thing behind any pointer.
-/
import Trustme.Metadata.RefTables

namespace Trustme.Metadata

open Trustme.Lib

variable {K K' : Pointers} {H : Heap K} {P : Printed H} {I : Interner K'}
  [DecidableEq K.Ty] [DecidableEq K.PathData] {strings : List RcString} {L : Loaded H I}
  {place : Place K K'} {age : Nat} {s₀ : RefTables K} {w : Node K → RefOut K} {r : NodeReader K'}

/-- The thing behind a pointer is read as what it is loaded as. -/
def NodeSaves (strings : List RcString) (P : Printed H) (L : Loaded H I) (place : Place K K')
    (age : Nat) (s₀ : RefTables K) (w : Node K → RefOut K) (r : NodeReader K') : Node K → Prop
  | .type t => RefsSave strings P L place age s₀ (w (.type t)) r.type (L.into.type t)
  | .literal l => RefsSave strings P L place age s₀ (w (.literal l)) r.literal (L.into.literal l)
  | .unevaluated u =>
    RefsSave strings P L place age s₀ (w (.unevaluated u)) r.unevaluated (L.into.unevaluated u)
  | .traitpath p =>
    RefsSave strings P L place age s₀ (w (.traitpath p)) r.traitpath (L.into.traitpath p)

/-! ## 1. Paths -/

omit [DecidableEq K.Ty] [DecidableEq K.PathData] in
/-- A writer that stops, but for want of an end, writes nothing that could be read. -/
theorem stop_saves {α : Type} {Q Q' : RefTables K → ReadTables K' → Prop} {e : WriteStop}
    (h : e ≠ endless) {r : RefIn K' α} {a : α} :
    SavesFrom (· ≠ endless) strings Q Q' (Write.stop e : RefOut K) r a where
  stops he := by
    cases he
    exact h
  kept hok := by cases hok
  reads hok := by cases hok

theorem genericref_loads (ge : HIRGenericRef) :
    RefsSave strings P L place age s₀ (RefWriter.serialiseGenericref ge)
      RefReader.deserialiseGenericref ge.read :=
  (Carries.may (by decide)).after
    ((istring_saves ge.name).bind (u16_saves (ge.binding.setWidth 16)).map)

theorem constgeneric_loads {v : HIRConstGeneric K}
    (h : ∀ x ∈ v.refs, NodeSaves strings P L place age s₀ w r x) :
    RefsSave strings P L place age s₀ (serialiseConstgeneric w v) (deserialiseConstgeneric r)
      (v.map L.into.read) := by
  cases v with
  | Infer index => exact (tag_saves (by decide)).last rfl
  | Unevaluated v =>
    have hv : RefsSave strings P L place age s₀ _ _ _ := h (.unevaluated v) List.mem_cons_self
    exact (tag_saves (by decide)).bind hv.map
  | Generic v => exact (tag_saves (by decide)).bind (genericref_loads v).map
  | Evaluated v =>
    have hv : RefsSave strings P L place age s₀ _ _ _ := h (.literal v) List.mem_cons_self
    exact (tag_saves (by decide)).bind hv.map

theorem types_load {l : List K.Ty}
    (h : ∀ x ∈ l.map Node.type, NodeSaves strings P L place age s₀ w r x) :
    ∀ t ∈ l, RefsSave strings P L place age s₀ ((w ∘ .type) t) r.type (L.into.type t) :=
  fun t ht => h (.type t) (List.mem_map_of_mem ht)

theorem pathparams_loads {pp : HIRPathParams K}
    (h : ∀ x ∈ pp.refs, NodeSaves strings P L place age s₀ w r x) :
    RefsSave strings P L place age s₀ (serialisePathparams w pp) (deserialisePathparams r)
      (pp.map L.into.read) := by
  have hvalues : ∀ v ∈ pp.values, RefsSave strings P L place age s₀ (serialiseConstgeneric w v)
      (deserialiseConstgeneric r) (v.map L.into.read) := fun v hv =>
    constgeneric_loads fun x hx => h x (List.mem_append_right _ (List.mem_flatMap.2 ⟨v, hv, hx⟩))
  exact (list_saves (types_load fun x hx => h x (List.mem_append_left _ hx))).bind
    (list_saves hvalues).map

theorem genericpath_loads (hd : Distinct P L) {p : HIRGenericPath K}
    (h : ∀ x ∈ p.refs, NodeSaves strings P L place age s₀ w r x) :
    RefsSave strings P L place age s₀ (serialiseGenericpath H w p) (deserialiseGenericpath I r)
      (p.map L.into.read) :=
  (simplepath_saves hd p.path).bind (pathparams_loads h).map

omit [DecidableEq K.Ty] [DecidableEq K.PathData] in
theorem strmap_saves {α γ : Type} {Q : RefTables K → ReadTables K' → Prop} {w : γ → RefOut K}
    {r : RefIn K' α} {f : γ → α} {map : List (RcString × γ)}
    (h : ∀ b ∈ map, SavesOr (· ≠ endless) strings Q (w b.2) r (f b.2)) :
    SavesOr (· ≠ endless) strings Q (serialiseStrmap w map) (deserialiseIstrmap r)
      (map.map fun b => (b.1, f b.2)) :=
  (count_saves map.length).bind
    (Carries.list fun b hb => (istring_saves b.1).bind (h b hb).map)

theorem atyEqual_loads (hd : Distinct P L) {e : AtyEqual K}
    (h : ∀ x ∈ e.refs, NodeSaves strings P L place age s₀ w r x) :
    RefsSave strings P L place age s₀ (serialiseAtyEqual H w e) (deserialiseAtyEqual I r)
      (e.map L.into.read) := by
  simp only [AtyEqual.refs, List.forall_mem_append, List.forall_mem_singleton] at h
  obtain ⟨⟨htrait, hparams⟩, htype⟩ := h
  have htype : RefsSave strings P L place age s₀ _ _ _ := htype
  exact (genericpath_loads hd htrait).bind ((pathparams_loads hparams).bind htype.map)

theorem atyBound_loads (hd : Distinct P L) {e : AtyBound K}
    (h : ∀ x ∈ e.refs, NodeSaves strings P L place age s₀ w r x) :
    RefsSave strings P L place age s₀ (serialiseAtyBound H w e) (deserialiseAtyBound I r)
      (e.map L.into.read) := by
  simp only [AtyBound.refs, List.forall_mem_append] at h
  obtain ⟨⟨htrait, hparams⟩, htraits⟩ := h
  have htraits : ∀ p ∈ e.traits, RefsSave strings P L place age s₀ ((w ∘ .traitpath) p) r.traitpath
      (L.into.traitpath p) := fun p hp => htraits (.traitpath p) (List.mem_map_of_mem hp)
  exact (genericpath_loads hd htrait).bind ((pathparams_loads hparams).bind
    (vec_saves htraits).map)

theorem traitpath_loads (hd : Distinct P L) {p : HIRTraitPath K}
    (h : ∀ x ∈ p.refs, NodeSaves strings P L place age s₀ w r x) :
    RefsSave strings P L place age s₀ (serialiseTraitpath H w p) (deserialiseTraitpath I r)
      (p.map L.into.read) := by
  simp only [HIRTraitPath.refs, List.forall_mem_append, List.forall_mem_flatMap] at h
  obtain ⟨⟨hpath, htypes⟩, hbounds⟩ := h
  exact object_saves _ ((genericpath_loads hd hpath).bind
    ((strmap_saves fun b hb => atyEqual_loads hd (htypes b hb)).bind
      ((strmap_saves fun b hb => atyBound_loads hd (hbounds b hb)).bind
        (kind_saves p.constness).map)))

theorem path_loads (hd : Distinct P L) {p : HIRPath K}
    (h : ∀ x ∈ p.refs, NodeSaves strings P L place age s₀ w r x) :
    RefsSave strings P L place age s₀ (serialisePath H w p) (deserialisePath I r)
      (p.map L.into.read) := by
  cases p with
  | Generic path => exact (tag_saves (by decide)).bind (genericpath_loads hd h).map
  | UfcsInherent type item params implParams =>
    simp only [HIRPath.refs, List.cons_append, List.forall_mem_cons, List.forall_mem_append] at h
    obtain ⟨htype, hparams, himpl⟩ := h
    have htype : RefsSave strings P L place age s₀ _ _ _ := htype
    exact (tag_saves (by decide)).bind (htype.bind ((istring_saves item).bind
      ((pathparams_loads hparams).bind (pathparams_loads himpl).map)))
  | UfcsKnown type trait item params =>
    simp only [HIRPath.refs, List.cons_append, List.forall_mem_cons, List.forall_mem_append] at h
    obtain ⟨htype, htrait, hparams⟩ := h
    have htype : RefsSave strings P L place age s₀ _ _ _ := htype
    exact (tag_saves (by decide)).bind (htype.bind ((genericpath_loads hd htrait).bind
      ((istring_saves item).bind (pathparams_loads hparams).map)))
  | UfcsUnknown type item params => exact stop_saves (by decide)

/-! ## 2. Types -/

theorem arraysize_loads {size : HIRArraySize (vocabulary K)}
    (h : ∀ x ∈ HIRArraySize.refs size, NodeSaves strings P L place age s₀ w r x) :
    RefsSave strings P L place age s₀ ((refWriter H w).serialiseArraysize size)
      (refReader I r).deserialiseArraysize (HIRArraySize.map L.into.read size) := by
  cases size with
  | Unevaluated v => exact (tag_saves (by decide)).bind (constgeneric_loads h).map
  | Known v => exact (tag_saves (by decide)).bind (u64_saves v).map

theorem encoded_loads (hd : Distinct P L) {l : EncodedLiteral (vocabulary K)}
    (h : ∀ x ∈ EncodedLiteral.refs l, NodeSaves strings P L place age s₀ w r x) :
    RefsSave strings P L place age s₀ ((refWriter H w).serialiseEncoded l)
      (refReader I r).deserialiseEncodedliteral (EncodedLiteral.map L.into.read l) := by
  have hreloc : ∀ e ∈ l.relocations, RefsSave strings P L place age s₀
      ((refWriter H w).serialiseReloc e) (refReader I r).deserialiseReloc
      (Reloc.map L.into.read e) := by
    intro e he
    have hrefs : ∀ x ∈ Reloc.refs e, NodeSaves strings P L place age s₀ w r x := fun x hx =>
      h x (List.mem_flatMap.2 ⟨e, he, hx⟩)
    cases e with
    | named ofs len p preserveTrackCaller =>
      exact (count_saves ofs).bind ((count_saves len).bind
        ((bool_saves preserveTrackCaller).bind
          ((tag_saves (by decide)).bind (path_loads hd hrefs).map)))
    | bytes ofs len data =>
      exact (count_saves ofs).bind ((count_saves len).bind ((bool_saves false).bind
        ((tag_saves (by decide)).bind (string_saves data).map)))
  have hbytes : RefsSave strings P L place age s₀ (serialiseVec "u8" writeU8 l.bytes)
      (deserialiseVec "u8" readU8) (l.bytes.map id) := vec_saves fun v _ => u8_saves v
  rw [List.map_id] at hbytes
  exact hbytes.bind ((count_saves l.relocations.length).bind (Carries.list hreloc).map)

theorem erasedInner_loads (hd : Distinct P L) {inner : TypeDataErasedTypeInner K}
    (h : ∀ x ∈ inner.refs, NodeSaves strings P L place age s₀ w r x) :
    RefsSave strings P L place age s₀ (serialiseErasedInner H w inner)
      (deserialiseErasedInner I r) (inner.map L.into.read) := by
  cases inner with
  | Fcn origin index =>
    exact (tag_saves (by decide)).bind ((path_loads hd h).bind (unsigned_saves index).map)
  | Alias params path index =>
    exact (tag_saves (by decide)).bind (stop_saves (by decide))

theorem patternRange_loads {range : HIRTypePatternRange K}
    (h : ∀ x ∈ range.refs, NodeSaves strings P L place age s₀ w r x) :
    RefsSave strings P L place age s₀ (serialisePatternRange w range) (deserialisePatternRange r)
      (range.map L.into.read) := by
  simp only [HIRTypePatternRange.refs, List.forall_mem_append, List.forall_mem_flatMap] at h
  obtain ⟨hstart, hend⟩ := h
  exact (optional_saves _ fun v hv => constgeneric_loads (hstart v (Option.mem_toList.2 hv))).bind
    ((optional_saves _ fun v hv => constgeneric_loads (hend v (Option.mem_toList.2 hv))).bind
      (bool_saves range.endInclusive).map)

/-- The parts of a type, one case for every kind. -/
theorem typeData_loads (hd : Distinct P L) {ty : HIRType K}
    (h : ∀ x ∈ ty.refs, NodeSaves strings P L place age s₀ w r x) :
    RefsSave strings P L place age s₀ (serialiseTypeData H w ty) (deserialiseTypeData I r)
      (ty.map L.into.read) := by
  have hinner : ∀ {t}, NodeSaves strings P L place age s₀ w r (.type t) →
      RefsSave strings P L place age s₀ (w (.type t)) r.type (L.into.type t) := fun ht => ht
  cases ty with
  | Infer index tyClass => exact (tag_saves (by decide)).last rfl
  | Diverge => exact (tag_saves (by decide)).last rfl
  | Primitive e => exact (tag_saves (by decide)).bind (enum_saves e).map
  | Path path binding => exact (tag_saves (by decide)).bind (path_loads hd h).map
  | Generic e => exact (tag_saves (by decide)).bind (genericref_loads e).map
  | TraitObject trait markers identity hasFree =>
    simp only [HIRType.refs, List.forall_mem_append, List.forall_mem_flatMap] at h
    exact (tag_saves (by decide)).bind ((traitpath_loads hd h.1).bind
      ((vec_saves fun p hp => genericpath_loads hd (h.2 p hp)).bind
        ((istring_saves identity).bind (bool_saves hasFree).map)))
  | ErasedType isSized traits use usePresent inner =>
    simp only [HIRType.refs, List.forall_mem_append, List.forall_mem_flatMap] at h
    obtain ⟨⟨htraits, huse⟩, hin⟩ := h
    exact (tag_saves (by decide)).bind ((bool_saves isSized).bind
      ((vec_saves fun p hp => traitpath_loads hd (htraits p hp)).bind
        ((pathparams_loads huse).bind ((enum_saves usePresent).bind
          (erasedInner_loads hd hin).map))))
  | Array inner size =>
    simp only [HIRType.refs, List.forall_mem_cons] at h
    exact (tag_saves (by decide)).bind ((hinner h.1).bind (arraysize_loads h.2).map)
  | Slice inner => exact (tag_saves (by decide)).bind (hinner (h _ List.mem_cons_self)).map
  | Tuple e => exact (tag_saves (by decide)).bind (vec_saves (types_load h)).map
  | Borrow type inner =>
    exact (tag_saves (by decide)).bind ((enum_saves type).bind
      (hinner (h _ List.mem_cons_self)).map)
  | Pointer type inner =>
    exact (tag_saves (by decide)).bind ((enum_saves type).bind
      (hinner (h _ List.mem_cons_self)).map)
  | NamedFunction path undefined => exact (tag_saves (by decide)).bind (path_loads hd h).map
  | Function isUnsafe isVariadic abi rettype argTypes trackCaller identity hasFree =>
    simp only [HIRType.refs, List.forall_mem_cons] at h
    exact (tag_saves (by decide)).bind ((bool_saves isUnsafe).bind ((bool_saves isVariadic).bind
      ((istring_saves abi).bind ((hinner h.1).bind ((vec_saves (types_load h.2)).bind
        ((bool_saves trackCaller).bind ((istring_saves identity).bind
          (bool_saves hasFree).map)))))))
  | NodeType text => exact (tag_saves (by decide)).bind (stop_saves (by decide))
  | Pattern inner pattern =>
    simp only [HIRType.refs, List.forall_mem_cons, List.forall_mem_flatMap] at h
    exact (tag_saves (by decide)).bind ((hinner h.1).bind ((bool_saves pattern.notNull).bind
      ((count_saves pattern.alternatives.length).bind
        (Carries.list fun range hr => patternRange_loads (h.2 range hr)).map)))

/-! ## 3. Bodies -/

theorem ref_loads (hd : Distinct P L) {ref : Ref K}
    (h : ∀ x ∈ ref.refs, NodeSaves strings P L place age s₀ w r x) :
    RefsSave strings P L place age s₀ (serialiseRef H w ref) (deserialiseRef I r)
      (ref.map L.into.read) := by
  cases ref with
  | type t =>
    have ht : RefsSave strings P L place age s₀ _ _ _ := h (.type t) List.mem_cons_self
    exact (tag_saves (by decide)).bind ht.map
  | path p => exact (tag_saves (by decide)).bind (simplepath_saves hd p).map

theorem mir_loads (hd : Distinct P L) {mir : BodyRefs K}
    (h : ∀ x ∈ mir.flatMap Ref.refs, NodeSaves strings P L place age s₀ w r x) :
    RefsSave strings P L place age s₀ (serialiseMir H w mir) (deserialiseMir I r)
      (mir.map (Ref.map L.into.read)) :=
  (count_saves mir.length).bind (Carries.list fun ref hr =>
    ref_loads hd fun x hx => h x (List.mem_flatMap.2 ⟨ref, hr, hx⟩))

theorem exprptr_loads (hd : Distinct P L) {exp : HIRExprPtr K}
    (h : ∀ x ∈ exp.refs, NodeSaves strings P L place age s₀ w r x) :
    RefsSave strings P L place age s₀ (serialiseExprptr H w exp) (deserialiseExprptr I r)
      (exp.map L.into.read) := by
  simp only [HIRExprPtr.refs, List.forall_mem_append, List.forall_mem_flatMap] at h
  obtain ⟨hmir, herased⟩ := h
  refine object_saves _ ((optional_saves _ fun b hb => ?_).bind
    (vec_saves (types_load herased)).map)
  obtain ⟨hrefs, hresult⟩ := hmir b (Option.mem_toList.2 hb)
  exact (mir_loads hd (List.forall_mem_flatMap.2 hrefs)).bind (optional_saves _ fun t ht =>
    types_load hresult t (Option.mem_toList.2 ht)).map

theorem unevaluated_loads (hd : Distinct P L) {v : HIRConstGenericUnevaluated K}
    (h : ∀ x ∈ v.refs, NodeSaves strings P L place age s₀ w r x) :
    RefsSave strings P L place age s₀ (serialiseUnevaluated H w v) (deserialiseUnevaluated I r)
      (v.map L.into.read) := by
  simp only [HIRConstGenericUnevaluated.refs, List.forall_mem_append] at h
  obtain ⟨⟨⟨hself, himpl⟩, hitem⟩, hexpr⟩ := h
  exact (Carries.may (by decide)).after
    ((optional_saves _ fun t ht => types_load hself t (Option.mem_toList.2 ht)).bind
      ((pathparams_loads himpl).bind ((pathparams_loads hitem).bind
        (exprptr_loads hd hexpr).map)))

/-! ## 4. Everything -/

/-- The thing behind a pointer comes back, if there is fuel for its depth: by induction on the fuel,
    with what it points to less deep. -/
theorem node_saves (hd : Distinct P L) : ∀ (n : Nat) {age : Nat} {s₀ : RefTables K} {x : Node K},
    L.age x < n → L.age x < age →
      NodeSaves strings P L place age s₀ (serialiseNode H P n) (nodeReader I n) x
  | 0, _, _, _, h, _ => absurd h (Nat.not_lt_zero _)
  | n + 1, age, s₀, x, h, ha => by
    have hrefs : ∀ {age' : Nat} {s₁ : RefTables K}, L.age x ≤ age' → ∀ y ∈ H.refs x,
        NodeSaves strings P L place age' s₁ (serialiseNode H P n) (nodeReader I n) y := by
      intro age' s₁ hle y hy
      have hlt := L.age_lt hy
      exact node_saves hd n (by omega) (by omega)
    cases x with
    | type t => exact type_saves hd ha fun s₁ => typeData_loads hd (hrefs (Nat.le_refl _))
    | literal l =>
      exact (encoded_loads hd (hrefs (Nat.le_of_lt ha))).last (by rw [← L.literal_eq])
    | unevaluated u =>
      exact (unevaluated_loads hd (hrefs (Nat.le_of_lt ha))).last (by rw [← L.unevaluated_eq])
    | traitpath p =>
      exact (traitpath_loads hd (hrefs (Nat.le_of_lt ha))).last (by rw [← L.traitpath_eq])

end Trustme.Metadata
