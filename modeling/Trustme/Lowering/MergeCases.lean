/-
  Subject:   The cases of `mergeState`: each one meets its meetings when the merges of the parts do.

  * `meets_box`, `meets_parts`, `meets_array`: the three shapes of a value with parts;
  * `mergeIntoInvalid_meets` and its siblings: one lemma for each tag of the old state;
  * `mergeStateTo_merges`: the recursion, by induction on its depth;
  * `mergeState_merges`: the depth `mergeState` starts it with is enough.
-/
import Trustme.Lowering.MergeSteps

namespace Trustme.Lowering

open Lib (OrdMap Source Touches)

variable {Ty : Type} {tt : TypeTable Ty} {B : Nat} {df : DropFlag → Bool}

/-! ## 1. Values with parts -/

/-- The old state `s'` of a pair stands for `s`: it is `s`, or a new alias where `s` is a flag. -/
inductive StandsFor (B : Nat) (b : Builder) : VarState → VarState → Prop where
  | self (s : VarState) : StandsFor B b s s
  | copy {f a : DropFlag} (h : (f, a) ∈ b.dropFlagAliases) (hB : B ≤ a) :
      StandsFor B b (.optional f) (.optional a)

variable {b b' : Builder} {s : VarState}

theorem StandsFor.mono {s' : VarState} (h : StandsFor B b s s')
    (hg : Grown b b') : StandsFor B b' s s' := by
  cases h with
  | self => exact .self s
  | copy h hB => exact .copy (hg.mem h) hB

theorem Agrees.of_standsFor {ty : Ty} {s' t r : VarState} {ms : List Met}
    (h : Agrees tt B ty b s' t r ms) (hs : StandsFor B b s s') : Agrees tt B ty b s t r ms := by
  cases hs with
  | self => exact h
  | copy ha hB => exact h.of_alias ha hB

/-- A run that only adds aliases, and one with an outer flag after it. -/
theorem OuterRun.after {S : DropFlag → Prop} {b b₁ b' : Builder} {m : Meeting}
    {o w c : Source DropFlag Bool} (h : OuterRun B S b₁ b' m o w c) (h₀ : Ran B S b b₁ [])
    (hB : B ≤ b.dropFlags.length) : OuterRun B S b b' m o w c :=
  ⟨h₀.append h.ran hB (fun _ hm => absurd hm List.not_mem_nil) (fun _ _ h => Or.inl h),
    h.was, h.want⟩

/-- The merged state reads a flag that the builder has. -/
theorem OuterRun.flag_lt {S : DropFlag → Prop} {b₁ : Builder} {m : Meeting}
    {o w c : Source DropFlag Bool} {f : DropFlag} (h : OuterRun B S b b₁ m o w c)
    (hb : Ready B df b) (hg : Grown b₁ b') (hc : c = .reg f) : f < b'.dropFlags.length :=
  Nat.lt_of_lt_of_le ((h.ran.placed _ (List.mem_singleton_self _)).lt_length
    (Nat.le_trans hb.bound h.ran.grown.length_le) hc) hg.length_le

/-- The new flags among the old states of the pairs. -/
def Seeds (ps : Pairs) (x : DropFlag) : Prop := ∃ p ∈ ps, Seed p.2.1 x

/-- Pairs whose old states are those of the arms bring no new flag along. -/
theorem not_seeds_of_own {tyOf : Nat → Ty} {ps : Pairs} {vs : Views}
    (hp : List.Forall₂ (Paired tt B tyOf b) ps vs) (hown : ∀ v ∈ vs, ∃ s, v.2.1 = .own s)
    {x : DropFlag} (hx : B ≤ x) : ¬ Seeds ps x := by
  rintro ⟨p, hmem, hseed⟩
  obtain ⟨v, hv, hpv⟩ := Lib.forall₂_mem_left hp p hmem
  obtain ⟨s, hs⟩ := hown v hv
  have hseen := hpv.seen
  rw [hs] at hseen
  obtain ⟨rfl, hfits⟩ := hseen
  rw [Seed] at hseed
  rw [hseed, TypeTable.Fits] at hfits
  exact absurd hfits (Nat.not_lt.mpr hx)

theorem beside_of_own {tyOf : Nat → Ty} {ps : Pairs} {vs : Views}
    (hp : List.Forall₂ (Paired tt B tyOf b) ps vs) (hown : ∀ v ∈ vs, ∃ s, v.2.1 = .own s) :
    Beside B b ps :=
  List.pairwise_of_forall_mem_list fun _ _ q hq _ _ hx hs _ _ =>
    not_seeds_of_own hp hown hx ⟨q, hq, hs⟩

section Composite

variable {merge : Ty → VarState → VarState → Build VarState}
  {meet : Ty → OldView → VarState → List Meeting} {ty : Ty} {old new : VarState}
  {b b₁ b₂ b' : Builder} {o w : Source DropFlag Bool} {m : Meeting}

variable (hm : Merges tt B df merge meet) (hb : Ready B df b)

include hm hb

/-- A box: the meeting of its shells, then the merge of what is in it. -/
theorem meets_box {outerFlag : Option DropFlag}
    {oldInner newInner inner : VarState}
    (houter : OuterRun B (Seed old) b b₁ m o w (outerSource outerFlag))
    (hold : BoxOf old o oldInner) (hnew : BoxOf new w newInner)
    (hsplit : (∃ i f, old = .movedOut i f) ∨ ∃ i f, new = .movedOut i f)
    (hfit : tt.Fits B (tt.pointee ty) oldInner) (hfit' : tt.Fits B (tt.pointee ty) newInner)
    (hlost : .lost ∉ meet (tt.pointee ty) (.own oldInner) newInner)
    (h : merge (tt.pointee ty) oldInner newInner b₁ = .ok (inner, b')) :
    Meets tt B ty old new b (.movedOut inner outerFlag) b'
      (m :: meet (tt.pointee ty) (.own oldInner) newInner) := by
  have hb₁ := hb.next houter.ran.grown houter.ran.wf
  obtain ⟨ms, hms, hran, hag, hfin⟩ := hm _ (.own _) _ _ _ _ _ hb₁ ⟨rfl, hfit⟩ hfit' hlost h
  have hseed : ∀ x, B ≤ x → ¬ Seed oldInner x := by
    intro x hx hs
    rw [Seed] at hs
    rw [hs, TypeTable.Fits] at hfit
    exact absurd hfit (Nat.not_lt.mpr hx)
  refine ⟨⟨m, outerSource outerFlag⟩ :: ms, by simp [hms], ?_, ?_, ?_⟩
  · exact houter.ran.append hran hb.bound (fun _ _ x _ hx hs => absurd hs (hseed x hx))
      fun x hx hs => absurd hs (hseed x hx)
  · refine .box hold hnew hsplit List.mem_cons_self houter.was houter.want rfl ?_
    exact hag.mono (.refl hran.wf) fun m hm => List.mem_cons_of_mem _ hm
  · rw [TypeTable.Fits]
    exact ⟨fun f hf => houter.flag_lt hb hran.grown (congrArg outerSource hf), hfin⟩

/-- Fields or variants: the meeting of the outer flags of an enum, then the merges of the parts.
    New flags among the old states of the pairs are aliases made before (`hmine`, `hfar`). -/
theorem meets_parts
    {outerFlag : Option DropFlag} {oldInner newInner : Nat → Option VarState} {ps : Pairs}
    {vs : Views} {rs : OrdMap VarState}
    (houter : tt.isEnum ty = true → OuterRun B (Seed old) b b₁ m o w (outerSource outerFlag))
    (hnone : tt.isEnum ty = false → Ran B (Seed old) b b₁ [])
    (hold : PartsOf old o oldInner) (hnew : PartsOf new w newInner)
    (hsplit : (∃ i f, old = .partialOf i f) ∨ ∃ i f, new = .partialOf i f)
    (hp : List.Forall₂ (Paired tt B (tt.part ty) b₁) ps vs) (hbeside : Beside B b₁ ps)
    (hmine : ∀ x, B ≤ x → Seeds ps x → Mine (Seed old) b b₁ x)
    (hfar : ∀ x y, B ≤ x → Seeds ps x → outerSource outerFlag = .reg y → ¬ Touches b₁.mirrors x y)
    (hparts : ∀ i s t, oldInner i = some s → newInner i = some t →
      ∃ s', ps[i]? = some (i, s', t) ∧ StandsFor B b₁ s s')
    (hkeys : ∀ i (p : Nat × VarState × VarState), ps[i]? = some p → p.1 = i)
    (hflag : tt.isEnum ty = false → ∀ f, outerFlag = some f → f < B)
    (hlost : .lost ∉ meetParts tt meet ty vs)
    (h : mergeParts tt merge ty ps b₁ = .ok (rs, b')) :
    Meets tt B ty old new b (.partialOf (parts rs) outerFlag) b'
      (meetEnum tt ty m ++ meetParts tt meet ty vs) := by
  obtain ⟨ms₀, hms₀, hran₀, hcell₀, hmem₀⟩ : ∃ ms₀ : List Met,
      ms₀.map (·.meeting) = meetEnum tt ty m ∧ Ran B (Seed old) b b₁ ms₀ ∧
      (∀ m ∈ ms₀, m.cell = outerSource outerFlag) ∧ (tt.isEnum ty = true →
        ∃ m ∈ ms₀, m.was = o ∧ m.meeting.want = w ∧ m.cell = outerSource outerFlag) := by
    cases hen : tt.isEnum ty with
    | true =>
      refine ⟨[⟨m, outerSource outerFlag⟩], by simp [meetEnum, hen], (houter hen).ran, ?_, ?_⟩
      · simp
      · exact fun _ => ⟨_, List.mem_singleton_self _, (houter hen).was, (houter hen).want, rfl⟩
    | false => exact ⟨[], by simp [meetEnum, hen], hnone hen, by simp, nofun⟩
  have hb₁ := hb.next hran₀.grown hran₀.wf
  obtain ⟨ms, hms, hran, hag⟩ := mergeEach_meets hm _ hb₁ hp hbeside hlost h
  refine ⟨ms₀ ++ ms, by rw [List.map_append, hms₀, hms]; rfl, ?_, ?_, ?_⟩
  · refine hran₀.append hran hb.bound (fun m hm x y hx hs hy => ?_) hmine
    exact hfar x y hx hs ((hcell₀ m hm).symm.trans hy)
  · refine .parts hold hnew hsplit (fun hen => ?_) fun i s t hs ht => ?_
    · obtain ⟨m, hm, h⟩ := hmem₀ hen
      exact ⟨m, List.mem_append_left _ hm, h⟩
    · obtain ⟨s', hps, hst⟩ := hparts i s t hs ht
      obtain ⟨r, hr, -, ha, -⟩ := Lib.forall₂_getElem hag hps
      refine ⟨r.2, by simp [parts, hr], ?_⟩
      refine (ha.mono (.refl hran.wf) fun m hm => List.mem_append_right _ hm).of_standsFor ?_
      exact hst.mono hran.grown
  · rw [TypeTable.Fits]
    refine ⟨fun f hf => ?_, .intro fun i r hr => ?_⟩
    · cases hen : tt.isEnum ty with
      | true => exact (houter hen).flag_lt hb hran.grown (congrArg outerSource hf)
      | false =>
        exact Nat.lt_of_lt_of_le (hflag hen f hf) (Nat.le_trans hb₁.bound hran.grown.length_le)
    · rw [parts, List.getElem?_map] at hr
      obtain ⟨q, hq, rfl⟩ := Option.map_eq_some_iff.mp hr
      obtain ⟨p, hp, -, -, hfit⟩ := Lib.forall₂_getElem hag.flip hq
      rw [Nat.zero_add, ← hkeys i p hp]
      exact hfit

/-- An array: the merge of the shared states, then those of the exceptions. -/
theorem meets_array
    {oldElement newElement : Nat → VarState} {fillOld fillNew fill : VarState} {view : OldView}
    {count : Nat} {ps : Pairs} {vs : Views} {rs : OrdMap VarState}
    (harray : tt.isArray ty = true) (hran₀ : Ran B (Seed old) b b₁ [])
    (hold : ElementsOf old count oldElement) (hnew : ElementsOf new count newElement)
    (hsplit : (∃ f os, old = .partialArray f os count) ∨ ∃ f os, new = .partialArray f os count)
    (hseen : Seen tt B (tt.field ty 0) b₁ view fillOld) (hfits : tt.Fits B (tt.field ty 0) fillNew)
    (hp : List.Forall₂ (Paired tt B (tt.field ty) b₁) ps vs) (hbeside : Beside B b₁ ps)
    (hmine : ∀ x, B ≤ x → Seeds ps x ∨ Seed fillOld x → Mine (Seed old) b b₁ x)
    (hfar : ∀ x s, B ≤ x → Seeds ps x → Seed fillOld s → ¬ Touches b₁.mirrors x s)
    (hfill : ∀ i, OrdMap.find i ps = none →
      StandsFor B b₁ (oldElement i) fillOld ∧ newElement i = fillNew)
    (hother : ∀ i s' t, OrdMap.find i ps = some (s', t) →
      StandsFor B b₁ (oldElement i) s' ∧ newElement i = t)
    (hlost : .lost ∉ meet (tt.field ty 0) view fillNew ++ meetElements tt meet ty vs)
    (h₁ : merge (tt.field ty 0) fillOld fillNew b₁ = .ok (fill, b₂))
    (h₂ : mergeElements tt merge ty ps b₂ = .ok (rs, b')) :
    Meets tt B ty old new b (.partialArray fill rs count) b'
      (meet (tt.field ty 0) view fillNew ++ meetElements tt meet ty vs) := by
  have hb₁ := hb.next hran₀.grown hran₀.wf
  rw [List.mem_append, not_or] at hlost
  obtain ⟨ms, hms, hran, hag, hfin⟩ := hm _ _ _ _ _ _ _ hb₁ hseen hfits hlost.1 h₁
  have hb₂ := hb₁.next hran.grown hran.wf
  have hlt : ∀ x, Seeds ps x → x < b₁.dropFlags.length := by
    rintro x ⟨p, hpmem, hx⟩
    obtain ⟨v, -, hpv⟩ := Lib.forall₂_mem_left hp p hpmem
    exact hpv.seen.seed_lt hb₁.bound hx
  have hp₂ : List.Forall₂ (Paired tt B (tt.field ty) b₂) ps vs :=
    hp.imp fun _ _ h => ⟨h.key, h.new, h.seen.mono hran.grown, h.fits⟩
  have hbeside₂ : Beside B b₂ ps := hbeside.imp_of_mem fun hmem _ hne x s hx hxs hs ht =>
    hne x s hx hxs hs
      ((hran.grown.touches_iff_touches hb₁.wf hran.wf (hlt s ⟨_, hmem, hs⟩)).mp ht)
  obtain ⟨ms', hms', hran', hag'⟩ := mergeEach_meets hm _ hb₂ hp₂ hbeside₂ hlost.2 h₂
  have hfar₂ : ∀ m ∈ ms, ∀ x y, B ≤ x → Seeds ps x → m.cell = .reg y →
      ¬ Touches b₂.mirrors x y :=
    hran.untouched hb₁.wf (fun s hs => hseen.seed_lt hb₁.bound hs) (fun x _ hx => hlt x hx)
      fun x s hx hxs hs => hfar x s hx hxs hs
  have hboth : Ran B (fun x => Seeds ps x ∨ Seed fillOld x) b₁ b' (ms ++ ms') :=
    (hran.mono fun x _ hx => Or.inr hx).append hran' hb₁.bound hfar₂
      fun x _ hx => Or.inl (Or.inl hx)
  refine ⟨ms ++ ms', by rw [List.map_append, hms, hms']; rfl, ?_, ?_, ?_⟩
  · exact hran₀.append hboth hb.bound (fun _ hm => absurd hm List.not_mem_nil) hmine
  · refine .array hold hnew hsplit fun i => ?_
    have hgrown := hran.grown.trans hran'.grown
    rcases Lib.forall₂_find (fun _ _ h => h.1) i hag' with ⟨hn, hn'⟩ | ⟨⟨s', t⟩, r, hs,
      hr, -, ha, -⟩
    · obtain ⟨hst, hnewi⟩ := hfill i hn
      have ha := (hag.mono hran'.grown fun m hm => List.mem_append_left ms' hm).of_standsFor
        (hst.mono hgrown)
      rw [hnewi, VarState.element, hn', tt.field_of_isArray harray i 0]
      exact ha
    · obtain ⟨hst, hnewi⟩ := hother i s' t hs
      rw [hnewi, VarState.element, hr]
      exact (ha.mono (.refl hran'.wf) fun m hm => List.mem_append_right _ hm).of_standsFor
        (hst.mono hgrown)
  · rw [TypeTable.Fits]
    refine ⟨harray, hfin.mono hran'.grown.length_le, .intro fun q hq => ?_⟩
    obtain ⟨p, -, hk, -, hfit⟩ := Lib.forall₂_mem_left hag'.flip q hq
    exact hk ▸ hfit

end Composite

/-! ## 2. The pairs of the cases -/

theorem getElem?_byIndex (states : List VarState) (i : Nat) :
    (byIndex states)[i]? = states[i]?.map fun s => (i, s) := by
  simp [byIndex, List.getElem?_zipIdx, Function.comp_def]

theorem getElem?_innerPairs (olds : OrdMap VarState) (news : List VarState) (i : Nat) :
    (innerPairs olds news)[i]? =
      olds[i]?.bind fun p => news[i]?.map fun t => (p.1, p.2, t) := by
  rw [innerPairs, List.getElem?_map, List.zip, List.getElem?_zipWith]
  cases olds[i]? <;> cases news[i]? <;> rfl

variable {olds : OrdMap VarState}

theorem key_of_innerPairs {news : List VarState}
    (h : ∀ i (p : Nat × VarState), olds[i]? = some p → p.1 = i) (i : Nat)
    (p : Nat × VarState × VarState) (hp : (innerPairs olds news)[i]? = some p) : p.1 = i := by
  rw [getElem?_innerPairs] at hp
  obtain ⟨q, hq, hp⟩ := Option.bind_eq_some_iff.mp hp
  obtain ⟨t, -, rfl⟩ := Option.map_eq_some_iff.mp hp
  exact h i q hq

theorem key_of_byIndex {states : List VarState} (i : Nat) (p : Nat × VarState)
    (hp : (byIndex states)[i]? = some p) : p.1 = i := by
  rw [getElem?_byIndex] at hp
  obtain ⟨s, -, rfl⟩ := Option.map_eq_some_iff.mp hp
  rfl

theorem find_map {V W : Type} (g : V → W) (i : Nat) : ∀ m : OrdMap V,
    OrdMap.find i (m.map fun p => (p.1, g p.2)) = (m.find i).map g
  | [] => rfl
  | (k, v) :: m => by
    rw [List.map_cons, OrdMap.find_cons, OrdMap.find_cons, find_map g i m]
    split <;> rfl

theorem find_map_key {V W : Type} (g : Nat → V → W) (i : Nat) : ∀ m : OrdMap V,
    OrdMap.find i (m.map fun p => (p.1, g p.1 p.2)) = (m.find i).map (g i)
  | [] => rfl
  | (k, v) :: m => by
    rw [List.map_cons, OrdMap.find_cons, OrdMap.find_cons, find_map_key g i m]
    by_cases h : i = k
    · simp [h]
    · simp [h]

theorem find_otherPairs (olds : OrdMap VarState) (newAt : Nat → VarState) (i : Nat) :
    OrdMap.find i (otherPairs olds newAt) = (olds.find i).map fun s => (s, newAt i) :=
  find_map_key (fun k s => (s, newAt k)) i olds

/-- Old parts that all are seen as one, next to the parts of the new state. -/
theorem paired_inner {ty : Ty} {view : OldView} {news : List VarState}
    (hlen : olds.length = news.length)
    (hseen : ∀ i p, olds[i]? = some p → p.1 = i ∧ Seen tt B (tt.part ty i) b view p.2)
    (hnew : TypeTable.FitsInner tt B ty 0 news) :
    List.Forall₂ (Paired tt B (tt.part ty) b) (innerPairs olds news)
      (viewConst view (byIndex news)) := by
  rw [List.forall₂_iff_get]
  refine ⟨by simp [innerPairs, viewConst, byIndex, hlen], fun i h₁ h₂ => ?_⟩
  have hi : i < news.length := by simpa [viewConst, byIndex] using h₂
  obtain ⟨hk, hs⟩ := hseen i olds[i] (List.getElem?_eq_getElem (hlen ▸ hi))
  have hp : (innerPairs olds news).get ⟨i, h₁⟩ = (olds[i].1, olds[i].2, news[i]) := by
    simp [innerPairs]
  have hv : (viewConst view (byIndex news)).get ⟨i, h₂⟩ = (i, view, news[i]) := by
    simp [viewConst, byIndex]
  rw [hp, hv]
  refine ⟨hk, rfl, hk.symm ▸ hs, ?_⟩
  have hf := hnew.getElem (List.getElem?_eq_getElem hi)
  rw [Nat.zero_add] at hf
  exact hk.symm ▸ hf

/-- Pairs whose old states are those of the old arm. -/
theorem paired_viewPairs {tyOf : Nat → Ty} {ps : Pairs}
    (h : ∀ p ∈ ps, tt.Fits B (tyOf p.1) p.2.1 ∧ tt.Fits B (tyOf p.1) p.2.2) :
    List.Forall₂ (Paired tt B tyOf b) ps (viewPairs ps) := by
  rw [viewPairs, List.forall₂_map_right_iff, List.forall₂_same]
  exact fun p hp => ⟨rfl, rfl, ⟨rfl, (h p hp).1⟩, (h p hp).2⟩

theorem own_viewPairs {ps : Pairs} : ∀ v ∈ viewPairs ps, ∃ s, v.2.1 = .own s := by
  intro v hv
  obtain ⟨p, -, rfl⟩ := List.mem_map.mp hv
  exact ⟨_, rfl⟩

/-- Elements that are seen as given, next to the elements of the new array at the same keys. -/
theorem paired_elements {ty : Ty} {views : OrdMap OldView} {newAt : Nat → VarState}
    (hseen : List.Forall₂ (fun p v => p.1 = v.1 ∧ Seen tt B (tt.field ty p.1) b v.2 p.2) olds views)
    (hnew : ∀ k, tt.Fits B (tt.field ty k) (newAt k)) :
    List.Forall₂ (Paired tt B (tt.field ty) b) (otherPairs olds newAt)
      (viewElementPairs views newAt) := by
  rw [otherPairs, viewElementPairs, List.forall₂_map_left_iff, List.forall₂_map_right_iff]
  exact hseen.imp fun _ _ h => ⟨h.1, congrArg newAt h.1, h.2, hnew _⟩

/-- A state that fits is seen as it is. -/
theorem seen_own {ty : Ty} (h : tt.Fits B ty s) :
    Seen tt B ty b (.own s) s := ⟨rfl, h⟩

/-! ## 3. An old state that is gone or there -/

section Cases

variable {merge : Ty → VarState → VarState → Build VarState}
  {meet : Ty → OldView → VarState → List Meeting} {ty : Ty} {old new : VarState}
  {b b₁ b₂ b' : Builder}

theorem meets_leaf {m : Meeting} {o w c : Source DropFlag Bool} {merged : VarState}
    (h : OuterRun B (Seed old) b b' m o w c) (hold : LeafOf old o) (hnew : LeafOf new w)
    (hmerged : LeafOf merged c) (hfits : tt.Fits b'.dropFlags.length ty merged) :
    Meets tt B ty old new b merged b' [m] :=
  ⟨[⟨m, c⟩], rfl, h.ran, .leaf hold hnew hmerged (List.mem_singleton_self _) h.was h.want rfl,
    hfits⟩

/-- The merged state is one flag. -/
theorem meets_flag (hb : Ready B df b) {m : Meeting} {o w : Source DropFlag Bool} {f : DropFlag}
    (h : OuterRun B (Seed old) b b' m o w (.reg f)) (hold : LeafOf old o) (hnew : LeafOf new w) :
    Meets tt B ty old new b (.optional f) b' [m] :=
  meets_leaf h hold hnew (leafOf_optional f) (by
    rw [TypeTable.Fits]
    exact h.flag_lt hb (.refl h.ran.wf) rfl)

/-- A state without flags and parts: it fits any type. -/
structure Fixed (tt : TypeTable Ty) (B : Nat) (s : VarState) (was : Bool) : Prop where
  leaf : LeafOf s (.const was)
  fits : ∀ ty, tt.Fits B ty s
  noSeed : ∀ x, ¬ Seed s x

theorem fixed_invalid (why : InvalidType) : Fixed tt B (.invalid why) false :=
  ⟨leafOf_invalid why, fun _ => by rw [TypeTable.Fits]; trivial, fun _ => nofun⟩

theorem fixed_valid : Fixed tt B .valid true :=
  ⟨leafOf_valid, fun _ => by rw [TypeTable.Fits]; trivial, fun _ => nofun⟩

variable {s : VarState} {was : Bool}

variable (hm : Merges tt B df merge meet) (hb : Ready B df b)

include hm hb

theorem meets_parts_fixed
    (hs : Fixed tt B s was) {outerFlag newOuter : Option DropFlag} {news : List VarState}
    {m : Meeting} {rs : OrdMap VarState}
    (houter : tt.isEnum ty = true → OuterRun B (Seed s) b b₁ m (.const was) (outerSource newOuter)
      (outerSource outerFlag))
    (hnone : tt.isEnum ty = false → b₁ = b ∧ outerFlag = none)
    (hfits : tt.Fits B ty (.partialOf news newOuter))
    (hlost : .lost ∉ meetParts tt meet ty (viewConst (.own s) (byIndex news)))
    (h : mergeParts tt merge ty (innerPairs (byIndex (news.map fun _ => s)) news) b₁ =
      .ok (rs, b')) :
    Meets tt B ty s (.partialOf news newOuter) b (.partialOf (parts rs) outerFlag) b'
      (meetEnum tt ty m ++ meetParts tt meet ty (viewConst (.own s) (byIndex news))) := by
  rw [TypeTable.Fits] at hfits
  have hp : List.Forall₂ (Paired tt B (tt.part ty) b₁)
      (innerPairs (byIndex (news.map fun _ => s)) news) (viewConst (.own s) (byIndex news)) := by
    refine paired_inner (by simp [byIndex]) (fun i p hp => ?_) hfits.2
    rw [getElem?_byIndex, List.getElem?_map, Option.map_map] at hp
    obtain ⟨_, -, rfl⟩ := Option.map_eq_some_iff.mp hp
    exact ⟨rfl, rfl, hs.fits _⟩
  have hown : ∀ v ∈ viewConst (.own s) (byIndex news), ∃ t, v.2.1 = .own t := by
    intro v hv
    obtain ⟨p, -, rfl⟩ := List.mem_map.mp hv
    exact ⟨s, rfl⟩
  refine meets_parts hm hb houter (fun hen => (hnone hen).1.symm ▸ .nil hb.wf) hs.leaf.parts
    (partsOf_partialOf news newOuter) (Or.inr ⟨_, _, rfl⟩) hp (beside_of_own hp hown)
    (fun x hx h => absurd h (not_seeds_of_own hp hown hx))
    (fun x _ hx h => absurd h (not_seeds_of_own hp hown hx)) (fun i u t hu ht => ?_)
    (key_of_innerPairs key_of_byIndex)
    (fun hen f hf => by rw [(hnone hen).2] at hf; cases hf) hlost h
  refine ⟨u, ?_, .self u⟩
  cases hu
  rw [getElem?_innerPairs, getElem?_byIndex, List.getElem?_map, ht]
  rfl

theorem meets_array_fixed
    (hs : Fixed tt B s was) {fillState fill : VarState} {otherStates rs : OrdMap VarState}
    {count : Nat} (hfits : tt.Fits B ty (.partialArray fillState otherStates count))
    (hlost : .lost ∉ meetArray tt meet ty (.own s) fillState otherStates)
    (h₁ : merge (tt.field ty 0) s fillState b = .ok (fill, b₂))
    (h₂ : mergeElements tt merge ty (otherPairs (otherStates.map fun p => (p.1, s))
      (.element fillState otherStates)) b₂ = .ok (rs, b')) :
    Meets tt B ty s (.partialArray fillState otherStates count) b (.partialArray fill rs count) b'
      (meetArray tt meet ty (.own s) fillState otherStates) := by
  rw [TypeTable.Fits] at hfits
  obtain ⟨harray, hfill, hothers⟩ := hfits
  have hp : List.Forall₂ (Paired tt B (tt.field ty) b)
      (otherPairs (otherStates.map fun p => (p.1, s)) (.element fillState otherStates))
      (viewElementPairs (otherStates.map fun p => (p.1, .own s))
        (.element fillState otherStates)) := by
    refine paired_elements ?_ (.element harray hfill hothers)
    rw [List.forall₂_map_left_iff, List.forall₂_map_right_iff, List.forall₂_same]
    exact fun p _ => ⟨rfl, rfl, hs.fits _⟩
  have hown : ∀ v ∈ viewElementPairs (otherStates.map fun p => (p.1, .own s))
      (.element fillState otherStates), ∃ t, v.2.1 = .own t := by
    intro v hv
    obtain ⟨p, hp, rfl⟩ := List.mem_map.mp hv
    obtain ⟨q, -, rfl⟩ := List.mem_map.mp hp
    exact ⟨s, rfl⟩
  have hno : ∀ x, B ≤ x → ¬ Seeds _ x := fun x hx => not_seeds_of_own hp hown hx
  have hfind : ∀ i, OrdMap.find i (otherPairs (otherStates.map fun p => (p.1, s))
      (.element fillState otherStates)) =
        (otherStates.find i).map fun _ => (s, .element fillState otherStates i) := by
    intro i
    rw [find_otherPairs, find_map (fun _ => s), Option.map_map]
    rfl
  refine meets_array hm hb harray (.nil hb.wf) (hs.leaf.elements count)
    (elementsOf_partialArray fillState otherStates count) (Or.inr ⟨_, _, rfl⟩)
    (seen_own (hs.fits _)) hfill hp (beside_of_own hp hown)
    (fun x hx h => absurd h (not_or.mpr ⟨hno x hx, hs.noSeed x⟩))
    (fun x _ hx h => absurd h (hno x hx)) (fun i hi => ?_) (fun i s' t hi => ?_) hlost h₁ h₂
  · rw [hfind, Option.map_eq_none_iff] at hi
    exact ⟨.self s, by rw [VarState.element, hi]; rfl⟩
  · rw [hfind] at hi
    obtain ⟨_, -, e⟩ := Option.map_eq_some_iff.mp hi
    cases e
    exact ⟨.self s, rfl⟩

omit hm hb in
omit s was in
theorem ifEnum_run {x : Build (Option DropFlag)}
    {outerFlag r : Option DropFlag} (h : ifEnum tt ty outerFlag x b = .ok (r, b₁)) :
    (tt.isEnum ty = true → x b = .ok (r, b₁)) ∧
      (tt.isEnum ty = false → b₁ = b ∧ r = outerFlag) := by
  unfold ifEnum at h
  constructor
  · intro hen
    rwa [if_pos hen] at h
  · intro hen
    rw [hen, if_neg Bool.false_ne_true] at h
    cases build_pure.mp h
    exact ⟨rfl, rfl⟩

omit s was in
theorem mergeIntoInvalid_meets {why : InvalidType} {merged : VarState} (hfits : tt.Fits B ty new)
    (hlost : .lost ∉ meetInvalid tt df meet ty why new)
    (h : mergeIntoInvalid tt merge ty why new b = .ok (merged, b')) :
    Meets tt B ty (.invalid why) new b merged b' (meetInvalid tt df meet ty why new) := by
  have hs : Fixed tt B (.invalid why) false := fixed_invalid why
  cases new with
  | invalid why' =>
    cases build_pure.mp h
    exact meets_leaf (outerRun_same hb bound_const) (leafOf_invalid _) (leafOf_invalid _)
      (leafOf_invalid _) ((fixed_invalid _).fits _)
  | valid =>
    cases h
    exact meets_flag hb (outerRun_fresh hb false bound_const) (leafOf_invalid _) leafOf_valid
  | optional g =>
    rw [TypeTable.Fits] at hfits
    cases h
    exact meets_flag hb (outerRun_fresh hb false (bound_reg hfits)) (leafOf_invalid _)
      (leafOf_optional g)
  | movedOut innerState outerFlag =>
    rw [TypeTable.Fits] at hfits
    rw [meetInvalid, List.mem_cons, not_or] at hlost
    obtain ⟨f, b₁, hf, h⟩ := build_bind.mp h
    obtain ⟨inner, b₂, hi, h⟩ := build_bind.mp h
    cases build_pure.mp h
    have hshell : OuterRun B (Seed (.invalid why)) b b₁ (meetInvalidShell df outerFlag)
        (.const false) (outerSource outerFlag) (outerSource (some f)) :=
      mergeInvalidShell_run hb hfits.1 hf
    exact meets_box hm hb hshell (leafOf_invalid why).box (boxOf_movedOut innerState outerFlag)
      (Or.inr ⟨_, _, rfl⟩)
      (hs.fits _) hfits.2 hlost.2 hi
  | partialOf innerStates outerFlag =>
    rw [meetInvalid, List.mem_append, not_or] at hlost
    have hfits' := hfits
    rw [TypeTable.Fits] at hfits'
    obtain ⟨f, b₁, hf, h⟩ := build_bind.mp h
    obtain ⟨rs, b₂, hi, h⟩ := build_bind.mp h
    cases build_pure.mp h
    have hif := ifEnum_run hf
    refine meets_parts_fixed hm hb hs (fun hen => ?_) hif.2 hfits hlost.2 hi
    obtain ⟨r, b₀, hr, e⟩ := build_map.mp (hif.1 hen)
    cases e
    exact mergeInvalidWithPartialOuter_run hb hfits'.1 hr
  | partialArray fillState otherStates count =>
    obtain ⟨fill, b₁, hf, h⟩ := build_bind.mp h
    obtain ⟨rs, b₂, hi, h⟩ := build_bind.mp h
    cases build_pure.mp h
    exact meets_array_fixed hm hb hs hfits hlost hf hi

omit s was in
theorem mergeIntoValid_meets
    {merged : VarState} (hfits : tt.Fits B ty new) (hlost : .lost ∉ meetValid tt df meet ty new)
    (h : mergeIntoValid tt merge ty new b = .ok (merged, b')) :
    Meets tt B ty .valid new b merged b' (meetValid tt df meet ty new) := by
  have hs : Fixed tt B .valid true := fixed_valid
  cases new with
  | invalid why =>
    cases h
    exact meets_flag hb (outerRun_fresh hb true bound_const) leafOf_valid (leafOf_invalid _)
  | valid =>
    cases build_pure.mp h
    exact meets_leaf (outerRun_same hb bound_const) leafOf_valid leafOf_valid leafOf_valid
      (fixed_valid.fits _)
  | optional g =>
    rw [TypeTable.Fits] at hfits
    obtain ⟨f, b₁, hf, h⟩ := build_bind.mp h
    cases build_pure.mp h
    exact meets_flag hb (takeFlag_run hb hfits hf) leafOf_valid (leafOf_optional g)
  | movedOut innerState outerFlag =>
    rw [TypeTable.Fits] at hfits
    rw [meetValid, List.mem_cons, not_or] at hlost
    obtain ⟨f, b₁, hf, h⟩ := build_bind.mp h
    obtain ⟨inner, b₂, hi, h⟩ := build_bind.mp h
    cases build_pure.mp h
    exact meets_box hm hb (mergeValidShell_run hb hfits.1 hf) leafOf_valid.box
      (boxOf_movedOut innerState outerFlag) (Or.inr ⟨_, _, rfl⟩) (hs.fits _) hfits.2 hlost.2 hi
  | partialOf innerStates outerFlag =>
    rw [meetValid, List.mem_append, not_or] at hlost
    have hfits' := hfits
    rw [TypeTable.Fits] at hfits'
    obtain ⟨f, b₁, hf, h⟩ := build_bind.mp h
    obtain ⟨rs, b₂, hi, h⟩ := build_bind.mp h
    cases build_pure.mp h
    have hif := ifEnum_run hf
    refine meets_parts_fixed hm hb hs (fun hen => ?_) hif.2 hfits hlost.2 hi
    have hf := hif.1 hen
    cases outerFlag with
    | none =>
      cases build_pure.mp hf
      exact outerRun_same hb bound_const
    | some g =>
      have hold : ∀ f, (none : Option DropFlag) = some f → f < B := nofun
      exact mergeOuterValidityFlag_run hb hold (hfits'.1 g rfl) hf
  | partialArray fillState otherStates count =>
    obtain ⟨fill, b₁, hf, h⟩ := build_bind.mp h
    obtain ⟨rs, b₂, hi, h⟩ := build_bind.mp h
    cases build_pure.mp h
    exact meets_array_fixed hm hb hs hfits hlost hf hi

end Cases

/-! ## 4. An old state under a flag -/

/-- The flag `flag` of the old state is the arm's own `f`, or a new alias that goes back to it. -/
def Root (B : Nat) (b : Builder) (flag f : DropFlag) : Prop :=
  (flag = f ∧ f < B) ∨ (B ≤ flag ∧ CopyOf b.dropFlagAliases B f flag)

/-- The state is an alias of `flag`, made from `lo` on. -/
def IsAlias (lo : Nat) (b : Builder) (flag : DropFlag) (s : VarState) : Prop :=
  ∃ a, s = .optional a ∧ lo ≤ a ∧ a < b.dropFlags.length ∧ (flag, a) ∈ b.dropFlagAliases

variable {flag : DropFlag}

theorem IsAlias.mono {lo lo' : Nat} (h : IsAlias lo b flag s) (hlo : lo' ≤ lo)
    (hg : Grown b b') : IsAlias lo' b' flag s := by
  obtain ⟨a, ha, hl, hlt, hmem⟩ := h
  exact ⟨a, ha, Nat.le_trans hlo hl, Nat.lt_of_lt_of_le hlt hg.length_le, hg.mem hmem⟩

theorem IsAlias.seen {lo : Nat} {f : DropFlag} {ty : Ty} (h : IsAlias lo b flag s) (hlo : B ≤ lo)
    (hroot : Root B b flag f) :
    Seen tt B ty b (.copyOf f) s := by
  obtain ⟨a, rfl, hl, hlt, hmem⟩ := h
  refine ⟨a, rfl, Nat.le_trans hlo hl, hlt, ?_⟩
  rcases hroot with ⟨rfl, hf⟩ | ⟨hB, hc⟩
  · exact .one hmem hf
  · exact .more hc hmem hB

theorem IsAlias.standsFor {lo : Nat} (h : IsAlias lo b flag s)
    (hlo : B ≤ lo) : StandsFor B b (.optional flag) s := by
  obtain ⟨a, rfl, hl, -, hmem⟩ := h
  exact .copy hmem (Nat.le_trans hlo hl)

theorem Root.mono {b b' : Builder} {flag f : DropFlag} (h : Root B b flag f) (hg : Grown b b') :
    Root B b' flag f :=
  h.imp_right fun h => ⟨h.1, h.2.mono fun _ hp => hg.mem hp⟩

theorem newAliasFlag_ran {r : DropFlag} (hb : Ready B df b) (hflag : flag < b.dropFlags.length)
    (h : newAliasFlag flag b = .ok (r, b')) :
    r = b.dropFlags.length ∧ Ran B (Seed (.optional flag)) b b' [] ∧
      IsAlias b.dropFlags.length b' flag (.optional r) := by
  cases (newAliasFlag_run flag b).symm.trans h
  refine ⟨rfl, .aliased hb.wf hflag fun _ => rfl, b.dropFlags.length, rfl, Nat.le_refl _, ?_, ?_⟩
  · simp [Builder.withAlias, Builder.withFlag]
  · simp [Builder.withAlias]

/-- The aliases of a flag for a list of keys: one for each key, newer and newer. -/
theorem newAliasFlags_ran {flag : DropFlag} : ∀ {ks : List Nat} {b b' : Builder}
    {rs : OrdMap VarState}, Ready B df b → flag < b.dropFlags.length →
    newAliasFlags flag ks b = .ok (rs, b') →
    Ran B (Seed (.optional flag)) b b' [] ∧
      List.Forall₂ (fun k p => p.1 = k ∧ IsAlias b.dropFlags.length b' flag p.2) ks rs ∧
      rs.Pairwise fun p q => ∀ s x, Seed p.2 s → Seed q.2 x → s < x
  | [], b, b', rs, hb, _, h => by
    cases build_pure.mp h
    exact ⟨.nil hb.wf, .nil, .nil⟩
  | k :: ks, b, b', rs, hb, hflag, h => by
    obtain ⟨r, b₁, h₁, h⟩ := build_bind.mp h
    obtain ⟨rs', b₂, h₂, h⟩ := build_bind.mp h
    cases build_pure.mp h
    obtain ⟨hr, hran, hal⟩ := newAliasFlag_ran hb hflag h₁
    have hb₁ := hb.next hran.grown hran.wf
    have hflag₁ := Nat.lt_of_lt_of_le hflag hran.grown.length_le
    obtain ⟨hran', hall, hord⟩ := newAliasFlags_ran hb₁ hflag₁ h₂
    have hlt : r < b₁.dropFlags.length := by
      obtain ⟨a, ha, -, hlt, -⟩ := hal
      cases ha
      exact hlt
    refine ⟨?_, .cons ⟨rfl, hal.mono (Nat.le_refl _) hran'.grown⟩ ?_, .cons ?_ hord⟩
    · exact hran.append hran' hb.bound (fun _ hm => absurd hm List.not_mem_nil)
        fun _ _ h => Or.inl h
    · exact hall.imp fun _ _ h => ⟨h.1, h.2.mono hran.grown.length_le (.refl hran'.wf)⟩
    · intro q hq s x hs hx
      obtain ⟨_, -, -, a, ha, hla, -⟩ := Lib.forall₂_mem_left hall.flip q hq
      cases hs
      cases ha.symm.trans hx
      exact Nat.lt_of_lt_of_le hlt hla

section Flagged

variable {merge : Ty → VarState → VarState → Build VarState}
  {meet : Ty → OldView → VarState → List Meeting} {ty : Ty} {new : VarState}
  {b b₀ b₁ b₂ b' : Builder} {flag f : DropFlag}

theorem mem_innerPairs {olds : OrdMap VarState} {news : List VarState}
    {p : Nat × VarState × VarState} (h : p ∈ innerPairs olds news) : (p.1, p.2.1) ∈ olds := by
  obtain ⟨q, hq, rfl⟩ := List.mem_map.mp h
  exact (List.of_mem_zip hq).1

variable (hm : Merges tt B df merge meet) (hb : Ready B df b)

include hm hb

theorem meets_parts_flag (hroot : Root B b flag f) (hflag : flag < b.dropFlags.length) {m : Meeting}
    {outerFlag newOuter : Option DropFlag} {news : List VarState} {inner rs : OrdMap VarState}
    (ha : newAliasFlags flag (List.range news.length) b = .ok (inner, b₀))
    (houter : tt.isEnum ty = true → OuterRun B (Seed (.optional flag)) b₀ b₁ m (.reg flag)
      (outerSource newOuter) (outerSource outerFlag) ∧ outerFlag = some flag)
    (hnone : tt.isEnum ty = false → b₁ = b₀ ∧ outerFlag = none)
    (hfits : tt.Fits B ty (.partialOf news newOuter))
    (hlost : .lost ∉ meetParts tt meet ty (viewConst (.copyOf f) (byIndex news)))
    (h : mergeParts tt merge ty (innerPairs inner news) b₁ = .ok (rs, b')) :
    Meets tt B ty (.optional flag) (.partialOf news newOuter) b (.partialOf (parts rs) outerFlag)
      b' (meetEnum tt ty m ++ meetParts tt meet ty (viewConst (.copyOf f) (byIndex news))) := by
  rw [TypeTable.Fits] at hfits
  obtain ⟨hran, hall, hord⟩ := newAliasFlags_ran hb hflag ha
  have hb₀ := hb.next hran.grown hran.wf
  obtain ⟨hg, hwf⟩ : Grown b₀ b₁ ∧ b₁.WF := by
    cases hen : tt.isEnum ty with
    | true => exact ⟨(houter hen).1.ran.grown, (houter hen).1.ran.wf⟩
    | false =>
      rw [(hnone hen).1]
      exact ⟨.refl hran.wf, hran.wf⟩
  have hlen : inner.length = news.length := by
    rw [← hall.length_eq, List.length_range]
  have halias : ∀ i (p : Nat × VarState), inner[i]? = some p → p.1 = i ∧
    IsAlias b.dropFlags.length b₁ flag p.2 := by
    intro i p hp
    obtain ⟨k, hk, hpk⟩ := Lib.forall₂_getElem hall.flip hp
    obtain ⟨hlt, rfl⟩ := List.getElem?_eq_some_iff.mp hk
    rw [List.getElem_range] at hpk
    exact ⟨hpk.1, hpk.2.mono (Nat.le_refl _) hg⟩
  have hseed : ∀ x, Seeds (innerPairs inner news) x →
      b.dropFlags.length ≤ x ∧ x < b₁.dropFlags.length := by
    rintro x ⟨p, hp, hx⟩
    obtain ⟨i, hi⟩ := List.getElem?_of_mem (mem_innerPairs hp)
    obtain ⟨-, a, ha, hla, hlt, -⟩ := halias i _ hi
    cases ha.symm.trans hx
    exact ⟨hla, hlt⟩
  have hp : List.Forall₂ (Paired tt B (tt.part ty) b₁) (innerPairs inner news)
      (viewConst (.copyOf f) (byIndex news)) :=
    paired_inner hlen (fun i p hp => ⟨(halias i p hp).1,
      (halias i p hp).2.seen hb.bound (hroot.mono (hran.grown.trans hg))⟩) hfits.2
  have hbeside : Beside B b₁ (innerPairs inner news) := by
    rw [Beside, innerPairs, List.pairwise_map, List.pairwise_iff_getElem]
    intro i j hi hj hij x s _ hx hs ht
    rw [List.pairwise_iff_getElem] at hord
    simp only [List.getElem_zip] at hx hs
    have hlt := hord i j (by simp at hi; omega) (by simp at hj; omega) hij s x hs hx
    exact absurd (le_of_touches hwf ht) (Nat.not_le.mpr hlt)
  refine meets_parts hm hb (fun hen => (houter hen).1.after hran hb.bound)
    (fun hen => (hnone hen).1 ▸ hran) (leafOf_optional flag).parts (partsOf_partialOf news newOuter)
    (Or.inr ⟨_, _, rfl⟩) hp hbeside (fun x _ hx => Or.inr (hseed x hx)) ?_ ?_
    (key_of_innerPairs fun i p hp => (halias i p hp).1)
    (fun hen f hf => by rw [(hnone hen).2] at hf; cases hf) hlost h
  · intro x y _ hx hy ht
    have hyf : y = flag := by
      cases hen : tt.isEnum ty with
      | true =>
        rw [(houter hen).2] at hy
        cases hy
        rfl
      | false =>
        rw [(hnone hen).2] at hy
        cases hy
    subst hyf
    exact absurd (Nat.lt_of_le_of_lt (le_of_touches hwf ht) hflag) (Nat.not_lt.mpr (hseed x hx).1)
  · intro i s t hs ht
    cases hs
    have hi : i < news.length := (List.getElem?_eq_some_iff.mp ht).1
    have hin := List.getElem?_eq_getElem (hlen ▸ hi)
    obtain ⟨hk, hal⟩ := halias i _ hin
    refine ⟨inner[i].2, ?_, hal.standsFor hb.bound⟩
    rw [getElem?_innerPairs, hin, ht, Option.bind_some, Option.map_some, hk]

theorem meets_array_flag
    (hroot : Root B b flag f) (hflag : flag < b.dropFlags.length) {fillState fill : VarState}
    {otherStates other rs : OrdMap VarState} {fillFlag : DropFlag} {count : Nat}
    (ha : newAliasFlags flag (otherStates.map (·.1)) b = .ok (other, b₀))
    (haf : newAliasFlag flag b₀ = .ok (fillFlag, b₁))
    (hfits : tt.Fits B ty (.partialArray fillState otherStates count))
    (hlost : .lost ∉ meetArray tt meet ty (.copyOf f) fillState otherStates)
    (h₁ : merge (tt.field ty 0) (.optional fillFlag) fillState b₁ = .ok (fill, b₂))
    (h₂ : mergeElements tt merge ty (otherPairs other (.element fillState otherStates)) b₂ =
      .ok (rs, b')) :
    Meets tt B ty (.optional flag) (.partialArray fillState otherStates count) b
      (.partialArray fill rs count) b' (meetArray tt meet ty (.copyOf f) fillState
        otherStates) := by
  rw [TypeTable.Fits] at hfits
  obtain ⟨harray, hfill, hothers⟩ := hfits
  obtain ⟨hran, hall, hord⟩ := newAliasFlags_ran hb hflag ha
  have hb₀ := hb.next hran.grown hran.wf
  obtain ⟨hfr, hran', hal⟩ :=
    newAliasFlag_ran hb₀ (Nat.lt_of_lt_of_le hflag hran.grown.length_le) haf
  have hboth : Ran B (Seed (.optional flag)) b b₁ [] :=
    hran.append hran' hb.bound (fun _ hm => absurd hm List.not_mem_nil) fun _ _ h => Or.inl h
  have hroot₁ := hroot.mono hboth.grown
  rw [List.forall₂_map_left_iff] at hall
  have hall₁ : List.Forall₂ (fun p q => p.1 = q.1 ∧ IsAlias b.dropFlags.length b₁ flag p.2)
      other otherStates :=
    hall.flip.imp fun _ _ h => ⟨h.1, h.2.mono (Nat.le_refl _) hran'.grown⟩
  have hp : List.Forall₂ (Paired tt B (tt.field ty) b₁)
      (otherPairs other (.element fillState otherStates))
      (viewElementPairs (otherStates.map fun p => (p.1, .copyOf f))
        (.element fillState otherStates)) := by
    refine paired_elements ?_ (.element harray hfill hothers)
    rw [List.forall₂_map_right_iff]
    exact hall₁.imp fun _ _ h => ⟨h.1, h.2.seen hb.bound hroot₁⟩
  have hseed : ∀ x, Seeds (otherPairs other (.element fillState otherStates)) x →
      b.dropFlags.length ≤ x ∧ x < b₀.dropFlags.length := by
    rintro x ⟨p, hp, hx⟩
    obtain ⟨q, hq, rfl⟩ := List.mem_map.mp hp
    obtain ⟨_, -, -, a, ha, hla, hlt, -⟩ := Lib.forall₂_mem_left hall.flip q hq
    cases ha.symm.trans hx
    exact ⟨hla, hlt⟩
  have hbeside : Beside B b₁ (otherPairs other (.element fillState otherStates)) := by
    rw [Beside, otherPairs, List.pairwise_map]
    exact hord.imp fun hlt x s _ hx hs ht =>
      absurd (le_of_touches hran'.wf ht) (Nat.not_le.mpr (hlt s x hs hx))
  have hfind : ∀ i, OrdMap.find i (otherPairs other (.element fillState otherStates)) =
      (other.find i).map fun s => (s, .element fillState otherStates i) := find_otherPairs _ _
  refine meets_array hm hb harray hboth ((leafOf_optional flag).elements count)
    (elementsOf_partialArray fillState otherStates count) (Or.inr ⟨_, _, rfl⟩)
    (hal.seen hb₀.bound hroot₁) hfill hp hbeside ?_ ?_ (fun i hi => ?_) (fun i s' t hi => ?_)
    hlost h₁ h₂
  · rintro x - (hx | hx)
    · exact Or.inr ⟨(hseed x hx).1,
        Nat.lt_of_lt_of_le (hseed x hx).2 hran'.grown.length_le⟩
    · obtain ⟨a, ha, hla, hlt, -⟩ := hal
      cases ha
      cases hx
      exact Or.inr ⟨Nat.le_trans hran.grown.length_le hla, hlt⟩
  · intro x s _ hx hs ht
    obtain ⟨a, ha, -, -, hmem⟩ := hal
    cases ha
    cases hs
    rcases (touches_alias hran'.wf hmem).mp ht with e | ht
    · exact absurd (hseed x hx).2 (Nat.not_lt.mpr (Nat.le_of_eq (hfr.symm.trans e)))
    · exact absurd (Nat.lt_of_le_of_lt (le_of_touches hran'.wf ht) hflag)
        (Nat.not_lt.mpr (hseed x hx).1)
  · rw [hfind, Option.map_eq_none_iff] at hi
    refine ⟨hal.standsFor hb₀.bound, ?_⟩
    rcases Lib.forall₂_find (fun _ _ h => h.1) i hall₁ with ⟨-, hn⟩ | ⟨v, w, hv, -⟩
    · rw [VarState.element, hn]
      rfl
    · rw [hi] at hv
      cases hv
  · rw [hfind] at hi
    obtain ⟨s, hs, e⟩ := Option.map_eq_some_iff.mp hi
    cases e
    refine ⟨?_, rfl⟩
    rcases Lib.forall₂_find (fun _ _ h => h.1) i hall₁ with ⟨hn, -⟩ | ⟨v, w, hv, -, -, hal'⟩
    · rw [hs] at hn
      cases hn
    · cases hs.symm.trans hv
      exact hal'.standsFor hb.bound

omit hm hb in
theorem mergeOuterOf_some {newFlag r : Option DropFlag}
    (h : mergeOuterOf (some flag) newFlag b = .ok (r, b')) : r = some flag := by
  cases newFlag with
  | none =>
    cases h
    rfl
  | some g =>
    change mergeOuterValidityFlag (some flag) g b = .ok (r, b') at h
    unfold mergeOuterValidityFlag at h
    split at h
    · cases build_pure.mp h
      rfl
    · cases h
      rfl

theorem mergeIntoOptional_meets {merged : VarState} (hf : f < B) (hfits : tt.Fits B ty new)
    (hlost : .lost ∉ meetOptional tt df meet ty f new)
    (h : mergeIntoOptional tt merge ty f new b = .ok (merged, b')) :
    Meets tt B ty (.optional f) new b merged b' (meetOptional tt df meet ty f new) := by
  have hroot : Root B b f f := Or.inl ⟨rfl, hf⟩
  have hlen := Nat.lt_of_lt_of_le hf hb.bound
  cases new with
  | invalid why =>
    cases h
    exact meets_flag hb (outerRun_overwrite hb hf bound_const) (leafOf_optional f)
      (leafOf_invalid why)
  | valid =>
    cases h
    exact meets_flag hb (outerRun_overwrite hb hf bound_const) (leafOf_optional f) leafOf_valid
  | optional g =>
    rw [TypeTable.Fits] at hfits
    rw [mergeIntoOptional] at h
    rw [meetOptional, meetOuter]
    by_cases hfg : f = g
    · subst hfg
      rw [if_neg (not_not.mpr rfl)] at h
      cases build_pure.mp h
      rw [if_pos rfl]
      exact meets_flag hb (outerRun_same hb (bound_reg hf)) (leafOf_optional f) (leafOf_optional f)
    · rw [if_pos hfg] at h
      cases h
      rw [if_neg hfg]
      exact meets_flag hb (outerRun_overwrite hb hf (bound_reg hfits)) (leafOf_optional f)
        (leafOf_optional g)
  | movedOut innerState outerFlag => exact absurd (List.mem_singleton_self _) hlost
  | partialOf innerStates outerFlag =>
    rw [meetOptional, List.mem_append, not_or] at hlost
    have hfits' := hfits
    rw [TypeTable.Fits] at hfits'
    rw [mergeIntoOptional] at h
    split at h
    · exact absurd h build_bug
    · obtain ⟨inner, b₀, ha, h⟩ := build_bind.mp h
      obtain ⟨r, b₁, hr, h⟩ := build_bind.mp h
      obtain ⟨rs, b₂, hi, h⟩ := build_bind.mp h
      cases build_pure.mp h
      have hif := ifEnum_run hr
      have hran := (newAliasFlags_ran hb hlen ha).1
      refine meets_parts_flag hm hb hroot hlen ha (fun hen => ?_) hif.2 hfits hlost.2 hi
      exact ⟨mergeOuterOf_run (hb.next hran.grown hran.wf) (bound_some hf) hfits'.1 (hif.1 hen),
        mergeOuterOf_some (hif.1 hen)⟩
  | partialArray fillState otherStates count =>
    obtain ⟨other, b₀, ha, h⟩ := build_bind.mp h
    obtain ⟨fillFlag, b₁, haf, h⟩ := build_bind.mp h
    obtain ⟨fill, b₂, hi, h⟩ := build_bind.mp h
    obtain ⟨rs, b₃, he, h⟩ := build_bind.mp h
    cases build_pure.mp h
    exact meets_array_flag hm hb hroot hlen ha haf hfits hlost hi he

omit hm hb in
/-- A write of an alias. -/
theorem outerRun_overwriteCopy (hb : Ready B df b) (hBf : B ≤ flag)
    (hlen : flag < b.dropFlags.length) (hcopy : CopyOf b.dropFlagAliases B f flag)
    {w : Source DropFlag Bool} (hw : ∀ g, w = .reg g → g < B) :
    OuterRun B (Seed (.optional flag)) b (b.withStmt (flag, w)) (.overwriteCopy f w) (.reg flag)
      w (.reg flag) :=
  ⟨.overwriteCopy (S := Seed (.optional flag)) hb.wf hBf hlen hcopy rfl hw, rfl, rfl⟩

theorem mergeIntoOptional_meets_copy
    {merged : VarState} (hBf : B ≤ flag) (hlen : flag < b.dropFlags.length)
    (hcopy : CopyOf b.dropFlagAliases B f flag) (hfits : tt.Fits B ty new)
    (hlost : .lost ∉ meetCopy tt meet ty f new)
    (h : mergeIntoOptional tt merge ty flag new b = .ok (merged, b')) :
    Meets tt B ty (.optional flag) new b merged b' (meetCopy tt meet ty f new) := by
  have hroot : Root B b flag f := Or.inr ⟨hBf, hcopy⟩
  cases new with
  | invalid why =>
    cases h
    exact meets_flag hb (outerRun_overwriteCopy hb hBf hlen hcopy bound_const)
      (leafOf_optional flag) (leafOf_invalid why)
  | valid =>
    cases h
    exact meets_flag hb (outerRun_overwriteCopy hb hBf hlen hcopy bound_const)
      (leafOf_optional flag) leafOf_valid
  | optional g =>
    rw [TypeTable.Fits] at hfits
    have hne : flag ≠ g := fun e => absurd hfits (Nat.not_lt.mpr (e ▸ hBf))
    rw [mergeIntoOptional] at h
    rw [if_pos hne] at h
    cases h
    exact meets_flag hb (outerRun_overwriteCopy hb hBf hlen hcopy (bound_reg hfits))
      (leafOf_optional flag) (leafOf_optional g)
  | movedOut innerState outerFlag => exact absurd (List.mem_singleton_self _) hlost
  | partialOf innerStates outerFlag =>
    rw [meetCopy, List.mem_append, not_or] at hlost
    have hfits' := hfits
    rw [TypeTable.Fits] at hfits'
    rw [mergeIntoOptional] at h
    split at h
    · exact absurd h build_bug
    · obtain ⟨inner, b₀, ha, h⟩ := build_bind.mp h
      obtain ⟨r, b₁, hr, h⟩ := build_bind.mp h
      obtain ⟨rs, b₂, hi, h⟩ := build_bind.mp h
      cases build_pure.mp h
      have hif := ifEnum_run hr
      have hran := (newAliasFlags_ran hb hlen ha).1
      refine meets_parts_flag hm hb hroot hlen ha (fun hen => ?_) hif.2 hfits hlost.2 hi
      obtain ⟨rfl, hrun⟩ := mergeOuterOf_run_copy (S := Seed (.optional flag))
        (hb.next hran.grown hran.wf) hBf (Nat.lt_of_lt_of_le hlen hran.grown.length_le)
        (hcopy.mono fun _ hp => hran.grown.mem hp) rfl hfits'.1 (hif.1 hen)
      exact ⟨hrun, rfl⟩
  | partialArray fillState otherStates count =>
    obtain ⟨other, b₀, ha, h⟩ := build_bind.mp h
    obtain ⟨fillFlag, b₁, haf, h⟩ := build_bind.mp h
    obtain ⟨fill, b₂, hi, h⟩ := build_bind.mp h
    obtain ⟨rs, b₃, he, h⟩ := build_bind.mp h
    cases build_pure.mp h
    exact meets_array_flag hm hb hroot hlen ha haf hfits hlost hi he

end Flagged

/-! ## 5. A box with moved contents -/

section Parts

variable {merge : Ty → VarState → VarState → Build VarState}
  {meet : Ty → OldView → VarState → List Meeting} {ty : Ty} {new : VarState} {b b₁ b' : Builder}

variable {merged : VarState} {outerFlag : Option DropFlag}

theorem mergeIntoMovedOut_meets (hm : Merges tt B df merge meet) (hb : Ready B df b)
    {innerState : VarState} (hold : tt.Fits B ty (.movedOut innerState outerFlag))
    (hfits : tt.Fits B ty new) (hlost : .lost ∉ meetMovedOut tt df meet ty innerState outerFlag new)
    (h : mergeIntoMovedOut tt merge ty innerState outerFlag new b = .ok (merged, b')) :
    Meets tt B ty (.movedOut innerState outerFlag) new b merged b'
      (meetMovedOut tt df meet ty innerState outerFlag new) := by
  rw [TypeTable.Fits] at hold
  have hbox := boxOf_movedOut innerState outerFlag
  have hsplit : (∃ i f, VarState.movedOut innerState outerFlag = .movedOut i f) ∨
      ∃ i f, new = .movedOut i f := Or.inl ⟨_, _, rfl⟩
  cases new with
  | invalid why =>
    rw [meetMovedOut, List.mem_cons, not_or] at hlost
    obtain ⟨r, b₁, hr, h⟩ := build_bind.mp h
    obtain ⟨inner, b₂, hi, h⟩ := build_bind.mp h
    cases build_pure.mp h
    exact meets_box hm hb (mergeMovedOutShellVal_run hb hold.1 hr) hbox (leafOf_invalid why).box
      hsplit hold.2 ((fixed_invalid why).fits _) hlost.2 hi
  | valid =>
    rw [meetMovedOut, List.mem_cons, not_or] at hlost
    obtain ⟨r, b₁, hr, h⟩ := build_bind.mp h
    obtain ⟨inner, b₂, hi, h⟩ := build_bind.mp h
    cases build_pure.mp h
    exact meets_box hm hb (mergeMovedOutShellVal_run hb hold.1 hr) hbox leafOf_valid.box
      hsplit hold.2 (fixed_valid.fits _) hlost.2 hi
  | optional g =>
    rw [TypeTable.Fits] at hfits
    rw [meetMovedOut, List.mem_cons, not_or] at hlost
    obtain ⟨r, b₁, hr, h⟩ := build_bind.mp h
    obtain ⟨inner, b₂, hi, h⟩ := build_bind.mp h
    cases build_pure.mp h
    exact meets_box hm hb (mergeMovedOutShellFlag_run hb hold.1 hfits hr) hbox
      (leafOf_optional g).box hsplit hold.2 (by rwa [TypeTable.Fits]) hlost.2 hi
  | movedOut newInner newOuter =>
    rw [TypeTable.Fits] at hfits
    rw [meetMovedOut, List.mem_cons, not_or] at hlost
    obtain ⟨r, b₁, hr, h⟩ := build_bind.mp h
    obtain ⟨inner, b₂, hi, h⟩ := build_bind.mp h
    cases build_pure.mp h
    exact meets_box hm hb
      (mergeMovedOutShells_run hb hold.1 hfits.1 (fun e => hlost.1 e.symm) hr) hbox
      (boxOf_movedOut newInner newOuter) hsplit hold.2 hfits.2 hlost.2 hi
  | partialOf newInner newOuter => exact absurd h build_bug
  | partialArray fillState otherStates count => exact absurd h build_bug

/-! ## 6. A value with moved parts -/

variable {innerStates : List VarState} {w : Source DropFlag Bool}

variable (hm : Merges tt B df merge meet) (hb : Ready B df b)

include hm hb

theorem meets_parts_own {r : Option DropFlag}
    {newInner : Nat → Option VarState} {m : Meeting} {ps : Pairs} {rs : OrdMap VarState}
    (houter : tt.isEnum ty = true → OuterRun B (Seed (.partialOf innerStates outerFlag)) b b₁ m
      (outerSource outerFlag) w (outerSource r))
    (hnone : tt.isEnum ty = false → b₁ = b ∧ r = outerFlag) (hold : ∀ f, outerFlag = some f → f < B)
    (hnew : PartsOf new w newInner)
    (hfits : ∀ p ∈ ps, tt.Fits B (tt.part ty p.1) p.2.1 ∧ tt.Fits B (tt.part ty p.1) p.2.2)
    (hparts : ∀ i s t, innerStates[i]? = some s → newInner i = some t → ps[i]? = some (i, s, t))
    (hkeys : ∀ i (p : Nat × VarState × VarState), ps[i]? = some p → p.1 = i)
    (hlost : .lost ∉ meetParts tt meet ty (viewPairs ps))
    (h : mergeParts tt merge ty ps b₁ = .ok (rs, b')) :
    Meets tt B ty (.partialOf innerStates outerFlag) new b (.partialOf (parts rs) r) b'
      (meetEnum tt ty m ++ meetParts tt meet ty (viewPairs ps)) := by
  have hp := paired_viewPairs (b := b₁) hfits
  have hno : ∀ x, B ≤ x → ¬ Seeds ps x := fun x hx => not_seeds_of_own hp own_viewPairs hx
  exact meets_parts hm hb houter (fun hen => (hnone hen).1.symm ▸ .nil hb.wf)
    (partsOf_partialOf innerStates outerFlag) hnew (Or.inl ⟨_, _, rfl⟩) hp
    (beside_of_own hp own_viewPairs) (fun x hx h => absurd h (hno x hx))
    (fun x _ hx h => absurd h (hno x hx))
    (fun i s t hs ht => ⟨s, hparts i s t hs ht, .self s⟩) hkeys
    (fun hen f hf => hold f ((hnone hen).2 ▸ hf)) hlost h

theorem mergePartialWhole_meets {m : Meeting}
    {outer : Build (Option DropFlag)} (hold : tt.Fits B ty (.partialOf innerStates outerFlag))
    (hnew : LeafOf new w) (hfits : ∀ ty, tt.Fits B ty new) (houter : ∀ r b₁, outer b = .ok (r, b₁) →
      OuterRun B (Seed (.partialOf innerStates outerFlag)) b b₁ m (outerSource outerFlag) w
        (outerSource r)) (hlost : .lost ∉ meetEnum tt ty m ++
      meetParts tt meet ty (viewPairs (otherPairs (byIndex innerStates) fun _ => new)))
    (h : mergePartialWhole tt merge ty innerStates new outer outerFlag b = .ok (merged, b')) :
    Meets tt B ty (.partialOf innerStates outerFlag) new b merged b' (meetEnum tt ty m ++
      meetParts tt meet ty (viewPairs (otherPairs (byIndex innerStates) fun _ => new))) := by
  rw [TypeTable.Fits] at hold
  rw [List.mem_append, not_or] at hlost
  obtain ⟨r, b₁, hr, h⟩ := build_bind.mp h
  obtain ⟨rs, b₂, hi, h⟩ := build_bind.mp h
  cases build_pure.mp h
  have hif := ifEnum_run hr
  refine meets_parts_own hm hb (fun hen => houter r b₁ (hif.1 hen)) hif.2 hold.1
    hnew.parts (fun p hp => ?_) (fun i s t hs ht => ?_) (fun i p hp => ?_) hlost.2 hi
  · obtain ⟨q, hq, rfl⟩ := List.mem_map.mp hp
    refine ⟨?_, hfits _⟩
    obtain ⟨i, hi⟩ := List.getElem?_of_mem hq
    rw [getElem?_byIndex] at hi
    obtain ⟨s, hs, rfl⟩ := Option.map_eq_some_iff.mp hi
    have hf := hold.2.getElem hs
    rwa [Nat.zero_add] at hf
  · cases ht
    rw [otherPairs, List.getElem?_map, getElem?_byIndex, hs]
    rfl
  · rw [otherPairs, List.getElem?_map] at hp
    obtain ⟨q, hq, rfl⟩ := Option.map_eq_some_iff.mp hp
    exact key_of_byIndex i q hq

theorem mergeIntoPartial_meets
    (hold : tt.Fits B ty (.partialOf innerStates outerFlag)) (hfits : tt.Fits B ty new)
    (hlost : .lost ∉ meetPartial tt df meet ty innerStates outerFlag new)
    (h : mergeIntoPartial tt merge ty innerStates outerFlag new b = .ok (merged, b')) :
    Meets tt B ty (.partialOf innerStates outerFlag) new b merged b'
      (meetPartial tt df meet ty innerStates outerFlag new) := by
  have hold' := hold
  rw [TypeTable.Fits] at hold'
  unfold mergeIntoPartial at h
  split at h
  · exact absurd h build_bug
  · cases new with
    | invalid why =>
      exact mergePartialWhole_meets hm hb hold (leafOf_invalid why) (fixed_invalid why).fits
        (fun r b₁ hr => mergeOuterValidity_run hb hold'.1 hr) hlost h
    | valid =>
      exact mergePartialWhole_meets hm hb hold leafOf_valid fixed_valid.fits
        (fun r b₁ hr => mergeOuterValidity_run hb hold'.1 hr) hlost h
    | optional g =>
      rw [TypeTable.Fits] at hfits
      exact mergePartialWhole_meets hm hb hold (leafOf_optional g)
        (fun _ => by rwa [TypeTable.Fits])
        (fun r b₁ hr => mergeOuterValidityFlag_run hb hold'.1 hfits hr) hlost h
    | movedOut newInner newOuter => exact absurd h build_bug
    | partialArray fillState otherStates count => exact absurd h build_bug
    | partialOf newInner newOuter =>
      rw [TypeTable.Fits] at hfits
      rw [meetPartial, List.mem_append, not_or] at hlost
      by_cases hlen : innerStates.length ≠ newInner.length
      · simp only [if_pos hlen] at h
        exact absurd h build_bug
      · simp only [if_neg hlen] at h
        obtain ⟨r, b₁, hr, h⟩ := build_bind.mp h
        obtain ⟨rs, b₂, hi, h⟩ := build_bind.mp h
        cases build_pure.mp h
        have hif := ifEnum_run hr
        refine meets_parts_own hm hb
          (fun hen => mergeOuterOf_run hb hold'.1 hfits.1 (hif.1 hen))
          hif.2 hold'.1 (partsOf_partialOf newInner newOuter)
          (fun p hp => ?_) (fun i s t hs ht => ?_) (key_of_innerPairs key_of_byIndex) hlost.2 hi
        · obtain ⟨i, hi⟩ := List.getElem?_of_mem hp
          rw [getElem?_innerPairs, getElem?_byIndex] at hi
          obtain ⟨q, hq, hi⟩ := Option.bind_eq_some_iff.mp hi
          obtain ⟨s, hs, rfl⟩ := Option.map_eq_some_iff.mp hq
          obtain ⟨t, ht, rfl⟩ := Option.map_eq_some_iff.mp hi
          have hf := hold'.2.getElem hs
          have hf' := hfits.2.getElem ht
          rw [Nat.zero_add] at hf hf'
          exact ⟨hf, hf'⟩
        · rw [getElem?_innerPairs, getElem?_byIndex, hs, ht]
          rfl

/-! ## 7. An array with moved elements -/

omit hm hb

/-- The exceptions of the old array `olds` are being added to: `others` is what there is, `views`
    what is seen of it, and `lo` the first flag that may have come with them. -/
structure Added (tt : TypeTable Ty) (B lo : Nat) (ty : Ty) (b : Builder) (fill : VarState)
    (olds others : OrdMap VarState) (views : OrdMap OldView) : Prop where
  pairs : List.Forall₂ (fun p v => p.1 = v.1 ∧ Seen tt B (tt.field ty p.1) b v.2 p.2) others views
  aliases : ∀ p ∈ others, ∀ x, B ≤ x → Seed p.2 x →
    lo ≤ x ∧ ∃ f, f < B ∧ (f, x) ∈ b.dropFlagAliases
  distinct : others.Pairwise fun p q => ∀ x, B ≤ x → Seed p.2 x → ¬ Seed q.2 x
  found : ∀ i s, others.find i = some s → StandsFor B b (.element fill olds i) s
  missing : ∀ i, others.find i = none → olds.find i = none

theorem Added.mono {lo : Nat} {b b' : Builder} {fill : VarState} {olds others : OrdMap VarState}
    {views : OrdMap OldView} (h : Added tt B lo ty b fill olds others views) (hg : Grown b b') :
    Added tt B lo ty b' fill olds others views where
  pairs := h.pairs.imp fun _ _ h => ⟨h.1, h.2.mono hg⟩
  aliases := fun p hp x hx hs => by
    obtain ⟨hlo, f, hf, hmem⟩ := h.aliases p hp x hx hs
    exact ⟨hlo, f, hf, hg.mem hmem⟩
  distinct := h.distinct
  found := fun i s hs => (h.found i s hs).mono hg
  missing := h.missing

theorem added_start {lo : Nat} {fill : VarState} {olds : OrdMap VarState}
    (hfits : TypeTable.FitsOther tt B ty olds) :
    Added tt B lo ty b fill olds olds (viewOther olds) := by
  have hno : ∀ p ∈ olds, ∀ x, B ≤ x → ¬ Seed p.2 x := by
    intro p hp x hx hs
    have hf := hfits.of_mem (k := p.1) (s := p.2) hp
    rw [Seed] at hs
    rw [hs, TypeTable.Fits] at hf
    exact absurd hf (Nat.not_lt.mpr hx)
  constructor
  · rw [viewOther, List.forall₂_map_right_iff, List.forall₂_same]
    exact fun p hp => ⟨rfl, rfl, hfits.of_mem (k := p.1) (s := p.2) hp⟩
  · exact fun p hp x hx hs => absurd hs (hno p hp x hx)
  · exact List.pairwise_of_forall_mem_list fun p hp q _ x hx hs => absurd hs (hno p hp x hx)
  · intro i s hs
    rw [VarState.element, hs]
    exact .self s
  · exact fun i h => h

/-- The view of an added exception. -/
def addedView (fill : VarState) : OldView :=
  match fill with
  | .optional flag => .copyOf flag
  | state => .own state

/-- An exception is added where the old array has none. -/
theorem Added.insert {lo : Nat} {b : Builder} {fill state : VarState}
    {olds others : OrdMap VarState}
    {views : OrdMap OldView} {k : Nat} {view : OldView}
    (h : Added tt B lo ty b fill olds others views) (hk : others.find k = none)
    (hseen : Seen tt B (tt.field ty k) b view state)
    (halias : ∀ x, B ≤ x → Seed state x → lo ≤ x ∧ ∃ f, f < B ∧ (f, x) ∈ b.dropFlagAliases)
    (hnew : ∀ p ∈ others, ∀ x, B ≤ x → Seed state x → ¬ Seed p.2 x)
    (hstands : StandsFor B b fill state) :
    Added tt B lo ty b fill olds (others.insert k state) (views.insert k view) := by
  have hv : views.find k = none := by
    rcases Lib.forall₂_find (fun _ _ h => h.1) k h.pairs with ⟨-, hn⟩ | ⟨v, w, hv, -⟩
    · exact hn
    · rw [hk] at hv
      cases hv
  have ei : others.insert k state = others.place k state := by rw [OrdMap.insert, hk]
  have ev : views.insert k view = views.place k view := by rw [OrdMap.insert, hv]
  rw [ei, ev]
  constructor
  · exact Lib.forall₂_place (fun _ _ h => h.1) ⟨rfl, hseen⟩ h.pairs
  · intro p hp x hx hs
    rcases List.mem_cons.mp ((OrdMap.place_perm k state others).mem_iff.mp hp) with rfl | hp
    · exact halias x hx hs
    · exact h.aliases p hp x hx hs
  · rw [(OrdMap.place_perm k state others).pairwise_iff fun hpq x hx hq hp => hpq x hx hp hq]
    exact .cons (fun p hp x hx hs => hnew p hp x hx hs) h.distinct
  · intro i s hs
    rw [OrdMap.find_place i state hk] at hs
    split at hs
    · rename_i hi
      cases hs
      rw [VarState.element, hi, h.missing k hk]
      exact hstands
    · exact h.found i s hs
  · intro i hn
    rw [OrdMap.find_place i state hk] at hn
    split at hn
    · cases hn
    · exact h.missing i hn

theorem addedElement_ran (hb : Ready B df b) {fill state : VarState} (k : Nat)
    (hfits : tt.Fits B (tt.field ty k) fill) (h : addedElement fill b = .ok (state, b')) :
    Ran B (fun _ => False) b b' [] ∧ Seen tt B (tt.field ty k) b' (addedView fill) state ∧
      StandsFor B b' fill state ∧
      ∀ x, B ≤ x → Seed state x →
        b.dropFlags.length ≤ x ∧ ∃ f, f < B ∧ (f, x) ∈ b'.dropFlagAliases := by
  have hself (hf : ∀ f, fill ≠ .optional f) (h : (state, b') = (fill, b))
      (hview : addedView fill = .own fill) :
      Ran B (fun _ => False) b b' [] ∧ Seen tt B (tt.field ty k) b' (addedView fill) state ∧
      StandsFor B b' fill state ∧ ∀ x, B ≤ x → Seed state x →
        b.dropFlags.length ≤ x ∧ ∃ f, f < B ∧ (f, x) ∈ b'.dropFlagAliases := by
    cases h
    rw [hview]
    exact ⟨.nil hb.wf, ⟨rfl, hfits⟩, .self fill, fun x _ hs => absurd hs (hf x)⟩
  cases fill with
  | optional flag =>
    rw [TypeTable.Fits] at hfits
    obtain ⟨a, b₁, ha, h⟩ := build_bind.mp h
    cases build_pure.mp h
    obtain ⟨-, hran, hal⟩ := newAliasFlag_ran hb (Nat.lt_of_lt_of_le hfits hb.bound) ha
    have hno : ∀ x, B ≤ x → ¬ Seed (.optional flag) x := fun x hx hs => by
      cases hs
      exact absurd hfits (Nat.not_lt.mpr hx)
    refine ⟨hran.mono fun x hx hs => absurd hs (hno x hx),
      hal.seen hb.bound (Or.inl ⟨rfl, hfits⟩), hal.standsFor hb.bound, fun x _ hs => ?_⟩
    obtain ⟨a', ha', hla, -, hmem⟩ := hal
    cases ha'
    cases hs
    exact ⟨hla, flag, hfits, hmem⟩
  | invalid why => exact hself nofun (build_pure.mp h) rfl
  | valid => exact hself nofun (build_pure.mp h) rfl
  | movedOut inner outerFlag => exact hself nofun (build_pure.mp h) rfl
  | partialOf inner outerFlag => exact hself nofun (build_pure.mp h) rfl
  | partialArray fillState otherStates count => exact hself nofun (build_pure.mp h) rfl

/-- All exceptions of the new array are there in the end. -/
theorem addElements_ran {lo : Nat} {fill : VarState} {olds : OrdMap VarState}
    (hfits : ∀ k, tt.Fits B (tt.field ty k) fill) :
    ∀ {news others others' : OrdMap VarState} {views : OrdMap OldView} {b b' : Builder},
      Ready B df b → lo ≤ b.dropFlags.length → Added tt B lo ty b fill olds others views →
      addElements fill others news b = .ok (others', b') →
      Ran B (fun _ => False) b b' [] ∧
        Added tt B lo ty b' fill olds others' (viewElements fill views news) ∧
        ∀ i, others'.find i = none → others.find i = none ∧ news.find i = none
  | [], others, others', views, b, b', hb, hlo, hadd, h => by
    cases build_pure.mp h
    exact ⟨.nil hb.wf, hadd, fun i hi => ⟨hi, rfl⟩⟩
  | (k, t) :: news, others, others', views, b, b', hb, hlo, hadd, h => by
    have hview : viewElements fill views ((k, t) :: news) =
        viewElements fill (views.insert k (addedView fill)) news := by
      cases fill <;> rfl
    rw [hview]
    cases hk : others.find k with
    | some s =>
      rw [addElements, hk] at h
      have hv : views.insert k (addedView fill) = views := by
        rcases Lib.forall₂_find (fun _ _ h => h.1) k hadd.pairs with ⟨hn, -⟩ | ⟨_, w, -, hw, -⟩
        · rw [hk] at hn
          cases hn
        · rw [OrdMap.insert, hw]
      rw [hv]
      obtain ⟨hran, hadd', hall⟩ := addElements_ran hfits hb hlo hadd h
      refine ⟨hran, hadd', fun i hi => ⟨(hall i hi).1, ?_⟩⟩
      rw [OrdMap.find_cons, if_neg, (hall i hi).2]
      rintro rfl
      rw [(hall i hi).1] at hk
      cases hk
    | none =>
      rw [addElements, hk] at h
      obtain ⟨state, b₁, hs, h⟩ := build_bind.mp h
      obtain ⟨hran, hseen, hstands, hnew⟩ := addedElement_ran hb k (hfits k) hs
      have hins := (hadd.mono hran.grown).insert hk hseen (fun x hx hs =>
          ⟨Nat.le_trans hlo (hnew x hx hs).1, (hnew x hx hs).2⟩)
        (fun p hp x hx hs hps => by
          obtain ⟨-, f, -, hmem⟩ := hadd.aliases p hp x hx hps
          exact absurd (hb.wf.newer _ hmem).2 (Nat.not_lt.mpr (hnew x hx hs).1)) hstands
      obtain ⟨hran', hadd', hall⟩ :=
        addElements_ran hfits (hb.next hran.grown hran.wf)
          (Nat.le_trans hlo hran.grown.length_le) hins h
      refine ⟨hran.append hran' hb.bound (fun _ hm => absurd hm List.not_mem_nil)
        (fun _ _ h => h.elim), hadd', fun i hi => ?_⟩
      obtain ⟨hi', hn⟩ := hall i hi
      rw [OrdMap.find_insert] at hi'
      split at hi'
      · cases hi'
      · rename_i hne
        exact ⟨hi', by rw [OrdMap.find_cons, if_neg hne, hn]⟩

include hm hb

theorem mergeArrayWhole_meets {fillState : VarState} {otherStates : OrdMap VarState} {count : Nat}
    (hold : tt.Fits B ty (.partialArray fillState otherStates count)) (hnew : LeafOf new w)
    (hfits : ∀ ty, tt.Fits B ty new) (hlost : .lost ∉ meet (tt.field ty 0) (.own fillState) new ++
      meetElements tt meet ty (viewPairs (otherPairs otherStates fun _ => new)))
    (h : mergeArrayWhole tt merge ty fillState otherStates count new b = .ok (merged, b')) :
    Meets tt B ty (.partialArray fillState otherStates count) new b merged b'
      (meet (tt.field ty 0) (.own fillState) new ++
        meetElements tt meet ty (viewPairs (otherPairs otherStates fun _ => new))) := by
  rw [TypeTable.Fits] at hold
  obtain ⟨harray, hfill, hothers⟩ := hold
  obtain ⟨fill, b₁, hi, h⟩ := build_bind.mp h
  obtain ⟨rs, b₂, he, h⟩ := build_bind.mp h
  cases build_pure.mp h
  have hp : List.Forall₂ (Paired tt B (tt.field ty) b) (otherPairs otherStates fun _ => new)
      (viewPairs (otherPairs otherStates fun _ => new)) := by
    refine paired_viewPairs fun p hp => ?_
    obtain ⟨q, hq, rfl⟩ := List.mem_map.mp hp
    exact ⟨hothers.of_mem (k := q.1) (s := q.2) hq, hfits _⟩
  have hno : ∀ x, B ≤ x → ¬ Seeds _ x := fun x hx => not_seeds_of_own hp own_viewPairs hx
  have hseed : ∀ x, B ≤ x → ¬ Seed fillState x := by
    intro x hx hs
    rw [Seed] at hs
    rw [hs, TypeTable.Fits] at hfill
    exact absurd hfill (Nat.not_lt.mpr hx)
  refine meets_array hm hb harray (.nil hb.wf)
    (elementsOf_partialArray fillState otherStates count) (hnew.elements count)
    (Or.inl ⟨_, _, rfl⟩) (seen_own hfill) (hfits _) hp
    (beside_of_own hp own_viewPairs)
    (fun x hx h => absurd h (not_or.mpr ⟨hno x hx, hseed x hx⟩))
    (fun x _ hx h => absurd h (hno x hx)) (fun i hi => ⟨?_, rfl⟩) (fun i s' t hi => ?_) hlost hi he
  · rw [find_otherPairs, Option.map_eq_none_iff] at hi
    rw [VarState.element, hi]
    exact .self fillState
  · rw [find_otherPairs] at hi
    obtain ⟨s, hs, e⟩ := Option.map_eq_some_iff.mp hi
    cases e
    rw [VarState.element, hs]
    exact ⟨.self _, rfl⟩

theorem mergeIntoPartialArray_meets
    {fillState : VarState} {otherStates : OrdMap VarState} {count : Nat}
    (hold : tt.Fits B ty (.partialArray fillState otherStates count)) (hfits : tt.Fits B ty new)
    (hlost : .lost ∉ meetPartialArray tt meet ty fillState otherStates new)
    (h : mergeIntoPartialArray tt merge ty fillState otherStates count new b = .ok (merged, b')) :
    Meets tt B ty (.partialArray fillState otherStates count) new b merged b'
      (meetPartialArray tt meet ty fillState otherStates new) := by
  cases new with
  | invalid why =>
    exact mergeArrayWhole_meets hm hb hold (leafOf_invalid why) (fixed_invalid why).fits hlost h
  | valid => exact mergeArrayWhole_meets hm hb hold leafOf_valid fixed_valid.fits hlost h
  | optional g =>
    rw [TypeTable.Fits] at hfits
    exact mergeArrayWhole_meets hm hb hold (leafOf_optional g) (fun _ => by rwa [TypeTable.Fits])
      hlost h
  | movedOut newInner newOuter => exact absurd h build_bug
  | partialOf newInner newOuter => exact absurd h build_bug
  | partialArray newFill newOther newCount =>
    rw [TypeTable.Fits] at hold hfits
    obtain ⟨harray, hfill, hothers⟩ := hold
    obtain ⟨-, hfill', hothers'⟩ := hfits
    rw [mergeIntoPartialArray] at h
    split at h
    · exact absurd h build_bug
    · rename_i hcount
      obtain rfl : count = newCount := not_not.mp hcount
      obtain ⟨others, b₁, ha, h⟩ := build_bind.mp h
      obtain ⟨fill, b₂, hi, h⟩ := build_bind.mp h
      obtain ⟨rs, b₃, he, h⟩ := build_bind.mp h
      cases build_pure.mp h
      obtain ⟨hran, hadd, hall⟩ := addElements_ran
        (fun k => tt.field_of_isArray harray 0 k ▸ hfill) hb (Nat.le_refl _) (added_start hothers)
        ha
      have hp := paired_elements hadd.pairs (.element harray hfill' hothers')
      have hseed : ∀ x, B ≤ x → ¬ Seed fillState x := by
        intro x hx hs
        rw [Seed] at hs
        rw [hs, TypeTable.Fits] at hfill
        exact absurd hfill (Nat.not_lt.mpr hx)
      have halias : ∀ x, B ≤ x → Seeds (otherPairs others (.element newFill newOther)) x →
          b.dropFlags.length ≤ x ∧ ∃ f, f < B ∧ (f, x) ∈ b₁.dropFlagAliases := by
        rintro x hx ⟨p, hp, hs⟩
        obtain ⟨q, hq, rfl⟩ := List.mem_map.mp hp
        exact hadd.aliases q hq x hx hs
      have hbeside : Beside B b₁ (otherPairs others (.element newFill newOther)) := by
        rw [Beside, otherPairs, List.pairwise_map]
        refine hadd.distinct.imp_of_mem fun {p q} hp _ hne x s hx hxs hs ht => ?_
        have hsx := Nat.le_trans hx (le_of_touches hran.wf ht)
        obtain ⟨-, f, hf, hmem⟩ := hadd.aliases p hp s hsx hs
        rcases (touches_alias hran.wf hmem).mp ht with rfl | ht
        · exact hne s hsx hs hxs
        · exact absurd (Nat.lt_of_le_of_lt (le_of_touches hran.wf ht) hf) (Nat.not_lt.mpr hx)
      refine meets_array hm hb harray (hran.mono fun _ _ h => h.elim)
        (elementsOf_partialArray fillState otherStates count)
        (elementsOf_partialArray newFill newOther count) (Or.inl ⟨_, _, rfl⟩)
        (seen_own hfill) hfill' hp hbeside ?_ ?_ (fun i hi => ?_)
        (fun i s' t hi => ?_) hlost hi he
      · rintro x hx (hxs | hxs)
        · obtain ⟨hlo, f, hf, hmem⟩ := halias x hx hxs
          exact Or.inr ⟨hlo, (hran.wf.newer _ hmem).2⟩
        · exact absurd hxs (hseed x hx)
      · intro x s hx _ hs ht
        have hsx := Nat.le_trans hx (le_of_touches hran.wf ht)
        exact hseed s hsx hs
      · rw [find_otherPairs, Option.map_eq_none_iff] at hi
        obtain ⟨hn, hn'⟩ := hall i hi
        rw [VarState.element, VarState.element, hn, hn']
        exact ⟨.self _, rfl⟩
      · rw [find_otherPairs] at hi
        obtain ⟨s, hs, e⟩ := Option.map_eq_some_iff.mp hi
        cases e
        exact ⟨hadd.found i _ hs, rfl⟩

end Parts

/-! ## 8. The recursion -/

/-- Every merge meets the meetings of its states. By induction on the depth of the recursion: the
    cases are those of the old state, and of a new alias in its place. -/
theorem mergeStateTo_merges (tt : TypeTable Ty) (B : Nat) (df : DropFlag → Bool) : ∀ n : Nat,
    Merges tt B df (mergeStateTo tt n) (meetingsTo tt df n)
  | 0 => fun _ _ _ _ _ _ _ _ _ _ _ h => nomatch h
  | n + 1 => by
    have ih := mergeStateTo_merges tt B df n
    intro ty view old new b b' merged hb hseen hfits hlost h
    cases view with
    | copyOf f =>
      obtain ⟨a, rfl, hBa, hlen, hcopy⟩ := hseen
      exact mergeIntoOptional_meets_copy ih hb hBa hlen hcopy hfits hlost h
    | own s =>
      obtain ⟨rfl, hold⟩ := hseen
      cases old with
      | invalid why => exact mergeIntoInvalid_meets ih hb hfits hlost h
      | valid => exact mergeIntoValid_meets ih hb hfits hlost h
      | optional f =>
        rw [TypeTable.Fits] at hold
        exact mergeIntoOptional_meets ih hb hold hfits hlost h
      | movedOut innerState outerFlag => exact mergeIntoMovedOut_meets ih hb hold hfits hlost h
      | partialOf innerStates outerFlag => exact mergeIntoPartial_meets ih hb hold hfits hlost h
      | partialArray fillState otherStates count =>
        exact mergeIntoPartialArray_meets ih hb hold hfits hlost h

theorem mergeState_merges (tt : TypeTable Ty) (B : Nat) (df : DropFlag → Bool) :
    Merges tt B df (mergeState tt) (meetings tt df) := by
  intro ty view old new b b' merged hb hseen hfits hlost h
  have hdepth : view.depth = old.depth := by
    cases view with
    | own s => exact congrArg VarState.depth hseen.1.symm
    | copyOf f =>
      obtain ⟨a, rfl, -⟩ := hseen
      exact (by rw [VarState.depth]; rfl)
  rw [meetings, hdepth] at hlost ⊢
  exact mergeStateTo_merges tt B df _ ty view old new b b' merged hb hseen hfits hlost h

end Trustme.Lowering
