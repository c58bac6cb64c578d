/-
  Subject:   Entering a loop: the head states read as the states before the loop did.

  All flags of a head are new, so nothing the states before the loop read is written; no condition
  is needed here.

  * `Allots`: what the statements in front of a loop are;
  * `Opens`: a head state and the state it stands for;
  * `enterLoopHead_opens`, `enterLoopHeads_open`: the functions end, and with such states.
-/
import Trustme.Lowering.LoopHeads

namespace Trustme.Lowering

open Lib (OrdMap Source Touches)

/-! ## 1. New flags -/

namespace VarState

/-- Where the state of a whole place is read. -/
def source : VarState → Source DropFlag Bool
  | .valid => .const true
  | .optional flag => .reg flag
  | _ => .const false

theorem leafOf_source : ∀ {s : VarState}, s.isWhole = true → LeafOf s s.source
  | .valid, _ => leafOf_valid
  | .invalid why, _ => leafOf_invalid why
  | .optional f, _ => leafOf_optional f

theorem bound_source {Ty : Type} {tt : TypeTable Ty} {B : Nat} {ty : Ty} : ∀ {s : VarState},
    tt.Fits B ty s → ∀ g, s.source = .reg g → g < B
  | .optional f, h => by
    rw [TypeTable.Fits] at h
    exact bound_reg h
  | .valid, _ => bound_const
  | .invalid _, _ => bound_const
  | .partialOf _ _, _ => bound_const
  | .movedOut _ _, _ => bound_const
  | .partialArray _ _ _, _ => bound_const

end VarState

/-- The builder with one more flag, and a statement that sets it. -/
def Builder.withNew (b : Builder) (was : Bool) (src : Source DropFlag Bool) : Builder :=
  (b.withFlag was).withStmt (b.dropFlags.length, src)

theorem entryFlag_run {entry : VarState} (h : entry.isWhole = true) (b : Builder) :
    entryFlag entry b = .ok (b.dropFlags.length, b.withNew entry.isValid entry.source) := by
  cases entry, h using VarState.isWhole_rec with
  | valid => rfl
  | invalid why => rfl
  | optional f => rfl

theorem templateOuter_run (f : DropFlag) (b : Builder) :
    templateOuter (some f) b = .ok (some b.dropFlags.length, b.withNew false (.reg f)) := rfl

/-- The run from `b` to `b'` sets flags it allocates, and no others. -/
structure Allots (B : Nat) (b b' : Builder) (ms : List Met) : Prop where
  ran : Ran B (fun _ => False) b b' ms
  fresh : ∀ m ∈ ms, m.meeting.target = none

namespace Allots

variable {B : Nat} {b b' b'' : Builder} {ms ms' : List Met}

theorem nil (hb : b.WF) : Allots B b b [] := ⟨.nil hb, nofun⟩

theorem append (h : Allots B b b' ms) (h' : Allots B b' b'' ms') (hB : B ≤ b.dropFlags.length) :
    Allots B b b'' (ms ++ ms') := by
  refine ⟨h.ran.append h'.ran hB (fun _ _ _ _ _ h => h.elim) fun _ _ h => h.elim, fun m hm => ?_⟩
  rcases List.mem_append.mp hm with hm | hm
  · exact h.fresh m hm
  · exact h'.fresh m hm

theorem one (hb : b.WF) (hB : B ≤ b.dropFlags.length) (was : Bool) {src : Source DropFlag Bool}
    (hsrc : ∀ g, src = .reg g → g < B) :
    Allots B b (b.withNew was src) [⟨.fresh was src, .reg b.dropFlags.length⟩] :=
  ⟨.fresh hb hB was hsrc, fun m hm => by rw [List.mem_singleton.mp hm]; rfl⟩

/-- What sets new flags only disturbs nothing. -/
theorem compatible (h : Allots B b b' ms) (ρ : DropFlag → Bool) :
    (ms.map (·.meeting)).Pairwise (Meeting.Compatible b ρ) := by
  rw [List.pairwise_map]
  refine List.pairwise_of_forall_mem_list fun m hm m' hm' => ⟨fun f hf => ?_, fun f hf => ?_⟩
  · rw [h.fresh m' hm'] at hf
    cases hf
  · rw [h.fresh m hm] at hf
    cases hf

end Allots

theorem lt_withNew (b : Builder) (was : Bool) (src : Source DropFlag Bool) :
    b.dropFlags.length < (b.withNew was src).dropFlags.length := by
  simp [Builder.withNew, Builder.withStmt, Builder.withFlag]

/-! ## 2. Head states -/

/-- Once the cells are filled the head reads as the state it stands for, where both decide. -/
def Takes (entry head : VarState) (ms : List Met) : Prop :=
  ∀ ρ σ, (∀ m ∈ ms, m.cell.read σ = m.meeting.want.read ρ) → ∀ p v w,
    head.reads σ p = some v → entry.reads ρ p = some w → v = w

theorem Takes.mono {entry head : VarState} {ms ms' : List Met} (h : Takes entry head ms)
    (hms : ∀ m ∈ ms, m ∈ ms') : Takes entry head ms' :=
  fun ρ σ hσ => h ρ σ fun m hm => hσ m (hms m hm)

/-- The head state `head`, set up from `b` to `b'`, stands for `entry`. -/
structure Opens {Ty : Type} (tt : TypeTable Ty) (B : Nat) (ty : Ty) (entry : VarState)
    (b : Builder) (head : VarState) (b' : Builder) (ms : List Met) : Prop where
  allots : Allots B b b' ms
  fits : tt.Fits b'.dropFlags.length ty head
  takes : Takes entry head ms

section Entry

variable {Ty : Type} {tt : TypeTable Ty} {B : Nat} {ty : Ty} {entry : VarState} {b b' : Builder}

/-- One flag for the whole place. -/
theorem opens_whole (hb : b.WF) (hB : B ≤ b.dropFlags.length) (hw : entry.isWhole = true)
    (hfits : tt.Fits B ty entry) (ty' : Ty) :
    Opens tt B ty' entry b (.optional b.dropFlags.length) (b.withNew entry.isValid entry.source)
      [⟨.fresh entry.isValid entry.source, .reg b.dropFlags.length⟩] where
  allots := .one hb hB _ (VarState.bound_source hfits)
  fits := by
    rw [TypeTable.Fits]
    exact lt_withNew _ _ _
  takes := fun ρ σ hσ p v w hv hw' => by
    rw [leafOf_optional] at hv
    rw [VarState.leafOf_source hw] at hw'
    cases hv
    cases hw'
    exact hσ _ List.mem_cons_self

/-- The states of a list of places. -/
theorem eachState_opens {make : Nat → Build VarState} {tyOf : Nat → Ty}
    (h : ∀ i b, b.WF → B ≤ b.dropFlags.length → ∃ s b' ms, make i b = .ok (s, b') ∧
      Opens tt B (tyOf i) entry b s b' ms) : ∀ (is : List Nat) (b : Builder), b.WF →
    B ≤ b.dropFlags.length → ∃ ss b' ms, eachState make is b = .ok (ss, b') ∧
      Allots B b b' ms ∧
      List.Forall₂ (fun i s => tt.Fits b'.dropFlags.length (tyOf i) s ∧ Takes entry s ms) is ss
  | [], b, hb, _ => ⟨[], b, [], rfl, .nil hb, .nil⟩
  | i :: is, b, hb, hB => by
    obtain ⟨s, b₁, ms, hs, ho⟩ := h i b hb hB
    have hran := ho.allots.ran
    obtain ⟨ss, b₂, ms', hss, hal, hall⟩ := eachState_opens h is b₁ hran.wf
      (Nat.le_trans hB hran.grown.length_le)
    refine ⟨s :: ss, b₂, ms ++ ms', ?_, ho.allots.append hal hB, .cons ⟨?_, ?_⟩ ?_⟩
    · exact build_bind.mpr ⟨s, b₁, hs, build_bind.mpr ⟨ss, b₂, hss, rfl⟩⟩
    · exact ho.fits.mono hal.ran.grown.length_le
    · exact ho.takes.mono fun m hm => List.mem_append_left _ hm
    · exact hall.imp fun _ _ hs => ⟨hs.1, hs.2.mono fun m hm => List.mem_append_right _ hm⟩

theorem forall₂_range {V : Type} {R : Nat → V → Prop} {n : Nat} {ss : List V}
    (h : List.Forall₂ R (List.range n) ss) {i : Nat} {s : V} (hs : ss[i]? = some s) : R i s := by
  obtain ⟨k, hk, hR⟩ := Lib.forall₂_getElem h.flip hs
  obtain ⟨hlt, e⟩ := List.getElem?_eq_some_iff.mp hk
  rw [List.getElem_range] at e
  exact e ▸ hR

variable {outerFlag : Option DropFlag} {ms : List Met}

/-- A head with parts stands for a state of the whole place. -/
theorem takes_parts {inner : List VarState} (hw : entry.isWhole = true)
    (hinner : ∀ (i : Nat) s, inner[i]? = some s → Takes entry s ms)
    (houter : ∀ f, outerFlag = some f → Takes entry (.optional f) ms) :
    Takes entry (.partialOf inner outerFlag) ms := by
  intro ρ σ hσ p v w hv hw'
  have hleaf := VarState.leafOf_source hw
  rw [hleaf] at hw'
  cases hw'
  have hpart (i : Nat) (q : SubPlace) (u : Bool)
      (hu : (inner[i]?).bind (fun s => s.reads σ q) = some u) : u = entry.source.read ρ := by
    obtain ⟨s, hs, hu⟩ := Option.bind_eq_some_iff.mp hu
    exact hinner i s hs ρ σ hσ q u _ hu (hleaf ρ q)
  have hshape := partsOf_partialOf inner outerFlag
  cases p with
  | field i q =>
    rw [hshape.field] at hv
    exact hpart i q v hv
  | variant i q =>
    rw [hshape.variant] at hv
    obtain ⟨s, hs, hv⟩ := Option.bind_eq_some_iff.mp hv
    obtain ⟨u, hu, rfl⟩ := Option.map_eq_some_iff.mp hv
    rw [hpart i q u (Option.bind_eq_some_iff.mpr ⟨s, hs, hu⟩)]
    cases outerFlag with
    | none => exact Bool.true_and _
    | some f =>
      have hf := houter f rfl ρ σ hσ .here (σ f) _ (leafOf_optional f σ .here) (hleaf ρ .here)
      rw [outerSource, Source.read_reg, hf, Bool.and_self]
  | here => simp [VarState.reads] at hv
  | boxAlloc => simp [VarState.reads] at hv
  | deref q => simp [VarState.reads] at hv

variable {typeNeedsDropGlue : Ty → Bool}

/-- What the recursion of `loopHeadWhole` does below a level. -/
def Heads (tt : TypeTable Ty) (B : Nat) (entry : VarState)
    (head : Ty → List LoopPart → Nat → Build VarState) (parts : List LoopPart) (depth : Nat) :
    Prop :=
  ∀ ty sub depth' b, (∀ part ∈ sub, part ∈ parts) → depth < depth' → b.WF →
    B ≤ b.dropFlags.length → ∃ s b' ms, head ty sub depth' b = .ok (s, b') ∧
      Opens tt B ty entry b s b' ms

variable {parts : List LoopPart}

theorem mem_of_mem_through {depth step : Nat} {part : LoopPart}
    (h : part ∈ through parts depth step) : part ∈ parts := (List.mem_filter.mp h).1

theorem fieldsOf_opens {head : Ty → List LoopPart → Nat → Build VarState} {depth : Nat}
    (hw : entry.isWhole = true) (h : Heads tt B entry head parts depth) (hty : tt.isEnum ty = false)
    (count : Nat) {sub : List LoopPart} (hsub : ∀ part ∈ sub, part ∈ parts) {at' : Nat}
    (hat : depth ≤ at') (hb : b.WF) (hB : B ≤ b.dropFlags.length) : ∃ s b' ms,
      fieldsOf tt head ty count sub at' b = .ok (s, b') ∧ Opens tt B ty entry b s b' ms := by
  have hmake (j : Nat) (b : Builder) (hb : b.WF) (hB : B ≤ b.dropFlags.length) :
      ∃ s b' ms, head (tt.field ty j) (through sub at' (loopPartField j)) (at' + 1) b =
        .ok (s, b') ∧
        Opens tt B (tt.field ty j) entry b s b' ms :=
    h _ _ _ b (fun part hp => hsub part (mem_of_mem_through hp)) (Nat.lt_succ_of_le hat) hb hB
  obtain ⟨ss, b', ms, hss, hal, hall⟩ := eachState_opens hmake (List.range count) b hb hB
  refine ⟨.partialOf ss none, b', ms, build_bind.mpr ⟨ss, b', hss, rfl⟩, hal, ?_, ?_⟩
  · rw [TypeTable.Fits]
    refine ⟨nofun, .intro fun j s hs => ?_⟩
    rw [Nat.zero_add, tt.part_of_not_isEnum hty]
    exact (forall₂_range hall hs).1
  · exact takes_parts hw (fun j s hs => (forall₂_range hall hs).2) nofun

/-- The recursion of `loopHeadWhole` ends, as a part has no more steps than there are levels. -/
theorem loopHeadWhole_opens (hw : entry.isWhole = true) (hfits : ∀ ty, tt.Fits B ty entry) :
    ∀ (n : Nat) (ty : Ty) (parts : List LoopPart) (depth : Nat) (b : Builder), 0 < n →
      (∀ part ∈ parts, part.length < depth + n) → b.WF → B ≤ b.dropFlags.length →
      ∃ s b' ms, loopHeadWhole tt typeNeedsDropGlue n ty entry parts depth b = .ok (s, b') ∧
        Opens tt B ty entry b s b' ms
  | 0, _, _, _, _, h, _, _, _ => absurd h (Nat.lt_irrefl 0)
  | n + 1, ty, parts, depth, b, _, hparts, hb, hB => by
    have hone (ty' : Ty) (b : Builder) (hb : b.WF) (hB : B ≤ b.dropFlags.length) :
        ∃ s b' ms, (do return .optional (← entryFlag entry) : Build VarState) b = .ok (s, b') ∧
          Opens tt B ty' entry b s b' ms :=
      ⟨_, _, _, build_bind.mpr ⟨_, _, entryFlag_run hw b, rfl⟩,
        opens_whole hb hB hw (hfits ty) ty'⟩
    rw [loopHeadWhole]
    by_cases hgo : (!continuing parts depth || !typeNeedsDropGlue ty) = true
    · rw [if_pos hgo]
      exact hone ty b hb hB
    rw [if_neg hgo]
    simp only [Bool.or_eq_true, Bool.not_eq_true', not_or, Bool.not_eq_false] at hgo
    obtain ⟨part, hmem, hlt⟩ := List.any_eq_true.mp hgo.1
    have hn : 0 < n := by
      have := hparts part hmem
      have := of_decide_eq_true hlt
      omega
    have hrec : Heads tt B entry
        (fun ty parts depth => loopHeadWhole tt typeNeedsDropGlue n ty entry parts depth)
        parts depth := by
      intro ty' sub depth' b₁ hsub hdepth hb₁ hB₁
      refine loopHeadWhole_opens hw hfits n ty' sub depth' b₁ hn (fun p hp => ?_) hb₁ hB₁
      have := hparts p (hsub p hp)
      omega
    cases hshape : tt.shape ty with
    | tuple fields =>
      dsimp only
      split
      · exact fieldsOf_opens hw hrec (by simp [TypeTable.isEnum, hshape]) _ (fun _ h => h)
          (Nat.le_refl _) hb hB
      · exact hone ty b hb hB
    | struct fields hasDropImpl =>
      dsimp only
      split
      · exact hone ty b hb hB
      split
      · exact fieldsOf_opens hw hrec (by simp [TypeTable.isEnum, hshape]) _ (fun _ h => h)
          (Nat.le_refl _) hb hB
      · exact hone ty b hb hB
    | enum variants hasDropImpl =>
      dsimp only
      split
      · exact hone ty b hb hB
      have hen : tt.isEnum ty = true := by simp [TypeTable.isEnum, hshape]
      have hmake (i : Nat) (b : Builder) (hb : b.WF) (hB : B ≤ b.dropFlags.length) :=
        show ∃ s b' ms, (if 0 < structFieldCount tt (tt.variant ty i) &&
            continuing (through parts depth (loopPartVariant i)) (depth + 1) then
            fieldsOf tt (fun ty parts depth => loopHeadWhole tt typeNeedsDropGlue n ty entry
              parts depth) (tt.variant ty i) (structFieldCount tt (tt.variant ty i))
              (through parts depth (loopPartVariant i)) (depth + 1)
            else (do return .optional (← entryFlag entry) : Build VarState)) b = .ok (s, b') ∧
          Opens tt B (tt.variant ty i) entry b s b' ms by
        split
        · rename_i hcount
          refine fieldsOf_opens hw hrec ?_ _ (fun _ h => mem_of_mem_through h) (Nat.le_succ _)
            hb hB
          simp only [Bool.and_eq_true, structFieldCount] at hcount
          unfold TypeTable.isEnum
          split
          · rename_i e
            simp [e] at hcount
          · rfl
        · exact hone _ b hb hB
      obtain ⟨ss, b₁, ms, hss, hal, hall⟩ := eachState_opens hmake (List.range variants.length)
        b hb hB
      have hB₁ := Nat.le_trans hB hal.ran.grown.length_le
      have hlast := opens_whole hal.ran.wf hB₁ hw (hfits ty) ty
      refine ⟨_, _, _, build_bind.mpr ⟨ss, b₁, hss, build_bind.mpr
        ⟨_, _, entryFlag_run hw b₁, rfl⟩⟩, hal.append hlast.allots hB, ?_, ?_⟩
      · rw [TypeTable.Fits]
        refine ⟨bound_some (lt_withNew _ _ _), .intro fun i s hs => ?_⟩
        rw [Nat.zero_add, tt.part_of_isEnum hen]
        exact (forall₂_range hall hs).1.mono hlast.allots.ran.grown.length_le
      · refine takes_parts hw (fun i s hs => ?_) fun f hf => ?_
        · exact (forall₂_range hall hs).2.mono fun m hm => List.mem_append_left _ hm
        · cases hf
          exact hlast.takes.mono fun m hm => List.mem_append_right _ hm
    | ownedBox inner => exact hone ty b hb hB
    | union => exact hone ty b hb hB
    | array elem => exact hone ty b hb hB
    | pointer inner => exact hone ty b hb hB
    | slice elem => exact hone ty b hb hB
    | plain => exact hone ty b hb hB

/-! ## 3. Heads with the shape of the state before the loop -/

/-- What `templateOuter` does with an outer flag. -/
theorem templateOuter_allots (hb : b.WF) (hB : B ≤ b.dropFlags.length)
    (hf : ∀ f, outerFlag = some f → f < B) : ∃ headFlag b' ms,
      templateOuter outerFlag b = .ok (headFlag, b') ∧ Allots B b b' ms ∧
      (∀ f, headFlag = some f → f < b'.dropFlags.length) ∧
      ∀ ρ σ, (∀ m ∈ ms, m.cell.read σ = m.meeting.want.read ρ) →
        (outerSource headFlag).read σ = (outerSource outerFlag).read ρ := by
  cases outerFlag with
  | none => exact ⟨none, b, [], rfl, .nil hb, nofun, fun _ _ _ => rfl⟩
  | some f =>
    exact ⟨_, _, _, templateOuter_run f b, .one hb hB false (bound_reg (hf f rfl)),
      bound_some (lt_withNew _ _ _), fun ρ σ hσ => hσ _ List.mem_cons_self⟩

theorem takes_partialOf {ss hs : List VarState} {headFlag : Option DropFlag}
    (h : List.Forall₂ (fun s head => Takes s head ms) ss hs)
    (houter : ∀ ρ σ, (∀ m ∈ ms, m.cell.read σ = m.meeting.want.read ρ) →
      (outerSource headFlag).read σ = (outerSource outerFlag).read ρ) :
    Takes (.partialOf ss outerFlag) (.partialOf hs headFlag) ms := by
  intro ρ σ hσ p v w hv hw
  have hpart (i : Nat) (q : SubPlace) (u x : Bool)
      (hu : (hs[i]?).bind (fun s => s.reads σ q) = some u)
      (hx : (ss[i]?).bind (fun s => s.reads ρ q) = some x) : u = x := by
    obtain ⟨head, hhead, hu⟩ := Option.bind_eq_some_iff.mp hu
    obtain ⟨s, hs, hx⟩ := Option.bind_eq_some_iff.mp hx
    obtain ⟨head', hhead', ht⟩ := Lib.forall₂_getElem h hs
    cases hhead.symm.trans hhead'
    exact ht ρ σ hσ q u x hu hx
  cases p with
  | field i q =>
    rw [(partsOf_partialOf hs headFlag).field] at hv
    rw [(partsOf_partialOf ss outerFlag).field] at hw
    exact hpart i q v w hv hw
  | variant i q =>
    rw [(partsOf_partialOf hs headFlag).variant] at hv
    rw [(partsOf_partialOf ss outerFlag).variant] at hw
    obtain ⟨head, hhead, hv⟩ := Option.bind_eq_some_iff.mp hv
    obtain ⟨s, hs, hw⟩ := Option.bind_eq_some_iff.mp hw
    obtain ⟨u, hu, rfl⟩ := Option.map_eq_some_iff.mp hv
    obtain ⟨x, hx, rfl⟩ := Option.map_eq_some_iff.mp hw
    rw [houter ρ σ hσ, hpart i q u x (Option.bind_eq_some_iff.mpr ⟨head, hhead, hu⟩)
      (Option.bind_eq_some_iff.mpr ⟨s, hs, hx⟩)]
  | here => simp [VarState.reads] at hv
  | boxAlloc => simp [VarState.reads] at hv
  | deref q => simp [VarState.reads] at hv

theorem takes_movedOut {inner head : VarState} {headFlag : Option DropFlag}
    (h : Takes inner head ms) (houter : ∀ ρ σ, (∀ m ∈ ms, m.cell.read σ = m.meeting.want.read ρ) →
      (outerSource headFlag).read σ = (outerSource outerFlag).read ρ) :
    Takes (.movedOut inner outerFlag) (.movedOut head headFlag) ms := by
  intro ρ σ hσ p v w hv hw
  cases p with
  | boxAlloc =>
    rw [(boxOf_movedOut head headFlag).alloc] at hv
    rw [(boxOf_movedOut inner outerFlag).alloc] at hw
    cases hv
    cases hw
    exact houter ρ σ hσ
  | deref q =>
    rw [(boxOf_movedOut head headFlag).deref] at hv
    rw [(boxOf_movedOut inner outerFlag).deref] at hw
    exact h ρ σ hσ q v w hv hw
  | here => simp [VarState.reads] at hv
  | field i q => simp [VarState.reads] at hv
  | variant i q => simp [VarState.reads] at hv

theorem takes_partialArray {fill head : VarState} {others heads : OrdMap VarState} {count : Nat}
    (h : Takes fill head ms)
    (hothers : List.Forall₂ (fun p q => p.1 = q.1 ∧ Takes p.2 q.2 ms) others heads) :
    Takes (.partialArray fill others count) (.partialArray head heads count) ms := by
  intro ρ σ hσ p v w hv hw
  cases p with
  | field i q =>
    have hi : i < count := by
      by_contra hi
      simp [VarState.reads, hi] at hv
    rw [elementsOf_partialArray _ _ _ _ _ _ hi, VarState.element] at hv hw
    rcases Lib.forall₂_find (fun _ _ h => h.1) i hothers with ⟨hn, hn'⟩ | ⟨s, t, hs, ht, -, hst⟩
    · rw [hn'] at hv
      rw [hn] at hw
      exact h ρ σ hσ q v w hv hw
    · rw [ht] at hv
      rw [hs] at hw
      exact hst ρ σ hσ q v w hv hw
  | here => simp [VarState.reads] at hv
  | boxAlloc => simp [VarState.reads] at hv
  | variant i q => simp [VarState.reads] at hv
  | deref q => simp [VarState.reads] at hv

theorem opens_entryFlag (hw : entry.isWhole = true) (hfits : tt.Fits B ty entry) (hb : b.WF)
    (hB : B ≤ b.dropFlags.length) : ∃ s b' ms,
      (do return .optional (← entryFlag entry) : Build VarState) b = .ok (s, b') ∧
      Opens tt B ty entry b s b' ms :=
  ⟨_, _, _, build_bind.mpr ⟨_, _, entryFlag_run hw b, rfl⟩, opens_whole hb hB hw hfits ty⟩

mutual

theorem loopHeadTemplate_opens : ∀ (s : VarState) {ty : Ty} {b : Builder}, tt.Fits B ty s → b.WF →
    B ≤ b.dropFlags.length → ∃ head b' ms, loopHeadTemplate s b = .ok (head, b') ∧
      Opens tt B ty s b head b' ms
  | .invalid _, _, _, hfits, hb, hB => opens_entryFlag rfl hfits hb hB
  | .valid, _, _, hfits, hb, hB => opens_entryFlag rfl hfits hb hB
  | .optional _, _, _, hfits, hb, hB => opens_entryFlag rfl hfits hb hB
  | .partialOf ss outerFlag, ty, b, hfits, hb, hB => by
    rw [TypeTable.Fits] at hfits
    obtain ⟨hs, b₁, ms, hhs, hal, htakes, hfit⟩ := loopHeadTemplates_open ss hfits.2 hb hB
    have hB₁ := Nat.le_trans hB hal.ran.grown.length_le
    obtain ⟨headFlag, b₂, ms', hflag, hal', hlt, houter⟩ :=
      templateOuter_allots hal.ran.wf hB₁ hfits.1
    refine ⟨_, b₂, ms ++ ms', build_bind.mpr ⟨hs, b₁, hhs, build_bind.mpr
      ⟨headFlag, b₂, hflag, rfl⟩⟩, hal.append hal' hB, ?_, ?_⟩
    · rw [TypeTable.Fits]
      exact ⟨hlt, hfit.mono hal'.ran.grown.length_le⟩
    · refine takes_partialOf (htakes.imp fun _ _ h => h.mono fun m hm =>
        List.mem_append_left _ hm) fun ρ σ hσ => ?_
      exact houter ρ σ fun m hm => hσ m (List.mem_append_right _ hm)
  | .movedOut inner outerFlag, ty, b, hfits, hb, hB => by
    rw [TypeTable.Fits] at hfits
    obtain ⟨head, b₁, ms, hhead, ho⟩ := loopHeadTemplate_opens inner hfits.2 hb hB
    have hal := ho.allots
    have hB₁ := Nat.le_trans hB hal.ran.grown.length_le
    obtain ⟨headFlag, b₂, ms', hflag, hal', hlt, houter⟩ :=
      templateOuter_allots hal.ran.wf hB₁ hfits.1
    refine ⟨_, b₂, ms ++ ms', build_bind.mpr ⟨head, b₁, hhead, build_bind.mpr
      ⟨headFlag, b₂, hflag, rfl⟩⟩, hal.append hal' hB, ?_, ?_⟩
    · rw [TypeTable.Fits]
      exact ⟨hlt, ho.fits.mono hal'.ran.grown.length_le⟩
    · refine takes_movedOut (ho.takes.mono fun m hm => List.mem_append_left _ hm) fun ρ σ hσ => ?_
      exact houter ρ σ fun m hm => hσ m (List.mem_append_right _ hm)
  | .partialArray fill others count, ty, b, hfits, hb, hB => by
    rw [TypeTable.Fits] at hfits
    obtain ⟨head, b₁, ms, hhead, ho⟩ := loopHeadTemplate_opens fill hfits.2.1 hb hB
    have hal := ho.allots
    have hB₁ := Nat.le_trans hB hal.ran.grown.length_le
    obtain ⟨heads, b₂, ms', hheads, hal', htakes, hfit⟩ :=
      loopHeadTemplatesOther_open others hfits.2.2 hal.ran.wf hB₁
    refine ⟨_, b₂, ms ++ ms', build_bind.mpr ⟨head, b₁, hhead, build_bind.mpr
      ⟨heads, b₂, hheads, rfl⟩⟩, hal.append hal' hB, ?_, ?_⟩
    · rw [TypeTable.Fits]
      exact ⟨hfits.1, ho.fits.mono hal'.ran.grown.length_le, hfit⟩
    · exact takes_partialArray (ho.takes.mono fun m hm => List.mem_append_left _ hm)
        (htakes.imp fun _ _ h => ⟨h.1, h.2.mono fun m hm => List.mem_append_right _ hm⟩)

theorem loopHeadTemplates_open : ∀ (ss : List VarState) {ty : Ty} {i : Nat} {b : Builder},
    tt.FitsInner B ty i ss → b.WF → B ≤ b.dropFlags.length → ∃ hs b' ms,
      loopHeadTemplates ss b = .ok (hs, b') ∧ Allots B b b' ms ∧
      List.Forall₂ (fun s head => Takes s head ms) ss hs ∧
      tt.FitsInner b'.dropFlags.length ty i hs
  | [], _, _, b, _, hb, _ => ⟨[], b, [], rfl, .nil hb, .nil, by rw [TypeTable.FitsInner]; trivial⟩
  | s :: ss, ty, i, b, hfits, hb, hB => by
    rw [TypeTable.FitsInner] at hfits
    obtain ⟨head, b₁, ms, hhead, ho⟩ := loopHeadTemplate_opens s hfits.1 hb hB
    have hal := ho.allots
    obtain ⟨hs, b₂, ms', hhs, hal', htakes, hfit⟩ := loopHeadTemplates_open ss hfits.2 hal.ran.wf
      (Nat.le_trans hB hal.ran.grown.length_le)
    refine ⟨head :: hs, b₂, ms ++ ms', build_bind.mpr ⟨head, b₁, hhead, build_bind.mpr
      ⟨hs, b₂, hhs, rfl⟩⟩, hal.append hal' hB, .cons ?_ ?_, ?_⟩
    · exact ho.takes.mono fun m hm => List.mem_append_left _ hm
    · exact htakes.imp fun _ _ h => h.mono fun m hm => List.mem_append_right _ hm
    · rw [TypeTable.FitsInner]
      exact ⟨ho.fits.mono hal'.ran.grown.length_le, hfit⟩

theorem loopHeadTemplatesOther_open : ∀ (ss : List (Nat × VarState)) {ty : Ty} {b : Builder},
    tt.FitsOther B ty ss → b.WF → B ≤ b.dropFlags.length → ∃ hs b' ms,
      loopHeadTemplatesOther ss b = .ok (hs, b') ∧ Allots B b b' ms ∧
      List.Forall₂ (fun p q => p.1 = q.1 ∧ Takes p.2 q.2 ms) ss hs ∧
      tt.FitsOther b'.dropFlags.length ty hs
  | [], _, b, _, hb, _ => ⟨[], b, [], rfl, .nil hb, .nil, by rw [TypeTable.FitsOther]; trivial⟩
  | (k, s) :: ss, ty, b, hfits, hb, hB => by
    rw [TypeTable.FitsOther] at hfits
    obtain ⟨head, b₁, ms, hhead, ho⟩ := loopHeadTemplate_opens s hfits.1 hb hB
    have hal := ho.allots
    obtain ⟨hs, b₂, ms', hhs, hal', htakes, hfit⟩ := loopHeadTemplatesOther_open ss hfits.2
      hal.ran.wf (Nat.le_trans hB hal.ran.grown.length_le)
    refine ⟨(k, head) :: hs, b₂, ms ++ ms', build_bind.mpr ⟨head, b₁, hhead, build_bind.mpr
      ⟨hs, b₂, hhs, rfl⟩⟩, hal.append hal' hB, .cons ⟨rfl, ?_⟩ ?_, ?_⟩
    · exact ho.takes.mono fun m hm => List.mem_append_left _ hm
    · exact htakes.imp fun _ _ h => ⟨h.1, h.2.mono fun m hm => List.mem_append_right _ hm⟩
    · rw [TypeTable.FitsOther]
      exact ⟨ho.fits.mono hal'.ran.grown.length_le, hfit⟩

end

/-! ## 4. All variables -/

theorem lt_levels {part : LoopPart} (h : part ∈ parts) :
    part.length < 0 + levels parts := by
  induction parts with
  | nil => cases h
  | cons p ps ih =>
    rw [levels, List.map_cons, List.foldr_cons]
    rcases List.mem_cons.mp h with rfl | h
    · omega
    · have := ih h
      rw [levels] at this
      omega

theorem fits_of_isWhole (hw : entry.isWhole = true) (hfits : tt.Fits B ty entry) (ty' : Ty) :
    tt.Fits B ty' entry := by
  cases entry, hw using VarState.isWhole_rec with
  | valid => rw [TypeTable.Fits]; trivial
  | invalid why => rw [TypeTable.Fits]; trivial
  | optional f =>
    rw [TypeTable.Fits] at hfits ⊢
    exact hfits

/-- A variable is entered. -/
theorem enterLoopHead_opens (hfits : tt.Fits B ty entry) (moved : Bool) (parts : List LoopPart)
    (hb : b.WF) (hB : B ≤ b.dropFlags.length) :
    enterLoopHead tt typeNeedsDropGlue ty entry moved parts b = .ok (none, b) ∨
    ∃ head b' ms, enterLoopHead tt typeNeedsDropGlue ty entry moved parts b
      = .ok (some head, b') ∧ Opens tt B ty entry b head b' ms := by
  unfold enterLoopHead
  split
  · exact Or.inl rfl
  right
  split
  · rename_i hw
    obtain ⟨-, hw⟩ := Bool.and_eq_true_iff.mp hw
    have h : ∃ head b' ms, loopHeadWhole tt typeNeedsDropGlue (levels parts) ty entry parts 0 b
        = .ok (head, b') ∧ Opens tt B ty entry b head b' ms :=
      loopHeadWhole_opens hw (fits_of_isWhole hw hfits) _ _ _ _ _ (Nat.succ_pos _)
        (fun part hp => lt_levels hp) hb hB
    obtain ⟨head, b', ms, hhead, ho⟩ := h
    exact ⟨head, b', ms, build_map.mpr ⟨head, b', hhead, rfl⟩, ho⟩
  · obtain ⟨head, b', ms, hhead, ho⟩ := loopHeadTemplate_opens entry hfits hb hB
    exact ⟨head, b', ms, build_map.mpr ⟨head, b', hhead, rfl⟩, ho⟩

/-- What holds of the heads of a loop once they are entered, from `b₀`. -/
structure Entered (tt : TypeTable Ty) (slots : Slots Ty) (B : Nat) (b₀ b : Builder)
    (heads : LoopHeads) (ms : List Met) : Prop where
  allots : Allots B b₀ b ms
  fits : ∀ h ∈ heads, tt.Fits b.dropFlags.length (slots.slotTy h.1.type h.1.idx) h.2
  takes : ∀ h ∈ heads, Takes (slots.getSlotState h.1.type h.1.idx) h.2 ms

theorem enterLoopHeads_open {slots : Slots Ty} {b₀ : Builder} (hs : slots.Fits tt B)
    (hB : B ≤ b₀.dropFlags.length) : ∀ (vars : List LoopVar) (heads : LoopHeads) (b : Builder)
      (ms : List Met), Entered tt slots B b₀ b heads ms → ∃ heads' b' ms',
      enterLoopHeads tt typeNeedsDropGlue slots vars heads b = .ok (heads', b') ∧
      Entered tt slots B b₀ b' heads' ms'
  | [], heads, b, ms, h => ⟨heads, b, ms, rfl, h⟩
  | var :: vars, heads, b, ms, h => by
    have hB' := Nat.le_trans hB h.allots.ran.grown.length_le
    rcases enterLoopHead_opens (hs var.type var.idx) var.moved var.parts h.allots.ran.wf hB' with
      hnone | ⟨head, b₁, ms₁, hhead, ho⟩
    · obtain ⟨heads', b', ms', hrun, he⟩ := enterLoopHeads_open hs hB vars heads b ms h
      exact ⟨heads', b', ms', build_bind.mpr ⟨none, b, hnone, hrun⟩, he⟩
    · have hnext : Entered tt slots B b₀ b₁ ((var, head) :: heads) (ms ++ ms₁) := by
        refine ⟨h.allots.append ho.allots hB, fun p hp => ?_, fun p hp => ?_⟩
        · rcases List.mem_cons.mp hp with rfl | hp
          · exact ho.fits
          · exact (h.fits p hp).mono ho.allots.ran.grown.length_le
        · rcases List.mem_cons.mp hp with rfl | hp
          · exact ho.takes.mono fun m hm => List.mem_append_right _ hm
          · exact (h.takes p hp).mono fun m hm => List.mem_append_left _ hm
      obtain ⟨heads', b', ms', hrun, he⟩ := enterLoopHeads_open hs hB vars _ b₁ _ hnext
      exact ⟨heads', b', ms', build_bind.mpr ⟨some head, b₁, hhead, hrun⟩, he⟩

end Entry

end Trustme.Lowering
