/-
  Subject:   The cleanup chains that drops and calls unwind to, with the nodes they share.

  * `Cached`: what the two tables of shared nodes and the shared resume block say of the blocks;
  * `makeUnwindAction_unwinds`: a chain drops the scheduled slots, the last one first;
  * `Reached`: the builders of a body, `Reached.cached` -- each of them keeps the tables right;
  * `unwindOfCall_agrees`: the inline cleanup of a call drops what the shared chain drops.
-/
import Trustme.Lowering.DropRuns

namespace Trustme.Lowering

theorem slotKey_inj {slot slot' : ScopeDropSlot} (h : slotKey slot = slotKey slot') :
    slot = slot' := by
  rcases slot with ⟨isArgument, index⟩
  rcases slot' with ⟨isArgument', index'⟩
  unfold slotKey at h
  cases isArgument <;> cases isArgument' <;> simp at h ⊢ <;> omega

theorem getElem?_of_prefix {α : Type} {xs ys : List α} {i : Nat} {a : α} (h : xs <+: ys)
    (ha : xs[i]? = some a) : ys[i]? = some a := by
  obtain ⟨hi, rfl⟩ := List.getElem?_eq_some_iff.mp ha
  exact List.prefix_iff_getElem?.mp h i hi

section Source

/-- What a body asks of its types: their shapes, whether they need dropping, and those of the
    slots. -/
structure BodyTypes (Ty : Type) where
  tt : TypeTable Ty
  typeNeedsDropGlue : Ty → Bool
  rootTy : Storage → Ty

variable {Ty : Type} (T : BodyTypes Ty)

/-! ## 1. What is left to drop -/

/-- What a drop of the slot takes. -/
def slotDrops (env : DropEnv) (slot : ScopeDropSlot) (state : VarState) : List Dropped :=
  placed (.slot slot) [] (state.parts T.tt T.typeNeedsDropGlue env (.slot slot)
    (T.rootTy (.slot slot)) [])

/-- What a cleanup of the slots takes: the slot that was scheduled last comes first. -/
def cleanupDrops (env : DropEnv) (states : ScopeDropSlot → VarState) (slots : List ScopeDropSlot) :
    List Dropped :=
  slots.reverse.flatMap fun slot => slotDrops T env slot (states slot)

variable {T}

variable {slot : ScopeDropSlot} {state : VarState}

theorem slotDrops_of_isInvalid {env : DropEnv}
    (h : state.isInvalid = true) : slotDrops T env slot state = [] := by
  cases state with
  | invalid why => rw [slotDrops, VarState.parts]; rfl
  | _ => cases h

theorem slotDrops_of_noGlue {env : DropEnv}
    (h : slotHasDropGlue T.typeNeedsDropGlue T.rootTy slot = false) :
    slotDrops T env slot state = [] := by
  unfold slotHasDropGlue at h
  unfold slotDrops
  cases state <;> simp [VarState.parts, h]

@[simp] theorem cleanupDrops_nil (env : DropEnv) (states : ScopeDropSlot → VarState) :
    cleanupDrops T env states [] = [] := rfl

theorem cleanupDrops_cons (env : DropEnv) (states : ScopeDropSlot → VarState) (slot : ScopeDropSlot)
    (slots : List ScopeDropSlot) :
    cleanupDrops T env states (slot :: slots) =
      cleanupDrops T env states slots ++
        slotDrops T env slot (states slot) := by
  simp [cleanupDrops]

/-- Slots that have nothing to drop may be left out. -/
theorem cleanupDrops_filter {env : DropEnv} {states states' : ScopeDropSlot → VarState}
    {keep : ScopeDropSlot → Bool} : ∀ {slots : List ScopeDropSlot},
      (∀ s ∈ slots, keep s = true → states s = states' s) →
      (∀ s ∈ slots, keep s = false → (states s).isInvalid = true) →
      cleanupDrops T env states slots =
        cleanupDrops T env states' (slots.filter keep)
  | [], _, _ => rfl
  | slot :: slots, hk, hd => by
    have ih : cleanupDrops T env states slots = cleanupDrops T env states' (slots.filter keep) :=
      cleanupDrops_filter (fun s hs => hk s (List.mem_cons_of_mem slot hs))
        (fun s hs => hd s (List.mem_cons_of_mem slot hs))
    rw [cleanupDrops_cons, ih]
    cases hs : keep slot with
    | true =>
      rw [List.filter_cons_of_pos hs, cleanupDrops_cons, hk slot List.mem_cons_self hs]
    | false =>
      rw [List.filter_cons_of_neg (by simp [hs]),
        slotDrops_of_isInvalid (hd slot List.mem_cons_self hs), List.append_nil]

/-! ## 2. The tables of shared nodes -/

variable (T) in
/-- Each shared node is the block for its slot, state and continuation. -/
structure Cached (b : DropBuilder) : Prop where
  resume : ∀ block, b.unwindResumeBlock = some block → b.blocks[block]? = some ⟨[], none⟩
  drops : ∀ node ∈ b.unwindDropNodes, ∀ slot, slotKey slot = node.slotKey →
    b.blocks[node.block]? =
      some ⟨[.drop .deep (.ofSlot slot) node.flag .terminate], some node.target⟩
  states : ∀ node ∈ b.unwindStateNodes, ∀ slot, slotKey slot = node.slotKey →
    ∃ code, b.blocks[node.block]? = some ⟨code, some node.target⟩ ∧ ∀ env,
      (runSteps env code).map Event.dropped =
        slotDrops T env slot node.state

variable {b b' : DropBuilder}

/-- More blocks, and nothing else that the tables are about. -/
theorem Cached.more (h : Cached T b) (hb : b.blocks <+: b'.blocks)
    (hr : b'.unwindResumeBlock = b.unwindResumeBlock) (hd : b'.unwindDropNodes = b.unwindDropNodes)
    (hs : b'.unwindStateNodes = b.unwindStateNodes) :
    Cached T b' where
  resume block hblock := getElem?_of_prefix hb (h.resume block (hr ▸ hblock))
  drops node hnode slot hslot := getElem?_of_prefix hb (h.drops node (hd ▸ hnode) slot hslot)
  states node hnode slot hslot := by
    obtain ⟨code, hcode, hrun⟩ := h.states node (hs ▸ hnode) slot hslot
    exact ⟨code, getElem?_of_prefix hb hcode, hrun⟩

/-- The part of the builder that a chain reads and leaves as it is. -/
structure SameStates (b b' : DropBuilder) : Prop where
  slotStates : b'.slotStates = b.slotStates
  frozenExitStates : b'.frozenExitStates = b.frozenExitStates
  scopeStack : b'.scopeStack = b.scopeStack

theorem SameStates.refl (b : DropBuilder) : SameStates b b := ⟨rfl, rfl, rfl⟩

theorem SameStates.trans {b b' b'' : DropBuilder} (h : SameStates b b') (h' : SameStates b' b'') :
    SameStates b b'' :=
  ⟨h'.1.trans h.1, h'.2.trans h.2, h'.3.trans h.3⟩

theorem SameStates.getSlotState {b b' : DropBuilder} (h : SameStates b b') :
    b'.getSlotState = b.getSlotState := by
  funext slot
  rw [DropBuilder.getSlotState, DropBuilder.getSlotState, h.1, h.2]

theorem SameStates.scheduled {b b' : DropBuilder} (h : SameStates b b') :
    b'.scheduled = b.scheduled := by
  rw [DropBuilder.scheduled, DropBuilder.scheduled, h.3]

variable (T) in
/-- The action that makes a part of a chain keeps the tables and adds blocks. -/
structure Chained (b b' : DropBuilder) : Prop where
  cached : Cached T b'
  same : SameStates b b'
  more : b.blocks <+: b'.blocks

theorem Chained.refl {b : DropBuilder} (h : Cached T b) :
    Chained T b b :=
  ⟨h, .refl b, List.prefix_refl _⟩

theorem Chained.trans {b b' b'' : DropBuilder} (h : Chained T b b')
    (h' : Chained T b' b'') : Chained T b b'' :=
  ⟨h'.cached, h.same.trans h'.same, h.more.trans h'.more⟩

variable {code : List DropStep} {block target : Nat}

theorem newCleanupBlock_adds {next : Option Nat}
    (h : newCleanupBlock code next b = .ok (block, b')) :
    block = b.blocks.length ∧ b' = { b with blocks := b.blocks ++ [⟨code, next⟩] } := by
  cases h
  exact ⟨rfl, rfl⟩

/-- A block of its own. -/
theorem newCleanupBlock_chained {next : Option Nat} (hb : Cached T b)
    (h : newCleanupBlock code next b = .ok (block, b')) :
    Chained T b b' ∧ b'.blocks[block]? = some ⟨code, next⟩ := by
  obtain ⟨rfl, rfl⟩ := newCleanupBlock_adds h
  have hp : b.blocks <+: b.blocks ++ [⟨code, next⟩] := List.prefix_append _ _
  exact ⟨⟨hb.more hp rfl rfl rfl, ⟨rfl, rfl, rfl⟩, hp⟩, by simp⟩

/-! ## 3. Chains -/

variable (T) in
/-- The upkeep of cleanup blocks, whose own drops do not unwind. -/
def cleanupUpkeep (b : DropBuilder) : Upkeep where
  inv c := Cached T c ∧ SameStates b c
  good _ _ _ := True
  inv_locals _ _ h := ⟨h.1.more (List.prefix_refl _) rfl rfl rfl, h.2.trans ⟨rfl, rfl, rfl⟩⟩
  good_mono _ _ _ _ _ _ := trivial

/-- A drop in a cleanup block drops the parts of the slot. -/
theorem dropInCleanup_emits (b : DropBuilder) (slot : ScopeDropSlot) (state : VarState) :
    Emits (cleanupUpkeep T b)
      (dropInCleanup T.tt T.typeNeedsDropGlue T.rootTy state (.ofSlot slot))
      (fun env => slotDrops T env slot state) := by
  refine dropValueFromState_emits ?_ state (.ofSlot slot)
  intro val c a c' hc hret
  cases build_pure.mp hret
  exact ⟨hc, List.prefix_refl _, trivial⟩

theorem dropInCleanup_chained (hb : Cached T b)
    (h : dropInCleanup T.tt T.typeNeedsDropGlue T.rootTy state (.ofSlot slot) b = .ok (code, b')) :
    Chained T b b' ∧ ∀ env,
      (runSteps env code).map Event.dropped =
        slotDrops T env slot state := by
  obtain ⟨⟨hc, hs⟩, hp, hrun⟩ := dropInCleanup_emits b slot state b code b' ⟨hb, .refl b⟩ h
  exact ⟨⟨hc, hs, hp⟩, fun env => (hrun env).1⟩

variable {shared : Bool}

theorem unwindDropNode_chained {flag : Option DropFlag} (hb : Cached T b)
    (h : unwindDropNode slot flag target shared b = .ok (block, b')) :
    Chained T b b' ∧
      b'.blocks[block]? = some ⟨[.drop .deep (.ofSlot slot) flag .terminate], some target⟩ := by
  obtain ⟨b₀, _, h₀, h⟩ := build_bind.mp h
  cases h₀
  generalize hfind : List.find? _ b.unwindDropNodes = found at h
  cases shared with
  | false =>
    obtain ⟨made, b₁, h₁, h⟩ := build_bind.mp h
    cases h
    exact newCleanupBlock_chained hb h₁
  | true =>
    cases found with
    | some node =>
      -- a node that is there is the one for the slot, the flag and the continuation
      cases h
      have hnode := List.find?_some hfind
      simp only [Bool.and_eq_true, beq_iff_eq] at hnode
      obtain ⟨⟨hkey, rfl⟩, rfl⟩ := hnode
      exact ⟨.refl hb, hb.drops node (List.mem_of_find?_eq_some hfind) slot hkey.symm⟩
    | none =>
      obtain ⟨made, b₁, h₁, h⟩ := build_bind.mp h
      obtain ⟨hc, hmade⟩ := newCleanupBlock_chained hb h₁
      cases h
      refine ⟨hc.trans ⟨⟨hc.cached.resume, fun node hnode slot' hslot' => ?_, hc.cached.states⟩,
        ⟨rfl, rfl, rfl⟩, List.prefix_refl _⟩, hmade⟩
      rcases List.mem_cons.mp hnode with rfl | hnode
      · cases slotKey_inj hslot'
        exact hmade
      · exact hc.cached.drops node hnode slot' hslot'

theorem unwindStateNode_chained (hb : Cached T b)
    (h : unwindStateNode T.tt T.typeNeedsDropGlue T.rootTy slot state target shared b =
      .ok (block, b')) :
    Chained T b b' ∧
      ∃ code, b'.blocks[block]? = some ⟨code, some target⟩ ∧ ∀ env,
        (runSteps env code).map Event.dropped =
          slotDrops T env slot state := by
  obtain ⟨b₀, _, h₀, h⟩ := build_bind.mp h
  cases h₀
  generalize hfind : List.find? _ b.unwindStateNodes = found at h
  cases shared with
  | false =>
    obtain ⟨code, b₁, h₁, h⟩ := build_bind.mp h
    obtain ⟨hc₁, hrun⟩ := dropInCleanup_chained hb h₁
    obtain ⟨made, b₂, h₂, h⟩ := build_bind.mp h
    cases h
    obtain ⟨hc₂, hmade⟩ := newCleanupBlock_chained hc₁.cached h₂
    exact ⟨hc₁.trans hc₂, code, hmade, hrun⟩
  | true =>
    cases found with
    | some node =>
      cases h
      have hnode := List.find?_some hfind
      simp only [Bool.and_eq_true, beq_iff_eq] at hnode
      obtain ⟨⟨hkey, rfl⟩, hstate⟩ := hnode
      obtain rfl := VarState.eq_of_beq hstate
      exact ⟨.refl hb, hb.states node (List.mem_of_find?_eq_some hfind) slot hkey.symm⟩
    | none =>
      obtain ⟨code, b₁, h₁, h⟩ := build_bind.mp h
      obtain ⟨hc₁, hrun⟩ := dropInCleanup_chained hb h₁
      obtain ⟨made, b₂, h₂, h⟩ := build_bind.mp h
      obtain ⟨hc₂, hmade⟩ := newCleanupBlock_chained hc₁.cached h₂
      have hc := hc₁.trans hc₂
      cases h
      refine ⟨hc.trans ⟨⟨hc.cached.resume, hc.cached.drops, fun node hnode slot' hslot' => ?_⟩,
        ⟨rfl, rfl, rfl⟩, List.prefix_refl _⟩, code, hmade, hrun⟩
      rcases List.mem_cons.mp hnode with rfl | hnode
      · cases slotKey_inj hslot'
        exact ⟨code, hmade, hrun⟩
      · exact hc.cached.states node hnode slot' hslot'

/-- The drop of a slot as a whole. -/
theorem slotDrops_whole {env : DropEnv} {flag : Option DropFlag}
    (hg : slotHasDropGlue T.typeNeedsDropGlue T.rootTy slot = true) :
    (runSteps env [.drop .deep (.ofSlot slot) flag .terminate]).map Event.dropped =
      slotDrops T env slot (flag.elim .valid .optional) := by
  unfold slotHasDropGlue at hg
  rw [runSteps_singleton, DropStep.run, slotDrops]
  cases flag with
  | none =>
    simp [VarState.parts, hg, placed, DropEnv.taken, outerSource, LValue.ofSlot, DropEnv.path]
  | some flag =>
    cases hf : env.flags flag <;>
      simp [VarState.parts, hg, hf, placed, DropEnv.taken, outerSource, LValue.ofSlot, DropEnv.path]

theorem unwindCleanupNode_unwinds (hb : Cached T b)
    (h : unwindCleanupNode T.tt T.typeNeedsDropGlue T.rootTy slot state target shared b =
      .ok (block, b')) :
    Chained T b b' ∧ ∀ env ds, Unwinds env b.blocks target ds →
      Unwinds env b'.blocks block (slotDrops T env slot state ++ ds) := by
  unfold unwindCleanupNode at h
  split at h
  · rename_i hskip
    cases build_pure.mp h
    refine ⟨.refl hb, fun env ds ht => ?_⟩
    have hnone : slotDrops T env slot state = [] := by
      rcases Bool.or_eq_true_iff.mp hskip with hs | hs
      · exact slotDrops_of_isInvalid hs
      · exact slotDrops_of_noGlue (by simpa using hs)
    rwa [hnone, List.nil_append]
  · rename_i hskip
    have hg : slotHasDropGlue T.typeNeedsDropGlue T.rootTy slot = true := by
      cases hg : slotHasDropGlue T.typeNeedsDropGlue T.rootTy slot with
      | true => rfl
      | false => simp [hg] at hskip
    have hwhole (flag : Option DropFlag) (h : unwindDropNode slot flag target shared b =
        .ok (block, b')) : Chained T b b' ∧ ∀ env ds,
          Unwinds env b.blocks target ds → Unwinds env b'.blocks block
            (slotDrops T env slot (flag.elim .valid .optional) ++ ds) := by
      obtain ⟨hc, hblock⟩ := unwindDropNode_chained hb h
      refine ⟨hc, fun env ds ht => ?_⟩
      rw [← slotDrops_whole hg]
      exact Unwinds.next hblock (ht.mono hc.more)
    split at h
    · exact hwhole none h
    · exact hwhole (some _) h
    · obtain ⟨hc, code, hblock, hrun⟩ := unwindStateNode_chained hb h
      refine ⟨hc, fun env ds ht => ?_⟩
      rw [← hrun]
      exact Unwinds.next hblock (ht.mono hc.more)

/-- The slot is not the value that is dropped or consumed. -/
def notConsumed (consumedValue : Option LValue) (slot : ScopeDropSlot) : Bool :=
  consumedValue != some (.ofSlot slot)

/-- The slots in front of a continuation. -/
theorem unwindCleanupNodes_unwinds {consumedValue : Option LValue} {shared : Bool} {block : Nat}
    {b' : DropBuilder} : ∀ {slots : List ScopeDropSlot} {target : Nat} {b : DropBuilder},
      Cached T b →
      unwindCleanupNodes T.tt T.typeNeedsDropGlue T.rootTy consumedValue shared slots target b =
        .ok (block, b') →
      Chained T b b' ∧ ∀ env ds, Unwinds env b.blocks target ds →
        Unwinds env b'.blocks block (cleanupDrops T env b.getSlotState
          (slots.filter (notConsumed consumedValue)) ++ ds)
  | [], target, b, hb, h => by
    cases build_pure.mp h
    exact ⟨.refl hb, fun env ds ht => ht⟩
  | slot :: slots, target, b, hb, h => by
    rw [unwindCleanupNodes] at h
    split at h
    · rename_i hskip
      obtain ⟨hc, hrest⟩ := unwindCleanupNodes_unwinds hb h
      refine ⟨hc, fun env ds ht => ?_⟩
      have hslot : cleanupDrops T env b.getSlotState
          ((slot :: slots).filter (notConsumed consumedValue)) =
        cleanupDrops T env b.getSlotState
          (slots.filter (notConsumed consumedValue)) := by
        cases hcon : consumedValue == some (.ofSlot slot) with
        | true => rw [List.filter_cons_of_neg (by simp [notConsumed, bne, hcon])]
        | false =>
          rw [hcon, Bool.or_false, Bool.not_eq_true'] at hskip
          rw [List.filter_cons_of_pos (by simp [notConsumed, bne, hcon]), cleanupDrops_cons,
            slotDrops_of_noGlue hskip, List.append_nil]
      rw [hslot]
      exact hrest env ds ht
    · rename_i hskip
      obtain ⟨b₀, _, h₀, h⟩ := build_bind.mp h
      cases h₀
      obtain ⟨node, b₁, h₁, h⟩ := build_bind.mp h
      obtain ⟨hc₁, hnode⟩ := unwindCleanupNode_unwinds hb h₁
      obtain ⟨hc₂, hrest⟩ := unwindCleanupNodes_unwinds hc₁.cached h
      refine ⟨hc₁.trans hc₂, fun env ds ht => ?_⟩
      have hkeep : notConsumed consumedValue slot = true := by
        rw [Bool.or_eq_true_iff, not_or] at hskip
        simpa [notConsumed, bne] using hskip.2
      rw [List.filter_cons_of_pos hkeep, cleanupDrops_cons, List.append_assoc,
        ← hc₁.same.getSlotState]
      exact hrest env _ (by simpa [hc₁.same.getSlotState] using hnode env ds ht)

theorem resumeBlock_unwinds (hb : Cached T b) (h : resumeBlock shared b = .ok (block, b')) :
    Chained T b b' ∧ ∀ env, Unwinds env b'.blocks block [] := by
  obtain ⟨b₀, _, h₀, h⟩ := build_bind.mp h
  cases h₀
  generalize hfound : b.unwindResumeBlock = found at h
  cases shared with
  | false =>
    obtain ⟨made, b₁, h₁, h⟩ := build_bind.mp h
    cases h
    obtain ⟨hc, hmade⟩ := newCleanupBlock_chained hb h₁
    exact ⟨hc, fun env => Unwinds.last hmade⟩
  | true =>
    cases found with
    | some made =>
      cases h
      exact ⟨.refl hb, fun env => Unwinds.last (hb.resume _ hfound)⟩
    | none =>
      obtain ⟨made, b₁, h₁, h⟩ := build_bind.mp h
      obtain ⟨hc, hmade⟩ := newCleanupBlock_chained hb h₁
      cases h
      refine ⟨hc.trans ⟨⟨fun block hblock => ?_, hc.cached.drops, hc.cached.states⟩,
        ⟨rfl, rfl, rfl⟩, List.prefix_refl _⟩, fun env => Unwinds.last hmade⟩
      cases hblock
      exact hmade

/-- A chain drops the initialised parts of the scheduled slots, the slot scheduled last first. -/
theorem makeUnwindAction_unwinds {consumedValue : Option LValue} {a : UnwindAction}
    (hb : Cached T b)
    (h : makeUnwindAction T.tt T.typeNeedsDropGlue T.rootTy consumedValue b = .ok (a, b')) :
    Chained T b b' ∧ ∃ block, a = .cleanup block ∧ ∀ env,
      Unwinds env b'.blocks block (cleanupDrops T env b.getSlotState
        (b.scheduled.filter (notConsumed consumedValue))) := by
  obtain ⟨b₀, _, h₀, h⟩ := build_bind.mp h
  cases h₀
  obtain ⟨block, b₁, h, hret⟩ := build_bind.mp h
  cases hret
  obtain ⟨target, b₂, h₂, h⟩ := build_bind.mp h
  obtain ⟨hc₂, hend⟩ := resumeBlock_unwinds hb h₂
  obtain ⟨_, _, h₀, h⟩ := build_bind.mp h
  cases h₀
  obtain ⟨hc, hchain⟩ := unwindCleanupNodes_unwinds hc₂.cached h
  refine ⟨hc₂.trans hc, block, rfl, fun env => ?_⟩
  have hrun := hchain env [] (hend env)
  rwa [List.append_nil, hc₂.same.getSlotState, hc₂.same.scheduled] at hrun

/-! ## 4. Bodies -/

/-- The builder has no cleanup blocks yet. -/
structure Fresh (b : DropBuilder) : Prop where
  blocks : b.blocks = []
  resume : b.unwindResumeBlock = none
  drops : b.unwindDropNodes = []
  states : b.unwindStateNodes = []

variable (T) in
/-- The builders that a body leads to: each adds a chain or a block of its own, or leaves the blocks
    and the tables as they are. -/
inductive Reached : DropBuilder → Prop where
  | start {b : DropBuilder} : Fresh b → Reached b
  | chain {b b' : DropBuilder} {consumedValue : Option LValue} {a : UnwindAction} : Reached b →
      makeUnwindAction T.tt T.typeNeedsDropGlue T.rootTy consumedValue b = .ok (a, b') → Reached b'
  | block {b b' : DropBuilder} {code : List DropStep} {next : Option Nat} {block : Nat} :
      Reached b → newCleanupBlock code next b = .ok (block, b') → Reached b'
  | other {b b' : DropBuilder} : Reached b → b'.blocks = b.blocks →
      b'.unwindResumeBlock = b.unwindResumeBlock → b'.unwindDropNodes = b.unwindDropNodes →
      b'.unwindStateNodes = b.unwindStateNodes → Reached b'

/-- No step of a body breaks the tables of shared nodes. -/
theorem Reached.cached {b : DropBuilder} (h : Reached T b) :
    Cached T b := by
  induction h with
  | start h => exact ⟨by simp [h.resume], by simp [h.drops], by simp [h.states]⟩
  | chain _ hmake ih => exact (makeUnwindAction_unwinds ih hmake).1.cached
  | block _ hnew ih => exact (newCleanupBlock_chained ih hnew).1.cached
  | other _ hb hr hd hs ih => exact ih.more (hb ▸ List.prefix_refl _) hr hd hs

theorem Reached.setSlotState {b : DropBuilder} (h : Reached T b)
    (slot : ScopeDropSlot) (state : VarState) :
    Reached T (b.setSlotState slot state) := by
  unfold DropBuilder.setSlotState
  split <;> exact .other h rfl rfl rfl rfl

theorem emitEach_append {α : Type} (emit : α → Emit (List DropStep)) : ∀ as as' : List α,
    emitEach emit (as ++ as') = (do
      let code ← emitEach emit as
      return code ++ (← emitEach emit as'))
  | [], as' => by simp [emitEach]
  | a :: as, as' => by
    simp only [List.cons_append, emitEach, emitEach_append emit as as', bind_assoc, pure_bind,
      List.append_assoc]

theorem emitEach_flatMap {α β : Type} (emit : β → Emit (List DropStep)) (f : α → List β) :
    ∀ as : List α, emitEach (fun a => emitEach emit (f a)) as = emitEach emit (as.flatMap f)
  | [] => rfl
  | a :: as => by rw [emitEach, emitEach_flatMap emit f as, List.flatMap_cons, emitEach_append]

/-! ## 5. The cleanup of a call -/

theorem dropSlotInCleanup_emits (b : DropBuilder) (slot : ScopeDropSlot) :
    Emits (cleanupUpkeep T b)
      (dropSlotInCleanup T.tt T.typeNeedsDropGlue T.rootTy slot)
      (fun env => slotDrops T env slot (b.getSlotState slot)) := by
  unfold dropSlotInCleanup
  cases hg : slotHasDropGlue T.typeNeedsDropGlue T.rootTy slot with
  | false => exact Emits.nil.congr fun env => (slotDrops_of_noGlue hg).symm
  | true =>
    intro c code c' hc h
    obtain ⟨c₀, _, h₀, h⟩ := build_bind.mp h
    cases h₀
    rw [hc.2.getSlotState] at h
    exact dropInCleanup_emits b slot _ c code c' hc h

theorem emitUnwindCleanup_emits (b : DropBuilder) :
    Emits (cleanupUpkeep T b)
      (emitUnwindCleanup T.tt T.typeNeedsDropGlue T.rootTy)
      (fun env => cleanupDrops T env b.getSlotState b.scheduled) := by
  intro c code c' hc h
  obtain ⟨c₀, _, h₀, h⟩ := build_bind.mp h
  cases h₀
  have hslots : c.scopeStack.reverse.flatMap (fun scope => scope.dropSlots.reverse) =
      b.scheduled.reverse := by
    rw [← hc.2.scheduled, DropBuilder.scheduled, List.reverse_flatMap]
    rfl
  rw [emitEach_flatMap, hslots] at h
  exact Emits.each (fun slot _ => dropSlotInCleanup_emits b slot) c code c' hc h

/-- The cleanup that a call has of its own drops what the shared chain drops: the initialised parts
    of all scheduled slots, the slot scheduled last first. -/
theorem unwindOfCall_agrees {b b₁ b₂ : DropBuilder} {a₁ a₂ : UnwindAction}
    (hb : Reached T b)
    (h₁ : unwindOfCall T.tt T.typeNeedsDropGlue T.rootTy b = .ok (a₁, b₁))
    (h₂ : makeUnwindAction T.tt T.typeNeedsDropGlue T.rootTy none b₁ = .ok (a₂, b₂)) :
    ∃ own chain, a₁ = .cleanup own ∧ a₂ = .cleanup chain ∧ ∀ env,
      Unwinds env b₂.blocks own
        (cleanupDrops T env b.getSlotState b.scheduled) ∧
      Unwinds env b₂.blocks chain
        (cleanupDrops T env b.getSlotState b.scheduled) := by
  obtain ⟨code, c, hcode, h₁⟩ := build_bind.mp h₁
  obtain ⟨own, c₁, hnew, h₁⟩ := build_bind.mp h₁
  cases h₁
  obtain ⟨⟨hc, hs⟩, -, hrun⟩ := emitUnwindCleanup_emits b b code c ⟨hb.cached, .refl b⟩ hcode
  obtain ⟨hown, hblock⟩ := newCleanupBlock_chained hc hnew
  obtain ⟨hchain, chain, rfl, hunwinds⟩ := makeUnwindAction_unwinds hown.cached h₂
  have hsame := hs.trans hown.same
  refine ⟨own, chain, rfl, rfl, fun env => ⟨?_, ?_⟩⟩
  · have hdrops := (hrun env).1
    dsimp only at hdrops
    rw [← hdrops]
    exact (Unwinds.last hblock).mono hchain.more
  · have hall : b.scheduled.filter (notConsumed none) = b.scheduled :=
      List.filter_eq_self.mpr fun _ _ => rfl
    have hrest := hunwinds env
    rwa [hsame.getSlotState, hsame.scheduled, hall] at hrest

/-- A pair, of which the second field was moved out, and a value under a flag, in two scopes. -/
def twoScopes : DropBuilder where
  slotStates slot := if slot.index = 0 then .partialOf [.valid, .invalid .moved]
    none else .optional 0
  frozenExitStates := none
  scopeStack := [.owning [⟨false, 0⟩], .split, .owning [⟨false, 1⟩]]
  codeSaveStack := []
  locals := 2
  blocks := []
  unwindResumeBlock := none
  unwindDropNodes := []
  unwindStateNodes := []

theorem two_fresh : Fresh twoScopes := ⟨rfl, rfl, rfl, rfl⟩

def scopeTypes : BodyTypes Bool where
  tt := ⟨fun pair => if pair then .tuple [false, false] else .plain⟩
  typeNeedsDropGlue _ := true
  rootTy
    | .slot slot => slot.index = 0
    | _ => false

theorem unwindOfCall_agrees_pair : ∃ a₁ b₁ a₂ b₂,
    unwindOfCall scopeTypes.tt scopeTypes.typeNeedsDropGlue scopeTypes.rootTy twoScopes =
      .ok (a₁, b₁) ∧
    makeUnwindAction scopeTypes.tt scopeTypes.typeNeedsDropGlue scopeTypes.rootTy none b₁ =
      .ok (a₂, b₂) ∧
    ∃ own chain, a₁ = .cleanup own ∧ a₂ = .cleanup chain ∧ ∀ env,
      Unwinds env b₂.blocks own (cleanupDrops scopeTypes env
        twoScopes.getSlotState twoScopes.scheduled) ∧
      Unwinds env b₂.blocks chain (cleanupDrops scopeTypes env
        twoScopes.getSlotState twoScopes.scheduled) :=
  ⟨_, _, _, _, rfl, rfl, unwindOfCall_agrees (.start two_fresh) rfl rfl⟩

end Source

end Trustme.Lowering
