/-
  Subject:   The drops at the end of scopes and at early exits, and what each of them unwinds to.

  * `dropSlots_drops`: slots dropped one after the other: each unwinds to the drops of the others;
  * `terminateScopeEarly_unwinds`, `terminateScopeEarly_once`: the exit out of several scopes;
  * `body_cached`: whatever the lowering asks of the builder, the shared cleanup nodes stay right.
-/
import Mathlib.Logic.Relation
import Trustme.Lowering.CleanupChains

namespace Trustme.Lowering

section Source

variable {Ty : Type} {T : BodyTypes Ty}

/-! ## 1. Drops of slots -/

/-- The states when the slots have been dropped. -/
def dropAll (done : List ScopeDropSlot) (states : ScopeDropSlot → VarState) :
    ScopeDropSlot → VarState :=
  fun s => if s ∈ done then (states s).dropped else states s

theorem dropped_isInvalid (state : VarState) : state.dropped.isInvalid = true := by
  cases state <;> rfl

theorem dropped_dropped (state : VarState) : state.dropped.dropped = state.dropped := by
  cases state <;> rfl

theorem dropAll_dropAll {done done' all : List ScopeDropSlot}
    (h : ∀ s, s ∈ all ↔ s ∈ done ∨ s ∈ done') (states : ScopeDropSlot → VarState) :
    dropAll done (dropAll done' states) = dropAll all states := by
  funext s
  have hs := h s
  by_cases hd : s ∈ done <;> by_cases hd' : s ∈ done' <;>
    simp [dropAll, hd, hd', hs, dropped_dropped]

theorem getSlotState_setSlotState (b : DropBuilder) (slot : ScopeDropSlot) (state : VarState) :
    (b.setSlotState slot state).getSlotState =
      fun s => if s = slot then state else b.getSlotState s := by
  funext s
  unfold DropBuilder.setSlotState DropBuilder.getSlotState
  cases b.frozenExitStates with
  | none => rfl
  | some states => by_cases hs : s = slot <;> simp [hs]

variable {slot : ScopeDropSlot}

theorem root_of_mem_slotDrops {env : DropEnv} {state : VarState} {d : Dropped}
    (h : d ∈ slotDrops T env slot state) :
    d.root = .slot slot := by
  obtain ⟨q, -, rfl⟩ := List.mem_map.mp h
  rfl

variable (T) in
/-- The upkeep of the drop of a slot whose state is set before: each of its drops unwinds to the
    drops of the scheduled slots. -/
def chainUpkeep (b : DropBuilder) (slot : ScopeDropSlot) : Upkeep where
  inv c := Reached T c ∧ SameStates b c
  good c root a := root = .slot slot → ∃ block, a = .cleanup block ∧ ∀ env,
    Unwinds env c.blocks block
      (cleanupDrops T env b.getSlotState b.scheduled)
  inv_locals _ _ h := ⟨.other h.1 rfl rfl rfl rfl, h.2.trans ⟨rfl, rfl, rfl⟩⟩
  good_mono _ _ _ _ hp h hroot := by
    obtain ⟨block, hblock, hrun⟩ := h hroot
    exact ⟨block, hblock, fun env => (hrun env).mono hp⟩

variable {b b' : DropBuilder}

theorem makeUnwindAction_unwindsWell (hslot : (b.getSlotState slot).isInvalid = true) :
    UnwindsWell (chainUpkeep T b slot)
      (fun val => makeUnwindAction T.tt T.typeNeedsDropGlue T.rootTy (some val)) := by
  intro val c a c' hc h
  obtain ⟨hchain, block, hblock, hrun⟩ := makeUnwindAction_unwinds hc.1.cached h
  refine ⟨⟨.chain hc.1 h, hc.2.trans hchain.same⟩, hchain.more, fun hroot => ?_⟩
  refine ⟨block, hblock, fun env => ?_⟩
  -- the value itself is a part of the slot, whose state is invalid by now
  rw [cleanupDrops_filter (fun s _ _ => rfl) (fun s _ hs => ?_)]
  · have hunwinds := hrun env
    rwa [hc.2.getSlotState, hc.2.scheduled] at hunwinds
  · simp only [notConsumed, bne_eq_false_iff_eq, Option.some.injEq] at hs
    subst hs
    cases hroot
    exact hslot

variable (T) in
/-- Code that drops the slots, one after the other. -/
structure DropsSlots (b b' : DropBuilder) (code : List DropStep) (slots : List ScopeDropSlot) :
    Prop where
  reached : Reached T b'
  more : b.blocks <+: b'.blocks
  scopeStack : b'.scopeStack = b.scopeStack
  states : b'.getSlotState = dropAll slots b.getSlotState
  frozen : b.frozenExitStates.isSome = true → b'.slotStates = b.slotStates
  stays : b'.frozenExitStates.isSome = b.frozenExitStates.isSome
  drops : ∀ env, (runSteps env code).map Event.dropped =
    slots.flatMap fun s => slotDrops T env s (b.getSlotState s)
  unwinds : ∀ env before slot after, slots = before ++ slot :: after →
    ∀ e ∈ runSteps env code, e.dropped.root = .slot slot → ∃ block, e.unwind = .cleanup block ∧
      Unwinds env b'.blocks block (cleanupDrops T env
        (dropAll (slot :: before) b.getSlotState) b.scheduled)

theorem DropsSlots.root {b b' : DropBuilder} {code : List DropStep} {slots : List ScopeDropSlot}
    (h : DropsSlots T b b' code slots) {env : DropEnv} {e : Event}
    (he : e ∈ runSteps env code) : ∃ s ∈ slots, e.dropped.root = .slot s := by
  have hmem : e.dropped ∈ (runSteps env code).map Event.dropped := List.mem_map_of_mem he
  rw [h.drops] at hmem
  obtain ⟨s, hs, hd⟩ := List.mem_flatMap.mp hmem
  exact ⟨s, hs, root_of_mem_slotDrops hd⟩

theorem dropSlot_drops {code : List DropStep} (hb : Reached T b)
    (h : dropSlot T.tt T.typeNeedsDropGlue T.rootTy slot b = .ok (code, b')) :
    DropsSlots T b b' code [slot] := by
  obtain ⟨b₀, _, h₀, h⟩ := build_bind.mp h
  cases h₀
  obtain ⟨_, b₁, h₁, h⟩ := build_bind.mp h
  cases h₁
  have hstates : (b.setSlotState slot (b.getSlotState slot).dropped).getSlotState =
      dropAll [slot] b.getSlotState := by
    rw [getSlotState_setSlotState]
    funext s
    by_cases hs : s = slot <;> simp [dropAll, hs]
  have hinvalid :
    ((b.setSlotState slot (b.getSlotState slot).dropped).getSlotState slot).isInvalid =
      true := by
    simp [getSlotState_setSlotState, dropped_isInvalid]
  obtain ⟨⟨hr, hs⟩, hp, hrun⟩ := dropValueFromState_emits (makeUnwindAction_unwindsWell hinvalid) _
    (.ofSlot slot) _ code b' ⟨hb.setSlotState slot _, .refl _⟩ h
  have hset (state : VarState) : (b.setSlotState slot state).blocks = b.blocks ∧
      (b.setSlotState slot state).scopeStack = b.scopeStack ∧
      (b.setSlotState slot state).frozenExitStates.isSome = b.frozenExitStates.isSome ∧
      (b.frozenExitStates.isSome = true → (b.setSlotState slot state).slotStates =
        b.slotStates) := by
    unfold DropBuilder.setSlotState
    cases b.frozenExitStates with
    | none => exact ⟨rfl, rfl, rfl, nofun⟩
    | some states => exact ⟨rfl, rfl, rfl, fun _ => rfl⟩
  obtain ⟨hblocks, hstack, hfrozen, hkept⟩ := hset (b.getSlotState slot).dropped
  refine ⟨hr, hblocks ▸ hp, hs.scopeStack.trans hstack, hs.getSlotState.trans hstates,
    fun hf => hs.slotStates.trans (hkept hf), by rw [hs.frozenExitStates, hfrozen], fun env => ?_,
    fun env before slot' after hslots e he hroot => ?_⟩
  · rw [List.flatMap_singleton]
    exact (hrun env).1
  · cases before with
    | nil =>
      cases hslots
      obtain ⟨block, hblock, hunwinds⟩ := (hrun env).2 e he hroot
      refine ⟨block, hblock, ?_⟩
      have hrest := hunwinds env
      rwa [hstates, DropBuilder.scheduled, hstack] at hrest
    | cons s before => cases before <;> cases hslots

/-- Slots dropped one after the other: each of them unwinds to the drops of those that are left. -/
theorem dropSlots_drops : ∀ {slots : List ScopeDropSlot} {b b' : DropBuilder}
    {code : List DropStep}, slots.Nodup → Reached T b →
      emitEach (dropSlot T.tt T.typeNeedsDropGlue T.rootTy) slots b = .ok (code, b') →
      DropsSlots T b b' code slots
  | [], b, b', code, _, hb, h => by
    cases build_pure.mp h
    refine ⟨hb, List.prefix_refl _, rfl, ?_, fun _ => rfl, rfl, fun env => rfl,
      fun env before slot after hslots => ?_⟩
    · funext s
      simp [dropAll]
    · simp at hslots
  | slot :: slots, b, b', code, hnodup, hb, h => by
    obtain ⟨code₁, b₁, h₁, h⟩ := build_bind.mp h
    obtain ⟨code₂, b₂, h₂, h⟩ := build_bind.mp h
    cases h
    obtain ⟨hslot, hrest⟩ := List.nodup_cons.mp hnodup
    have first := dropSlot_drops hb h₁
    have rest := dropSlots_drops hrest first.reached h₂
    refine ⟨rest.reached, first.more.trans rest.more, rest.scopeStack.trans first.scopeStack, ?_,
      fun hf => (rest.frozen (first.stays ▸ hf)).trans (first.frozen hf),
      rest.stays.trans first.stays, fun env => ?_, fun env before s after hslots e he hroot => ?_⟩
    · rw [rest.states, first.states]
      exact dropAll_dropAll (by simp [or_comm]) _
    · rw [runSteps_append, List.map_append, first.drops, rest.drops, List.flatMap_singleton,
        List.flatMap_cons]
      congr 1
      refine List.flatMap_congr fun s hs => ?_
      rw [first.states, dropAll, if_neg]
      rw [List.mem_singleton]
      rintro rfl
      exact hslot hs
    · rw [runSteps_append] at he
      cases before with
      | nil =>
        cases hslots
        rcases List.mem_append.mp he with he | he
        · obtain ⟨block, hblock, hunwinds⟩ := first.unwinds env [] slot [] rfl e he hroot
          exact ⟨block, hblock, hunwinds.mono rest.more⟩
        · obtain ⟨s, hs, hroot'⟩ := rest.root he
          rw [hroot] at hroot'
          cases hroot'
          exact absurd hs hslot
      | cons s₀ before =>
        cases hslots
        rcases List.mem_append.mp he with he | he
        · obtain ⟨s', hs', hroot'⟩ := first.root he
          rw [hroot] at hroot'
          cases hroot'
          cases List.mem_singleton.mp hs'
          exact absurd (List.mem_append_right before List.mem_cons_self) hslot
        · obtain ⟨block, hblock, hunwinds⟩ := rest.unwinds env before s after rfl e he hroot
          refine ⟨block, hblock, ?_⟩
          have hall : ∀ t, t ∈ s :: slot :: before ↔ t ∈ s :: before ∨ t ∈ [slot] := by
            intro t
            simp only [List.mem_cons, List.not_mem_nil, or_false]
            tauto
          rwa [first.states, DropBuilder.scheduled, first.scopeStack,
            dropAll_dropAll hall] at hunwinds

/-! ## 2. The exit out of several scopes -/

/-- The slots of the scopes from the one in place `n` of the stack on, in the order in which an exit
    out of them drops them. -/
def exitSlots (b : DropBuilder) (n : Nat) : List ScopeDropSlot :=
  ((b.scopeStack.drop n).flatMap Scope.dropSlots).reverse

theorem dropScopes_eq (b : DropBuilder) (n : Nat) :
    emitEach (dropScopeValues T.tt T.typeNeedsDropGlue T.rootTy) (b.scopeStack.drop n).reverse =
      emitEach (dropSlot T.tt T.typeNeedsDropGlue T.rootTy) (exitSlots b n) := by
  rw [exitSlots, List.reverse_flatMap]
  exact emitEach_flatMap _ _ _

/-- An exit drops the slots, and leaves their states as they were where it is one of many. -/
theorem terminateScopeEarly_drops {code : List DropStep} {n : Nat} (hb : Reached T b)
    (hnodup : (exitSlots b n).Nodup)
    (h : terminateScopeEarly T.tt T.typeNeedsDropGlue T.rootTy n b = .ok (code, b')) :
    ∃ b₁ b₂, b₁.getSlotState = b.getSlotState ∧ b₁.scheduled = b.scheduled ∧
      b₂.blocks = b'.blocks ∧ DropsSlots T b₁ b₂ code (exitSlots b n) ∧
      b'.getSlotState = if (b.scopeStack.drop n).any Scope.keepsStates then b.getSlotState
        else dropAll (exitSlots b n) b.getSlotState := by
  obtain ⟨b₀, _, h₀, h⟩ := build_bind.mp h
  cases h₀
  rw [dropScopes_eq] at h
  split at h
  · rename_i hkeeps
    split at h
    · exact absurd h build_bug
    · rename_i hfrozen
      rw [Option.isSome_iff_ne_none, not_not] at hfrozen
      obtain ⟨_, b₁, h₁, h⟩ := build_bind.mp h
      cases h₁
      obtain ⟨code', b₂, h₂, h⟩ := build_bind.mp h
      cases h
      have hreached : Reached T
          { b with frozenExitStates := some fun _ => none } := .other hb rfl rfl rfl rfl
      have hdrops := dropSlots_drops hnodup hreached h₂
      have hsame : DropBuilder.getSlotState { b with frozenExitStates := some fun _ => none } =
          b.getSlotState := by
        funext s
        simp [DropBuilder.getSlotState, hfrozen]
      refine ⟨_, b₂, hsame, rfl, rfl, hdrops, ?_⟩
      rw [if_pos hkeeps]
      funext s
      simp [DropBuilder.getSlotState, hfrozen, hdrops.frozen rfl]
  · rename_i hkeeps
    have hdrops := dropSlots_drops hnodup hb h
    exact ⟨b, b', rfl, rfl, rfl, hdrops, by rw [if_neg hkeeps]; exact hdrops.states⟩

theorem exitSlots_sublist (b : DropBuilder) (n : Nat) :
    (exitSlots b n).reverse.Sublist b.scheduled := by
  rw [exitSlots, List.reverse_reverse, DropBuilder.scheduled]
  conv_rhs => rw [← List.take_append_drop n b.scopeStack, List.flatMap_append]
  exact List.sublist_append_right _ _

theorem exitSlots_nodup (h : b.scheduled.Nodup) (n : Nat) :
    (exitSlots b n).Nodup :=
  List.nodup_reverse.mp (h.sublist (exitSlots_sublist b n))

/-- An early exit out of several scopes drops the initialised parts of their slots, the slot that
    was scheduled last first, and each of these drops unwinds to a cleanup that drops the
    initialised parts of the scheduled slots that are not dropped by then, in that order too. -/
theorem terminateScopeEarly_unwinds {b b' : DropBuilder} {code : List DropStep} {n : Nat}
    (hb : Reached T b) (hnodup : b.scheduled.Nodup)
    (h : terminateScopeEarly T.tt T.typeNeedsDropGlue T.rootTy n b = .ok (code, b'))
      (env : DropEnv) :
    (runSteps env code).map Event.dropped = ((exitSlots b n).flatMap fun s =>
        slotDrops T env s (b.getSlotState s)) ∧
      ∀ before slot after, exitSlots b n = before ++ slot :: after →
        ∀ e ∈ runSteps env code, e.dropped.root = .slot slot →
          ∃ block, e.unwind = .cleanup block ∧ Unwinds env b'.blocks block
            (cleanupDrops T env b.getSlotState
              (b.scheduled.filter fun s => !(slot :: before).contains s)) := by
  obtain ⟨b₁, b₂, hstates, hscheduled, hblocks, hdrops, -⟩ :=
    terminateScopeEarly_drops hb (exitSlots_nodup hnodup n) h
  refine ⟨by rw [hdrops.drops, hstates], fun before slot after hslots e he hroot => ?_⟩
  obtain ⟨block, hblock, hunwinds⟩ := hdrops.unwinds env before slot after hslots e he hroot
  refine ⟨block, hblock, ?_⟩
  have hleft : cleanupDrops T env (dropAll (slot :: before) b.getSlotState)
      b.scheduled = cleanupDrops T env b.getSlotState
        (b.scheduled.filter fun s => !(slot :: before).contains s) := by
    refine cleanupDrops_filter (fun s _ hs => ?_) (fun s _ hs => ?_)
    · rw [dropAll, if_neg (by simpa using hs)]
    · rw [Bool.not_eq_false', List.contains_iff_mem] at hs
      rw [dropAll, if_pos hs]
      exact dropped_isInvalid _
  rwa [hstates, hscheduled, hblocks, hleft] at hunwinds

theorem terminateScopeEarly_unwinds_pair : ∃ code b',
    terminateScopeEarly scopeTypes.tt scopeTypes.typeNeedsDropGlue scopeTypes.rootTy 0 twoScopes =
      .ok (code, b') ∧ ∀ env,
      (runSteps env code).map Event.dropped = (exitSlots twoScopes 0).flatMap fun s =>
        slotDrops scopeTypes env s (twoScopes.getSlotState s) :=
  ⟨_, _, rfl, fun env =>
    (terminateScopeEarly_unwinds (.start two_fresh) (by decide) rfl env).1⟩

/-- How many of the drops take the place in the slot. -/
def dropsOf (ds : List Dropped) (slot : ScopeDropSlot) (p : SubPlace) : Nat :=
  ds.countP fun d => d.root == .slot slot && Part.covers d.kind d.path p

theorem dropsOf_append (ds es : List Dropped) (slot : ScopeDropSlot) (p : SubPlace) :
    dropsOf (ds ++ es) slot p = dropsOf ds slot p + dropsOf es slot p := List.countP_append

theorem dropsOf_slotDrops (env : DropEnv) (slot s : ScopeDropSlot) (state : VarState)
    (p : SubPlace) :
    dropsOf (slotDrops T env s state) slot p =
      if s = slot then
        Part.count (state.parts T.tt T.typeNeedsDropGlue env (.slot slot)
          (T.rootTy (.slot slot)) []) p
      else 0 := by
  unfold dropsOf slotDrops placed
  rw [List.countP_map]
  split
  · rename_i hs
    subst hs
    refine List.countP_congr fun q _ => ?_
    simp
  · rename_i hs
    refine List.countP_eq_zero.mpr fun q _ => ?_
    simp [hs]

theorem dropsOf_slots {env : DropEnv} {states : ScopeDropSlot → VarState} {slot : ScopeDropSlot}
    {p : SubPlace} : ∀ {slots : List ScopeDropSlot}, slots.Nodup →
      dropsOf (slots.flatMap fun s => slotDrops T env s (states s)) slot p =
        if slot ∈ slots then Part.count ((states slot).parts T.tt T.typeNeedsDropGlue env
          (.slot slot) (T.rootTy (.slot slot)) []) p else 0
  | [], _ => rfl
  | s :: slots, h => by
    obtain ⟨hs, hslots⟩ := List.nodup_cons.mp h
    rw [List.flatMap_cons, dropsOf_append, dropsOf_slotDrops, dropsOf_slots hslots]
    by_cases he : s = slot
    · subst he
      simp [hs]
    · simp [he, Ne.symm he]

/-- An early exit drops each place of the slots it leaves once if it is initialised and never if it
    is not; should one of its drops unwind, the cleanup does so with the places of all other
    scheduled slots that are not dropped by then, and with no place of one that is. -/
theorem terminateScopeEarly_once {b b' : DropBuilder} {code : List DropStep} {n : Nat}
    (hb : Reached T b) (hnodup : b.scheduled.Nodup)
    (h : terminateScopeEarly T.tt T.typeNeedsDropGlue T.rootTy n b = .ok (code, b')) {env : DropEnv}
    {slot : ScopeDropSlot} (hslot : slot ∈ b.scheduled) {p : SubPlace} {v : Bool}
    (hregular : Regular T.tt T.typeNeedsDropGlue env (.slot slot) (b.getSlotState slot)
      (T.rootTy (.slot slot)) [])
    (hneeds : NeedsDrop T.tt T.typeNeedsDropGlue (T.rootTy (.slot slot)) p)
    (hlive : Live env (.slot slot) [] p)
    (hv : (b.getSlotState slot).initialised T.tt env (T.rootTy (.slot slot)) p = some v) :
    dropsOf ((runSteps env code).map Event.dropped) slot p =
        (if slot ∈ exitSlots b n ∧ v = true then 1 else 0) ∧
      ∀ before unwinding after, exitSlots b n = before ++ unwinding :: after →
        ∀ e ∈ runSteps env code, e.dropped.root = .slot unwinding → ∃ block ds,
          e.unwind = .cleanup block ∧ Unwinds env b'.blocks block ds ∧
            dropsOf ds slot p = if slot ∉ unwinding :: before ∧ v = true then 1 else 0 := by
  obtain ⟨hdrops, hunwinds⟩ := terminateScopeEarly_unwinds hb hnodup h env
  have hcount := count_parts hregular hneeds hlive hv
  refine ⟨?_, fun before unwinding after hslots e he hroot => ?_⟩
  · rw [hdrops, dropsOf_slots (exitSlots_nodup hnodup n), hcount]
    by_cases hs : slot ∈ exitSlots b n <;> simp [hs]
  · obtain ⟨block, hblock, hrun⟩ := hunwinds before unwinding after hslots e he hroot
    refine ⟨block, _, hblock, hrun, ?_⟩
    rw [cleanupDrops, dropsOf_slots (List.nodup_reverse.mpr (hnodup.filter _)), hcount]
    by_cases hs : slot ∈ unwinding :: before
    · have hout : slot ∉ b.scheduled.filter fun s => !(unwinding :: before).contains s := by
        rw [List.mem_filter, Bool.not_eq_true', ← Bool.not_eq_true, List.contains_iff_mem]
        exact fun h => h.2 hs
      rw [if_neg (by simpa [List.mem_reverse] using hout), if_neg (by simp [hs])]
    · have hin : slot ∈ b.scheduled.filter fun s => !(unwinding :: before).contains s := by
        rw [List.mem_filter, Bool.not_eq_true', ← Bool.not_eq_true, List.contains_iff_mem]
        exact ⟨hslot, hs⟩
      simp only [if_pos (List.mem_reverse.mpr hin), hs, not_false_eq_true, true_and]

theorem pair_regular (env : DropEnv) : Regular scopeTypes.tt scopeTypes.typeNeedsDropGlue env
    (.slot ⟨false, 0⟩) (twoScopes.getSlotState ⟨false, 0⟩) (scopeTypes.rootTy (.slot ⟨false, 0⟩))
    [] := by
  have hstate : twoScopes.getSlotState ⟨false, 0⟩ = .partialOf [.valid, .invalid .moved] none := rfl
  have hstruct : ¬ scopeTypes.tt.isEnum (scopeTypes.rootTy (.slot ⟨false, 0⟩)) = true := by decide
  rw [hstate, Regular]
  refine fun _ => ⟨rfl, fun h => absurd h hstruct, fun h => absurd h hstruct, fun _ => ⟨rfl, ?_⟩⟩
  simp [RegularFields, Regular]

theorem terminateScopeEarly_once_pair : ∃ code b',
    terminateScopeEarly scopeTypes.tt scopeTypes.typeNeedsDropGlue scopeTypes.rootTy 0 twoScopes =
      .ok (code, b') ∧ ∀ env,
      dropsOf ((runSteps env code).map Event.dropped) ⟨false, 0⟩ (.field 0 .here) = 1 ∧
      dropsOf ((runSteps env code).map Event.dropped) ⟨false, 0⟩ (.field 1 .here) = 0 := by
  refine ⟨_, _, rfl, fun env => ⟨?_, ?_⟩⟩
  · exact (terminateScopeEarly_once (T := scopeTypes) (n := 0) (p := .field 0 .here)
      (.start two_fresh)
      (by decide) rfl (by decide) (pair_regular env) ⟨rfl, rfl, rfl⟩ trivial rfl).1
  · exact (terminateScopeEarly_once (T := scopeTypes) (n := 0) (p := .field 1 .here)
      (.start two_fresh)
      (by decide) rfl (by decide) (pair_regular env) ⟨rfl, rfl, rfl⟩ trivial rfl).1

/-! ## 3. Whole bodies -/

variable (T) in
/-- The action leads from builders of a body to such builders. -/
def Keeps {α : Type} (x : Emit α) : Prop :=
  ∀ b a b', Reached T b → x b = .ok (a, b') →
    Reached T b'

theorem Keeps.pure {α : Type} (a : α) : Keeps T (Pure.pure a) := by
  intro b a b' hb h
  cases build_pure.mp h
  exact hb

theorem Keeps.throw {α : Type} (e : BuildError) :
    Keeps T (throw e : Emit α) := by
  intro b a b' hb h
  cases h

theorem Keeps.get : Keeps T (MonadState.get : Emit DropBuilder) := by
  intro b a b' hb h
  cases h
  exact hb

theorem Keeps.bind {α β : Type} {x : Emit α} {f : α → Emit β}
    (hx : Keeps T x) (hf : ∀ a, Keeps T (f a)) :
    Keeps T (x >>= f) := by
  intro b a b' hb h
  obtain ⟨c, b₁, h₁, h⟩ := build_bind.mp h
  exact hf c b₁ a b' (hx b c b₁ hb h₁) h

theorem Keeps.setSlotState (slot : ScopeDropSlot) (state : VarState) :
    Keeps T (setSlotState slot state) := by
  intro b a b' hb h
  cases h
  exact hb.setSlotState slot state

theorem Keeps.makeUnwindAction (consumedValue : Option LValue) :
    Keeps T
      (makeUnwindAction T.tt T.typeNeedsDropGlue T.rootTy consumedValue) :=
  fun _ _ _ hb h => .chain hb h

theorem Keeps.newCleanupBlock (code : List DropStep) (next : Option Nat) :
    Keeps T (newCleanupBlock code next) :=
  fun _ _ _ hb h => .block hb h

theorem Keeps.emitEach {α : Type} {emit : α → Emit (List DropStep)}
    (h : ∀ a, Keeps T (emit a)) :
    ∀ as, Keeps T (emitEach emit as)
  | [] => .pure _
  | a :: as => .bind (h a) fun _ => .bind (Keeps.emitEach h as) fun _ => .pure _

/-- Of a drop, whatever its terminators unwind to. -/
theorem Keeps.dropValueFromState {unwindOf : LValue → Emit UnwindAction}
    (h : ∀ val, Keeps T (unwindOf val))
    (hmore : ∀ val b a b', Reached T b → unwindOf val b = .ok (a, b') →
      b.blocks <+: b'.blocks) (state : VarState) (lv : LValue) :
    Keeps T
      (dropValueFromState T.tt T.typeNeedsDropGlue T.rootTy unwindOf state lv) := by
  let U : Upkeep := {
    inv := Reached T
    good := fun _ _ _ => True
    inv_locals := fun _ _ hc => .other hc rfl rfl rfl rfl
    good_mono := fun _ _ _ _ _ _ => trivial }
  have hu : UnwindsWell U unwindOf := fun val b a b' hb hrun =>
    ⟨h val b a b' hb hrun, hmore val b a b' hb hrun, trivial⟩
  exact fun b code b' hb hrun => (dropValueFromState_emits hu state lv b code b' hb hrun).1

theorem Keeps.dropValue (state : VarState) (lv : LValue) :
    Keeps T (dropValue T.tt T.typeNeedsDropGlue T.rootTy state lv) :=
  .dropValueFromState (fun _ => .makeUnwindAction _)
    (fun _ _ _ _ hb h => (makeUnwindAction_unwinds hb.cached h).1.more) state lv

theorem Keeps.dropSlot (slot : ScopeDropSlot) :
    Keeps T (dropSlot T.tt T.typeNeedsDropGlue T.rootTy slot) :=
  .bind .get fun _ => .bind (.setSlotState _ _) fun _ => .dropValue _ _

theorem Keeps.dropScopeValues (scope : Scope) :
    Keeps T (dropScopeValues T.tt T.typeNeedsDropGlue T.rootTy scope) :=
  .emitEach .dropSlot _

theorem Keeps.terminateScope :
    Keeps T (terminateScope T.tt T.typeNeedsDropGlue T.rootTy) := by
  refine .bind .get fun b => ?_
  split
  · exact .throw _
  · refine .bind (.dropScopeValues _) fun code => .bind (fun c a c' hc h => ?_) fun _ => .pure code
    cases h
    exact .other hc rfl rfl rfl rfl

theorem Keeps.terminateScopeEarly (n : Nat) :
    Keeps T (terminateScopeEarly T.tt T.typeNeedsDropGlue T.rootTy n) := by
  intro b code b' hb h
  obtain ⟨b₀, _, h₀, h⟩ := build_bind.mp h
  cases h₀
  rw [dropScopes_eq] at h
  split at h
  · split at h
    · exact absurd h build_bug
    · obtain ⟨_, b₁, h₁, h⟩ := build_bind.mp h
      cases h₁
      obtain ⟨code', b₂, h₂, h⟩ := build_bind.mp h
      cases h
      have hfrozen : Reached T { b with frozenExitStates := some fun _ => none } :=
        .other hb rfl rfl rfl rfl
      exact .other (Keeps.emitEach .dropSlot _ _ code b₂ hfrozen h₂) rfl rfl rfl rfl
  · exact Keeps.emitEach .dropSlot _ b code b' hb h

theorem Keeps.unwindOfCall :
    Keeps T (unwindOfCall T.tt T.typeNeedsDropGlue T.rootTy) := by
  have hslot (slot : ScopeDropSlot) : Keeps T
      (dropSlotInCleanup T.tt T.typeNeedsDropGlue T.rootTy slot) := by
    unfold dropSlotInCleanup
    split
    · exact .pure _
    · refine .bind .get fun b => .dropValueFromState (fun _ => .pure _) (fun _ c a c' _ h => ?_) _ _
      cases build_pure.mp h
      exact List.prefix_refl _
  exact .bind (.bind .get fun _ => .emitEach (fun _ => .emitEach hslot _) _) fun _ =>
    .bind (.newCleanupBlock _ _) fun _ => .pure _

theorem Keeps.getValStateMutP (lv : LValue) (expectValid : Bool) :
    Keeps T (getValStateMutP T.tt T.rootTy lv expectValid) := by
  unfold Lowering.getValStateMutP
  split
  · exact .throw _
  · exact .pure _
  · refine .bind .get fun b => ?_
    dsimp only
    split
    · exact .pure _
    · split
      · exact .throw _
      · exact .bind (.setSlotState _ _) fun _ => .pure _
      · exact .bind (.setSlotState _ _) fun _ => .pure _

theorem Keeps.markValueAssignedState (dst : LValue) (newState : VarState) :
    Keeps T
      (markValueAssignedState T.tt T.typeNeedsDropGlue T.rootTy dst newState) := by
  unfold Lowering.markValueAssignedState
  split
  · split
    · exact .pure _
    · exact .throw _
  · refine .bind (.getValStateMutP _ _) fun part => ?_
    split
    · exact .dropValue _ _
    · split
      · exact .throw _
      · exact .bind (.setSlotState _ _) fun _ => .bind (.dropValue _ _) fun _ =>
          .bind (.setSlotState _ _) fun _ => .pure _

theorem Keeps.assignReplacing (dst rhs : LValue) :
    Keeps T (assignReplacing T.tt T.typeNeedsDropGlue T.rootTy dst rhs) := by
  unfold Lowering.assignReplacing
  split
  · exact .pure _
  · refine .bind (.getValStateMutP _ _) fun dstState => ?_
    split
    · exact .pure _
    · refine .bind (.getValStateMutP _ _) fun part => ?_
      split
      · exact .pure _
      · split
        · exact .pure _
        · refine .bind (.setSlotState _ _) fun _ => .bind (.makeUnwindAction _) fun action => ?_
          split
          · exact .pure _
          · exact .bind (.newCleanupBlock _ _) fun _ => .pure _

theorem Keeps.dropLvalue (value : LValue) :
    Keeps T (dropLvalue T.tt T.typeNeedsDropGlue T.rootTy value) := by
  refine .bind (.getValStateMutP _ _) fun part => ?_
  split
  · exact .throw _
  · exact .bind (.setSlotState _ _) fun _ => .dropValue _ _

variable (T) in
/-- What the lowering asks of the builder. In between it opens scopes, schedules drops, changes
    states and saves code, and leaves the blocks and the tables as they are. -/
inductive BodyStep (b b' : DropBuilder) : Prop where
  | assigned {dst : LValue} {newState : VarState} {code : List DropStep} :
      markValueAssignedState T.tt T.typeNeedsDropGlue T.rootTy dst newState b = .ok (code, b') →
      BodyStep b b'
  | replaced {dst rhs : LValue} {code : Option (List DropStep)} :
      assignReplacing T.tt T.typeNeedsDropGlue T.rootTy dst rhs b = .ok (code, b') → BodyStep b b'
  | dropped {value : LValue} {code : List DropStep} :
      dropLvalue T.tt T.typeNeedsDropGlue T.rootTy value b = .ok (code, b') → BodyStep b b'
  | value {state : VarState} {lv : LValue} {code : List DropStep} :
      dropValue T.tt T.typeNeedsDropGlue T.rootTy state lv b = .ok (code, b') → BodyStep b b'
  | called {a : UnwindAction} :
      unwindOfCall T.tt T.typeNeedsDropGlue T.rootTy b = .ok (a, b') → BodyStep b b'
  | scopeEnd {code : List DropStep} :
      terminateScope T.tt T.typeNeedsDropGlue T.rootTy b = .ok (code, b') → BodyStep b b'
  | earlyExit {n : Nat} {code : List DropStep} :
      terminateScopeEarly T.tt T.typeNeedsDropGlue T.rootTy n b = .ok (code, b') → BodyStep b b'
  | armEnd {code : List DropStep} :
      endSplitArmEarly T.tt T.typeNeedsDropGlue T.rootTy b = .ok (code, b') → BodyStep b b'
  | other : b'.blocks = b.blocks → b'.unwindResumeBlock = b.unwindResumeBlock →
      b'.unwindDropNodes = b.unwindDropNodes → b'.unwindStateNodes = b.unwindStateNodes →
      BodyStep b b'

theorem BodyStep.reached (hb : Reached T b) (h : BodyStep T b b') :
    Reached T b' := by
  cases h with
  | assigned h => exact Keeps.markValueAssignedState _ _ _ _ _ hb h
  | replaced h => exact Keeps.assignReplacing _ _ _ _ _ hb h
  | dropped h => exact Keeps.dropLvalue _ _ _ _ hb h
  | value h => exact Keeps.dropValue _ _ _ _ _ hb h
  | called h => exact Keeps.unwindOfCall _ _ _ hb h
  | scopeEnd h => exact Keeps.terminateScope _ _ _ hb h
  | earlyExit h => exact Keeps.terminateScopeEarly _ _ _ _ hb h
  | armEnd h => exact Keeps.bind .get (fun _ => .emitEach .dropScopeValues _) _ _ _ hb h
  | other hb' hr hd hs => exact .other hb hb' hr hd hs

/-- **The tables of shared cleanup nodes are right in every run**: each node is a block that drops
    what its state says of its slot and goes on at its continuation. -/
theorem body_cached {b b' : DropBuilder} (hb : Fresh b)
    (h : Relation.ReflTransGen (BodyStep T) b b') : Reached T b' ∧ Cached T b' := by
  suffices hreached : Reached T b' from ⟨hreached, hreached.cached⟩
  induction h with
  | refl => exact .start hb
  | tail _ hstep ih => exact hstep.reached ih

theorem body_cached_pair : ∃ b', Relation.ReflTransGen (BodyStep scopeTypes) twoScopes b' ∧
    b'.unwindStateNodes ≠ [] ∧ Reached scopeTypes b' ∧ Cached scopeTypes b' := by
  have hrun : Relation.ReflTransGen (BodyStep scopeTypes) twoScopes _ :=
    .single (.earlyExit (n := 0) rfl)
  exact ⟨_, hrun, List.cons_ne_nil _ _, body_cached two_fresh hrun⟩

end Source

end Trustme.Lowering
