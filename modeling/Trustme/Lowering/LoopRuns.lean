/-
  Subject:   Runs through a loop: what the heads say whenever the loop block is reached, on entry
             and over any number of back edges, and what the resets in front of the block do.

  * `runFlags_resetStmts`: the resets give the flags of the loop and their aliases their defaults;
  * `Loop`, `Arrival`, `LoopRun`: a loop as it is lowered, and a run that meets the condition at
    every back edge;
  * `loopHeads_exact`: at every arrival;
  * `writeLoopHead_second_lost`: a struct with two flags that is not told exactly.
-/
import Trustme.Lowering.LoopEdges

namespace Trustme.Lowering

open Lib (OrdMap Source Touches emitted runWrites)

/-! ## 1. The resets -/

theorem default_eq_of_touches {b : Builder} (hb : b.WF) {x y : DropFlag}
    (h : Touches b.mirrors x y) : b.default y = b.default x := by
  rcases (touches_iff hb).mp h with rfl | hm
  · rfl
  · clear h
    induction hm with
    | single h => exact hb.alike _ h
    | tail _ h ih => exact (hb.alike _ h).trans ih

theorem runWrites_defaults {b : Builder} (hb : b.WF) (y : DropFlag) : ∀ (xs : List DropFlag)
    (ρ : DropFlag → Bool),
    runWrites b.mirrors (xs.map fun x => (x, .const (b.default x))) ρ y =
      if ∃ x ∈ xs, Touches b.mirrors x y then b.default y else ρ y
  | [], ρ => by simp
  | x :: xs, ρ => by
    rw [List.map_cons, Lib.runWrites_cons, runWrites_defaults hb y xs]
    by_cases hxs : ∃ x ∈ xs, Touches b.mirrors x y
    · rw [if_pos hxs, if_pos (hxs.imp fun z hz => ⟨List.mem_cons_of_mem _ hz.1, hz.2⟩)]
    · rw [if_neg hxs]
      by_cases hx : Touches b.mirrors x y
      · rw [Lib.write_of_touched hx, if_pos ⟨x, List.mem_cons_self, hx⟩,
          default_eq_of_touches hb hx]
        rfl
      · rw [Lib.write_of_not_touched hx, if_neg]
        rintro ⟨z, hz, hzy⟩
        rcases List.mem_cons.mp hz with rfl | hz
        · exact hx hzy
        · exact hxs ⟨z, hz, hzy⟩

theorem runFlags_resetStmts {b : Builder} (hb : b.WF) (dropFlags : List DropFlag)
    (ρ : DropFlag → Bool) (y : DropFlag) :
    runFlags (b.finalCleanup (resetStmts b dropFlags)) ρ y =
      if ∃ x ∈ dropFlags, Touches b.mirrors x y then b.default y else ρ y := by
  have hstmts : resetStmts b dropFlags =
      (dropFlags.reverse.map fun x => ((x, .const (b.default x)) :
        DropFlag × Source DropFlag Bool)).map
        stmtOf := by
    rw [List.map_map]
    rfl
  rw [hstmts, runFlags_finalCleanup, runWrites_defaults hb]
  simp only [List.mem_reverse]

/-! ## 2. Runs -/

section Runs

variable {Ty : Type}

/-- A loop as it is lowered: the slots before it, the heads, the builder before and behind
    `enterLoopHeads`, the builder when the body is done, and the flags of the loop scope. -/
structure Loop (Ty : Type) where
  slots : Slots Ty
  heads : LoopHeads
  before : Builder
  opened : Builder
  final : Builder
  dropFlags : List DropFlag

/-- The slots with other states. -/
def Slots.withStates (slots : Slots Ty) (states : SlotType → Nat → VarState) : Slots Ty :=
  { slots with getSlotState := states }

/-- The statements an action adds to the block. -/
def emittedBy (x : Build Unit) (b : Builder) : List SetDropFlag :=
  match x b with
  | .ok (_, b') => b'.statements.drop b.statements.length
  | .error _ => []

/-- The loop block is reached: the states and flag values a path brings, the builder at the back
    edge if it is one, the values behind the statements for the heads, and those behind the
    resets. -/
structure Arrival where
  states : SlotType → Nat → VarState
  before : DropFlag → Bool
  edge : Option Builder
  told : DropFlag → Bool
  values : DropFlag → Bool

variable (tt : TypeTable Ty) (typeNeedsDropGlue : Ty → Bool)

namespace Loop

variable (L : Loop Ty)

def reset (ρ : DropFlag → Bool) : DropFlag → Bool :=
  runFlags (L.final.finalCleanup (resetStmts L.final L.dropFlags)) ρ

/-- The loop is entered with the flag values `ρ`. -/
def enter (ρ : DropFlag → Bool) : Arrival :=
  let told := runFlags
    (L.final.finalCleanup (L.opened.statements.drop L.before.statements.length)) ρ
  ⟨L.slots.getSlotState, ρ, none, told, L.reset told⟩

/-- A back edge with the flag values `ρ`. -/
def back (b : Builder) (states : SlotType → Nat → VarState) (ρ : DropFlag → Bool) : Arrival :=
  let told := runFlags (L.final.finalCleanup
    (emittedBy (writeLoopHeads tt typeNeedsDropGlue (L.slots.withStates states) L.heads) b)) ρ
  ⟨states, ρ, some b, told, L.reset told⟩

/-- The meetings of all heads and the states at a back edge. -/
def meetings (states : SlotType → Nat → VarState) : List Meeting :=
  L.heads.flatMap fun h => headMeetings tt typeNeedsDropGlue (L.slots.slotTy h.1.type h.1.idx) h.2
    (states h.1.type h.1.idx)

/-- A flag of the loop that stands for one from outside is reset to the value that one has. -/
def ResetsKeep (told : DropFlag → Bool) : Prop :=
  ∀ f a, (f, a) ∈ L.final.dropFlagAliases → a ∈ L.dropFlags →
    (∀ x ∈ L.dropFlags, ¬ Touches L.final.mirrors x f) → told f = L.final.default f

/-- The heads are those `enterLoopHeads` makes for the variables of the body. -/
structure Lowered (vars : List LoopVar) : Prop where
  wf : L.before.WF
  final : L.final.WF
  fits : L.slots.Fits tt L.before.dropFlags.length
  entered : enterLoopHeads tt typeNeedsDropGlue L.slots vars [] L.before = .ok (L.heads, L.opened)
  grown : Grown L.opened L.final
  own : ∀ f ∈ L.dropFlags, L.opened.dropFlags.length ≤ f

end Loop

/-- The condition on a back edge where the builder is `b`, the states are `states` and the flags
    have the values `ρ`. -/
structure BackEdge (L : Loop Ty) (b : Builder) (states : SlotType → Nat → VarState)
    (ρ : DropFlag → Bool) : Prop where
  wf : b.WF
  grown : Grown L.opened b
  final : Grown b L.final
  fits : ∀ h ∈ L.heads, tt.Fits b.dropFlags.length (L.slots.slotTy h.1.type h.1.idx)
    (states h.1.type h.1.idx)
  /-- The flags of the heads can tell the states. -/
  told : ∀ h ∈ L.heads, Told tt typeNeedsDropGlue ρ (L.slots.slotTy h.1.type h.1.idx) h.2
    (states h.1.type h.1.idx)
  /-- A flag that is set for one part is not read for another one, unless with the same value. -/
  apart : (L.meetings tt typeNeedsDropGlue states).Pairwise (Meeting.Compatible b ρ)

/-- A run through the loop, the last arrival first. -/
inductive LoopRun (L : Loop Ty) : List Arrival → Prop where
  | enter (ρ : DropFlag → Bool) (hreset : L.ResetsKeep (L.enter ρ).told) : LoopRun L [L.enter ρ]
  /-- From the loop block the path `ws` leads to a back edge. -/
  | back {a : Arrival} {as : List Arrival} (h : LoopRun L (a :: as))
      (ws : List (DropFlag × Source DropFlag Bool)) {b : Builder}
      {states : SlotType → Nat → VarState}
      (hedge : BackEdge tt typeNeedsDropGlue L b states
        (runFlags (L.final.finalCleanup (ws.map stmtOf)) a.values))
      (hreset : L.ResetsKeep (L.back tt typeNeedsDropGlue b states
        (runFlags (L.final.finalCleanup (ws.map stmtOf)) a.values)).told) :
      LoopRun L (L.back tt typeNeedsDropGlue b states
        (runFlags (L.final.finalCleanup (ws.map stmtOf)) a.values) :: a :: as)

/-- What holds when the loop block is reached. -/
structure ArrivesExactly (L : Loop Ty) (a : Arrival) : Prop where
  /-- No assertion failed. -/
  accepted : ∀ b, a.edge = some b → ∃ b', writeLoopHeads tt typeNeedsDropGlue
    (L.slots.withStates a.states) L.heads b = .ok ((), b')
  /-- The heads say of every part that needs dropping what the states of the path said. -/
  exact : ∀ h ∈ L.heads, ∀ p v w,
    NeedsDrop tt typeNeedsDropGlue (L.slots.slotTy h.1.type h.1.idx) p →
    h.2.reads a.values p = some v → (a.states h.1.type h.1.idx).reads a.before p = some w → v = w
  /-- The resets write no flag from outside the loop. -/
  kept : ∀ f, f < L.opened.dropFlags.length → a.values f = a.told f
  /-- A flag that is reset has the value of the flag it stands for. -/
  follows : ∀ f c, (f, c) ∈ L.final.dropFlagAliases → c ∈ L.dropFlags → a.values c = a.values f

end Runs

/-! ## 3. Every arrival -/

section Theorem

variable {Ty : Type} {tt : TypeTable Ty} {typeNeedsDropGlue : Ty → Bool} {L : Loop Ty}
  {vars : List LoopVar}

/-- What is set for all heads of a loop. -/
theorem writeLoopHeads_sets {B : Nat} {ρ : DropFlag → Bool} {slots : Slots Ty} :
    ∀ {heads : LoopHeads},
      (∀ h ∈ heads, Told tt typeNeedsDropGlue ρ (slots.slotTy h.1.type h.1.idx) h.2
        (slots.getSlotState h.1.type h.1.idx)) →
      (∀ h ∈ heads, tt.Fits B (slots.slotTy h.1.type h.1.idx) h.2) →
      (∀ h ∈ heads, tt.Fits B (slots.slotTy h.1.type h.1.idx)
        (slots.getSlotState h.1.type h.1.idx)) →
      Sets B ρ (writeLoopHeads tt typeNeedsDropGlue slots heads)
        (heads.flatMap fun h => headMeetings tt typeNeedsDropGlue
          (slots.slotTy h.1.type h.1.idx) h.2 (slots.getSlotState h.1.type h.1.idx))
        fun σ => ∀ h ∈ heads, Retold tt typeNeedsDropGlue ρ (slots.slotTy h.1.type h.1.idx) h.2
          (slots.getSlotState h.1.type h.1.idx) σ
  | [], _, _, _ => sets_nothing fun _ => nofun
  | h :: heads, htold, hhead, hcur => by
    rw [writeLoopHeads, List.flatMap_cons]
    have hrest := writeLoopHeads_sets
      (fun g hg => htold g (List.mem_cons_of_mem _ hg))
      (fun g hg => hhead g (List.mem_cons_of_mem _ hg))
      fun g hg => hcur g (List.mem_cons_of_mem _ hg)
    refine ((writeLoopHeadState_edge (htold h List.mem_cons_self) (hhead h List.mem_cons_self)
      (hcur h List.mem_cons_self)).andThen hrest).imp ?_
    rintro σ ⟨hfirst, hothers⟩ g hg
    rcases List.mem_cons.mp hg with rfl | hg
    · exact hfirst
    · exact hothers g hg

variable (h : L.Lowered tt typeNeedsDropGlue vars)

include h

/-- What the heads are, whatever path reaches the loop block. -/
theorem Loop.Lowered.heads_entered :
    ∃ ms, Entered tt L.slots L.before.dropFlags.length L.before L.opened L.heads ms := by
  have hopen : ∃ heads b ms, enterLoopHeads tt typeNeedsDropGlue L.slots vars [] L.before
      = .ok (heads, b) ∧ Entered tt L.slots L.before.dropFlags.length L.before b heads ms :=
    enterLoopHeads_open h.fits (Nat.le_refl _) vars [] L.before [] ⟨.nil h.wf, nofun, nofun⟩
  obtain ⟨heads, b, ms, hrun, he⟩ := hopen
  cases h.entered.symm.trans hrun
  exact ⟨ms, he⟩

/-- The resets keep what was told. -/
theorem Loop.Lowered.arrives {a : Arrival}
    (hvalues : a.values = L.reset a.told) (hreset : L.ResetsKeep a.told)
    (haccepted : ∀ b, a.edge = some b → ∃ b', writeLoopHeads tt typeNeedsDropGlue
      (L.slots.withStates a.states) L.heads b = .ok ((), b'))
    (htold : ∀ g ∈ L.heads, Retold tt typeNeedsDropGlue a.before (L.slots.slotTy g.1.type g.1.idx)
      g.2 (a.states g.1.type g.1.idx) a.told) : ArrivesExactly tt typeNeedsDropGlue L a := by
  obtain ⟨ms, he⟩ := h.heads_entered
  have hkept : ∀ f, f < L.opened.dropFlags.length → a.values f = a.told f := by
    intro f hf
    rw [hvalues, Loop.reset, runFlags_resetStmts h.final, if_neg]
    rintro ⟨x, hx, ht⟩
    exact absurd (Nat.lt_of_le_of_lt (Nat.le_trans (h.own x hx) (le_of_touches h.final ht)) hf)
      (Nat.lt_irrefl _)
  refine ⟨haccepted, fun g hg p v w hp hv hw => ?_, hkept, fun f c hfc hc => ?_⟩
  · refine htold g hg p v w hp (Eq.trans ?_ hv) hw
    exact VarState.reads_congr fun f hf => (hkept f (hf.lt (he.fits g hg))).symm
  · rw [hvalues, Loop.reset, runFlags_resetStmts h.final, runFlags_resetStmts h.final,
      if_pos ⟨c, hc, Lib.touches_self _ _⟩]
    by_cases hf : ∃ x ∈ L.dropFlags, Touches L.final.mirrors x f
    · rw [if_pos hf]
      exact h.final.alike _ hfc
    · rw [if_neg hf]
      refine (h.final.alike _ hfc).trans (hreset f c hfc hc fun x hx ht => hf ⟨x, hx, ht⟩).symm

theorem Loop.Lowered.enter_arrives (ρ : DropFlag → Bool) (hreset : L.ResetsKeep (L.enter ρ).told) :
    ArrivesExactly tt typeNeedsDropGlue L (L.enter ρ) := by
  obtain ⟨ms, he⟩ := h.heads_entered
  have hran := he.allots.ran
  have htold : (L.enter ρ).told = runWrites L.final.mirrors (emitted (ms.map Met.demand)) ρ := by
    rw [Loop.enter, hran.stmts, List.drop_left, runFlags_finalCleanup]
  have hmet := hran.demands_met h.wf h.final h.grown (he.allots.compatible ρ)
  refine h.arrives rfl hreset nofun fun g hg p v w _ hv hw => ?_
  rw [htold] at hv
  exact he.takes g hg ρ _ hmet p v w hv hw

theorem Loop.Lowered.back_arrives {b : Builder}
    {states : SlotType → Nat → VarState} {ρ : DropFlag → Bool}
    (hedge : BackEdge tt typeNeedsDropGlue L b states ρ)
    (hreset : L.ResetsKeep (L.back tt typeNeedsDropGlue b states ρ).told) :
    ArrivesExactly tt typeNeedsDropGlue L (L.back tt typeNeedsDropGlue b states ρ) := by
  obtain ⟨ms₀, he⟩ := h.heads_entered
  have hsets : Sets b.dropFlags.length ρ (writeLoopHeads tt typeNeedsDropGlue
      (L.slots.withStates states) L.heads) (L.meetings tt typeNeedsDropGlue states) fun σ =>
      ∀ g ∈ L.heads, Retold tt typeNeedsDropGlue ρ (L.slots.slotTy g.1.type g.1.idx) g.2
        (states g.1.type g.1.idx) σ :=
    writeLoopHeads_sets hedge.told (fun g hg => (he.fits g hg).mono hedge.grown.length_le)
      hedge.fits
  obtain ⟨ss, ms, hrun, hms, hran, hretold⟩ := hsets b hedge.wf (Nat.le_refl _)
  have htold : (L.back tt typeNeedsDropGlue b states ρ).told
      = runWrites L.final.mirrors (emitted (ms.map Met.demand)) ρ := by
    rw [Loop.back, emittedBy, hrun]
    dsimp only
    rw [hran.stmts, List.drop_left, runFlags_finalCleanup]
  have hfinal : Grown (b.withStmts ss) L.final := ⟨hedge.final.flags, hedge.final.aliases⟩
  have hmet := hran.demands_met hedge.wf h.final hfinal (hms ▸ hedge.apart)
  refine h.arrives rfl hreset (fun b' hb' => ?_) ?_
  · cases hb'
    exact ⟨_, hrun⟩
  · rw [htold]
    exact hretold _ hmet

omit h in
/-- Whenever a run reaches the loop block, on entry or after any number of back edges, the head
    states say of every part that needs dropping whether it is initialised, no flag that the
    resets write has a value that is still needed, and no assertion has failed. -/
theorem loopHeads_exact (h : L.Lowered tt typeNeedsDropGlue vars) {as : List Arrival}
    (hrun : LoopRun tt typeNeedsDropGlue L as) :
    ∀ a ∈ as, ArrivesExactly tt typeNeedsDropGlue L a := by
  induction hrun with
  | enter ρ hreset =>
    intro a ha
    rw [List.mem_singleton.mp ha]
    exact h.enter_arrives ρ hreset
  | back _ ws hedge hreset ih =>
    intro a ha
    rcases List.mem_cons.mp ha with rfl | ha
    · exact h.back_arrives hedge hreset
    · exact ih a ha

end Theorem

/-! ### A loop over a pair -/

/-- A struct of a value and a struct of two values, all with drop glue: the types are numbered. -/
def pairTable : TypeTable Nat :=
  ⟨fun | 0 => .struct [2, 1] false | 1 => .struct [2, 2] false | _ => .plain⟩

/-- A variable whose first field was moved before the loop. -/
def pairSlots : Slots Nat := ⟨fun _ _ => 0, fun _ _ => .partialOf [.invalid .moved, .valid] none⟩

/-- The body moves the fields of the second field. -/
def pairVar : LoopVar := ⟨.localSlot, 0, false, [[2, 0], [2, 2]]⟩

def pairHead : VarState := .partialOf [.optional 0, .optional 1] none

/-- The loop allocates two flags. -/
def pairLoop : Loop Nat where
  slots := pairSlots
  heads := [(pairVar, pairHead)]
  before := ⟨[], [], none, []⟩
  opened := ⟨[false, true], [], none, [⟨0, false, none⟩, ⟨1, true, none⟩]⟩
  final := ⟨[false, true, true, true], [], none, []⟩
  dropFlags := [2, 3]

theorem pairLoop_lowered : pairLoop.Lowered pairTable (fun _ => true) [pairVar] where
  wf := wf_of_no_aliases _ _ _
  final := wf_of_no_aliases _ _ _
  fits := fun _ _ => by
    simp [pairLoop, pairSlots, TypeTable.Fits, TypeTable.FitsInner]
  entered := rfl
  grown := grown_of_no_aliases ⟨[true, true], rfl⟩ rfl rfl
  own := by decide

/-- The flag values at the end of a path through the body. -/
def pairPath (ss : List SetDropFlag) : DropFlag → Bool :=
  runFlags (pairLoop.final.finalCleanup ss) (pairLoop.enter pairLoop.final.default).values

theorem pair_resets (told : DropFlag → Bool) : pairLoop.ResetsKeep told := nofun

/-- The body leaves the pair as it is. -/
theorem pairLoop_run : LoopRun pairTable (fun _ => true) pairLoop
    [pairLoop.back pairTable (fun _ => true) pairLoop.final pairSlots.getSlotState (pairPath []),
      pairLoop.enter pairLoop.final.default] := by
  refine .back (.enter _ (pair_resets _)) [] ⟨wf_of_no_aliases _ _ _, pairLoop_lowered.grown,
    .refl (wf_of_no_aliases _ _ _), fun h hh => ?_, fun h hh => ?_, ?_⟩ (pair_resets _)
  · rw [List.mem_singleton.mp hh]
    simp [pairLoop, pairSlots, TypeTable.Fits, TypeTable.FitsInner]
  · rw [List.mem_singleton.mp hh]
    refine .parts rfl (fun _ => rfl) fun i s t hs ht => ?_
    rcases i with _ | _ | i
    · cases hs
      cases ht
      exact .flag fun _ => ⟨_, oneStatus_of_isWhole rfl⟩
    · cases hs
      cases ht
      exact .flag fun _ => ⟨_, oneStatus_of_isWhole rfl⟩
    · cases hs
  · have hmeet : pairLoop.meetings pairTable (fun _ => true) pairSlots.getSlotState
        = [.overwrite 0 (.const false), .overwrite 1 (.const true)] := by
      simp only [Loop.meetings, pairLoop, pairSlots, pairHead, headMeetings, headMeetingsParts,
        List.flatMap_cons, List.flatMap_nil]
      rw [wholeMeetings_isWhole rfl rfl, wholeMeetings_isWhole rfl rfl]
      rfl
    rw [hmeet]
    refine .cons (fun m hm => ?_) (List.pairwise_singleton _ _)
    rw [List.mem_singleton.mp hm]
    refine ⟨fun f hf g hg ht => ?_, fun f hf g hg => by cases hg⟩
    cases hf
    cases hg
    exact absurd ht (by decide)

theorem loopHeads_exact_pair : ArrivesExactly pairTable (fun _ => true) pairLoop
    (pairLoop.back pairTable (fun _ => true) pairLoop.final pairSlots.getSlotState (pairPath [])) :=
  loopHeads_exact pairLoop_lowered pairLoop_run _ List.mem_cons_self

/-! ## 4. A flag that tells one field only -/

/-- Both fields of the second field are under flags of their own. -/
def pairParted : SlotType → Nat → VarState := fun _ _ =>
  .partialOf [.invalid .moved, .partialOf [.optional 2, .optional 3] none] none

/-- On a path that moves the second of the two inner fields, the head takes both for initialised:
    its flag for them is set from the flag of the first one. -/
theorem writeLoopHead_second_lost :
    ¬ (pairLoop.Lowered pairTable (fun _ => true) [pairVar] →
      ArrivesExactly pairTable (fun _ => true) pairLoop
        (pairLoop.back pairTable (fun _ => true) pairLoop.final pairParted
          (pairPath [⟨3, false, none⟩]))) := by
  intro h
  have hfields : glueFields pairTable (fun _ => true) 1 [.optional 2, .optional 3]
      = [(0, .optional 2), (1, .optional 3)] := rfl
  have hwhole : writeLoopHeadWhole pairTable (fun _ => true) 1 1
      (.partialOf [.optional 2, .optional 3] none) = pushStmtSetDropflagOther 1 (some 2) := by
    rw [writeLoopHeadWhole_cons rfl rfl rfl hfields, writeLoopHeadWhole_isWhole rfl rfl]
    rfl
  have hgone : writeLoopHeadWhole pairTable (fun _ => true) 2 0 (.invalid .moved)
      = pushStmtSetDropflagVal 0 false := by
    rw [writeLoopHeadWhole_isWhole rfl rfl]
    rfl
  have hwrite : writeLoopHeads pairTable (fun _ => true) (pairLoop.slots.withStates pairParted)
      pairLoop.heads pairLoop.final
      = .ok ((), pairLoop.final.withStmts [⟨0, false, none⟩, ⟨1, false, some 2⟩]) := by
    simp only [writeLoopHeads, pairLoop, pairSlots, Slots.withStates, pairParted, pairHead,
      writeLoopHeadState, writeLoopHeadParts, List.getD_cons_zero, List.getD_cons_succ]
    rw [show pairTable.part 0 0 = 2 from rfl, show pairTable.part 0 (0 + 1) = 1 from rfl, hgone,
      hwhole]
    rfl
  have hread := (h pairLoop_lowered).exact (pairVar, pairHead) List.mem_cons_self
    (.field 1 (.field 1 .here)) true false ⟨rfl, rfl, rfl, rfl, rfl⟩ ?_ rfl
  · cases hread
  · rw [Loop.back, emittedBy, hwrite]
    rfl

end Trustme.Lowering
