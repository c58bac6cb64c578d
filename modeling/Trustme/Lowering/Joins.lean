/-
  Subject:   The end of a split: the states of the slots after a join, from the states its arms
             left, over any number of arms.

  * `mergeSplitLists`, `endSplitArm`: the code;
  * `Exact`: the condition on one arm: what it merges is not disturbed by its statements, and a
    flag it hands over has the right value on the paths of the earlier arms;
  * `Joins`: a run of the lowering through the arms of a split, with a path through each arm;
  * `joins_exact`: after any number of arms the joined states say of every part, on every path,
    what the arm of that path left;
  * `mergeState_shell_lost`: the state of a box that is not merged exactly.
-/
import Trustme.Lowering.MergeCases
import Trustme.Lowering.MergeEnds

namespace Trustme.Lowering

open Lib (OrdMap Source Touches emitted runWrites)

/-! ## 1. The code -/

inductive SlotType where
  | localSlot
  | argumentSlot
  deriving DecidableEq, Repr

/-- The states of the slots an arm changed (`SplitArm`), or of those of the join (`SplitEnd`). -/
structure SplitEnd where
  states : OrdMap VarState
  argStates : OrdMap VarState
  deriving Repr

def SplitEnd.list (e : SplitEnd) : SlotType → OrdMap VarState
  | .localSlot => e.states
  | .argumentSlot => e.argStates

/-- The slots of the function: their types, and their states around the split, which is what
    `getSlotState` answers when it skips to the scope of the handle. -/
structure Slots (Ty : Type) where
  slotTy : SlotType → Nat → Ty
  getSlotState : SlotType → Nat → VarState

section Code

variable {Ty : Type} (tt : TypeTable Ty) (slots : Slots Ty)

/-- The state of a slot: from the list, or from around the split. -/
def Slots.stateIn (type : SlotType) (states : OrdMap VarState) (idx : Nat) : VarState :=
  (states.find idx).getD (slots.getSlotState type idx)

/-- A slot the arm changed comes in with its state from around the split. -/
def addFromParent (type : SlotType) (states endStates : OrdMap VarState) : OrdMap VarState :=
  states.foldl (fun m ent => m.insert ent.1 (slots.getSlotState type ent.1)) endStates

/-- The slots to merge, each with the state of the join and that of the arm. -/
def splitPairs (type : SlotType) (states endStates : OrdMap VarState) : Pairs :=
  otherPairs (addFromParent slots type states endStates) (slots.stateIn type states)

def mergeSplitLists (type : SlotType) (states endStates : OrdMap VarState) :
    Build (OrdMap VarState) :=
  mergeEach (fun idx => mergeState tt (slots.slotTy type idx))
    (splitPairs slots type states endStates)

/-- The end of an arm: a reachable one sets the states of the join, or is merged into them. -/
def endSplitArm (endState : Option SplitEnd) (thisArm : SplitEnd) (reachable : Bool) :
    Build (Option SplitEnd) :=
  match endState, reachable with
  | some e, true => do
      let states ← mergeSplitLists tt slots .localSlot thisArm.states e.states
      let argStates ← mergeSplitLists tt slots .argumentSlot thisArm.argStates e.argStates
      return some { states := states, argStates := argStates }
  | none, true => return some thisArm
  | e, false => return e

end Code

/-! ## 2. When an arm is merged exactly -/

/-- The flag is one of those of the state (`getUsedDropFlags`). -/
inductive VarState.HasFlag : VarState → DropFlag → Prop where
  | optional (f : DropFlag) : HasFlag (.optional f) f
  | outer {inner : List VarState} {f : DropFlag} : HasFlag (.partialOf inner (some f)) f
  | inner {inner : List VarState} {outerFlag : Option DropFlag} {s : VarState} {f : DropFlag}
      (hs : s ∈ inner) (h : HasFlag s f) : HasFlag (.partialOf inner outerFlag) f
  | fill {fill : VarState} {others : OrdMap VarState} {count : Nat} {f : DropFlag}
      (h : HasFlag fill f) : HasFlag (.partialArray fill others count) f
  | other {fill : VarState} {others : OrdMap VarState} {count k : Nat} {s : VarState}
      {f : DropFlag} (hs : (k, s) ∈ others) (h : HasFlag s f) :
      HasFlag (.partialArray fill others count) f
  | shell {inner : VarState} {f : DropFlag} : HasFlag (.movedOut inner (some f)) f
  | content {inner : VarState} {outerFlag : Option DropFlag} {f : DropFlag}
      (h : HasFlag inner f) : HasFlag (.movedOut inner outerFlag) f

section Condition

variable {Ty : Type} (tt : TypeTable Ty) (slots : Slots Ty)

/-- The meetings of one list of slots. -/
def splitMeetings (df : DropFlag → Bool) (type : SlotType) (states endStates : OrdMap VarState) :
    List Meeting :=
  meetEach (fun idx => meetings tt df (slots.slotTy type idx))
    (viewPairs (splitPairs slots type states endStates))

/-- The meetings of an arm, in the order of their statements. -/
def armMeetings (df : DropFlag → Bool) (e arm : SplitEnd) : List Meeting :=
  splitMeetings tt slots df .localSlot arm.states e.states ++
    splitMeetings tt slots df .argumentSlot arm.argStates e.argStates

/-- The condition on an arm that is merged, before its statements are emitted by the builder `b`.
    `olds` are the flag values at the end of the paths through the earlier arms, `ρ` those on the
    path through the arm itself. -/
structure Exact (b : Builder) (e arm : SplitEnd) (olds : List (DropFlag → Bool))
    (ρ : DropFlag → Bool) : Prop where
  /-- No box loses its shell. -/
  kept : .lost ∉ armMeetings tt slots b.default e arm
  /-- A flag of the arm that is taken over has the constant value of the earlier arms there. -/
  taken : ∀ σ ∈ olds, ∀ m ∈ armMeetings tt slots b.default e arm, m.Holds σ
  /-- A flag that is set for one part is not read for another one, unless with the same value. -/
  apart : (armMeetings tt slots b.default e arm).Pairwise (Meeting.Compatible b ρ)
  /-- Nor is it read for a slot that is not merged. -/
  frame : ∀ type idx, OrdMap.find idx (splitPairs slots type (arm.list type) (e.list type)) = none →
    ∀ f, (slots.getSlotState type idx).HasFlag f → ∀ m ∈ armMeetings tt slots b.default e arm,
      ∀ t ∈ m.target, Touches b.mirrors t f → m.want.read ρ = ρ f

end Condition

/-! ## 3. One arm -/

section Arm

variable {Ty : Type} {tt : TypeTable Ty} {slots : Slots Ty} {B : Nat}

/-- The states of the list fit the slots. -/
def SplitEnd.Fits (tt : TypeTable Ty) (slots : Slots Ty) (B : Nat) (e : SplitEnd) : Prop :=
  ∀ type, ∀ p ∈ e.list type, tt.Fits B (slots.slotTy type p.1) p.2

def Slots.Fits (tt : TypeTable Ty) (slots : Slots Ty) (B : Nat) : Prop :=
  ∀ type idx, tt.Fits B (slots.slotTy type idx) (slots.getSlotState type idx)

theorem fits_stateIn (hs : slots.Fits tt B) {type : SlotType} {states : OrdMap VarState}
    (h : ∀ p ∈ states, tt.Fits B (slots.slotTy type p.1) p.2) (idx : Nat) :
    tt.Fits B (slots.slotTy type idx) (slots.stateIn type states idx) := by
  unfold Slots.stateIn
  cases hf : states.find idx with
  | none => exact hs type idx
  | some s => exact h (idx, s) (OrdMap.find_mem hf)

theorem mem_insert {V : Type} {k : Nat} {v : V} {m : OrdMap V} {p : Nat × V}
    (h : p ∈ OrdMap.insert k v m) : p = (k, v) ∨ p ∈ m := by
  unfold OrdMap.insert at h
  split at h
  · exact Or.inr h
  · exact List.mem_cons.mp ((OrdMap.place_perm k v m).mem_iff.mp h)

theorem mem_addFromParent {type : SlotType} : ∀ {states endStates : OrdMap VarState}
    {p : Nat × VarState}, p ∈ addFromParent slots type states endStates →
    p ∈ endStates ∨ p.2 = slots.getSlotState type p.1
  | [], _, _, h => Or.inl h
  | (k, _) :: states, endStates, p, h => by
    rw [addFromParent, List.foldl_cons, ← addFromParent] at h
    rcases mem_addFromParent h with h | h
    · rcases mem_insert h with rfl | h
      · exact Or.inr rfl
      · exact Or.inl h
    · exact Or.inr h

/-- The state a slot is merged from is the one it has in the join so far. -/
theorem find_addFromParent {type : SlotType} {idx : Nat} : ∀ {states endStates : OrdMap VarState},
    (∀ s, (addFromParent slots type states endStates).find idx = some s →
      s = slots.stateIn type endStates idx) ∧
    ((addFromParent slots type states endStates).find idx = none →
      endStates.find idx = none ∧ states.find idx = none)
  | [], endStates => by
    refine ⟨fun s hs => ?_, fun h => ⟨h, rfl⟩⟩
    rw [Slots.stateIn, show endStates.find idx = some s from hs]
    rfl
  | (k, t) :: states, endStates => by
    rw [addFromParent, List.foldl_cons, ← addFromParent]
    obtain ⟨h₁, h₂⟩ := @find_addFromParent type idx states
      (endStates.insert k (slots.getSlotState type k))
    refine ⟨fun s hs => ?_, fun h => ?_⟩
    · rw [h₁ s hs, Slots.stateIn, Slots.stateIn, OrdMap.find_insert]
      by_cases hk : idx = k
      · subst hk
        rw [if_pos rfl]
        rfl
      · rw [if_neg hk]
    · obtain ⟨he, hs⟩ := h₂ h
      rw [OrdMap.find_insert] at he
      split at he
      · cases he
      · rename_i hk
        exact ⟨he, by rw [OrdMap.find_cons, if_neg hk, hs]⟩

/-- What the merge of one list of slots does: slot by slot, the new state of the join agrees with
    the old one and with the arm's. -/
structure ListMerged (tt : TypeTable Ty) (slots : Slots Ty) (B : Nat) (b' : Builder)
    (type : SlotType) (states endStates merged : OrdMap VarState) (ms : List Met) : Prop where
  agrees : ∀ idx, OrdMap.find idx (splitPairs slots type states endStates) ≠ none →
    Agrees tt B (slots.slotTy type idx) b' (slots.stateIn type endStates idx)
      (slots.stateIn type states idx) (slots.stateIn type merged idx) ms
  other : ∀ idx, OrdMap.find idx (splitPairs slots type states endStates) = none →
    slots.stateIn type endStates idx = slots.getSlotState type idx ∧
    slots.stateIn type states idx = slots.getSlotState type idx ∧
    slots.stateIn type merged idx = slots.getSlotState type idx
  fits : ∀ p ∈ merged, tt.Fits b'.dropFlags.length (slots.slotTy type p.1) p.2

theorem ListMerged.mono {b b' : Builder} {type : SlotType}
    {states endStates merged : OrdMap VarState} {ms ms' : List Met}
    (h : ListMerged tt slots B b type states endStates merged ms) (hg : Grown b b')
    (hms : ∀ m ∈ ms, m ∈ ms') : ListMerged tt slots B b' type states endStates merged ms' :=
  ⟨fun idx hi => (h.agrees idx hi).mono hg hms, h.other,
    fun p hp => (h.fits p hp).mono hg.length_le⟩

variable {df : DropFlag → Bool}

theorem mergeSplitLists_meets (hs : slots.Fits tt B) {type : SlotType}
    {states endStates merged : OrdMap VarState} {b b' : Builder} (hb : Ready B df b)
    (harm : ∀ p ∈ states, tt.Fits B (slots.slotTy type p.1) p.2)
    (hend : ∀ p ∈ endStates, tt.Fits B (slots.slotTy type p.1) p.2)
    (hlost : .lost ∉ splitMeetings tt slots df type states endStates)
    (h : mergeSplitLists tt slots type states endStates b = .ok (merged, b')) :
    ∃ ms : List Met, ms.map (·.meeting) = splitMeetings tt slots df type states endStates ∧
      Ran B (fun _ => False) b b' ms ∧
      ListMerged tt slots B b' type states endStates merged ms := by
  have hp : List.Forall₂ (Paired tt B (slots.slotTy type) b)
    (splitPairs slots type states endStates)
      (viewPairs (splitPairs slots type states endStates)) := by
    refine paired_viewPairs fun p hp => ?_
    obtain ⟨q, hq, rfl⟩ := List.mem_map.mp hp
    refine ⟨?_, fits_stateIn hs harm q.1⟩
    rcases mem_addFromParent hq with hq | hq
    · exact hend q hq
    · exact (show q.2 = _ from hq).symm ▸ hs type q.1
  obtain ⟨ms, hms, hran, hag⟩ := mergeEach_meets (mergeState_merges tt B df) (slots.slotTy type)
    hb hp (beside_of_own hp own_viewPairs) hlost h
  refine ⟨ms, hms, hran.mono fun x hx hseed => not_seeds_of_own hp own_viewPairs hx hseed, ?_⟩
  have hfind := fun idx => Lib.forall₂_find (fun _ _ h => h.1) idx hag
  refine ⟨fun idx hi => ?_, fun idx hi => ?_, fun p hp => ?_⟩
  · rcases hfind idx with ⟨hn, -⟩ | ⟨⟨old, new⟩, r, ho, hr, -, ha, -⟩
    · exact absurd hn hi
    · have ho' := ho
      rw [splitPairs, find_otherPairs] at ho'
      obtain ⟨s, hs, e⟩ := Option.map_eq_some_iff.mp ho'
      cases e
      have hmerged : slots.stateIn type merged idx = r := by
        rw [Slots.stateIn, hr]
        rfl
      rw [hmerged, ← find_addFromParent.1 _ hs]
      exact ha
  · rcases hfind idx with ⟨-, hn⟩ | ⟨v, w, hv, -⟩
    · rw [splitPairs, find_otherPairs, Option.map_eq_none_iff] at hi
      obtain ⟨he, ha⟩ := find_addFromParent.2 hi
      simp only [Slots.stateIn, he, ha, hn, Option.getD_none, and_self]
    · rw [hi] at hv
      cases hv
  · obtain ⟨q, -, hk, -, hfit⟩ := Lib.forall₂_mem_left hag.flip p hp
    exact hk ▸ hfit

/-- What the merge of an arm does. -/
theorem endSplitArm_meets (hs : slots.Fits tt B) {e arm e' : SplitEnd} {b b' : Builder}
    (hb : Ready B df b) (harm : arm.Fits tt slots B) (hend : e.Fits tt slots B)
    (hlost : .lost ∉ armMeetings tt slots df e arm)
    (h : endSplitArm tt slots (some e) arm true b = .ok (some e', b')) :
    ∃ ms : List Met, ms.map (·.meeting) = armMeetings tt slots df e arm ∧
      Ran B (fun _ => False) b b' ms ∧
      ∀ type, ListMerged tt slots B b' type (arm.list type) (e.list type) (e'.list type) ms := by
  rw [armMeetings, List.mem_append, not_or] at hlost
  obtain ⟨states, b₁, h₁, h⟩ := build_bind.mp h
  obtain ⟨argStates, b₂, h₂, h⟩ := build_bind.mp h
  cases build_pure.mp h
  obtain ⟨ms, hms, hran, hmerged⟩ := mergeSplitLists_meets hs hb (harm .localSlot)
    (hend .localSlot) hlost.1 h₁
  obtain ⟨ms', hms', hran', hmerged'⟩ := mergeSplitLists_meets hs (hb.next hran.grown hran.wf)
    (harm .argumentSlot) (hend .argumentSlot) hlost.2 h₂
  refine ⟨ms ++ ms', by rw [List.map_append, hms, hms']; rfl, ?_, fun type => ?_⟩
  · exact hran.append hran' hb.bound (fun _ _ _ _ _ h => h.elim) fun _ _ h => h.elim
  · cases type with
    | localSlot => exact hmerged.mono hran'.grown fun m hm => List.mem_append_left _ hm
    | argumentSlot =>
      exact hmerged'.mono (.refl hran'.wf) fun m hm => List.mem_append_right _ hm

end Arm

/-! ## 4. Flags a state relies on -/

/-- A state reads its flags only. -/
theorem VarState.reads_congr {ρ σ : DropFlag → Bool} : ∀ {p : SubPlace} {s : VarState},
    (∀ f, s.HasFlag f → ρ f = σ f) → s.reads ρ p = s.reads σ p
  | p, .invalid _, _ => by simp [VarState.reads]
  | p, .valid, _ => by simp [VarState.reads]
  | p, .optional f, h => by simp [VarState.reads, h f (.optional f)]
  | .field i p, .partialOf inner outerFlag, h => by
    simp only [VarState.reads]
    cases hs : inner[i]? with
    | none => rfl
    | some s =>
      exact VarState.reads_congr fun f hf => h f (.inner (List.mem_of_getElem? hs) hf)
  | .variant i p, .partialOf inner outerFlag, h => by
    simp only [VarState.reads]
    cases hs : inner[i]? with
    | none => rfl
    | some s =>
      have hr := VarState.reads_congr (p := p) fun f hf =>
        h f (.inner (List.mem_of_getElem? hs) hf)
      have ho : (outerSource outerFlag).read ρ = (outerSource outerFlag).read σ := by
        cases outerFlag with
        | none => rfl
        | some f => exact h f .outer
      simp only [Option.bind_some, hr, ho]
  | .field i p, .partialArray fill others count, h => by
    simp only [VarState.reads]
    split
    · refine VarState.reads_congr fun f hf => ?_
      unfold VarState.element at hf
      cases hs : OrdMap.find i others with
      | none =>
        rw [hs] at hf
        exact h f (.fill hf)
      | some s =>
        rw [hs] at hf
        exact h f (.other (OrdMap.find_mem hs) hf)
    · rfl
  | .boxAlloc, .movedOut inner outerFlag, h => by
    cases outerFlag with
    | none => rfl
    | some f => simp [VarState.reads, outerSource, h f .shell]
  | .deref p, .movedOut inner outerFlag, h => by
    simp only [VarState.reads]
    exact VarState.reads_congr fun f hf => h f (.content hf)
  | .here, .partialOf _ _, _ => rfl
  | .boxAlloc, .partialOf _ _, _ => rfl
  | .deref _, .partialOf _ _, _ => rfl
  | .here, .partialArray _ _ _, _ => rfl
  | .boxAlloc, .partialArray _ _ _, _ => rfl
  | .variant _ _, .partialArray _ _ _, _ => rfl
  | .deref _, .partialArray _ _ _, _ => rfl
  | .here, .movedOut _ _, _ => rfl
  | .field _ _, .movedOut _ _, _ => rfl
  | .variant _ _, .movedOut _ _, _ => rfl

theorem VarState.HasFlag.lt {Ty : Type} {tt : TypeTable Ty} {B : Nat} {s : VarState}
    {f : DropFlag} (h : s.HasFlag f) : ∀ {ty : Ty}, tt.Fits B ty s → f < B := by
  induction h with
  | optional f =>
    intro ty hf
    rwa [TypeTable.Fits] at hf
  | outer =>
    intro ty hf
    rw [TypeTable.Fits] at hf
    exact hf.1 _ rfl
  | inner hs _ ih =>
    intro ty hf
    rw [TypeTable.Fits] at hf
    obtain ⟨i, hi⟩ := List.getElem?_of_mem hs
    exact ih (hf.2.getElem hi)
  | fill _ ih =>
    intro ty hf
    rw [TypeTable.Fits] at hf
    exact ih hf.2.1
  | other hs _ ih =>
    intro ty hf
    rw [TypeTable.Fits] at hf
    exact ih (hf.2.2.of_mem hs)
  | shell =>
    intro ty hf
    rw [TypeTable.Fits] at hf
    exact hf.1 _ rfl
  | content _ ih =>
    intro ty hf
    rw [TypeTable.Fits] at hf
    exact ih hf.2

/-! ## 5. Any number of arms -/

/-- A path through an arm of the split: what the arm left, the flag values at the end of its own
    code, and those behind the statements of its merge. -/
structure Path where
  arm : SplitEnd
  before : DropFlag → Bool
  values : DropFlag → Bool

/-- Whether the arm of the path left the part of a slot initialised. -/
def Path.left {Ty : Type} (slots : Slots Ty) (a : Path) (type : SlotType) (idx : Nat)
    (p : SubPlace) : Option Bool :=
  (slots.stateIn type (a.arm.list type) idx).reads a.before p

section Run

variable {Ty : Type} (tt : TypeTable Ty) (slots : Slots Ty) (bF : Builder)

/-- A run of the lowering through a split: the states of the join `e` after the arms whose paths
    are listed, the last one first. `bF` is the builder when the body is done; the statements run
    are those `finalCleanup` makes of what is emitted. -/
inductive Joins : Builder → SplitEnd → List Path → Prop where
  /-- The first arm that ends sets the states. -/
  | first {b : Builder} {arm : SplitEnd} {ρ : DropFlag → Bool} (hb : b.WF) (hF : bF.WF)
      (hg : Grown b bF) (hs : slots.Fits tt b.dropFlags.length)
      (harm : arm.Fits tt slots b.dropFlags.length) : Joins b arm [⟨arm, ρ, ρ⟩]
  /-- The code of the next arm is lowered; its flags and statements are its own. -/
  | lower {b b' : Builder} {e : SplitEnd} {paths : List Path} (h : Joins b e paths) (hb' : b'.WF)
      (hg : Grown b b') (hF : Grown b' bF) : Joins b' e paths
  /-- The next arm ends and is merged. -/
  | merge {b b' : Builder} {e e' arm : SplitEnd} {paths : List Path} {ρ : DropFlag → Bool}
      (h : Joins b e paths) (harm : arm.Fits tt slots b.dropFlags.length)
      (hrun : endSplitArm tt slots (some e) arm true b = .ok (some e', b')) (hF : Grown b' bF)
      (hold : ∀ a ∈ paths, Unwritten b b' a.values)
      (hexact : Exact tt slots b e arm (paths.map (·.values)) ρ) :
      Joins b' e'
        (⟨arm, ρ, runFlags (bF.finalCleanup (b'.statements.drop b.statements.length)) ρ⟩ :: paths)

end Run

section Theorem

variable {Ty : Type} {tt : TypeTable Ty} {slots : Slots Ty} {bF : Builder}

/-- What holds after every arm. -/
structure JoinState (tt : TypeTable Ty) (slots : Slots Ty) (bF b : Builder) (e : SplitEnd)
    (paths : List Path) : Prop where
  wf : b.WF
  final : bF.WF
  grown : Grown b bF
  around : slots.Fits tt b.dropFlags.length
  fits : e.Fits tt slots b.dropFlags.length
  exact : ∀ type idx p, tt.IsPlace (slots.slotTy type idx) p →
    (∀ a ∈ paths, (a.left slots type idx p).isSome) →
    ∀ a ∈ paths, (slots.stateIn type (e.list type) idx).reads a.values p = a.left slots type idx p

variable {paths : List Path}

theorem JoinState.lower {b b' : Builder} {e : SplitEnd} (h : JoinState tt slots bF b e paths)
    (hb' : b'.WF) (hg : Grown b b') (hF : Grown b' bF) :
    JoinState tt slots bF b' e paths where
  wf := hb'
  final := h.final
  grown := hF
  around := fun type idx => (h.around type idx).mono hg.length_le
  fits := fun type p hp => (h.fits type p hp).mono hg.length_le
  exact := h.exact

/-- One arm is merged. -/
theorem JoinState.merge {b b' : Builder} {e e' arm : SplitEnd} {ρ : DropFlag → Bool}
    (h : JoinState tt slots bF b e paths) (harm : arm.Fits tt slots b.dropFlags.length)
    (hrun : endSplitArm tt slots (some e) arm true b = .ok (some e', b')) (hF : Grown b' bF)
    (hold : ∀ a ∈ paths, Unwritten b b' a.values) (hne : paths ≠ [])
    (hexact : Exact tt slots b e arm (paths.map (·.values)) ρ) :
    JoinState tt slots bF b' e'
      (⟨arm, ρ, runFlags (bF.finalCleanup (b'.statements.drop b.statements.length)) ρ⟩ ::
        paths) := by
  have hb : Ready b.dropFlags.length b.default b := ⟨h.wf, Nat.le_refl _, fun _ _ => rfl⟩
  obtain ⟨ms, hms, hran, hlist⟩ := endSplitArm_meets h.around hb harm h.fits hexact.kept hrun
  have hafter : runFlags (bF.finalCleanup (b'.statements.drop b.statements.length)) ρ
      = runWrites bF.mirrors (emitted (ms.map Met.demand)) ρ := by
    rw [hran.stmts, List.drop_left, runFlags_finalCleanup]
  rw [hafter]
  have hmet := hran.demands_met h.wf h.final hF (hms ▸ hexact.apart)
  have hholds : ∀ m ∈ ms, m.meeting ∈ armMeetings tt slots b.default e arm := fun m hm =>
    hms ▸ List.mem_map_of_mem hm
  refine ⟨hran.wf, h.final, hF, fun type idx => (h.around type idx).mono hran.grown.length_le,
    fun type p hp => (hlist type).fits p hp, fun type idx p hp hdec => ?_⟩
  obtain ⟨w, hw⟩ := Option.isSome_iff_exists.mp (hdec _ List.mem_cons_self)
  have hdec' : ∀ a ∈ paths, (a.left slots type idx p).isSome := fun a ha =>
    hdec a (List.mem_cons_of_mem _ ha)
  have hread : ∀ a ∈ paths, ∃ v, a.left slots type idx p = some v ∧
      (slots.stateIn type (e.list type) idx).reads a.values p = some v := by
    intro a ha
    obtain ⟨v, hv⟩ := Option.isSome_iff_exists.mp (hdec' a ha)
    exact ⟨v, hv, (h.exact type idx p hp hdec' a ha).trans hv⟩
  by_cases hidx : OrdMap.find idx (splitPairs slots type (arm.list type) (e.list type)) = none
  · obtain ⟨he, ha, he'⟩ := (hlist type).other idx hidx
    rw [he']
    intro a hmem
    rcases List.mem_cons.mp hmem with rfl | hmem
    · refine (VarState.reads_congr fun f hf => ?_).trans (congrArg (fun s => s.reads ρ p) ha.symm)
      refine hran.keeps h.wf h.final hF (hms ▸ hexact.apart) (hf.lt (h.around type idx))
        fun m hm t ht htouch => ?_
      exact hexact.frame type idx hidx f hf m.meeting (hholds m hm) t ht htouch
    · obtain ⟨v, hv, hr⟩ := hread a hmem
      rw [hv, ← hr, he]
  · have hag := (hlist type).agrees idx hidx
    intro a hmem
    rcases List.mem_cons.mp hmem with rfl | hmem
    · obtain ⟨a₀, ha₀⟩ := List.exists_mem_of_ne_nil paths hne
      obtain ⟨v, -, hr⟩ := hread a₀ ha₀
      rw [hw]
      exact hag.onNew ρ _ hmet a₀.values p v w hp hr hw
    · obtain ⟨v, hv, hr⟩ := hread a hmem
      rw [hv]
      have hwas : ∀ m ∈ ms, m.cell.read a.values = m.was.read a.values := fun m hm =>
        (hran.placed m hm).read_was (hold a hmem)
          (hexact.taken a.values (List.mem_map_of_mem hmem) m.meeting (hholds m hm))
      exact hag.onOld a.values (hold a hmem).follows hwas ρ p v w hp hr hw

theorem Joins.ne_nil {b : Builder} {e : SplitEnd}
    (h : Joins tt slots bF b e paths) : paths ≠ [] := by
  induction h with
  | first => exact List.cons_ne_nil _ _
  | lower _ _ _ _ ih => exact ih
  | merge => exact List.cons_ne_nil _ _

theorem Joins.state {b : Builder} {e : SplitEnd}
    (h : Joins tt slots bF b e paths) : JoinState tt slots bF b e paths := by
  induction h with
  | first hb hF hg hs harm =>
    refine ⟨hb, hF, hg, hs, harm, fun type idx p _ _ a ha => ?_⟩
    rw [List.mem_singleton.mp ha]
    rfl
  | lower _ hb' hg hF ih => exact ih.lower hb' hg hF
  | merge h harm hrun hF hold hexact ih => exact ih.merge harm hrun hF hold h.ne_nil hexact

/-- After any number of arms: a part of a slot that the arms decide is initialised by the states of
    the join, on the path through any of the arms, exactly when that arm left it so. -/
theorem joins_exact {b : Builder} {e : SplitEnd} {paths : List Path}
    (h : Joins tt slots bF b e paths) (type : SlotType) (idx : Nat) (p : SubPlace)
    (hp : tt.IsPlace (slots.slotTy type idx) p)
    (hdec : ∀ a ∈ paths, (a.left slots type idx p).isSome) (a : Path) (ha : a ∈ paths) :
    (slots.stateIn type (e.list type) idx).reads a.values p = a.left slots type idx p :=
  h.state.exact type idx p hp hdec a ha

end Theorem

/-! ### A run of three arms -/

/-- A box, or what it holds. -/
def boxTable : TypeTable Bool := ⟨fun box => if box then .ownedBox false else .plain⟩

/-- Boxes that are there before the split. -/
def boxSlots : Slots Bool := ⟨fun _ _ => true, fun _ _ => .valid⟩

def unchanged : SplitEnd := ⟨[], []⟩

/-- The arm moves the box. -/
def boxMoved : SplitEnd := ⟨[(0, .invalid .moved)], []⟩

/-- The builder when the second of three arms, the one that moves the box, has been merged, and
    when the third one has. -/
def afterTwo : Builder := ⟨[true], [], none, [⟨0, false, none⟩]⟩

def afterThree : Builder := ⟨[true], [], none, [⟨0, false, none⟩, ⟨0, true, none⟩]⟩

/-- The path through an arm, with the statements its merge emits. -/
def armPath (arm : SplitEnd) (ws : List (DropFlag × Source DropFlag Bool)) : Path :=
  ⟨arm, afterThree.default, runFlags (afterThree.finalCleanup (ws.map stmtOf)) afterThree.default⟩

def threePaths : List Path :=
  [armPath unchanged [(0, .const true)], armPath boxMoved [(0, .const false)], armPath unchanged []]

theorem wf_of_no_aliases (flags : List Bool) (loopFlags : Option (List DropFlag))
    (ss : List SetDropFlag) : (Builder.mk flags [] loopFlags ss).WF :=
  ⟨nofun, List.nodup_nil, nofun⟩

theorem grown_of_no_aliases {b b' : Builder} (h : b.dropFlags <+: b'.dropFlags)
    (ha : b.dropFlagAliases = []) (ha' : b'.dropFlagAliases = []) : Grown b b' :=
  ⟨h, fun p => by simp [ha, ha']⟩

/-- Boxes without flags: an arm whose one meeting takes no flag over is merged exactly. -/
theorem exact_of_one {b : Builder} {e arm : SplitEnd} {olds : List (DropFlag → Bool)}
    {ρ : DropFlag → Bool} {m : Meeting} (h : armMeetings boxTable boxSlots b.default e arm = [m])
    (hkept : .lost ≠ m) (htaken : ∀ σ ∈ olds, m.Holds σ) :
      Exact boxTable boxSlots b e arm olds ρ where
  kept := by
    rw [h, List.mem_singleton]
    exact hkept
  taken := fun σ hσ m' hm => by
    rw [h, List.mem_singleton] at hm
    exact hm ▸ htaken σ hσ
  apart := h ▸ List.pairwise_singleton _ _
  frame := fun _ _ _ _ hf => nomatch hf

theorem unwritten_armPath {b b' : Builder} (hg : Grown b' afterThree) (arm : SplitEnd)
    {ws : List (DropFlag × Source DropFlag Bool)}
    (h : ∀ w ∈ ws, b.dropFlags.length ≤ w.1 → b'.dropFlags.length ≤ w.1) :
    Unwritten b b' (armPath arm ws).values := by
  rw [armPath, runFlags_finalCleanup]
  exact unwritten_of_run (wf_of_no_aliases _ _ _) hg h

theorem threeArms :
    Joins boxTable boxSlots afterThree afterThree ⟨[(0, .optional 0)], []⟩ threePaths := by
  have hfits (B : Nat) (s : VarState) (hs : s = .valid ∨ s = .invalid .moved) (ty : Bool) :
      boxTable.Fits B ty s := by
    rcases hs with rfl | rfl <;> simp [TypeTable.Fits]
  have hgrown : Grown afterTwo afterThree := grown_of_no_aliases (List.prefix_refl _) rfl rfl
  have hfirst : Joins boxTable boxSlots afterThree ⟨[], [], none, []⟩ unchanged
      [armPath unchanged []] :=
    .first (wf_of_no_aliases _ _ _) (wf_of_no_aliases _ _ _)
      (grown_of_no_aliases List.nil_prefix rfl rfl) (fun _ _ => hfits _ _ (.inl rfl) _)
      fun type p hp => by cases type <;> cases hp
  have hsecond : Joins boxTable boxSlots afterThree afterTwo ⟨[(0, .optional 0)], []⟩
      [armPath boxMoved [(0, .const false)], armPath unchanged []] := by
    refine .merge hfirst (fun type p hp => ?_) rfl hgrown (fun a ha => ?_)
      (exact_of_one (m := .fresh true (.const false)) rfl nofun fun _ _ => trivial)
    · cases type with
      | localSlot =>
        rw [List.mem_singleton.mp hp]
        exact hfits _ _ (.inr rfl) _
      | argumentSlot => cases hp
    · rw [List.mem_singleton.mp ha]
      exact unwritten_armPath hgrown _ nofun
  refine .merge hsecond (fun type p hp => by cases type <;> cases hp) rfl (.refl hfirst.state.final)
    (fun a ha => ?_) (exact_of_one (m := .overwrite 0 (.const true)) rfl nofun fun _ _ => trivial)
  simp only [List.mem_cons, List.not_mem_nil, or_false] at ha
  rcases ha with rfl | rfl <;> exact unwritten_armPath (.refl hfirst.state.final) _ fun _ _ => id

theorem joins_exact_three :
    (boxSlots.stateIn .localSlot [(0, .optional 0)] 0).reads
      (armPath boxMoved [(0, .const false)]).values .here = some false :=
  joins_exact threeArms .localSlot 0 .here trivial (by decide)
    (armPath boxMoved [(0, .const false)])
    (List.mem_cons_of_mem _ List.mem_cons_self)

/-! ## 6. A box that is not merged exactly -/

/-- An arm that moves what the box holds. -/
def contentMoved : SplitEnd := ⟨[(0, .movedOut (.invalid .moved) none)], []⟩

/-- The first of three arms moves a box, the second and the third what it holds. The third one
    leaves the allocation, but behind the statement of its merge the state says it is gone. -/
theorem mergeState_shell_lost :
    ¬ ∀ e b e' b',
      endSplitArm boxTable boxSlots (some boxMoved) contentMoved true ⟨[], [], none, []⟩
        = .ok (some e, b) →
      endSplitArm boxTable boxSlots (some e) contentMoved true b = .ok (some e', b') →
      (boxSlots.stateIn .localSlot e'.states 0).reads
          (runFlags (b'.finalCleanup (b'.statements.drop b.statements.length)) b'.default) .boxAlloc
        = (boxSlots.stateIn .localSlot contentMoved.states 0).reads b'.default .boxAlloc := by
  intro h
  have hread := h ⟨[(0, .movedOut (.invalid .moved) (some 0))], []⟩
    ⟨[false], [], none, [⟨0, true, none⟩]⟩ ⟨[(0, .movedOut (.invalid .moved) (some 0))], []⟩
    ⟨[false], [], none, [⟨0, true, none⟩, ⟨0, false, none⟩]⟩ rfl rfl
  exact absurd hread (by decide)

end Trustme.Lowering
