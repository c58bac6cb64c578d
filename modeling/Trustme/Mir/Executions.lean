/-
  Subject:   The edges of a MIR terminator (mir_helpers.h, mir_helpers.cpp), and how the blocks of a
             function are executed.

  * `targets`, `mapTargets`, `shape`: `visitTerminatorTarget`, `visitTerminatorTargetMut`, and
    what is left of a terminator without its targets;
  * `Interp`: what statements and terminators do to the world;
  * `Moves`, `SameTraces`: executions; branches are silent, all else is seen.
-/
import Trustme.Lib.Traces
import Trustme.Metadata.MirBody

namespace Trustme.Metadata

variable {V : Vocabulary}

/-! ## 1. The edges of a terminator -/

/-- `~0u`: no block, no flag. -/
def NONE : BitVec 32 := 0xFFFFFFFF

def MIRUnwindAction.targets : MIRUnwindAction → List (BitVec 32)
  | .Cleanup target => [target]
  | _ => []

def MIRAsmParam.targets : MIRAsmParam V → List (BitVec 32)
  | .Label target => [target]
  | _ => []

/-- The blocks that `visitTerminatorTarget` visits, in its order. -/
def MIRTerminator.targets : MIRTerminator V → List (BitVec 32)
  | .Goto target => [target]
  | .If _ bbTrue bbFalse => [bbTrue, bbFalse]
  | .Switch _ targets validFlag invalidTarget =>
    targets ++ if validFlag ≠ NONE then [invalidTarget] else []
  | .SwitchValue _ defTarget targets _ => targets ++ [defTarget]
  | .Drop _ _ _ target unwind => target :: unwind.targets
  | .Call retBlock unwind _ _ _ _ _ => retBlock :: unwind.targets
  | .Asm2 _ _ params retBlock =>
    params.flatMap (·.targets) ++ if retBlock ≠ NONE then [retBlock] else []
  | _ => []

section Map

variable (f : BitVec 32 → BitVec 32)

def MIRUnwindAction.mapTargets : MIRUnwindAction → MIRUnwindAction
  | .Cleanup target => .Cleanup (f target)
  | u => u

def MIRAsmParam.mapTargets : MIRAsmParam V → MIRAsmParam V
  | .Label target => .Label (f target)
  | p => p

/-- `visitTerminatorTargetMut`, where the visitor puts `f target` for `target`. -/
def MIRTerminator.mapTargets : MIRTerminator V → MIRTerminator V
  | .Goto target => .Goto (f target)
  | .If cond bbTrue bbFalse => .If cond (f bbTrue) (f bbFalse)
  | .Switch val targets validFlag invalidTarget =>
    .Switch val (targets.map f) validFlag
      (if validFlag ≠ NONE then f invalidTarget else invalidTarget)
  | .SwitchValue val defTarget targets values =>
    .SwitchValue val (f defTarget) (targets.map f) values
  | .Drop kind slot flagIdx target unwind =>
    .Drop kind slot flagIdx (f target) (unwind.mapTargets f)
  | .Call retBlock unwind retVal fcn args source tracksCaller =>
    .Call (f retBlock) (unwind.mapTargets f) retVal fcn args source tracksCaller
  | .Asm2 options lines params retBlock =>
    .Asm2 options lines (params.map (·.mapTargets f))
      (if retBlock ≠ NONE then f retBlock else retBlock)
  | t => t

end Map

/-- A terminator without its targets. -/
def MIRTerminator.shape : MIRTerminator V → MIRTerminator V
  | .Switch val targets validFlag _ => .Switch val (targets.map fun _ => 0) validFlag 0
  | t => t.mapTargets fun _ => 0

def MIRSwitchValues.length : MIRSwitchValues → Nat
  | .Unsigned v | .Signed v => List.length v
  | .String v => List.length v

/-- The terminators that only choose a target. -/
def MIRTerminator.isBranch : MIRTerminator V → Bool
  | .Goto _ | .If _ _ _ | .Switch _ _ _ _ | .SwitchValue _ _ _ _ => true
  | _ => false

section MapLemmas

variable {f : BitVec 32 → BitVec 32}

theorem MIRUnwindAction.targets_mapTargets (u : MIRUnwindAction) :
    (u.mapTargets f).targets = u.targets.map f := by
  cases u <;> rfl

variable {g : BitVec 32 → BitVec 32}

theorem MIRUnwindAction.mapTargets_mapTargets (u : MIRUnwindAction) :
    (u.mapTargets f).mapTargets g = u.mapTargets fun b => g (f b) := by
  cases u <;> rfl

theorem MIRAsmParam.mapTargets_mapTargets (p : MIRAsmParam V) :
    (p.mapTargets f).mapTargets g = p.mapTargets fun b => g (f b) := by
  cases p <;> rfl

theorem MIRAsmParam.targets_mapTargets (p : MIRAsmParam V) :
    (p.mapTargets f).targets = p.targets.map f := by
  cases p <;> rfl

/-- `~0u` stands for no block. -/
theorem MIRTerminator.targets_mapTargets {t : MIRTerminator V} (hf : ∀ b ∈ t.targets, f b ≠ NONE) :
    (t.mapTargets f).targets = t.targets.map f := by
  cases t with
  | Switch val targets validFlag invalidTarget =>
    simp only [mapTargets, MIRTerminator.targets]
    by_cases h : validFlag ≠ NONE
    · simp [h]
    · simp [h]
  | Drop kind slot flagIdx target unwind =>
    simp [mapTargets, MIRTerminator.targets, MIRUnwindAction.targets_mapTargets]
  | Call retBlock unwind retVal fcn args source tracksCaller =>
    simp [mapTargets, MIRTerminator.targets, MIRUnwindAction.targets_mapTargets]
  | Asm2 options lines params retBlock =>
    have hparams : (params.map (·.mapTargets f)).flatMap (·.targets) =
        (params.flatMap (·.targets)).map f := by
      rw [List.flatMap_map, List.map_flatMap]
      exact List.flatMap_congr fun p _ => p.targets_mapTargets
    simp only [mapTargets, MIRTerminator.targets, hparams, List.map_append]
    by_cases h : retBlock = NONE
    · simp [h]
    · have hret : f retBlock ≠ NONE := hf _ (by simp [MIRTerminator.targets, h])
      simp [h, hret]
  | _ => simp [mapTargets, MIRTerminator.targets]

theorem MIRTerminator.mapTargets_congr {t : MIRTerminator V}
    (h : ∀ b ∈ t.targets, f b = g b) : t.mapTargets f = t.mapTargets g := by
  have hunwind : ∀ u : MIRUnwindAction, (∀ b ∈ u.targets, f b = g b) →
      u.mapTargets f = u.mapTargets g := by
    intro u hu
    cases u <;> simp_all [MIRUnwindAction.mapTargets, MIRUnwindAction.targets]
  cases t with
  | Switch val targets validFlag invalidTarget =>
    by_cases hv : validFlag = NONE
    · simp_all [mapTargets, MIRTerminator.targets]
    · simp only [mapTargets, MIRTerminator.targets, ne_eq, hv, not_false_eq_true, if_true,
        List.mem_append, List.mem_singleton] at h ⊢
      rw [List.map_congr_left fun b hb => h b (.inl hb), h invalidTarget (.inr rfl)]
  | SwitchValue val defTarget targets values =>
    rw [mapTargets, mapTargets, List.map_congr_left fun b hb => h b (List.mem_append_left _ hb),
      h defTarget (List.mem_append_right _ List.mem_cons_self)]
  | Drop kind slot flagIdx target unwind =>
    rw [mapTargets, mapTargets, h target List.mem_cons_self,
      hunwind unwind fun b hb => h b (List.mem_cons_of_mem _ hb)]
  | Call retBlock unwind retVal fcn args source tracksCaller =>
    rw [mapTargets, mapTargets, h retBlock List.mem_cons_self,
      hunwind unwind fun b hb => h b (List.mem_cons_of_mem _ hb)]
  | Asm2 options lines params retBlock =>
    have hparams : params.map (·.mapTargets f) = params.map (·.mapTargets g) := by
      refine List.map_congr_left fun p hp => ?_
      have hmem : ∀ b ∈ p.targets, f b = g b := fun b hb =>
        h b (List.mem_append_left _ (List.mem_flatMap.2 ⟨p, hp, hb⟩))
      cases p <;> simp_all [MIRAsmParam.mapTargets, MIRAsmParam.targets]
    by_cases hret : retBlock = NONE
    · simp [mapTargets, hparams, hret]
    · have hf : f retBlock = g retBlock := h _ (by simp [MIRTerminator.targets, hret])
      simp [mapTargets, hparams, hret, hf]
  | _ => simp_all [mapTargets, MIRTerminator.targets]

theorem MIRTerminator.isBranch_mapTargets (t : MIRTerminator V) :
    (t.mapTargets f).isBranch = t.isBranch := by
  cases t <;> rfl

theorem MIRTerminator.shape_mapTargets {t : MIRTerminator V} (hf : ∀ b ∈ t.targets, f b ≠ NONE) :
    (t.mapTargets f).shape = t.shape := by
  cases t with
  | Drop kind slot flagIdx target unwind =>
    simp [mapTargets, shape, MIRUnwindAction.mapTargets_mapTargets]
  | Call retBlock unwind retVal fcn args source tracksCaller =>
    simp [mapTargets, shape, MIRUnwindAction.mapTargets_mapTargets]
  | Asm2 options lines params retBlock =>
    by_cases h : retBlock = NONE
    · simp [mapTargets, shape, MIRAsmParam.mapTargets_mapTargets, h, Function.comp_def]
    · have hret : f retBlock ≠ NONE := hf _ (by simp [MIRTerminator.targets, h])
      simp [mapTargets, shape, MIRAsmParam.mapTargets_mapTargets, h, hret, Function.comp_def]
  | _ => simp [mapTargets, shape, Function.comp_def]

end MapLemmas

end Trustme.Metadata

namespace Trustme.Mir

open Metadata Lib

variable {V : Vocabulary} {W : Type}

/-! ## 2. Executions -/

/-- What the parts of a function do to the world. A branch only looks at it. -/
structure Interp (V : Vocabulary) (W : Type) where
  stmt : MIRStatement V → W → W → Prop
  truth : MIRLValue V → W → Bool
  /-- The variants that a place can have, and the one it has. -/
  variants : MIRLValue V → Nat
  variant : MIRLValue V → W → Nat
  variant_lt : ∀ val w, 0 < variants val → variant val w < variants val
  /-- The first of the values that the place has. -/
  matched : MIRLValue V → MIRSwitchValues → W → Option Nat
  matched_lt : ∀ val values w k, matched val values w = some k → k < values.length
  flag : BitVec 32 → W → Bool
  /-- The edge on which a terminator without its targets goes on, if it does. -/
  leave : MIRTerminator V → W → Option Nat → W → Prop

/-- The number of the edge that a branch takes. -/
def Interp.edge (I : Interp V W) (w : W) : MIRTerminator V → Nat
  | .If cond _ _ => if I.truth cond w then 0 else 1
  | .Switch val targets validFlag _ =>
    if validFlag ≠ NONE ∧ I.flag validFlag w = false then targets.length else I.variant val w
  | .SwitchValue val _ targets values => (I.matched val values w).getD targets.length
  | _ => 0

/-- Where a branch goes on. -/
def Interp.next (I : Interp V W) (w : W) (t : MIRTerminator V) : Option (BitVec 32) :=
  t.targets[I.edge w t]?

/-- A Switch has a target for every variant, a SwitchValue one for every value; a flag is only there
    for what has variants. -/
def SwitchFits (I : Interp V W) : MIRTerminator V → Prop
  | .Switch val targets validFlag _ =>
    targets.length = I.variants val ∧ (validFlag ≠ NONE → targets ≠ [])
  | .SwitchValue _ _ targets values => targets.length = values.length
  | _ => True

/-- In block `bb` with the statements that are left, or behind the function. -/
inductive Point (V : Vocabulary) where
  | inside (bb : Nat) (rest : List (MIRStatement V))
  | ended

structure State (V : Vocabulary) (W : Type) where
  point : Point V
  world : W

/-- What is seen of an execution. -/
inductive Event (V : Vocabulary) (W : Type) where
  | ran (stmt : MIRStatement V) (w : W)
  | left (shape : MIRTerminator V) (edge : Option Nat) (w : W)

/-- The statements of a block. -/
def statementsAt (fcn : MIRFunction V) (bb : Nat) : List (MIRStatement V) :=
  (fcn.blocks[bb]?.map (·.statements)).getD []

/-- At the start of a block. -/
def enter (fcn : MIRFunction V) (bb : Nat) (w : W) : State V W :=
  ⟨.inside bb (statementsAt fcn bb), w⟩

inductive Moves (I : Interp V W) (fcn : MIRFunction V) :
    State V W → Option (Event V W) → State V W → Prop where
  | stmt {bb rest w w'} (x : MIRStatement V) (h : I.stmt x w w') :
      Moves I fcn ⟨.inside bb (x :: rest), w⟩ (some (.ran x w')) ⟨.inside bb rest, w'⟩
  | branch {bb w block target} (hblock : fcn.blocks[bb]? = some block)
      (hbranch : block.terminator.isBranch = true)
      (hnext : I.next w block.terminator = some target) :
      Moves I fcn ⟨.inside bb [], w⟩ none (enter fcn target.toNat w)
  | leave {bb w w' block target edge} (hblock : fcn.blocks[bb]? = some block)
      (hbranch : block.terminator.isBranch = false)
      (hleave : I.leave block.terminator.shape w (some edge) w')
      (htarget : block.terminator.targets[edge]? = some target) :
      Moves I fcn ⟨.inside bb [], w⟩ (some (.left block.terminator.shape (some edge) w'))
        (enter fcn target.toNat w')
  | stop {bb w w' block} (hblock : fcn.blocks[bb]? = some block)
      (hbranch : block.terminator.isBranch = false)
      (hleave : I.leave block.terminator.shape w none w') :
      Moves I fcn ⟨.inside bb [], w⟩ (some (.left block.terminator.shape none w')) ⟨.ended, w'⟩

/-- The executions of two functions look the same, whatever the world is at the start. -/
def SameTraces (I : Interp V W) (fcn fcn' : MIRFunction V) : Prop :=
  ∀ w tr, Trace (Moves I fcn) (enter fcn 0 w) tr ↔ Trace (Moves I fcn') (enter fcn' 0 w) tr

variable {I : Interp V W}

theorem Moves.block_some {fcn : MIRFunction V} {u : Nat} {w : W} {l : Option (Event V W)}
    {c' : State V W} (hstep : Moves I fcn ⟨.inside u [], w⟩ l c') :
    ∃ block, fcn.blocks[u]? = some block := by
  cases hstep with
  | branch hb => exact ⟨_, hb⟩
  | leave hb => exact ⟨_, hb⟩
  | stop hb => exact ⟨_, hb⟩

/-- What a terminator does in one function it does in another where it ends a block as well. -/
theorem Moves.of_terminator {fcn fcn' : MIRFunction V} {R : State V W → State V W → Prop}
    {u u' : Nat} {block block' : MIRBasicBlock V} (hb : fcn.blocks[u]? = some block)
    (hb' : fcn'.blocks[u']? = some block') (ht : block'.terminator = block.terminator)
    (henters : ∀ b ∈ block.terminator.targets, ∀ w,
      R (enter fcn b.toNat w) (enter fcn' b.toNat w))
    (hended : ∀ w, R ⟨.ended, w⟩ ⟨.ended, w⟩) {w : W} {l : Option (Event V W)} {c' : State V W}
    (hstep : Moves I fcn ⟨.inside u [], w⟩ l c') :
    ∃ d', Moves I fcn' ⟨.inside u' [], w⟩ l d' ∧ R c' d' := by
  cases hstep with
  | branch hb₁ hbranch hnext =>
    cases hb₁.symm.trans hb
    exact ⟨_, .branch hb' (ht ▸ hbranch) (ht ▸ hnext), henters _ (List.mem_of_getElem? hnext) _⟩
  | leave hb₁ hbranch hleave hedge =>
    cases hb₁.symm.trans hb
    refine ⟨_, ?_, henters _ (List.mem_of_getElem? hedge) _⟩
    rw [← ht]
    exact .leave hb' (ht ▸ hbranch) (ht ▸ hleave) (ht ▸ hedge)
  | stop hb₁ hbranch hleave =>
    cases hb₁.symm.trans hb
    refine ⟨_, ?_, hended _⟩
    rw [← ht]
    exact .stop hb' (ht ▸ hbranch) (ht ▸ hleave)

theorem SameTraces.refl (fcn : MIRFunction V) : SameTraces I fcn fcn :=
  fun _ _ => Iff.rfl

theorem SameTraces.trans {I : Interp V W} {fcn fcn' fcn'' : MIRFunction V}
    (h : SameTraces I fcn fcn') (h' : SameTraces I fcn' fcn'') : SameTraces I fcn fcn'' :=
  fun w tr => (h w tr).trans (h' w tr)

/-- A silent step is the only one. -/
theorem Moves.silent_unique {fcn : MIRFunction V} {s s' s'' : State V W} {l : Option (Event V W)}
    (h : Moves I fcn s none s') (h' : Moves I fcn s l s'') :
    l = none ∧ s'' = s' := by
  cases h with
  | branch hblock hbranch hnext =>
    cases h' with
    | branch hblock' hbranch' hnext' =>
      cases hblock.symm.trans hblock'
      cases hnext.symm.trans hnext'
      exact ⟨rfl, rfl⟩
    | leave hblock' hbranch' hleave' htarget' =>
      cases hblock.symm.trans hblock'
      cases hbranch.symm.trans hbranch'
    | stop hblock' hbranch' hleave' =>
      cases hblock.symm.trans hblock'
      cases hbranch.symm.trans hbranch'

/-- A function as it is lowered: there is a first block, all edges are there, and `~0u` is the
    number of no block. -/
structure WellFormed (I : Interp V W) (fcn : MIRFunction V) : Prop where
  entry : 0 < fcn.blocks.length
  size : fcn.blocks.length ≤ NONE.toNat
  targets : ∀ (bb : Nat) (block : MIRBasicBlock V), fcn.blocks[bb]? = some block →
    ∀ b ∈ block.terminator.targets, b.toNat < fcn.blocks.length
  switches : ∀ (bb : Nat) (block : MIRBasicBlock V), fcn.blocks[bb]? = some block →
    SwitchFits I block.terminator

theorem WellFormed.ne_none {fcn : MIRFunction V} (h : WellFormed I fcn) {b : BitVec 32}
    (hb : b.toNat < fcn.blocks.length) : b ≠ NONE := by
  rintro rfl
  exact absurd (Nat.lt_of_lt_of_le hb h.size) (Nat.lt_irrefl _)

/-! ## 3. The edges that are taken -/

theorem SwitchFits.mapTargets {I : Interp V W} {f : BitVec 32 → BitVec 32} {t : MIRTerminator V}
    (h : SwitchFits I t) : SwitchFits I (t.mapTargets f) := by
  cases t <;> simp_all [SwitchFits, MIRTerminator.mapTargets]

theorem Interp.edge_mapTargets (I : Interp V W) (w : W) {f : BitVec 32 → BitVec 32}
    (t : MIRTerminator V) : I.edge w (t.mapTargets f) = I.edge w t := by
  cases t <;> simp [Interp.edge, MIRTerminator.mapTargets]

theorem Interp.next_mapTargets (I : Interp V W) (w : W) {f : BitVec 32 → BitVec 32}
    {t : MIRTerminator V} (hf : ∀ b ∈ t.targets, f b ≠ NONE) :
    I.next w (t.mapTargets f) = (I.next w t).map f := by
  rw [Interp.next, Interp.next, I.edge_mapTargets, MIRTerminator.targets_mapTargets hf,
    List.getElem?_map]

/-- A branch that has a target goes to one. -/
theorem SwitchFits.edge_lt {t : MIRTerminator V} (h : SwitchFits I t) (hbranch : t.isBranch = true)
    (hne : t.targets ≠ []) (w : W) :
    I.edge w t < t.targets.length := by
  cases t with
  | Goto target => exact Nat.one_pos
  | If cond bbTrue bbFalse =>
    simp only [Interp.edge, MIRTerminator.targets, List.length_cons, List.length_nil]
    split <;> omega
  | Switch val targets validFlag invalidTarget =>
    obtain ⟨hlen, hflag⟩ := h
    simp only [Interp.edge, MIRTerminator.targets, List.length_append]
    by_cases hv : validFlag = NONE
    · have hpos : 0 < I.variants val := by
        rw [← hlen]
        refine List.length_pos_iff.2 fun he => hne ?_
        simp [MIRTerminator.targets, he, hv]
      have hlt := I.variant_lt val w hpos
      simp only [hv, ne_eq, not_true_eq_false, false_and, if_false]
      omega
    · have hpos : 0 < I.variants val := hlen ▸ List.length_pos_iff.2 (hflag hv)
      have hlt := I.variant_lt val w hpos
      rw [if_pos hv]
      split
      · simp
      · simp only [List.length_singleton]
        omega
  | SwitchValue val defTarget targets values =>
    have hlen : targets.length = values.length := h
    simp only [Interp.edge, MIRTerminator.targets, List.length_append, List.length_singleton]
    cases hm : I.matched val values w with
    | none => simp
    | some k =>
      have hlt := I.matched_lt val values w k hm
      simp only [Option.getD_some]
      omega
  | _ => cases hbranch

/-! ## 4. Blocks that are replaced -/

/-- The function with another block. -/
def setBlock (fcn : MIRFunction V) (bb : Nat) (block : MIRBasicBlock V) : MIRFunction V :=
  { fcn with blocks := fcn.blocks.set bb block }

def setTerminator (fcn : MIRFunction V) (bb : Nat) (t : MIRTerminator V) : MIRFunction V :=
  match fcn.blocks[bb]? with
  | some block => setBlock fcn bb { block with terminator := t }
  | none => fcn

variable {fcn : MIRFunction V} {bb bb' : Nat} {block : MIRBasicBlock V} {t : MIRTerminator V}

theorem setBlock_same (h : bb < fcn.blocks.length) :
    (setBlock fcn bb block).blocks[bb]? = some block := by
  rw [setBlock, List.getElem?_set_self h]

theorem setBlock_other (h : bb ≠ bb') : (setBlock fcn bb block).blocks[bb']? = fcn.blocks[bb']? :=
  List.getElem?_set_ne h

@[simp] theorem setBlock_length : (setBlock fcn bb block).blocks.length = fcn.blocks.length :=
  List.length_set

theorem setTerminator_same (h : fcn.blocks[bb]? = some block) :
    (setTerminator fcn bb t).blocks[bb]? = some { block with terminator := t } := by
  rw [setTerminator, h]
  exact setBlock_same (List.getElem?_eq_some_iff.1 h).1

theorem setTerminator_other (h : bb ≠ bb') :
    (setTerminator fcn bb t).blocks[bb']? = fcn.blocks[bb']? := by
  rw [setTerminator]
  split
  · exact setBlock_other h
  · rfl

@[simp] theorem setTerminator_length :
    (setTerminator fcn bb t).blocks.length = fcn.blocks.length := by
  rw [setTerminator]
  split
  · exact setBlock_length
  · rfl

theorem statementsAt_setTerminator : statementsAt (setTerminator fcn bb t) = statementsAt fcn := by
  funext u
  rw [statementsAt, statementsAt]
  by_cases hu : bb = u
  · subst hu
    cases h : fcn.blocks[bb]? with
    | none => rw [setTerminator, h, h]
    | some block =>
      rw [setTerminator_same h]
      rfl
  · rw [setTerminator_other hu]

theorem enter_setTerminator (u : Nat) (w : W) :
    enter (setTerminator fcn bb t) u w = enter fcn u w := by
  rw [enter, enter, statementsAt_setTerminator]

/-- Functions that differ in the terminator of a block only, step alike elsewhere. -/
theorem Moves.elsewhere {I : Interp V W} {fcn fcn' : MIRFunction V}
    (hblocks : ∀ u, bb ≠ u → fcn'.blocks[u]? = fcn.blocks[u]?)
    (henter : ∀ u w, enter (W := W) fcn' u w = enter fcn u w) {c c' : State V W}
    {l : Option (Event V W)} (h : Moves I fcn c l c') (hc : ∀ w, c ≠ ⟨.inside bb [], w⟩) :
    Moves I fcn' c l c' := by
  have hne : ∀ {u w}, c = ⟨.inside u [], w⟩ → bb ≠ u := fun he hu => hc _ (hu ▸ he)
  cases h with
  | stmt x hx => exact .stmt x hx
  | branch hb hbranch hnext =>
    rw [← henter]
    exact .branch ((hblocks _ (hne rfl)).trans hb) hbranch hnext
  | leave hb hbranch hleave hedge =>
    rw [← henter]
    exact .leave ((hblocks _ (hne rfl)).trans hb) hbranch hleave hedge
  | stop hb hbranch hleave => exact .stop ((hblocks _ (hne rfl)).trans hb) hbranch hleave

theorem step_setTerminator_iff {c c' : State V W} {l : Option (Event V W)}
    (hc : ∀ w, c ≠ ⟨.inside bb [], w⟩) : Moves I (setTerminator fcn bb t) c l c' ↔
      Moves I fcn c l c' :=
  ⟨fun h => h.elsewhere (fun _ hu => (setTerminator_other hu).symm)
      (fun _ _ => (enter_setTerminator _ _).symm) hc,
    fun h => h.elsewhere (fun _ hu => setTerminator_other hu)
      (fun _ _ => enter_setTerminator _ _) hc⟩

/-- At the end of block `bb`, or elsewhere. -/
theorem State.atEnd_or (bb : Nat) (c : State V W) :
    (∃ w, c = ⟨.inside bb [], w⟩) ∨ ∀ w, c ≠ ⟨.inside bb [], w⟩ := by
  by_cases h : ∃ w, c = ⟨.inside bb [], w⟩
  · exact .inl h
  · exact .inr fun w hw => h ⟨w, hw⟩

/-! ## 5. For examples -/

/-- Types and paths that are all the same. -/
def bare : Vocabulary := ⟨Unit, Unit, Unit, Unit, Unit, Unit, fun _ => false⟩

instance : DecidableEq bare.HIRType := inferInstanceAs (DecidableEq Unit)
instance : DecidableEq bare.HIRPath := inferInstanceAs (DecidableEq Unit)
instance : DecidableEq bare.HIRGenericPath := inferInstanceAs (DecidableEq Unit)
instance : DecidableEq bare.HIRPathParams := inferInstanceAs (DecidableEq Unit)
instance : DecidableEq bare.HIRConstGeneric := inferInstanceAs (DecidableEq Unit)

/-- Nothing is changed, no condition is true, and all goes on along the first edge. -/
def idle : Interp bare Unit where
  stmt _ _ _ := True
  truth _ _ := false
  variants _ := 1
  variant _ _ := 0
  variant_lt _ _ h := h
  matched _ _ _ := none
  matched_lt := nofun
  flag _ _ := false
  leave t _ edge _ := edge = t.targets.head?.map fun _ => 0

end Trustme.Mir
