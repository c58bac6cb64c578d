/-
  Subject:   Edits of a MIR function's blocks that leave its executions as they are.

  * `Skips`, `Reroutes`, `reroute_traces`: a target is replaced by one it leads to silently;
  * `endsFunction`, `inline_end_traces`: a Goto to a block that only ends the function;
  * `SoleEdge`, `append_traces`: a block with one edge to it goes behind its predecessor;
  * `Redirects`, `Redirects.traces`: blocks that are the same become one.
-/
import Mathlib.Data.List.Forall2
import Trustme.Mir.Executions

namespace Trustme.Mir

open Metadata Lib

variable {V : Vocabulary} {W : Type} {I : Interp V W} {fcn : MIRFunction V}

/-! ## 1. Other targets -/

/-- Whoever enters `target` in the world `w` gets silently to `target'`. -/
def Skips (I : Interp V W) (fcn : MIRFunction V) (w : W) (target target' : BitVec 32) : Prop :=
  Relation.ReflTransGen (Moves I fcn · none ·) (enter fcn target.toNat w)
    (enter fcn target'.toNat w)

theorem Skips.refl {w : W} {target : BitVec 32} : Skips I fcn w target target :=
  Relation.ReflTransGen.refl

/-- `t'` does what `t` does, with targets that those of `t` lead to. -/
inductive Reroutes (I : Interp V W) (fcn : MIRFunction V) (t t' : MIRTerminator V) : Prop where
  | branch (h : t.isBranch = true) (h' : t'.isBranch = true)
      (hnext : ∀ w, Option.Rel (Skips I fcn w) (I.next w t) (I.next w t'))
  | same (h : t.isBranch = false) (h' : t'.isBranch = false) (hshape : t'.shape = t.shape)
      (htargets : List.Forall₂ (fun a b => ∀ w, Skips I fcn w a b) t.targets t'.targets)

/-- The states of the old execution that lead to one of the new execution. -/
def Leads (I : Interp V W) (fcn : MIRFunction V) : State V W → State V W → Prop :=
  Relation.ReflTransGen (Moves I fcn · none ·)

section Reroute

variable {bb : Nat} {block : MIRBasicBlock V} {t : MIRTerminator V}

variable (hblock : fcn.blocks[bb]? = some block) (h : Reroutes I fcn block.terminator t)

include hblock h

/-- A step of the old execution is one of the new execution, or one to where that leads. -/
theorem reroute_step {c c' : State V W} {l : Option (Event V W)}
    (hstep : Moves I fcn c l c') :
    ∃ d, Moves I (setTerminator fcn bb t) c l d ∧ Leads I fcn c' d := by
  have hsame := setTerminator_same (t := t) hblock
  rcases c.atEnd_or bb with ⟨w, rfl⟩ | hc
  · cases hstep with
    | branch hb hbranch hnext =>
      cases hb.symm.trans hblock
      cases h with
      | same ht _ _ _ => exact absurd hbranch (by rw [ht]; decide)
      | branch _ ht' hskip =>
        have hrel := hskip w
        rw [hnext] at hrel
        cases hn : I.next w t with
        | none => rw [hn] at hrel; cases hrel
        | some target' =>
          rw [hn] at hrel
          cases hrel with
          | some hs =>
            refine ⟨enter fcn target'.toNat w, ?_, hs⟩
            rw [← enter_setTerminator]
            exact .branch hsame ht' hn
    | leave hb hbranch hleave htarget =>
      cases hb.symm.trans hblock
      cases h with
      | branch ht _ _ => exact absurd hbranch (by rw [ht]; decide)
      | same _ ht' hshape htargets =>
        obtain ⟨hlt, hget⟩ := List.getElem?_eq_some_iff.1 htarget
        have hlen := htargets.length_eq
        have hskip := htargets.get hlt (hlen ▸ hlt)
        rw [List.get_eq_getElem, List.get_eq_getElem, hget] at hskip
        refine ⟨_, ?_, hskip _⟩
        rw [← enter_setTerminator, ← hshape]
        exact .leave hsame ht' (hshape.symm ▸ hleave) (List.getElem?_eq_getElem _)
    | stop hb hbranch hleave =>
      cases hb.symm.trans hblock
      cases h with
      | branch ht _ _ => exact absurd hbranch (by rw [ht]; decide)
      | same _ ht' hshape _ =>
        refine ⟨_, ?_, .refl⟩
        rw [← hshape]
        exact .stop hsame ht' (hshape.symm ▸ hleave)
  · exact ⟨c', (step_setTerminator_iff hc).2 hstep, .refl⟩

/-- A step of the new execution is where one of the old execution leads. -/
theorem reroute_step_back {d d' : State V W} {l : Option (Event V W)}
    (hstep : Moves I (setTerminator fcn bb t) d l d') :
    ∃ c, Moves I fcn d l c ∧ Leads I fcn c d' := by
  have hsame := setTerminator_same (t := t) hblock
  rcases d.atEnd_or bb with ⟨w, rfl⟩ | hd
  · cases hstep with
    | branch hb hbranch hnext =>
      cases hb.symm.trans hsame
      rw [enter_setTerminator]
      cases h with
      | same _ ht' _ _ => exact absurd hbranch (by rw [ht']; decide)
      | branch ht _ hskip =>
        have hrel := hskip w
        rw [hnext] at hrel
        cases hn : I.next w block.terminator with
        | none => rw [hn] at hrel; cases hrel
        | some target' =>
          rw [hn] at hrel
          cases hrel with
          | some hs => exact ⟨_, .branch hblock ht hn, hs⟩
    | leave hb hbranch hleave htarget =>
      cases hb.symm.trans hsame
      rw [enter_setTerminator]
      cases h with
      | branch _ ht' _ => exact absurd hbranch (by rw [ht']; decide)
      | same ht _ hshape htargets =>
        obtain ⟨hlt, hget⟩ := List.getElem?_eq_some_iff.1 htarget
        have hlen := htargets.length_eq
        have hskip := htargets.get (hlen.symm ▸ hlt) hlt
        rw [List.get_eq_getElem, List.get_eq_getElem, hget] at hskip
        refine ⟨_, ?_, hskip _⟩
        show Moves I fcn _ (some (.left t.shape _ _)) _
        rw [hshape]
        exact .leave hblock ht (hshape ▸ hleave) (List.getElem?_eq_getElem _)
    | stop hb hbranch hleave =>
      cases hb.symm.trans hsame
      cases h with
      | branch _ ht' _ => exact absurd hbranch (by rw [ht']; decide)
      | same ht _ hshape _ =>
        refine ⟨_, ?_, .refl⟩
        show Moves I fcn _ (some (.left t.shape _ _)) _
        rw [hshape]
        exact .stop hblock ht (hshape ▸ hleave)
  · exact ⟨d', (step_setTerminator_iff hd).1 hstep, .refl⟩

/-- A terminator may go to where its targets lead. -/
theorem reroute_traces : SameTraces I fcn (setTerminator fcn bb t) := by
  intro w tr
  rw [enter_setTerminator]
  have hto : Simulates (Moves I fcn) (Moves I (setTerminator fcn bb t)) (Leads I fcn) := by
    intro c d l c' hcd hstep
    rcases Relation.ReflTransGen.cases_head hcd with rfl | ⟨c₁, hsilent, hlead⟩
    · obtain ⟨d', hd, hlead⟩ := reroute_step hblock h hstep
      exact ⟨d', .single hd, hlead⟩
    · obtain ⟨rfl, rfl⟩ := hsilent.silent_unique hstep
      exact ⟨d, .refl d, hlead⟩
  have hback : Simulates (Moves I (setTerminator fcn bb t)) (Moves I fcn)
      fun d c => Leads I fcn c d := by
    intro d c l d' hcd hstep
    obtain ⟨c', hc, hlead⟩ := reroute_step_back hblock h hstep
    have hrun := (Run.of_silent hcd).trans (.single hc)
    exact ⟨c', hrun, hlead⟩
  exact trace_iff hto hback .refl .refl

end Reroute

/-! ## 2. Blocks that only end the function -/

/-- The terminators that are copied to the blocks before them. -/
def endsFunction : MIRTerminator V → Bool
  | .Return | .UnwindResume | .UnwindTerminate | .Unreachable => true
  | _ => false

theorem endsFunction_facts {t : MIRTerminator V} (h : endsFunction t = true) :
    t.isBranch = false ∧ t.targets = [] := by
  cases t <;> first | exact ⟨rfl, rfl⟩ | cases h

/-- The old execution is where the new one is, or already in the block that ends the function. -/
inductive Ahead (bb target : Nat) : State V W → State V W → Prop where
  | same (c) : Ahead bb target c c
  | ahead (w) : Ahead bb target ⟨.inside target [], w⟩ ⟨.inside bb [], w⟩

/-- A Goto to a block that only ends the function may end it itself. -/
theorem inline_end_traces {bb : Nat} {target : BitVec 32} {block block' : MIRBasicBlock V}
    (hblock : fcn.blocks[bb]? = some block) (hgoto : block.terminator = .Goto target)
    (hblock' : fcn.blocks[target.toNat]? = some block') (hempty : block'.statements = [])
    (hends : endsFunction block'.terminator = true) :
    SameTraces I fcn (setTerminator fcn bb block'.terminator) := by
  obtain ⟨hnot, hnone⟩ := endsFunction_facts hends
  have hsame := setTerminator_same (t := block'.terminator) hblock
  have htarget : ∀ w : W, enter fcn target.toNat w = ⟨.inside target.toNat [], w⟩ := by
    intro w
    rw [enter, statementsAt, hblock']
    exact congrArg (fun l => State.mk (.inside target.toNat l) w) hempty
  have hgo : ∀ w, Moves I fcn ⟨.inside bb [], w⟩ none ⟨.inside target.toNat [], w⟩ := by
    intro w
    rw [← htarget]
    refine .branch hblock (by rw [hgoto]; rfl) ?_
    rw [hgoto]
    rfl
  intro w tr
  rw [enter_setTerminator]
  have hto : Simulates (Moves I fcn) (Moves I (setTerminator fcn bb block'.terminator))
      (Ahead bb target.toNat) := by
    intro c d l c' hcd hstep
    cases hcd with
    | ahead w =>
      cases hstep with
      | branch hb hbranch hnext =>
        cases hb.symm.trans hblock'
        exact absurd hbranch (by rw [hnot]; decide)
      | leave hb hbranch hleave hedge =>
        cases hb.symm.trans hblock'
        rw [hnone] at hedge
        cases hedge
      | stop hb hbranch hleave =>
        cases hb.symm.trans hblock'
        have hstop : Moves I (setTerminator fcn bb block'.terminator) ⟨.inside bb [], w⟩ _ _ :=
          .stop hsame hnot hleave
        exact ⟨_, .single hstop, .same _⟩
    | same =>
      rcases c.atEnd_or bb with ⟨w, rfl⟩ | hc
      · obtain ⟨rfl, rfl⟩ := (hgo w).silent_unique hstep
        exact ⟨_, .refl _, .ahead w⟩
      · exact ⟨c', .single ((step_setTerminator_iff hc).2 hstep), .same _⟩
  have hback : Simulates (Moves I (setTerminator fcn bb block'.terminator)) (Moves I fcn)
      fun d c => Ahead bb target.toNat c d := by
    intro d c l d' hcd hstep
    rcases d.atEnd_or bb with ⟨w, rfl⟩ | hd
    · have hrun : Run (Moves I fcn) c [] ⟨.inside target.toNat [], w⟩ := by
        cases hcd with
        | ahead => exact .refl _
        | same => exact .single (l := none) (hgo w)
      cases hstep with
      | branch hb hbranch hnext =>
        cases hb.symm.trans hsame
        exact absurd hbranch (by rw [hnot]; decide)
      | leave hb hbranch hleave hedge =>
        cases hb.symm.trans hsame
        rw [hnone] at hedge
        cases hedge
      | stop hb hbranch hleave =>
        cases hb.symm.trans hsame
        have hstop := Run.single (Moves.stop hblock' hnot hleave)
        exact ⟨_, hrun.trans hstop, .same _⟩
    · cases hcd with
      | ahead w => exact absurd rfl (hd w)
      | same => exact ⟨d', .single ((step_setTerminator_iff hd).1 hstep), .same _⟩
  exact trace_iff hto hback (.same _) (.same _)

/-! ## 3. A block behind its only predecessor -/

/-- The appending: the statements and the terminator of `target` go behind those of `bb`. -/
def appendBlock (fcn : MIRFunction V) (bb target : Nat) (block block' : MIRBasicBlock V) :
    MIRFunction V :=
  setBlock (setBlock fcn target ⟨[], .Incomplete, block'.isCleanup⟩) bb
    { block with
      statements := block.statements ++ block'.statements, terminator := block'.terminator }

/-- Among the blocks of `live`, which are closed under edges, only the Goto of `bb` goes to
    `target`. -/
structure SoleEdge (fcn : MIRFunction V) (live : Nat → Prop) (bb : Nat) (target : BitVec 32)
    (block block' : MIRBasicBlock V) : Prop where
  before : fcn.blocks[bb]? = some block
  goto : block.terminator = .Goto target
  behind : fcn.blocks[target.toNat]? = some block'
  ne : bb ≠ target.toNat
  alive : live bb
  closed : ∀ u block₁, live u → fcn.blocks[u]? = some block₁ → ∀ b ∈ block₁.terminator.targets,
    live b.toNat
  sole : ∀ u block₁, live u → u ≠ bb → fcn.blocks[u]? = some block₁ →
    ∀ b ∈ block₁.terminator.targets, b.toNat ≠ target.toNat

namespace SoleEdge

variable {live : Nat → Prop} {bb : Nat} {target : BitVec 32} {block block' : MIRBasicBlock V}

/-- Where the old execution is, and where the new one is. -/
inductive Shifted (live : Nat → Prop) (bb target : Nat) (moved : List (MIRStatement V)) :
    State V W → State V W → Prop where
  | ended (w) : Shifted live bb target moved ⟨.ended, w⟩ ⟨.ended, w⟩
  | before (rest w) :
      Shifted live bb target moved ⟨.inside bb rest, w⟩ ⟨.inside bb (rest ++ moved), w⟩
  | behind (rest w) : Shifted live bb target moved ⟨.inside target rest, w⟩ ⟨.inside bb rest, w⟩
  | other (u rest w) (hlive : live u) (hbb : u ≠ bb) (htarget : u ≠ target) :
      Shifted live bb target moved ⟨.inside u rest, w⟩ ⟨.inside u rest, w⟩

variable (h : SoleEdge fcn live bb target block block')

include h

theorem appended_same : (appendBlock fcn bb target.toNat block block').blocks[bb]? =
    some { block with
      statements := block.statements ++ block'.statements, terminator := block'.terminator } := by
  refine setBlock_same ?_
  rw [setBlock_length]
  exact (List.getElem?_eq_some_iff.1 h.before).1

omit h in
theorem appended_other {u : Nat} (hbb : u ≠ bb) (htarget : u ≠ target.toNat) :
    (appendBlock fcn bb target.toNat block block').blocks[u]? = fcn.blocks[u]? := by
  rw [appendBlock, setBlock_other hbb.symm, setBlock_other htarget.symm]

/-- Both executions enter a block that is not `target`. -/
theorem enters {u : Nat} (hlive : live u) (htarget : u ≠ target.toNat) (w : W) :
    Shifted live bb target.toNat block'.statements (enter fcn u w)
      (enter (appendBlock fcn bb target.toNat block block') u w) := by
  by_cases hu : u = bb
  · subst hu
    have hold : enter fcn u w = ⟨.inside u block.statements, w⟩ := by
      rw [enter, statementsAt, h.before]
      rfl
    have hnew : enter (appendBlock fcn u target.toNat block block') u w =
        ⟨.inside u (block.statements ++ block'.statements), w⟩ := by
      rw [enter, statementsAt, h.appended_same]
      rfl
    rw [hold, hnew]
    exact .before _ _
  · rw [enter, enter, statementsAt, statementsAt, appended_other hu htarget]
    exact .other _ _ _ hlive hu htarget

theorem enters_target (w : W) :
    enter fcn target.toNat w = ⟨.inside target.toNat block'.statements, w⟩ := by
  rw [enter, statementsAt, h.behind]
  rfl

theorem goes (w : W) :
    Moves I fcn ⟨.inside bb [], w⟩ none ⟨.inside target.toNat block'.statements, w⟩ := by
  rw [← h.enters_target]
  refine .branch h.before (by rw [h.goto]; rfl) ?_
  rw [h.goto]
  rfl

theorem target_live : live target.toNat := by
  refine h.closed _ _ h.alive h.before target ?_
  rw [h.goto]
  exact List.mem_singleton_self _

variable {block₁ : MIRBasicBlock V}

/-- The edges of a live block but that of `bb` go to live blocks that are not `target`. -/
theorem enters_edge {u : Nat} (hlive : live u) (hu : u ≠ bb) (hb : fcn.blocks[u]? = some block₁)
    (b : BitVec 32) (hmem : b ∈ block₁.terminator.targets) (w : W) :
    Shifted live bb target.toNat block'.statements (enter fcn b.toNat w)
      (enter (appendBlock fcn bb target.toNat block block') b.toNat w) :=
  h.enters (h.closed _ _ hlive hb b hmem) (h.sole _ _ hlive hu hb b hmem) w

theorem simulates : Simulates (Moves I fcn)
    (Moves I (appendBlock fcn bb target.toNat block block'))
    (Shifted live bb target.toNat block'.statements) := by
  intro c d l c' hcd hstep
  cases hcd with
  | ended w => cases hstep
  | before rest w =>
    cases rest with
    | cons x rest =>
      cases hstep with
      | stmt _ hx => exact ⟨_, .single (.stmt x hx), .before _ _⟩
    | nil =>
      obtain ⟨rfl, rfl⟩ := (h.goes w).silent_unique hstep
      exact ⟨_, .refl _, .behind _ _⟩
  | behind rest w =>
    cases rest with
    | cons x rest =>
      cases hstep with
      | stmt _ hx => exact ⟨_, .single (.stmt x hx), .behind _ _⟩
    | nil =>
      obtain ⟨d', hd, hsh⟩ := hstep.of_terminator h.behind h.appended_same rfl
        (h.enters_edge h.target_live h.ne.symm h.behind) Shifted.ended
      exact ⟨d', .single hd, hsh⟩
  | other u rest w hlive hbb htarget =>
    cases rest with
    | cons x rest =>
      cases hstep with
      | stmt _ hx => exact ⟨_, .single (.stmt x hx), .other _ _ _ hlive hbb htarget⟩
    | nil =>
      obtain ⟨block₁, hb⟩ := hstep.block_some
      obtain ⟨d', hd, hsh⟩ := hstep.of_terminator hb ((appended_other hbb htarget).trans hb) rfl
        (h.enters_edge hlive hbb hb) Shifted.ended
      exact ⟨d', .single hd, hsh⟩

theorem simulates_back : Simulates (Moves I (appendBlock fcn bb target.toNat block block'))
    (Moves I fcn) (fun d c => Shifted live bb target.toNat block'.statements c d) := by
  intro d c l d' hcd hstep
  -- behind the statements of `bb` the old execution goes to `target` first
  have henters := h.enters_edge (W := W) h.target_live h.ne.symm h.behind
  have hbehind : ∀ {w d' l}, Moves I (appendBlock fcn bb target.toNat block block')
      ⟨.inside bb [], w⟩ l d' → ∃ c', Moves I fcn ⟨.inside target.toNat [], w⟩ l c' ∧
        Shifted live bb target.toNat block'.statements c' d' := fun hstep =>
    hstep.of_terminator (R := fun d c => Shifted live bb target.toNat block'.statements c d)
      h.appended_same h.behind rfl henters .ended
  cases hcd with
  | ended w => cases hstep
  | before rest w =>
    cases rest with
    | cons x rest =>
      cases hstep with
      | stmt _ hx => exact ⟨_, .single (.stmt x hx), .before _ _⟩
    | nil =>
      have hgo : Run (Moves I fcn) ⟨.inside bb [], w⟩ [] _ := .single (l := none) (h.goes w)
      rw [List.nil_append] at hstep
      cases hmoved : block'.statements with
      | cons x rest =>
        rw [hmoved] at hstep hgo
        cases hstep with
        | stmt _ hx =>
          have hrun : Moves I fcn ⟨.inside target.toNat (x :: rest), w⟩ _ _ := .stmt x hx
          exact ⟨_, hgo.trans (.single hrun), .behind _ _⟩
      | nil =>
        rw [hmoved] at hstep hgo
        obtain ⟨c', hc, hsh⟩ := hbehind hstep
        rw [hmoved] at hsh
        exact ⟨c', hgo.trans (.single hc), hsh⟩
  | behind rest w =>
    cases rest with
    | cons x rest =>
      cases hstep with
      | stmt _ hx => exact ⟨_, .single (.stmt x hx), .behind _ _⟩
    | nil =>
      obtain ⟨c', hc, hsh⟩ := hbehind hstep
      exact ⟨c', .single hc, hsh⟩
  | other u rest w hlive hbb htarget =>
    cases rest with
    | cons x rest =>
      cases hstep with
      | stmt _ hx => exact ⟨_, .single (.stmt x hx), .other _ _ _ hlive hbb htarget⟩
    | nil =>
      have hsame : (appendBlock fcn bb target.toNat block block').blocks[u]? = fcn.blocks[u]? :=
        appended_other hbb htarget
      obtain ⟨block₁, hb⟩ := hsame ▸ hstep.block_some
      obtain ⟨c', hc, hsh⟩ := hstep.of_terminator
        (R := fun d c => Shifted live bb target.toNat block'.statements c d) (hsame.trans hb) hb rfl
        (h.enters_edge hlive hbb hb) .ended
      exact ⟨c', .single hc, hsh⟩

/-- A block goes behind its only predecessor. -/
theorem append_traces (hzero : live 0) (hentry : 0 ≠ target.toNat) :
    SameTraces I fcn (appendBlock fcn bb target.toNat block block') := fun w _ =>
  trace_iff h.simulates h.simulates_back (h.enters hzero hentry w) (h.enters hzero hentry w)

end SoleEdge

/-! ## 4. Blocks that are the same -/

theorem MIRTerminator.isBranch_shape (t : MIRTerminator V) : t.shape.isBranch = t.isBranch := by
  cases t <;> rfl

theorem Interp.edge_shape (I : Interp V W) (w : W) (t : MIRTerminator V) :
    I.edge w t.shape = I.edge w t := by
  cases t <;> simp [Interp.edge, MIRTerminator.shape, MIRTerminator.mapTargets]

/-- Every block `u` of `fcn` is block `σ u` of `fcn'`, with the targets renamed alike. -/
structure Redirects (fcn fcn' : MIRFunction V) (σ : Nat → Nat) : Prop where
  entry : σ 0 = 0
  nonempty : 0 < fcn.blocks.length
  block : ∀ (u : Nat) block, fcn.blocks[u]? = some block → ∃ block',
    fcn'.blocks[σ u]? = some block' ∧
    block'.statements = block.statements ∧ block'.terminator.shape = block.terminator.shape ∧
    block'.terminator.targets.map (·.toNat) = block.terminator.targets.map (fun b => σ b.toNat)
  targets : ∀ (u : Nat) block, fcn.blocks[u]? = some block → ∀ b ∈ block.terminator.targets,
    b.toNat < fcn.blocks.length

namespace Redirects

variable {fcn' : MIRFunction V} {σ : Nat → Nat}

/-- Both executions are at the same statement of blocks that are the same. -/
inductive Matched (n : Nat) (σ : Nat → Nat) : State V W → State V W → Prop where
  | ended (w) : Matched n σ ⟨.ended, w⟩ ⟨.ended, w⟩
  | inside (u rest w) (h : u < n) : Matched n σ ⟨.inside u rest, w⟩ ⟨.inside (σ u) rest, w⟩

variable (h : Redirects fcn fcn' σ)

include h

theorem enters {u : Nat} (hu : u < fcn.blocks.length) (w : W) :
    Matched fcn.blocks.length σ (enter fcn u w) (enter fcn' (σ u) w) := by
  obtain ⟨block', hb', hs, _⟩ := h.block u _ (List.getElem?_eq_getElem hu)
  have hsame : statementsAt fcn' (σ u) = statementsAt fcn u := by
    rw [statementsAt, statementsAt, hb', List.getElem?_eq_getElem hu]
    exact hs
  rw [enter, enter, hsame]
  exact .inside _ _ _ hu

/-- The same edge leads to the same block. -/
theorem edges {u : Nat} {block block' : MIRBasicBlock V} (hb : fcn.blocks[u]? = some block)
    (ht : block'.terminator.targets.map (·.toNat) =
      block.terminator.targets.map (fun b => σ b.toNat)) {edge : Nat} :
    (∀ {b}, block.terminator.targets[edge]? = some b → b.toNat < fcn.blocks.length ∧
      ∃ b', block'.terminator.targets[edge]? = some b' ∧ b'.toNat = σ b.toNat) ∧
    ∀ {b'}, block'.terminator.targets[edge]? = some b' →
      ∃ b, block.terminator.targets[edge]? = some b ∧ b'.toNat = σ b.toNat := by
  have hget := congrArg (·[edge]?) ht
  simp only [List.getElem?_map] at hget
  constructor
  · intro b hedge
    rw [hedge, Option.map_some, Option.map_eq_some_iff] at hget
    exact ⟨h.targets u block hb b (List.mem_of_getElem? hedge), hget⟩
  · intro b' hedge
    rw [hedge, Option.map_some] at hget
    obtain ⟨b, hb, hs⟩ := Option.map_eq_some_iff.1 hget.symm
    exact ⟨b, hb, hs.symm⟩

theorem simulates {I : Interp V W} :
    Simulates (Moves I fcn) (Moves I fcn') (Matched fcn.blocks.length σ) := by
  intro c d l c' hcd hstep
  cases hcd with
  | ended w => cases hstep
  | inside u rest w hu =>
    cases hstep with
    | stmt x hx => exact ⟨_, .single (.stmt x hx), .inside _ _ _ hu⟩
    | branch hb hbranch hnext =>
      obtain ⟨block', hb', _, hshape, ht⟩ := h.block u _ hb
      obtain ⟨hlt, b', hedge, hto⟩ := (h.edges hb ht).1 hnext
      have hbranch' := (MIRTerminator.isBranch_shape _).symm.trans
        ((congrArg _ hshape).trans ((MIRTerminator.isBranch_shape _).trans hbranch))
      rw [← I.edge_shape, ← hshape, I.edge_shape] at hedge
      refine ⟨_, .single (.branch hb' hbranch' hedge), ?_⟩
      rw [hto]
      exact h.enters hlt _
    | leave hb hbranch hleave hedge =>
      obtain ⟨block', hb', _, hshape, ht⟩ := h.block u _ hb
      obtain ⟨hlt, b', hedge', hto⟩ := (h.edges hb ht).1 hedge
      have hbranch' := (MIRTerminator.isBranch_shape _).symm.trans
        ((congrArg _ hshape).trans ((MIRTerminator.isBranch_shape _).trans hbranch))
      rw [← hshape] at hleave ⊢
      refine ⟨_, .single (.leave hb' hbranch' hleave hedge'), ?_⟩
      rw [hto]
      exact h.enters hlt _
    | stop hb hbranch hleave =>
      obtain ⟨block', hb', _, hshape, _⟩ := h.block u _ hb
      have hbranch' := (MIRTerminator.isBranch_shape _).symm.trans
        ((congrArg _ hshape).trans ((MIRTerminator.isBranch_shape _).trans hbranch))
      rw [← hshape] at hleave ⊢
      exact ⟨_, .single (.stop hb' hbranch' hleave), .ended _⟩

theorem simulates_back {I : Interp V W} : Simulates (Moves I fcn') (Moves I fcn)
    (fun d c => Matched fcn.blocks.length σ c d) := by
  intro d c l d' hcd hstep
  cases hcd with
  | ended w => cases hstep
  | inside u rest w hu =>
    obtain ⟨block, hb⟩ : ∃ block, fcn.blocks[u]? = some block := ⟨_, List.getElem?_eq_getElem hu⟩
    obtain ⟨block', hb', _, hshape, ht⟩ := h.block u _ hb
    have hbranches : block.terminator.isBranch = block'.terminator.isBranch := by
      rw [← MIRTerminator.isBranch_shape, ← hshape, MIRTerminator.isBranch_shape]
    cases hstep with
    | stmt x hx => exact ⟨_, .single (.stmt x hx), .inside _ _ _ hu⟩
    | branch hb₁ hbranch hnext =>
      cases hb₁.symm.trans hb'
      obtain ⟨b, hedge, hto⟩ := (h.edges hb ht).2 hnext
      have hlt := h.targets u block hb b (List.mem_of_getElem? hedge)
      rw [← I.edge_shape, hshape, I.edge_shape] at hedge
      refine ⟨_, .single (.branch hb (hbranches.trans hbranch) hedge), ?_⟩
      rw [hto]
      exact h.enters hlt _
    | leave hb₁ hbranch hleave hedge =>
      cases hb₁.symm.trans hb'
      obtain ⟨b, hedge', hto⟩ := (h.edges hb ht).2 hedge
      have hlt := h.targets u block hb b (List.mem_of_getElem? hedge')
      rw [hshape] at hleave ⊢
      refine ⟨_, .single (.leave hb (hbranches.trans hbranch) hleave hedge'), ?_⟩
      rw [hto]
      exact h.enters hlt _
    | stop hb₁ hbranch hleave =>
      cases hb₁.symm.trans hb'
      rw [hshape] at hleave ⊢
      exact ⟨_, .single (.stop hb (hbranches.trans hbranch) hleave), .ended _⟩

/-- Blocks that are the same may be one. -/
theorem traces {I : Interp V W} : SameTraces I fcn fcn' := by
  intro w tr
  have hstart := h.enters h.nonempty w
  rw [h.entry] at hstart
  exact trace_iff h.simulates h.simulates_back hstart hstart

end Redirects

end Trustme.Mir
