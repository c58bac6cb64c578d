/-
  Subject:   The executions of the evaluator (`runUntilStackEmpty`, `runTerminator`,
             src/bin/rustc/hir_conv_constant_evaluation.cpp), and the steps that it counts in them.

  Of the values nothing is known, so an execution may take any of the targets of a branch, call any
  function and run any destructors.

  * `Frame`, `Steps`, `Execution`: the stack of calls, from one block to the next;
  * `Reducible`: all circles go through an edge to a block that dominates its source;
  * `Steps.less`: a step away from a block that does not count makes a measure less, unless it is
    a tail call or runs a destructor;
  * `stepBlocksOf_counts`: so without these the blocks that count are passed for ever;
  * `becomeSelf_uncounted`: a function that is nothing but a tail call of itself.
-/
import Mathlib.Data.Finset.Card
import Mathlib.Data.Finset.Range
import Trustme.Eval.StepBlocks
import Trustme.Mir.GotoChains

namespace Trustme.Eval

open Lib Metadata Mir

variable {V : Vocabulary} {F : Type}

/-! ## 1. The stack of calls -/

/-- Where `runTerminator` can go on in the same frame. -/
def nexts : MIRTerminator V → List (BitVec 32)
  | .Drop _ _ _ target _ => [target]
  | .Call retBlock _ _ _ _ _ _ => [retBlock]
  | .Asm2 _ _ _ _ => []
  | t => t.targets

/-- The calls that can put a frame on the stack. -/
def pushes : MIRTerminator V → Bool
  | .Call _ _ _ (.Intrinsic name _) _ _ _ => name == "const_eval_select".toList
  | .Call _ _ _ _ _ _ _ => true
  | _ => false

def isDrop : MIRTerminator V → Bool
  | .Drop _ _ _ _ _ => true
  | _ => false

/-- The terminators that run the destructors of a value. -/
def runsDrop : MIRTerminator V → Bool
  | .Call _ _ _ (.Intrinsic name _) _ _ _ => name == "drop_in_place".toList
  | t => isDrop t

/-- The terminators that leave a function; a tail call of a constructor does too. -/
def returns : MIRTerminator V → Bool
  | .Return | .TailCall _ _ _ _ => true
  | _ => false

def isTailCall : MIRTerminator V → Bool
  | .TailCall _ _ _ _ => true
  | _ => false

/-- A call in progress. Within a terminator that runs destructors there are those that are left. -/
structure Frame (F : Type) where
  fcn : F
  block : Nat
  drops : Option (List F)

inductive StepKind where
  | within
  | call
  | destructor
  | tailCall
  | ret
deriving DecidableEq

/-- The steps of the evaluator. A frame without `drops` is at the start of its block, or waits for a
    call. Destructors run on a stack of their own, which is put on the one that waits for them. -/
inductive Steps (code : F → MIRFunction V) : List (Frame F) → StepKind → List (Frame F) → Prop where
  | within {f : F} {b : Nat} {bb : MIRBasicBlock V} {t : BitVec 32} {rest : List (Frame F)}
      (hbb : (code f).blocks[b]? = some bb) (ht : t ∈ nexts bb.terminator) :
      Steps code (⟨f, b, none⟩ :: rest) .within (⟨f, t.toNat, none⟩ :: rest)
  | call {f : F} {b : Nat} {bb : MIRBasicBlock V} {rest : List (Frame F)}
      (hbb : (code f).blocks[b]? = some bb) (hcall : pushes bb.terminator = true) (g : F) :
      Steps code (⟨f, b, none⟩ :: rest) .call (⟨g, 0, none⟩ :: ⟨f, b, none⟩ :: rest)
  | drop {f : F} {b : Nat} {bb : MIRBasicBlock V} {rest : List (Frame F)}
      (hbb : (code f).blocks[b]? = some bb) (hdrop : runsDrop bb.terminator = true) (gs : List F) :
      Steps code (⟨f, b, none⟩ :: rest) .within (⟨f, b, some gs⟩ :: rest)
  | destructor {f g : F} {b : Nat} {bb : MIRBasicBlock V} {gs : List F} {rest : List (Frame F)}
      (hbb : (code f).blocks[b]? = some bb) (hdrop : runsDrop bb.terminator = true) :
      Steps code (⟨f, b, some (g :: gs)⟩ :: rest)
        (if isDrop bb.terminator then .destructor else .call)
        (⟨g, 0, none⟩ :: ⟨f, b, some gs⟩ :: rest)
  | dropped {f : F} {b : Nat} {bb : MIRBasicBlock V} {t : BitVec 32} {rest : List (Frame F)}
      (hbb : (code f).blocks[b]? = some bb) (ht : t ∈ nexts bb.terminator) :
      Steps code (⟨f, b, some []⟩ :: rest) .within (⟨f, t.toNat, none⟩ :: rest)
  | ret {f f' : F} {b b' : Nat} {bb bb' : MIRBasicBlock V} {t : BitVec 32} {rest : List (Frame F)}
      (hbb : (code f).blocks[b]? = some bb) (hret : returns bb.terminator = true)
      (hbb' : (code f').blocks[b']? = some bb') (ht : t ∈ nexts bb'.terminator) :
      Steps code (⟨f, b, none⟩ :: ⟨f', b', none⟩ :: rest) .ret (⟨f', t.toNat, none⟩ :: rest)
  | retDrop {f f' : F} {b b' : Nat} {bb : MIRBasicBlock V} {gs : List F} {rest : List (Frame F)}
      (hbb : (code f).blocks[b]? = some bb) (hret : returns bb.terminator = true) :
      Steps code (⟨f, b, none⟩ :: ⟨f', b', some gs⟩ :: rest) .ret (⟨f', b', some gs⟩ :: rest)
  | tailCall {f : F} {b : Nat} {bb : MIRBasicBlock V} {rest : List (Frame F)}
      (hbb : (code f).blocks[b]? = some bb) (htail : isTailCall bb.terminator = true) (g : F) :
      Steps code (⟨f, b, none⟩ :: rest) .tailCall (⟨g, 0, none⟩ :: rest)

/-- An execution that does not end. -/
structure Execution (code : F → MIRFunction V) (run : Nat → List (Frame F))
    (kinds : Nat → StepKind) :
    Prop where
  start : ∃ f, run 0 = [⟨f, 0, none⟩]
  steps : ∀ n, Steps code (run n) (kinds n) (run (n + 1))

/-- The block is marked. -/
def MarkedBlock (fcn : MIRFunction V) (b : Nat) : Prop :=
  ∃ steps, Settles (fun fuel => stepBlocksOf fuel fcn) steps ∧ steps[b]? = some true

/-- A step is counted: the evaluator is at the start of a block that is marked. -/
def Counted (code : F → MIRFunction V) (stack : List (Frame F)) : Prop :=
  ∃ f b rest, stack = ⟨f, b, none⟩ :: rest ∧ MarkedBlock (code f) b

/-! ## 2. The marks -/

section Marks

variable {fcn : MIRFunction V}

/-- `stepBlocksOf` ends and marks the blocks that count. -/
theorem stepBlocksOf_settles (hfcn : HasEdges fcn) :
    ∃ steps, Settles (fun fuel => stepBlocksOf fuel fcn) steps ∧ steps.length = fcn.blocks.length ∧
      ∀ b bb, fcn.blocks[b]? = some bb → (steps[b]? = some true ↔ Counts fcn b bb.terminator) := by
  obtain ⟨steps, -, hlen, hmarks⟩ := stepBlocksOf_spec hfcn (Nat.le_refl _)
  refine ⟨steps, ⟨stepFuel fcn, fun fuel hfuel => ?_⟩, hlen, hmarks⟩
  obtain ⟨steps', hsteps', hlen', hmarks'⟩ := stepBlocksOf_spec hfcn hfuel
  refine hsteps'.trans (congrArg some ?_)
  refine List.ext_getElem (hlen'.trans hlen.symm) fun b hb hb' => ?_
  obtain ⟨bb, hbb⟩ : ∃ bb, fcn.blocks[b]? = some bb :=
    ⟨_, List.getElem?_eq_getElem (hlen'.symm ▸ hb)⟩
  have hiff := (hmarks' b bb hbb).trans (hmarks b bb hbb).symm
  rw [List.getElem?_eq_getElem hb, List.getElem?_eq_getElem hb', Option.some.injEq,
    Option.some.injEq] at hiff
  exact Bool.eq_iff_iff.2 hiff

theorem markedBlock_iff (hfcn : HasEdges fcn) {b : Nat} {bb : MIRBasicBlock V}
    (hbb : fcn.blocks[b]? = some bb) :
    MarkedBlock fcn b ↔ Counts fcn b bb.terminator := by
  obtain ⟨steps, hsettles, -, hmarks⟩ := stepBlocksOf_settles hfcn
  rw [← hmarks b bb hbb]
  constructor
  · rintro ⟨steps', ⟨n', hn'⟩, hmark⟩
    obtain ⟨n, hn⟩ := hsettles
    have hboth := (hn (max n n') (Nat.le_max_left ..)).symm.trans
      (hn' (max n n') (Nat.le_max_right ..))
    rw [Option.some.inj hboth]
    exact hmark
  · exact fun hmark => ⟨steps, hsettles, hmark⟩

end Marks

/-! ## 3. Reducible graphs -/

/-- An edge between reachable blocks that does not go back to a dominator. -/
def Forward (fcn : MIRFunction V) (b c : Nat) : Prop :=
  Reachable (Edge fcn) 0 b ∧ Edge fcn b c ∧ ¬ Dominates (Edge fcn) 0 c b

/-- Without the edges that go back to a dominator there are no circles. -/
def Reducible (fcn : MIRFunction V) : Prop := ∀ b, ¬ Relation.TransGen (Forward fcn) b b

open Classical in
/-- The number of blocks to which a block leads by such edges. -/
noncomputable def height (fcn : MIRFunction V) (b : Nat) : Nat :=
  ((Finset.range fcn.blocks.length).filter (Relation.TransGen (Forward fcn) b)).card

theorem height_lt {fcn : MIRFunction V} (hfcn : HasEdges fcn) (hred : Reducible fcn) {b c : Nat}
    (h : Forward fcn b c) : height fcn c < height fcn b := by
  classical
  refine Finset.card_lt_card ⟨fun d hd => ?_, fun hsub => ?_⟩
  · obtain ⟨hlt, hcd⟩ := Finset.mem_filter.1 hd
    exact Finset.mem_filter.2 ⟨hlt, hcd.head h⟩
  · have hc : c < fcn.blocks.length := hfcn.targets _ _ h.2.1
    have hin := hsub (Finset.mem_filter.2 ⟨Finset.mem_range.2 hc, .single h⟩)
    exact hred c (Finset.mem_filter.1 hin).2

/-! ## 4. What a step makes less -/

section Terminators

variable {t : MIRTerminator V}

theorem nexts_subset {b : BitVec 32} (h : b ∈ nexts t) : b ∈ t.targets := by
  cases t with
  | Drop kind slot flagIdx target unwind => exact List.mem_cons.2 (.inl (List.mem_singleton.1 h))
  | Call retBlock unwind retVal fcn args source tracksCaller =>
    exact List.mem_cons.2 (.inl (List.mem_singleton.1 h))
  | Asm2 options lines params retBlock => exact nomatch h
  | _ => exact h

theorem countedCall_of_pushes (h : pushes t = true) : countedCall t = true := by
  cases t with
  | Call retBlock unwind retVal fcn args source tracksCaller =>
    cases fcn with
    | Intrinsic name params =>
      have hname : name = "const_eval_select".toList := eq_of_beq h
      subst hname
      show (!lowered.contains "const_eval_select".toList) = true
      decide
    | _ => rfl
  | _ => exact nomatch h

theorem countedCall_of_runsDrop (h : runsDrop t = true) (hdrop : isDrop t = false) :
    countedCall t = true := by
  cases t with
  | Call retBlock unwind retVal fcn args source tracksCaller =>
    cases fcn with
    | Intrinsic name params =>
      have hname : name = "drop_in_place".toList := eq_of_beq h
      subst hname
      show (!lowered.contains "drop_in_place".toList) = true
      decide
    | _ => exact absurd h (Bool.eq_false_iff.1 hdrop)
  | _ => exact absurd h (Bool.eq_false_iff.1 hdrop)

end Terminators

section Measure

variable {code : F → MIRFunction V}

/-- All frames are in blocks that are reachable. -/
def Within (code : F → MIRFunction V) (stack : List (Frame F)) : Prop :=
  ∀ frame ∈ stack, Reachable (Edge (code frame.fcn)) 0 frame.block

theorem edge_of_nexts {fcn : MIRFunction V} {b : Nat} {bb : MIRBasicBlock V} {t : BitVec 32}
    (hbb : fcn.blocks[b]? = some bb) (ht : t ∈ nexts bb.terminator) : Edge fcn b t.toNat := by
  rw [Edge, targetsOf, List.getD_eq_getElem?_getD, targetLists, List.getElem?_map, hbb]
  exact List.mem_map_of_mem (nexts_subset ht)

theorem Steps.within_reachable {stack stack' : List (Frame F)} {kind : StepKind}
    (h : Steps code stack kind stack')
    (hw : Within code stack) : Within code stack' := by
  have hzero : ∀ g, Reachable (Edge (code g)) 0 0 := fun g => ⟨_, .start⟩
  have hset : ∀ {x x' : Frame F} {rest : List (Frame F)}, Within code (x :: rest) →
      Reachable (Edge (code x'.fcn)) 0 x'.block → Within code (x' :: rest) := by
    intro x x' rest hw hx' frame hframe
    rcases List.mem_cons.1 hframe with rfl | hframe
    · exact hx'
    · exact hw frame (List.mem_cons_of_mem _ hframe)
  have hpush : ∀ {stack : List (Frame F)} (g : F), Within code stack →
    Within code (⟨g, 0, none⟩ :: stack) := by
    intro stack g hw frame hframe
    rcases List.mem_cons.1 hframe with rfl | hframe
    · exact hzero g
    · exact hw frame hframe
  cases h with
  | within hbb ht => exact hset hw ((hw _ List.mem_cons_self).step (edge_of_nexts hbb ht))
  | call hbb hcall g => exact hpush g hw
  | drop hbb hdrop gs =>
    have htop := hw _ List.mem_cons_self
    exact hset hw htop
  | destructor hbb hdrop =>
    have htop := hw _ List.mem_cons_self
    exact hpush _ (hset hw htop)
  | dropped hbb ht => exact hset hw ((hw _ List.mem_cons_self).step (edge_of_nexts hbb ht))
  | ret hbb hret hbb' ht =>
    have hlow : Within code _ := fun frame hframe => hw frame (List.mem_cons_of_mem _ hframe)
    exact hset hlow ((hlow _ List.mem_cons_self).step (edge_of_nexts hbb' ht))
  | retDrop hbb hret => exact fun frame hframe => hw frame (List.mem_cons_of_mem _ hframe)
  | tailCall hbb htail g => exact hset hw (hzero g)

open Classical in
/-- The destructors that a block which counts has left. -/
noncomputable def debt (code : F → MIRFunction V) (frame : Frame F) : Nat :=
  match frame.drops with
  | some gs => if MarkedBlock (code frame.fcn) frame.block then 2 * gs.length + 1 else 0
  | none => 0

noncomputable def potential (code : F → MIRFunction V) (stack : List (Frame F)) : Nat :=
  stack.length + (stack.map (debt code)).sum

noncomputable def topHeight (code : F → MIRFunction V) : List (Frame F) → Nat
  | [] => 0
  | ⟨f, b, none⟩ :: _ => 2 * height (code f) b + 1
  | ⟨f, b, some _⟩ :: _ => 2 * height (code f) b

/-- A step from a block that does not count. -/
theorem Steps.less (hcode : ∀ f, HasEdges (code f)) (hred : ∀ f, Reducible (code f))
    {stack stack' : List (Frame F)}
    {kind : StepKind} (h : Steps code stack kind stack') (hw : Within code stack)
    (hcounted : ¬ Counted code stack)
    (htail : kind ≠ .tailCall) (hdestructor : kind ≠ .destructor) :
    potential code stack' < potential code stack ∨
      potential code stack' = potential code stack ∧ topHeight code stack' <
        topHeight code stack := by
  have hforward : ∀ {f : F} {b : Nat} {bb : MIRBasicBlock V} {t : BitVec 32},
    (code f).blocks[b]? = some bb →
      ¬ MarkedBlock (code f) b → Reachable (Edge (code f)) 0 b → t ∈ nexts bb.terminator →
      height (code f) t.toNat < height (code f) b := by
    intro f b bb t hbb hmark hreach ht
    have hedge := edge_of_nexts hbb ht
    refine height_lt (hcode f) (hred f) ⟨hreach, hedge, fun hdom => hmark ?_⟩
    exact (markedBlock_iff (hcode f) hbb).2 ⟨hreach, .inr ⟨_, hedge, hdom⟩⟩
  cases h with
  | @within f b bb t rest hbb ht =>
    have hmark : ¬ MarkedBlock (code f) b := fun hmark => hcounted ⟨f, b, rest, rfl, hmark⟩
    have hlt := hforward hbb hmark (hw _ List.mem_cons_self) ht
    refine .inr ⟨rfl, ?_⟩
    simp only [topHeight]
    omega
  | @call f b bb rest hbb hcall g =>
    refine absurd ⟨f, b, rest, rfl, (markedBlock_iff (hcode f) hbb).2 ⟨hw _ List.mem_cons_self, ?_⟩⟩
      hcounted
    exact .inl (countedCall_of_pushes hcall)
  | @drop f b bb rest hbb hdrop gs =>
    have hmark : ¬ MarkedBlock (code f) b := fun hmark => hcounted ⟨f, b, rest, rfl, hmark⟩
    refine .inr ⟨?_, ?_⟩
    · simp only [potential, List.map_cons, List.sum_cons, debt, if_neg hmark, List.length_cons]
    · simp only [topHeight]
      omega
  | @destructor f g b bb gs rest hbb hdrop =>
    by_cases hisDrop : isDrop bb.terminator = true
    · exact absurd (if_pos hisDrop) hdestructor
    · have hcall := countedCall_of_runsDrop hdrop (Bool.eq_false_iff.2 hisDrop)
      have hmark : MarkedBlock (code f) b := (markedBlock_iff (hcode f) hbb).2
        ⟨hw _ List.mem_cons_self, .inl hcall⟩
      refine .inl ?_
      simp only [potential, List.map_cons, List.sum_cons, debt, if_pos hmark, List.length_cons]
      omega
  | @dropped f b bb t rest hbb ht =>
    by_cases hmark : MarkedBlock (code f) b
    · refine .inl ?_
      simp only [potential, List.map_cons, List.sum_cons, debt, if_pos hmark, List.length_cons]
      omega
    · have hlt := hforward hbb hmark (hw _ List.mem_cons_self) ht
      refine .inr ⟨?_, ?_⟩
      · simp only [potential, List.map_cons, List.sum_cons, debt, if_neg hmark, List.length_cons]
      · simp only [topHeight]
        omega
  | ret hbb hret hbb' ht =>
    refine .inl ?_
    simp only [potential, List.map_cons, List.sum_cons, debt, List.length_cons]
    omega
  | retDrop hbb hret =>
    refine .inl ?_
    simp only [potential, List.map_cons, List.sum_cons, debt, List.length_cons]
    omega
  | tailCall hbb htail' g => exact absurd rfl htail

end Measure

/-! ## 5. Whole executions -/

section Executions

variable {code : F → MIRFunction V} {run : Nat → List (Frame F)} {kinds : Nat → StepKind}

theorem Execution.within (h : Execution code run kinds) : ∀ n, Within code (run n)
  | 0 => by
    obtain ⟨f, hf⟩ := h.start
    intro frame hframe
    rw [hf] at hframe
    cases List.mem_singleton.1 hframe
    exact ⟨_, .start⟩
  | n + 1 => (h.steps n).within_reachable (h.within n)

/-- From some step on there are no tail calls and no destructors. -/
def Plain (kinds : Nat → StepKind) : Prop := ∃ n, ∀ m, n ≤ m → kinds m ≠ .tailCall ∧
    kinds m ≠ .destructor

/-- Then steps are counted for ever. -/
theorem Execution.counted (hcode : ∀ f, HasEdges (code f)) (hred : ∀ f, Reducible (code f))
    (h : Execution code run kinds) (hplain : Plain kinds) (n : Nat) : ∃ m, n ≤ m ∧
      Counted code (run m) := by
  by_contra hnone
  obtain ⟨k, hk⟩ := hplain
  have hless : ∀ m, max n k ≤ m → Prod.Lex (· < ·) (· < ·)
      (potential code (run (m + 1)), topHeight code (run (m + 1)))
      (potential code (run m), topHeight code (run m)) := by
    intro m hm
    have hcounted : ¬ Counted code (run m) := fun hcounted =>
      hnone ⟨m, (Nat.le_max_left ..).trans hm, hcounted⟩
    obtain ⟨htail, hdestructor⟩ := hk m ((Nat.le_max_right ..).trans hm)
    rw [Prod.lex_def]
    exact (h.steps m).less hcode hred (h.within m) hcounted htail hdestructor
  -- a measure of a well-founded order does not get less for ever
  have hwf : WellFounded (Prod.Lex (· < ·) (· < ·) : Nat × Nat → Nat × Nat → Prop) :=
    WellFounded.prod_lex Nat.lt_wfRel.wf Nat.lt_wfRel.wf
  obtain ⟨x, ⟨m, hm, rfl⟩, hmin⟩ := hwf.has_min
    {x | ∃ m, max n k ≤ m ∧ (potential code (run m), topHeight code (run m)) = x}
    ⟨_, _, Nat.le_refl _, rfl⟩
  exact hmin _ ⟨m + 1, Nat.le_succ_of_le hm, rfl⟩ (hless m hm)

/-- The blocks that count are marked in every graph; and where all graphs are reducible, steps are
    counted for ever in all executions with finitely many tail calls and destructors. -/
theorem stepBlocksOf_counts :
    (∀ fcn : MIRFunction V, HasEdges fcn →
      ∃ steps, Settles (fun fuel => stepBlocksOf fuel fcn) steps ∧
        steps.length = fcn.blocks.length ∧
        ∀ b bb, fcn.blocks[b]? = some bb → (steps[b]? = some true ↔
          Reachable (Edge fcn) 0 b ∧
            (countedCall bb.terminator = true ∨ ∃ t ∈ targetsOf fcn b, Dominates (Edge fcn) 0 t b)))
              ∧
      ∀ (F : Type) (code : F → MIRFunction V), (∀ f, HasEdges (code f)) →
        (∀ f, Reducible (code f)) →
        ∀ run kinds, Execution code run kinds → Plain kinds → ∀ n, ∃ m, n ≤ m ∧
          Counted code (run m) :=
  ⟨fun _ hfcn => stepBlocksOf_settles hfcn,
    fun _ _ hcode hred _ _ h hplain n => h.counted hcode hred hplain n⟩

end Executions

/-! ## 6. Functions that do not end -/

/-- `bb0: goto bb0`. -/
def spin : MIRFunction bare := ⟨[], [], [⟨[], .Goto 0, false⟩]⟩

/-- `bb0: become` the function itself. -/
def becomeSelf : MIRFunction bare := ⟨[], [],
    [⟨[], .TailCall (.Path ()) [] ⟨[], 0, 0⟩ false, false⟩]⟩

theorem spin_counted :
    (∃ steps, Settles (fun fuel => stepBlocksOf fuel spin) steps ∧ steps.length = 1 ∧
      ∀ b bb, spin.blocks[b]? = some bb → (steps[b]? = some true ↔
        Reachable (Edge spin) 0 b ∧
          (countedCall bb.terminator = true ∨ ∃ t ∈ targetsOf spin b, Dominates (Edge spin) 0 t b)))
            ∧
      ∀ n : Nat, ∃ m, n ≤ m ∧ Counted (fun _ : Unit => spin) [⟨(), 0, none⟩] := by
  have htargets : ∀ b, ∀ c ∈ targetsOf spin b, b = 0 ∧ c = 0 := by
    intro b c hc
    rcases b with _ | b
    · exact ⟨rfl, List.mem_singleton.1 hc⟩
    · exact nomatch hc
  have hedges : HasEdges spin := ⟨by decide, fun b c hc => (htargets b c hc).2 ▸ (by decide)⟩
  have hred : Reducible spin := by
    intro b h
    obtain ⟨c, h, -⟩ := Relation.TransGen.head'_iff.1 h
    obtain ⟨rfl, rfl⟩ := htargets _ _ h.2.1
    exact h.2.2 (.refl 0)
  have hexec : Execution (fun _ : Unit => spin) (fun _ => [⟨(), 0, none⟩]) (fun _ => .within) :=
    ⟨⟨(), rfl⟩, fun _ => .within (f := ()) (t := 0) rfl (List.mem_singleton.2 rfl)⟩
  exact ⟨stepBlocksOf_counts.1 spin hedges,
    stepBlocksOf_counts.2 Unit (fun _ => spin) (fun _ => hedges) (fun _ => hred) _ _ hexec
      ⟨0, fun _ _ => ⟨nofun, nofun⟩⟩⟩

/-- All graphs are reducible and the execution does not end, but no step is counted. -/
theorem becomeSelf_uncounted :
    HasEdges becomeSelf ∧ Reducible becomeSelf ∧
      ∃ run kinds, Execution (fun _ : Unit => becomeSelf) run kinds ∧
        ∀ m, ¬ Counted (fun _ : Unit => becomeSelf) (run m) := by
  have htargets : ∀ b, targetsOf becomeSelf b = [] := by
    intro b
    rcases b with _ | b
    · rfl
    · rfl
  have hedges : HasEdges becomeSelf :=
    ⟨by decide, fun b c hc => by rw [htargets] at hc; exact nomatch hc⟩
  have hred : Reducible becomeSelf := by
    intro b h
    obtain ⟨c, h, -⟩ := Relation.TransGen.head'_iff.1 h
    have hedge : c ∈ targetsOf becomeSelf b := h.2.1
    rw [htargets] at hedge
    exact nomatch hedge
  refine ⟨hedges, hred, fun _ => [⟨(), 0, none⟩], fun _ => .tailCall,
    ⟨⟨(), rfl⟩, fun _ => .tailCall rfl rfl ()⟩, fun m => ?_⟩
  rintro ⟨f, b, rest, hstack, hmark⟩
  cases hstack
  rcases ((markedBlock_iff hedges rfl).1 hmark).2 with hcall | ⟨t, ht, -⟩
  · exact nomatch hcall
  · rw [htargets] at ht
    exact nomatch ht

end Trustme.Eval
