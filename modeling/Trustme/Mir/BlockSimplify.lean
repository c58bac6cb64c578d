/-
  Subject:   `MIROptimiseBlockSimplify` (mir_operations.cpp): its three loops one after another.

  * `inlineEnd`, `endPass`: the third loop: a Goto to a block that only ends the function;
  * `blockSimplify_exact`: it ends, with the same executions, exactly if no chain of empty blocks
    runs in a circle.
-/
import Trustme.Mir.BlockMerging

namespace Trustme.Mir

open Metadata Lib

variable {V : Vocabulary} {W : Type}

/-! ## 1. The third loop -/

def inlineEnd (bb : Nat) (fcn : MIRFunction V) : MIRFunction V :=
  match fcn.blocks[bb]? with
  | some ⟨_, .Goto target, _⟩ =>
    match fcn.blocks[target.toNat]? with
    | some ⟨[], t, _⟩ => if endsFunction t then setTerminator fcn bb t else fcn
    | _ => fcn
  | _ => fcn

def endPass (fcn : MIRFunction V) : MIRFunction V :=
  (List.range fcn.blocks.length).foldl (fun fcn bb => inlineEnd bb fcn) fcn

/-- `MIROptimiseBlockSimplify`; out of fuel, it does not return. -/
def blockSimplify [DecidableEq V.HIRPath] (fuel : Nat) (fcn : MIRFunction V) :
    Option (MIRFunction V) :=
  (edgesPass fuel fcn).bind fun fcn => (mergePass fuel fcn).map endPass

section Ends

variable {I : Interp V W}

theorem inlineEnd_traces (bb : Nat) (fcn : MIRFunction V) :
    SameTraces I fcn (inlineEnd bb fcn) := by
  unfold inlineEnd
  split
  · next statements target isCleanup hb =>
    split
    · next t isCleanup' hb' =>
      split
      · next hends => exact inline_end_traces hb rfl hb' rfl hends
      · exact .refl _
    · exact .refl _
  · exact .refl _

theorem endPass_traces (fcn : MIRFunction V) : SameTraces I fcn (endPass fcn) := by
  have hfold : ∀ (l : List Nat) (fcn : MIRFunction V),
      SameTraces I fcn (l.foldl (fun fcn bb => inlineEnd bb fcn) fcn) := by
    intro l
    induction l with
    | nil => exact fun fcn => .refl _
    | cons bb l ih => exact fun fcn => (inlineEnd_traces bb fcn).trans (ih _)
  exact hfold _ fcn

end Ends

/-! ## 2. All three -/

section Whole

variable {I : Interp V W} {fcn : MIRFunction V} [DecidableEq V.HIRPath]

/-- The simplification ends with a function that is executed alike exactly if every chain of empty
    blocks that end in a Goto to another block comes to an end. -/
theorem blockSimplify_exact (hf : WellFormed I fcn) :
    (∃ result, Settles (fun fuel => blockSimplify fuel fcn) result ∧ SameTraces I fcn result) ↔
      ∀ bb : BitVec 32, bb.toNat < fcn.blocks.length → ChainEnds fcn bb := by
  obtain ⟨hsettles, hresult⟩ := edgesPass_settles_iff hf
  constructor
  · rintro ⟨result, ⟨n, hn⟩, _⟩
    obtain ⟨fcn₁, h₁, _⟩ := Option.bind_eq_some_iff.1 (hn n (Nat.le_refl n))
    exact (hresult h₁).2
  · intro hends
    obtain ⟨fcn₁, n, hn⟩ := hsettles hends
    obtain ⟨hf₁, ht₁⟩ := (hresult (hn n (Nat.le_refl n))).1
    obtain ⟨fcn₂, ⟨m, hm⟩, _, ht₂⟩ := mergePass_settles hf₁
    refine ⟨endPass fcn₂, Settles.bind ⟨n, hn⟩ ⟨m, fun fuel hfuel => ?_⟩,
      (ht₁.trans ht₂).trans (endPass_traces fcn₂)⟩
    exact congrArg (Option.map endPass) (hm fuel hfuel)

end Whole

/-- `bb0: goto bb1`, and two empty blocks that go to each other. -/
def gotoCircle : MIRFunction bare :=
  ⟨[], [], [⟨[], .Goto 1, false⟩, ⟨[], .Goto 2, false⟩, ⟨[], .Goto 1, false⟩]⟩

/-- The walk along the circle does not end. -/
theorem gotoCircle_walk : ∀ fuel, getNewTarget gotoCircle fuel 1 = none ∧
    getNewTarget gotoCircle fuel 2 = none
  | 0 => ⟨rfl, rfl⟩
  | fuel + 1 => by
    have h₁ : link gotoCircle 1 = some 2 := link_of_block rfl rfl rfl (by decide)
    have h₂ : link gotoCircle 2 = some 1 := link_of_block rfl rfl rfl (by decide)
    obtain ⟨hone, htwo⟩ := gotoCircle_walk fuel
    rw [getNewTarget, getNewTarget, h₁, h₂]
    exact ⟨htwo, hone⟩

theorem gotoCircle_endless : ¬ ∃ fuel fcn', blockSimplify fuel gotoCircle = some fcn' := by
  rintro ⟨fuel, fcn', hsome⟩
  have hnew : newTarget gotoCircle fuel 0 1 = none := by
    rw [newTarget, if_neg (by decide)]
    exact (gotoCircle_walk fuel).1
  have hrewrite : rewriteGotoChains gotoCircle fuel 0 (.Goto 1) = none := by
    refine if_neg fun hall => ?_
    have hone := List.all_eq_true.1 hall 1 List.mem_cons_self
    rw [hnew] at hone
    cases hone
  have hblock : gotoCircle.blocks[0]? = some ⟨[], .Goto 1, false⟩ := rfl
  have hfirst : simplifyEdges fuel 0 gotoCircle = none := simplifyEdges_endless hblock hrewrite
  have hrange : List.range gotoCircle.blocks.length = [0, 1, 2] := by decide
  have hedges : edgesPass fuel gotoCircle = none := by
    rw [edgesPass, hrange, List.foldlM_cons, hfirst, Option.bind_eq_bind, Option.bind_none]
  rw [blockSimplify, hedges, Option.bind_none] at hsome
  cases hsome

/-- `bb0: goto bb1; bb1: return`. -/
def gotoReturn : MIRFunction bare :=
  ⟨[], [], [⟨[], .Goto 1, false⟩, ⟨[], .Return, false⟩]⟩

theorem gotoReturn_wellFormed : WellFormed idle gotoReturn where
  entry := by decide
  size := by decide
  targets := by
    intro bb block hb b hmem
    rcases bb with _ | _ | bb
    · cases hb
      rw [List.mem_singleton.1 hmem]
      decide
    · cases hb
      cases hmem
    · cases hb
  switches := by
    intro bb block hb
    rcases bb with _ | _ | bb
    · cases hb
      trivial
    · cases hb
      trivial
    · cases hb

theorem gotoReturn_simplified :
    (∃ result, Settles (fun fuel => blockSimplify fuel gotoReturn) result ∧
        SameTraces idle gotoReturn result) ↔
      ∀ bb : BitVec 32, bb.toNat < gotoReturn.blocks.length → ChainEnds gotoReturn bb :=
  blockSimplify_exact gotoReturn_wellFormed

end Trustme.Mir
