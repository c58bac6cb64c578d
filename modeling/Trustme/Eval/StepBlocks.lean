/-
  Subject:   The blocks at which the evaluator counts a step (`stepBlocksOf`,
             src/bin/rustc/hir_conv_constant_evaluation.cpp).

  * `Edges`, `predecessorsOf`: the edges of a function, and their sources by a counting sort;
  * `depthFirst`: the postorder of the blocks;
  * `intersect`, `sweep`, `dominatorTree`: the immediate dominators, improved until nothing
    changes;
  * `countedCall`, `stepBlocksOf`: the blocks that count;
  * `stepBlocksOf_spec`: they are the reachable ones that call, or that have an edge to a block
    that dominates them.

  The loops that need not end have fuel. Vectors that are only read within their bounds are
  functions.
-/
import Mathlib.Algebra.Order.BigOperators.Group.List
import Trustme.Lib.Buckets
import Trustme.Lib.DepthFirst
import Trustme.Mir.Executions

namespace Trustme.Eval

open Lib Metadata

variable {V : Vocabulary}

/-- `none`: no block, and no number. -/
def noBlock : Nat := 0xFFFFFFFF

/-! ## 1. The edges -/

def targetLists (fcn : MIRFunction V) : List (List Nat) :=
  fcn.blocks.map fun block => block.terminator.targets.map (·.toNat)

/-- The targets of a block. -/
def targetsOf (fcn : MIRFunction V) (block : Nat) : List Nat := (targetLists fcn).getD block []

/-- `targetStart` and `targets`. -/
structure Edges where
  count : Nat
  targetStart : Nat → Nat
  targets : List Nat

def edgesOf (fcn : MIRFunction V) : Edges :=
  let (targetStart, targets) := layOut (targetLists fcn)
  { count := fcn.blocks.length, targetStart := (targetStart.getD · 0), targets }

def Edges.target (e : Edges) (i : Nat) : Nat := e.targets.getD i 0

/-- The targets from one index to the end of a block's. -/
def Edges.rest (e : Edges) (block next : Nat) : List Nat :=
  slice e.target next (e.targetStart (block + 1))

def Edges.of (e : Edges) (block : Nat) : List Nat := e.rest block (e.targetStart block)

def predecessorStart (e : Edges) : Nat → Nat := sumUp e.count (countKeys e.targets)

/-- `predecessors`, and `predecessorFill` in the end. -/
def fillPredecessors (e : Edges) : (Nat → Nat) × (Nat → Nat) :=
  (List.range e.count).foldl
    (fun s block => (e.of block).foldl (fun s target => place s (target, block)) s)
    (fun _ => 0, predecessorStart e)

def predecessorsOf (e : Edges) (block : Nat) : List Nat :=
  slice (fillPredecessors e).1 (predecessorStart e block) (predecessorStart e (block + 1))

section Tables

variable {fcn : MIRFunction V}

theorem targetLists_length (fcn : MIRFunction V) : (targetLists fcn).length = fcn.blocks.length :=
  List.length_map _

theorem targetsOf_ge {b : Nat} (h : fcn.blocks.length ≤ b) : targetsOf fcn b = [] := by
  rw [targetsOf, List.getD_eq_getElem?_getD, List.getElem?_eq_none (by rwa [targetLists_length])]
  rfl

theorem targetsOf_get {b : Nat} (h : b < fcn.blocks.length) :
    (targetLists fcn)[b]? = some (targetsOf fcn b) := by
  rw [← targetLists_length fcn] at h
  rw [targetsOf, List.getD_eq_getElem?_getD, List.getElem?_eq_getElem h]
  rfl

theorem edgesOf_targets (fcn : MIRFunction V) :
    (edgesOf fcn).targets = (targetLists fcn).flatten := by
  rw [edgesOf, layOut_eq]

/-- The tables hold the targets of every block. -/
theorem edgesOf_of {b : Nat} (h : b < fcn.blocks.length) : (edgesOf fcn).of b = targetsOf fcn b :=
  slice_layOut (targetsOf_get h)

/-- The edges, by their targets. -/
def edgePairs (fcn : MIRFunction V) : List (Nat × Nat) :=
  (List.range fcn.blocks.length).flatMap fun block => (targetsOf fcn block).map fun target =>
    (target, block)

theorem mem_edgePairs {p b : Nat} : (b, p) ∈ edgePairs fcn ↔ b ∈ targetsOf fcn p := by
  simp only [edgePairs, List.mem_flatMap, List.mem_range, List.mem_map, Prod.mk.injEq]
  constructor
  · rintro ⟨q, -, t, ht, rfl, rfl⟩
    exact ht
  · intro h
    refine ⟨p, ?_, b, h, rfl, rfl⟩
    by_contra hlt
    rw [targetsOf_ge (Nat.le_of_not_lt hlt)] at h
    exact nomatch h

theorem edgePairs_keys (fcn : MIRFunction V) :
    (edgePairs fcn).map Prod.fst = (edgesOf fcn).targets := by
  have hlists : (List.range fcn.blocks.length).map (targetsOf fcn) = targetLists fcn := by
    refine List.ext_getElem? fun b => ?_
    by_cases hb : b < fcn.blocks.length
    · rw [List.getElem?_map, List.getElem?_range hb, Option.map_some, targetsOf_get hb]
    · rw [List.getElem?_eq_none (by simpa using hb),
        List.getElem?_eq_none (by simpa [targetLists_length] using hb)]
  have hfst : ∀ block, ((targetsOf fcn block).map fun target => (target, block)).map Prod.fst =
    targetsOf fcn block := by
    intro block
    rw [List.map_map]
    exact List.map_id _
  simp only [edgePairs, List.map_flatMap, hfst]
  rw [edgesOf_targets, ← hlists, List.flatMap_def]

theorem fillPredecessors_eq (fcn : MIRFunction V) : fillPredecessors (edgesOf fcn) =
    (edgePairs fcn).foldl place (fun _ => 0, predecessorStart (edgesOf fcn)) := by
  rw [fillPredecessors, edgePairs, List.foldl_flatMap]
  simp only [List.foldl_map]
  refine List.foldl_ext _ _ _ fun s block hblock => ?_
  rw [edgesOf_of (List.mem_range.1 hblock)]

/-- The counting sort finds the blocks with an edge to a block. -/
theorem mem_predecessorsOf (hfcn : ∀ p, ∀ b ∈ targetsOf fcn p, b < fcn.blocks.length) {b : Nat}
    (hb : b < fcn.blocks.length) {p : Nat} : p ∈ predecessorsOf (edgesOf fcn) b ↔
      b ∈ targetsOf fcn p := by
  have hkeys : ∀ x ∈ edgePairs fcn, x.1 < fcn.blocks.length := fun x hx =>
    hfcn x.2 _ (mem_edgePairs.1 hx)
  have hslice := slice_place hkeys hb
  rw [edgePairs_keys] at hslice
  rw [predecessorsOf, fillPredecessors_eq]
  refine Eq.to_iff (congrArg (p ∈ ·) hslice) |>.trans ?_
  simp only [bucket, List.mem_map, List.mem_filter, decide_eq_true_eq]
  constructor
  · rintro ⟨⟨b', p'⟩, ⟨hmem, rfl⟩, rfl⟩
    exact mem_edgePairs.1 hmem
  · intro h
    exact ⟨(b, p), ⟨mem_edgePairs.2 h, rfl⟩, rfl⟩

end Tables

/-! ## 2. The depth-first numbering -/

structure Search where
  postIndex : Nat → Nat
  postorder : List Nat
  /-- `stackBlocks` and `stackNext`, the last elements first. -/
  stack : List (Nat × Nat)

def depthFirst (e : Edges) : Nat → Search → Option Search
  | 0, _ => none
  | fuel + 1, s =>
    match s.stack with
    | [] => some s
    | (block, next) :: stack =>
      if next < e.targetStart (block + 1) then
        let target := e.target next
        if s.postIndex target = noBlock then
          depthFirst e fuel
            { s with
              postIndex := Function.update s.postIndex target (noBlock - 1)
              stack := (target, e.targetStart target) :: (block, next + 1) :: stack }
        else depthFirst e fuel { s with stack := (block, next + 1) :: stack }
      else
        depthFirst e fuel
          { postIndex := Function.update s.postIndex block s.postorder.length
            postorder := s.postorder ++ [block]
            stack }

def search (e : Edges) (fuel : Nat) : Option Search :=
  depthFirst e fuel
    (if 0 < e.count then
      { postIndex := Function.update (fun _ => noBlock) 0 (noBlock - 1), postorder := []
        stack := [(0, e.targetStart 0)] }
    else { postIndex := fun _ => noBlock, postorder := [], stack := [] })

/-- There is an edge from one block to another. -/
def Edge (fcn : MIRFunction V) (b c : Nat) : Prop := c ∈ targetsOf fcn b

/-- A graph as it is lowered: all edges are there, and `~0u` is the number of no block. -/
structure HasEdges (fcn : MIRFunction V) : Prop where
  size : fcn.blocks.length ≤ noBlock
  targets : ∀ b, ∀ c ∈ targetsOf fcn b, c < fcn.blocks.length

section Numbering

variable {fcn : MIRFunction V}

/-- Between two steps, with the numbers that have been given. -/
structure Numbering (fcn : MIRFunction V) (postIndex : Nat → Nat) (postorder : List Nat)
    (stack : List (Nat × List Nat)) : Prop where
  searching : Searching (Edge fcn) 0 stack postorder
  given : ∀ x, postIndex x ≠ noBlock ↔ x ∈ entered stack postorder
  index : ∀ i x, postorder[i]? = some x → postIndex x = i

theorem HasEdges.reachable_lt (h : HasEdges fcn) (hpos : 0 < fcn.blocks.length) {x : Nat}
    (hx : Reachable (Edge fcn) 0 x) : x < fcn.blocks.length := by
  obtain ⟨l, hl⟩ := hx
  cases hl with
  | start => exact hpos
  | step _ e => exact h.targets _ _ e

variable {postIndex : Nat → Nat} {postorder : List Nat} {stack : List (Nat × List Nat)}

theorem Numbering.start (fcn : MIRFunction V) :
    Numbering fcn (Function.update (fun _ => noBlock) 0 (noBlock - 1)) []
      [(0, targetsOf fcn 0)] where
  searching := .start fun w => Iff.rfl
  given x := by
    rw [entered, List.map_singleton, List.append_nil, List.mem_singleton]
    by_cases hx : x = 0
    · subst hx
      rw [Function.update_self]
      exact iff_of_true (by decide) rfl
    · rw [Function.update_of_ne hx]
      exact iff_of_false (fun hne => hne rfl) hx
  index i x hx := nomatch hx

theorem Numbering.skip {v w : Nat} {rest : List Nat}
    (h : Numbering fcn postIndex postorder ((v, w :: rest) :: stack))
    (hw : postIndex w ≠ noBlock) : Numbering fcn postIndex postorder ((v, rest) :: stack) where
  searching := h.searching.skip ((h.given w).1 hw)
  given := h.given
  index := h.index

theorem Numbering.enter {v w : Nat} {rest : List Nat}
    (h : Numbering fcn postIndex postorder ((v, w :: rest) :: stack))
    (hw : postIndex w = noBlock) :
    Numbering fcn (Function.update postIndex w (noBlock - 1)) postorder
      ((w, targetsOf fcn w) :: (v, rest) :: stack) where
  searching := h.searching.enter (fun hin => (h.given w).2 hin hw) fun u => Iff.rfl
  given x := by
    by_cases hx : x = w
    · subst hx
      rw [Function.update_self]
      exact iff_of_true (by decide) List.mem_cons_self
    · rw [Function.update_of_ne hx, h.given]
      exact (List.mem_cons.trans (or_iff_right hx)).symm
  index i x hx := by
    rw [Function.update_of_ne, h.index i x hx]
    rintro rfl
    exact (h.given x).2 (List.mem_append_right _ (List.mem_of_getElem? hx)) hw

/-- No more blocks are numbered than there are. -/
theorem Numbering.length_lt (hfcn : HasEdges fcn) (hpos : 0 < fcn.blocks.length) {v : Nat}
    {rest : List Nat}
    (h : Numbering fcn postIndex postorder ((v, rest) :: stack)) : postorder.length < noBlock := by
  have hsub : entered ((v, rest) :: stack) postorder ⊆ List.range fcn.blocks.length :=
    fun x hx => List.mem_range.2 (hfcn.reachable_lt hpos (h.searching.reach x hx))
  have hle := (List.subperm_of_subset h.searching.nodup hsub).length_le
  have hsize := hfcn.size
  rw [entered, List.map_cons, List.length_append, List.length_cons, List.length_range] at hle
  omega

theorem Numbering.leave (hfcn : HasEdges fcn) (hpos : 0 < fcn.blocks.length) {v : Nat}
    (h : Numbering fcn postIndex postorder ((v, []) :: stack)) :
    Numbering fcn (Function.update postIndex v postorder.length) (postorder ++ [v]) stack where
  searching := h.searching.leave
  given x := by
    have hmem : x ∈ entered ((v, []) :: stack) postorder ↔
      x ∈ entered stack (postorder ++ [v]) := by
      simp only [entered, List.map_cons, List.cons_append, List.mem_cons, List.mem_append,
        List.not_mem_nil, or_false]
      tauto
    rw [← hmem]
    by_cases hx : x = v
    · subst hx
      rw [Function.update_self]
      exact iff_of_true (Nat.ne_of_lt (h.length_lt hfcn hpos)) List.mem_cons_self
    · rw [Function.update_of_ne hx]
      exact h.given x
  index i x hx := by
    rcases Nat.lt_trichotomy i postorder.length with hlt | rfl | hlt
    · rw [List.getElem?_append_left hlt] at hx
      rw [Function.update_of_ne, h.index i x hx]
      rintro rfl
      exact (List.nodup_cons.1 h.searching.nodup).1
        (List.mem_append_right _ (List.mem_of_getElem? hx))
    · rw [List.getElem?_append_right (Nat.le_refl _), Nat.sub_self] at hx
      cases hx
      exact Function.update_self ..
    · have hlen : (postorder ++ [v]).length ≤ i := by
        rw [List.length_append, List.length_singleton]
        omega
      rw [List.getElem?_eq_none hlen] at hx
      cases hx

/-- The stack with the targets that are still to be looked at. -/
def pendingTargets (e : Edges) (stack : List (Nat × Nat)) : List (Nat × List Nat) :=
  stack.map fun x => (x.1, e.rest x.1 x.2)

/-- The search ends, and has numbered all blocks that it has found. -/
theorem depthFirst_ends (hfcn : HasEdges fcn) (hpos : 0 < fcn.blocks.length) :
    ∀ (fuel : Nat) (s : Search) (todo : List Nat),
      Numbering fcn s.postIndex s.postorder (pendingTargets (edgesOf fcn) s.stack) →
      (∀ x, x < fcn.blocks.length → s.postIndex x = noBlock → x ∈ todo) →
      searchWork (targetsOf fcn) todo (pendingTargets (edgesOf fcn) s.stack) < fuel →
      ∃ s', depthFirst (edgesOf fcn) fuel s = some s' ∧
        Numbering fcn s'.postIndex s'.postorder [] := by
  intro fuel
  induction fuel with
  | zero => exact fun s todo _ _ hfuel => absurd hfuel (Nat.not_lt_zero _)
  | succ fuel ih =>
    intro s todo hs htodo hfuel
    obtain ⟨postIndex, postorder, stack⟩ := s
    cases stack with
    | nil => exact ⟨_, rfl, hs⟩
    | cons top stack =>
      obtain ⟨block, next⟩ := top
      rw [depthFirst]
      simp only [pendingTargets, List.map_cons] at hs hfuel htodo ⊢
      by_cases hnext : next < (edgesOf fcn).targetStart (block + 1)
      · rw [if_pos hnext]
        rw [Edges.rest, slice_cons hnext, ← Edges.rest] at hs hfuel
        have htarget : Edge fcn block ((edgesOf fcn).target next) :=
          hs.searching.edges block _ List.mem_cons_self _ List.mem_cons_self
        have hlt := hfcn.targets _ _ htarget
        by_cases hnew : postIndex ((edgesOf fcn).target next) = noBlock
        · have hof := edgesOf_of hlt
          rw [Edges.of] at hof
          rw [if_pos hnew]
          refine ih _ (todo.erase ((edgesOf fcn).target next)) ?_ (fun x hx hxnew => ?_) ?_
          · simp only [pendingTargets, List.map_cons, hof]
            exact hs.enter hnew
          · simp only at hxnew
            have hne : x ≠ (edgesOf fcn).target next := by
              rintro rfl
              rw [Function.update_self] at hxnew
              exact absurd hxnew (by decide)
            rw [Function.update_of_ne hne] at hxnew
            exact (List.mem_erase_of_ne hne).2 (htodo x hx hxnew)
          · simp only [pendingTargets, List.map_cons, hof]
            exact Nat.lt_of_lt_of_le (searchWork_enter (htodo _ hlt hnew)) (Nat.le_of_lt_succ hfuel)
        · rw [if_neg hnew]
          refine ih _ todo (hs.skip hnew) htodo ?_
          exact Nat.lt_of_lt_of_le searchWork_skip (Nat.le_of_lt_succ hfuel)
      · rw [if_neg hnext]
        rw [Edges.rest, slice_nil (Nat.le_of_not_lt hnext)] at hs hfuel
        refine ih _ todo (hs.leave hfcn hpos) (fun x hx hxnew => ?_) ?_
        · simp only at hxnew
          refine htodo x hx ?_
          by_cases hxb : x = block
          · subst hxb
            rw [Function.update_self] at hxnew
            exact absurd hxnew (Nat.ne_of_lt (hs.length_lt hfcn hpos))
          · rwa [Function.update_of_ne hxb] at hxnew
        · exact Nat.lt_of_lt_of_le searchWork_leave (Nat.le_of_lt_succ hfuel)

end Numbering

/-! ## 3. The immediate dominators -/

/-- The inner loops of `intersect`: up from `left` until it is not numbered before `right`. -/
def climb (postIndex idom : Nat → Nat) (right : Nat) : Nat → Nat → Option Nat
  | 0, _ => none
  | fuel + 1, left =>
    if postIndex left < postIndex right then climb postIndex idom right fuel
      (idom left) else some left

def intersect (postIndex idom : Nat → Nat) : Nat → Nat → Nat → Option Nat
  | 0, _, _ => none
  | fuel + 1, left, right =>
    if left = right then some left
    else do
      let left ← climb postIndex idom right fuel left
      let right ← climb postIndex idom left fuel right
      intersect postIndex idom fuel left right

/-- The loop over the predecessors of a block. -/
def commonDominator (postIndex idom : Nat → Nat) (fuel : Nat) : List Nat → Nat → Option Nat
  | [], dominator => some dominator
  | predecessor :: rest, dominator =>
    if idom predecessor = noBlock then commonDominator postIndex idom fuel rest dominator
    else if dominator = noBlock then commonDominator postIndex idom fuel rest predecessor
    else do
      let dominator ← intersect postIndex idom fuel predecessor dominator
      commonDominator postIndex idom fuel rest dominator

/-- One round through the blocks, with `idom` and `changed`. -/
def sweep (predecessors : Nat → List Nat) (postIndex : Nat → Nat) (fuel : Nat) :
    List Nat → (Nat → Nat) × Bool → Option ((Nat → Nat) × Bool)
  | [], s => some s
  | block :: rest, (idom, changed) =>
    if block = 0 then sweep predecessors postIndex fuel rest (idom, changed)
    else do
      let dominator ← commonDominator postIndex idom fuel (predecessors block) noBlock
      if idom block ≠ dominator then
        sweep predecessors postIndex fuel rest (Function.update idom block dominator, true)
      else sweep predecessors postIndex fuel rest (idom, changed)

/-- Rounds until nothing changes. -/
def dominatorTree (predecessors : Nat → List Nat) (postIndex : Nat → Nat) (order : List Nat)
    (fuel : Nat) :
    Nat → (Nat → Nat) → Option (Nat → Nat)
  | 0, _ => none
  | rounds + 1, idom => do
    let (idom, changed) ← sweep predecessors postIndex fuel order (idom, false)
    if changed then dominatorTree predecessors postIndex order fuel rounds idom else some idom

def dominates (idom : Nat → Nat) (dominator : Nat) : Nat → Nat → Option Bool
  | 0, _ => none
  | fuel + 1, block =>
    if block = dominator then some true
    else if block = 0 then some false
    else dominates idom dominator fuel (idom block)

section Meeting

variable {rank idom : Nat → Nat} {S : Set Nat}

theorem climb_spec (ht : RankedTree rank 0 S idom) {y : Nat} (hy : y ∈ S) :
    ∀ (fuel x : Nat), x ∈ S → rank 0 - rank x < fuel →
      ∃ x', climb rank idom y fuel x = some x' ∧ x' ∈ S ∧ rank y ≤ rank x' ∧ rank x ≤ rank x' ∧
        (rank y ≤ rank x → x' = x) ∧ ∀ c, Meet idom 0 {x', y} c → Meet idom 0 {x, y} c := by
  intro fuel
  induction fuel with
  | zero => exact fun x _ hfuel => absurd hfuel (Nat.not_lt_zero _)
  | succ fuel ih =>
    intro x hx hfuel
    rw [climb]
    by_cases hlt : rank x < rank y
    · have hle := ht.rank_le y hy
      have hx0 : x ≠ 0 := by
        rintro rfl
        omega
      have hup := ht.rank_up x hx hx0
      obtain ⟨x', hclimb, hx', hyx, hle', -, hmeet⟩ := ih (idom x) (ht.up_mem x hx hx0) (by omega)
      rw [if_pos hlt]
      exact ⟨x', hclimb, hx', hyx, by omega, by omega, fun c hc => (hmeet c hc).climb ht hx hy hlt⟩
    · rw [if_neg hlt]
      exact ⟨x, rfl, hx, Nat.le_of_not_lt hlt, Nat.le_refl _, fun _ => rfl, fun c hc => hc⟩

/-- `intersect` finds where two chains meet. -/
theorem intersect_spec (ht : RankedTree rank 0 S idom) :
    ∀ (fuel x y : Nat), x ∈ S → y ∈ S → rank 0 + (rank 0 - rank x) + (rank 0 - rank y) < fuel →
      ∃ c ∈ S, intersect rank idom fuel x y = some c ∧ Meet idom 0 {x, y} c := by
  intro fuel
  induction fuel with
  | zero => exact fun x y _ _ hfuel => absurd hfuel (Nat.not_lt_zero _)
  | succ fuel ih =>
    intro x y hx hy hfuel
    rw [intersect]
    by_cases hxy : x = y
    · subst hxy
      rw [if_pos rfl]
      exact ⟨x, hx, rfl, .pair_self x⟩
    · have hne : rank x ≠ rank y := fun heq => hxy (ht.rank_inj x hx y hy heq)
      have hxle := ht.rank_le x hx
      have hyle := ht.rank_le y hy
      obtain ⟨x', hclimb, hx', hyx, hxx, hxstay, hmeet⟩ := climb_spec ht hy fuel x hx (by omega)
      obtain ⟨y', hclimb', hy', hxy', hyy, hystay, hmeet'⟩ := climb_spec ht hx' fuel y hy (by omega)
      have hx'le := ht.rank_le x' hx'
      have hy'le := ht.rank_le y' hy'
      have hless : (rank 0 - rank x') + (rank 0 - rank y') < (rank 0 - rank x) +
        (rank 0 - rank y) := by
        rcases Nat.lt_or_gt_of_ne hne with hlt | hlt
        · omega
        · cases hxstay (Nat.le_of_lt hlt)
          omega
      obtain ⟨c, hc, hintersect, hcmeet⟩ := ih x' y' hx' hy' (by omega)
      rw [if_neg hxy, hclimb, Option.bind_eq_bind, Option.bind_some, hclimb', Option.bind_some,
        hintersect]
      exact ⟨c, hc, rfl, hmeet c (hmeet' c hcmeet.swap).swap⟩

/-- What the predecessors with a place meet in, `noBlock` when there is none. -/
def CommonOf (idom : Nat → Nat) (P : Set Nat) (dominator : Nat) : Prop :=
  dominator = noBlock ∧ P = ∅ ∨ idom dominator ≠ noBlock ∧ Meet idom 0 P dominator

theorem commonDominator_spec (ht : RankedTree rank 0 {x | idom x ≠ noBlock} idom)
    (hnone : idom noBlock = noBlock) {fuel : Nat} (hfuel : 3 * rank 0 < fuel) :
    ∀ (ps : List Nat) (P : Set Nat) (dominator : Nat), CommonOf idom P dominator →
      ∃ d, commonDominator rank idom fuel ps dominator = some d ∧
        CommonOf idom (P ∪ {p | idom p ≠ noBlock ∧ p ∈ ps}) d := by
  intro ps
  induction ps with
  | nil =>
    intro P dominator h
    refine ⟨dominator, rfl, ?_⟩
    have hset : P ∪ {p | idom p ≠ noBlock ∧ p ∈ ([] : List Nat)} = P := by simp
    rwa [hset]
  | cons p ps ih =>
    intro P dominator h
    rw [commonDominator]
    by_cases hp : idom p = noBlock
    · have hset : {q | idom q ≠ noBlock ∧ q ∈ p :: ps} = {q | idom q ≠ noBlock ∧ q ∈ ps} := by
        ext q
        simp only [Set.mem_ofPred_eq, List.mem_cons]
        refine and_congr_right fun hq => or_iff_right ?_
        rintro rfl
        exact hq hp
      rw [if_pos hp, hset]
      exact ih P dominator h
    · have hset : P ∪ {q | idom q ≠ noBlock ∧ q ∈ p :: ps} =
          insert p P ∪ {q | idom q ≠ noBlock ∧ q ∈ ps} := by
        ext q
        simp only [Set.mem_union, Set.mem_ofPred_eq, List.mem_cons, Set.mem_insert_iff]
        by_cases hqp : q = p
        · subst hqp
          simp [hp]
        · simp [hqp]
      rw [if_neg hp, hset]
      by_cases hd : dominator = noBlock
      · rw [if_pos hd]
        refine ih _ _ (.inr ⟨hp, ?_⟩)
        rcases h with ⟨-, rfl⟩ | ⟨hne, -⟩
        · rw [insert_empty_eq]
          exact .single p
        · exact absurd (hd ▸ hnone) hne
      · obtain ⟨hdS, hmeet⟩ := h.resolve_left fun hand => hd hand.1
        obtain ⟨c, hc, hintersect, hcmeet⟩ := intersect_spec ht fuel p dominator hp hdS (by omega)
        rw [if_neg hd, hintersect, Option.bind_eq_bind, Option.bind_some]
        exact ih _ _ (.inr ⟨hc, hmeet.insert hcmeet⟩)

/-- `dominates` finds the ancestors. -/
theorem dominates_spec (ht : RankedTree rank 0 S idom) (d : Nat) :
    ∀ (fuel x : Nat), x ∈ S → rank 0 - rank x < fuel →
      ∃ r, dominates idom d fuel x = some r ∧ (r = true ↔ Above idom 0 x d) := by
  intro fuel
  induction fuel with
  | zero => exact fun x _ hfuel => absurd hfuel (Nat.not_lt_zero _)
  | succ fuel ih =>
    intro x hx hfuel
    rw [dominates]
    by_cases hxd : x = d
    · subst hxd
      rw [if_pos rfl]
      exact ⟨true, rfl, iff_of_true rfl (.refl x)⟩
    · rw [if_neg hxd]
      by_cases hx0 : x = 0
      · subst hx0
        rw [if_pos rfl]
        refine ⟨false, rfl, iff_of_false Bool.false_ne_true fun h => ?_⟩
        exact (h.of_ne (Ne.symm hxd)).1 rfl
      · have hup := ht.rank_up x hx hx0
        have hle := ht.rank_le _ (ht.up_mem x hx hx0)
        obtain ⟨r, hr, hiff⟩ := ih (idom x) (ht.up_mem x hx hx0) (by omega)
        rw [if_neg hx0]
        exact ⟨r, hr, hiff.trans ⟨.step hx0, fun h => (h.of_ne (Ne.symm hxd)).2⟩⟩

end Meeting

/-! ## 4. The rounds -/

section Rounds

variable {fcn : MIRFunction V} {predecessors : Nat → List Nat} {rank parent idom : Nat → Nat}
  {fuel : Nat}

/-- The blocks that have got a place in the tree. -/
def Placed (idom : Nat → Nat) : Set Nat := {x | idom x ≠ noBlock}

/-- The blocks from the last number down to 0. -/
def Falling (rank : Nat → Nat) : List Nat → Prop
  | [] => True
  | b :: rest => rank b = rest.length ∧ Falling rank rest

/-- Nothing above all predecessors of a block is below its place. -/
def Settled (fcn : MIRFunction V) (idom : Nat → Nat) (b : Nat) : Prop :=
  ∀ p ∈ Placed idom, Edge fcn p b → Above idom 0 p (idom b)

/-- What a round needs of its tables. -/
structure Rounds (fcn : MIRFunction V) (predecessors : Nat → List Nat) (rank parent : Nat → Nat)
    (fuel : Nat) : Prop where
  edges : HasEdges fcn
  pos : 0 < fcn.blocks.length
  sources : ∀ b, Reachable (Edge fcn) 0 b → ∀ p, p ∈ predecessors b ↔ Edge fcn p b
  numbered : Numbered (Edge fcn) rank 0 parent
  fuel : 3 * rank 0 < fuel

/-- How far the blocks can still move up. -/
noncomputable def roomLeft (rank idom : Nat → Nat) (blocks : List Nat) : Nat :=
  (blocks.map (room rank 0 (Placed idom) idom)).sum

variable (hr : Rounds fcn predecessors rank parent fuel)

include hr

theorem Rounds.lt_noBlock {x : Nat}
    (hx : Reachable (Edge fcn) 0 x) : x < noBlock :=
  Nat.lt_of_lt_of_le (hr.edges.reachable_lt hr.pos hx) hr.edges.size

/-- The place of one block, as a round computes it. -/
theorem Rounds.meet {b : Nat} (hb : Reachable (Edge fcn) 0 b)
    (hb0 : b ≠ 0) (h : Sweeping (Edge fcn) rank 0 parent (rank b + 1) (Placed idom) idom) :
    ∃ d, commonDominator rank idom fuel (predecessors b) noBlock = some d ∧ d < noBlock ∧
      d ∈ Placed idom ∧
      Meet idom 0 {p | p ∈ Placed idom ∧ Edge fcn p b} d := by
  have hnone : idom noBlock = noBlock := by
    by_contra hne
    exact absurd (hr.lt_noBlock (h.reach noBlock hne)) (Nat.lt_irrefl _)
  obtain ⟨d, hd, hcommon⟩ := commonDominator_spec h.tree hnone hr.fuel (predecessors b) ∅ noBlock
    (.inl ⟨rfl, rfl⟩)
  have hset : (∅ : Set Nat) ∪ {p | idom p ≠ noBlock ∧ p ∈ predecessors b} =
      {p | p ∈ Placed idom ∧ Edge fcn p b} := by
    ext p
    rw [Set.empty_union]
    exact and_congr_right fun _ => hr.sources b hb p
  rw [hset] at hcommon
  have hpar : parent b ∈ {p | p ∈ Placed idom ∧ Edge fcn p b} :=
    ⟨h.seen _ (hr.numbered.reach b hb hb0) (hr.numbered.rank_parent b hb hb0),
    hr.numbered.edge b hb hb0⟩
  rcases hcommon with ⟨-, hempty⟩ | ⟨hplaced, hmeet⟩
  · rw [hempty] at hpar
    exact absurd hpar (Set.notMem_empty _)
  · exact ⟨d, hd, hr.lt_noBlock (h.reach d hplaced), hplaced, hmeet⟩

omit hr in
theorem placed_update {b d : Nat} (hd : d < noBlock) :
    Placed (Function.update idom b d) = insert b (Placed idom) := by
  ext x
  by_cases hx : x = b
  · subst hx
    refine iff_of_true ?_ (.inl rfl)
    show Function.update idom x d x ≠ noBlock
    rw [Function.update_self]
    exact Nat.ne_of_lt hd
  · show Function.update idom b d x ≠ noBlock ↔ _
    rw [Function.update_of_ne hx]
    exact (or_iff_right hx).symm

/-- A round ends; either nothing has changed, or there is less room. -/
theorem sweep_spec {blocks : List Nat} :
    ∀ (order : List Nat) (idom : Nat → Nat) (changed : Bool), Falling rank order →
      (∀ b ∈ order, Reachable (Edge fcn) 0 b ∧ b ∈ blocks) →
      Sweeping (Edge fcn) rank 0 parent order.length (Placed idom) idom →
      ∃ idom' changed', sweep predecessors rank fuel order (idom, changed) =
        some (idom', changed') ∧
        Sweeping (Edge fcn) rank 0 parent 0 (Placed idom') idom' ∧
        roomLeft rank idom' blocks ≤ roomLeft rank idom blocks ∧
        (idom' = idom ∧ changed' = changed ∧ (∀ b ∈ order, b ≠ 0 → Settled fcn idom b) ∨
          changed' = true ∧ roomLeft rank idom' blocks < roomLeft rank idom blocks) := by
  intro order
  induction order with
  | nil =>
    intro idom changed _ _ h
    exact ⟨idom, changed, rfl, h, Nat.le_refl _, .inl ⟨rfl, rfl, nofun⟩⟩
  | cons b order ih =>
    intro idom changed hfall hmem h
    obtain ⟨hrank, hfall⟩ := hfall
    have hmem' : ∀ c ∈ order, Reachable (Edge fcn) 0 c ∧ c ∈ blocks := fun c hc =>
      hmem c (List.mem_cons_of_mem _ hc)
    obtain ⟨hb, hbin⟩ := hmem b List.mem_cons_self
    rw [List.length_cons, ← hrank] at h
    rw [sweep]
    by_cases hb0 : b = 0
    · subst hb0
      rw [if_pos rfl]
      have hskip := h.skip_root hr.numbered
      rw [hrank] at hskip
      obtain ⟨idom', changed', hsweep, hend, hle, hor⟩ := ih idom changed hfall hmem' hskip
      refine ⟨idom', changed', hsweep, hend, hle, hor.imp ?_ id⟩
      rintro ⟨heq, hch, hsettled⟩
      refine ⟨heq, hch, fun c hc hc0 => ?_⟩
      exact hsettled c ((List.mem_cons.1 hc).resolve_left hc0) hc0
    · obtain ⟨d, hd, hdlt, hdS, hmeet⟩ := hr.meet hb hb0 h
      have hmoving : Moving (Edge fcn) rank 0 parent (Placed idom) idom b d := ⟨h, hb, hb0, hmeet⟩
      have hnew := hmoving.update hr.numbered
      rw [hrank, ← placed_update hdlt] at hnew
      rw [if_neg hb0, hd, Option.bind_eq_bind, Option.bind_some]
      by_cases hsame : idom b = d
      · rw [if_neg (not_not.2 hsame)]
        have hstay : Function.update idom b d = idom := by rw [← hsame, Function.update_eq_self]
        rw [hstay] at hnew
        obtain ⟨idom', changed', hsweep, hend, hle, hor⟩ := ih idom changed hfall hmem' hnew
        refine ⟨idom', changed', hsweep, hend, hle, hor.imp ?_ id⟩
        rintro ⟨heq, hch, hsettled⟩
        refine ⟨heq, hch, fun c hc hc0 => ?_⟩
        rcases List.mem_cons.1 hc with rfl | hc
        · rw [Settled, hsame]
          exact fun p hp e => hmeet.above p ⟨hp, e⟩
        · exact hsettled c hc hc0
      · rw [if_pos hsame]
        obtain ⟨idom', changed', hsweep, hend, hle, hor⟩ :=
          ih (Function.update idom b d) true hfall hmem' hnew
        have hless : roomLeft rank (Function.update idom b d) blocks <
          roomLeft rank idom blocks := by
          obtain ⟨hle, hlt⟩ := room_update h.tree hdS hb0 hmoving.move
          rw [roomLeft, roomLeft, placed_update hdlt]
          exact List.sum_lt_sum _ _ (fun x _ => hle x) ⟨b, hbin, hlt (.inr hsame)⟩
        refine ⟨idom', changed', hsweep, hend, hle.trans (Nat.le_of_lt hless),
          .inr ⟨?_, Nat.lt_of_le_of_lt hle hless⟩⟩
        rcases hor with ⟨-, rfl, -⟩ | ⟨rfl, -⟩
        · rfl
        · rfl

/-- The rounds end, with the tree of the dominators. -/
theorem dominatorTree_spec {order : List Nat}
    (hfall : Falling rank order) (hmem : ∀ b, b ∈ order ↔ Reachable (Edge fcn) 0 b) :
    ∀ (rounds : Nat) (idom : Nat → Nat), roomLeft rank idom order < rounds →
      Sweeping (Edge fcn) rank 0 parent order.length (Placed idom) idom →
      ∃ idom', dominatorTree predecessors rank order fuel rounds idom = some idom' ∧
        Sweeping (Edge fcn) rank 0 parent 0 (Placed idom') idom' ∧
        ∀ b, Reachable (Edge fcn) 0 b → ∀ d, Dominates (Edge fcn) 0 d b ↔ Above idom' 0 b d := by
  intro rounds
  induction rounds with
  | zero => exact fun idom hrounds => absurd hrounds (Nat.not_lt_zero _)
  | succ rounds ih =>
    intro idom hrounds h
    obtain ⟨idom', changed', hsweep, hend, -, hor⟩ :=
      sweep_spec hr order idom false hfall (fun b hb => ⟨(hmem b).1 hb, hb⟩) h
    rw [dominatorTree, hsweep, Option.bind_eq_bind, Option.bind_some]
    rcases hor with ⟨rfl, rfl, hsettled⟩ | ⟨rfl, hless⟩
    · refine ⟨idom', rfl, hend, fun b hb d => ?_⟩
      exact hend.dominates (fun c hc hc0 p hp e => hsettled c ((hmem c).2 hc) hc0 p hp e) hb d
    · exact ih idom' (by omega) (hend.again _)

end Rounds

/-! ## 5. The blocks that count -/

/-- The intrinsics that are lowered to statements elsewhere. -/
def lowered : List RcString :=
  ["add_with_overflow", "aggregate_raw_ptr", "align_of", "assume", "contract_checks",
  "copy_nonoverlapping",
    "discriminant_value", "forget", "mul_with_overflow", "offset", "ptr_metadata", "read_via_copy",
    "size_of",
    "slice_get_unchecked", "sub_with_overflow", "three_way_compare", "transmute",
    "transmute_unchecked",
    "ub_checks", "unchecked_add", "unchecked_div", "unchecked_mul", "unchecked_rem",
    "unchecked_shl",
    "unchecked_shr", "unchecked_sub", "unreachable", "wrapping_add", "wrapping_mul", "wrapping_sub",
    "write_via_move"].map (·.toList)

def countedCall : MIRTerminator V → Bool
  | .Call _ _ _ (.Intrinsic name _) _ _ _ => !lowered.contains name
  | .Call _ _ _ _ _ _ _ => true
  | _ => false

/-- The loop over the targets of a block, up to one that dominates it. -/
def anyDominates (idom : Nat → Nat) (fuel block : Nat) : List Nat → Option Bool
  | [] => some false
  | target :: rest => do
    if ← dominates idom target fuel block then some true else anyDominates idom fuel block rest

def stepAt (e : Edges) (idom : Nat → Nat) (fuel block : Nat) (terminator : MIRTerminator V) :
    Option Bool :=
  if idom block = noBlock then some false
  else if countedCall terminator then some true
  else anyDominates idom fuel block (e.of block)

/-- The last loop, from a block on. -/
def stepsFrom (e : Edges) (idom : Nat → Nat) (fuel : Nat) : Nat → List (MIRBasicBlock V) →
    Option (List Bool)
  | _, [] => some []
  | block, bb :: blocks => do
    let step ← stepAt e idom fuel block bb.terminator
    let steps ← stepsFrom e idom fuel (block + 1) blocks
    some (step :: steps)

def stepBlocksOf (fuel : Nat) (fcn : MIRFunction V) : Option (List Bool) := do
  let e := edgesOf fcn
  let s ← search e fuel
  let start := if 0 < e.count then Function.update (fun _ => noBlock) 0 0 else fun _ => noBlock
  let idom ← dominatorTree (predecessorsOf e) s.postIndex s.postorder.reverse fuel fuel start
  stepsFrom e idom fuel 0 fcn.blocks

section Steps

variable {fcn : MIRFunction V}

theorem falling_reverse {rank : Nat → Nat} {l : List Nat} (h : ∀ i x, l[i]? = some x → rank x = i) :
    Falling rank l.reverse := by
  induction l using List.reverseRecOn with
  | nil => trivial
  | append_singleton l x ih =>
    rw [List.reverse_append, List.reverse_singleton, List.singleton_append]
    refine ⟨?_, ih fun i y hy => h i y ?_⟩
    · rw [List.length_reverse]
      exact h _ _ (by simp)
    · rw [List.getElem?_append_left (List.getElem?_eq_some_iff.1 hy).1]
      exact hy

theorem anyDominates_spec {idom : Nat → Nat} {fuel block : Nat} {P : Nat → Prop} :
    ∀ {targets : List Nat}, (∀ t ∈ targets, ∃ r, dominates idom t fuel block = some r ∧
      (r = true ↔ P t)) →
      ∃ r, anyDominates idom fuel block targets = some r ∧ (r = true ↔ ∃ t ∈ targets, P t)
  | [], _ => ⟨false, rfl, by simp⟩
  | t :: targets, h => by
    obtain ⟨r, hr, hiff⟩ := h t List.mem_cons_self
    rw [anyDominates, hr, Option.bind_eq_bind, Option.bind_some]
    cases r with
    | true => exact ⟨true, rfl, iff_of_true rfl ⟨t, List.mem_cons_self, hiff.1 rfl⟩⟩
    | false =>
      obtain ⟨r', hr', hiff'⟩ := anyDominates_spec fun t' ht' => h t' (List.mem_cons_of_mem _ ht')
      refine ⟨r', hr', hiff'.trans ⟨?_, ?_⟩⟩
      · rintro ⟨t', ht', hp⟩
        exact ⟨t', List.mem_cons_of_mem _ ht', hp⟩
      · rintro ⟨t', ht', hp⟩
        rcases List.mem_cons.1 ht' with rfl | ht'
        · exact absurd (hiff.2 hp) Bool.false_ne_true
        · exact ⟨t', ht', hp⟩

theorem stepsFrom_spec {e : Edges} {idom : Nat → Nat} {fuel : Nat}
    {P : Nat → MIRTerminator V → Prop} :
    ∀ {blocks : List (MIRBasicBlock V)} {block : Nat},
      (∀ i bb, blocks[i]? = some bb → ∃ r, stepAt e idom fuel (block + i) bb.terminator = some r ∧
        (r = true ↔ P (block + i) bb.terminator)) →
      ∃ steps, stepsFrom e idom fuel block blocks = some steps ∧ steps.length = blocks.length ∧
        ∀ i bb, blocks[i]? = some bb → (steps[i]? = some true ↔ P (block + i) bb.terminator)
  | [], block, _ => ⟨[], rfl, rfl, nofun⟩
  | bb :: blocks, block, h => by
    obtain ⟨r, hr, hiff⟩ := h 0 bb rfl
    rw [Nat.add_zero] at hr hiff
    have hrest : ∀ i bb', blocks[i]? = some bb' → ∃ r,
      stepAt e idom fuel (block + 1 + i) bb'.terminator = some r ∧
        (r = true ↔ P (block + 1 + i) bb'.terminator) := by
      intro i bb' hbb'
      rw [Nat.add_assoc, Nat.add_comm 1 i]
      exact h (i + 1) bb' hbb'
    obtain ⟨steps, hsteps, hlen, hall⟩ := stepsFrom_spec hrest
    simp only [stepsFrom, hr, hsteps, Option.bind_eq_bind, Option.bind_some]
    refine ⟨r :: steps, rfl, congrArg (· + 1) hlen, fun i bb' hbb' => ?_⟩
    cases i with
    | zero =>
      cases hbb'
      rw [List.getElem?_cons_zero, Option.some.injEq]
      exact hiff
    | succ i =>
      rw [List.getElem?_cons_succ, ← Nat.add_assoc, Nat.add_right_comm]
      exact hall i bb' hbb'

/-- A block that counts: it is reachable, and it calls or has an edge to a block that dominates
    it. -/
def Counts (fcn : MIRFunction V) (b : Nat) (terminator : MIRTerminator V) : Prop :=
  Reachable (Edge fcn) 0 b ∧
    (countedCall terminator = true ∨ ∃ t ∈ targetsOf fcn b, Dominates (Edge fcn) 0 t b)

/-- Fuel that is enough for all loops. -/
def stepFuel (fcn : MIRFunction V) : Nat :=
  searchWork (targetsOf fcn) (List.range fcn.blocks.length) [(0, targetsOf fcn 0)] +
    fcn.blocks.length * fcn.blocks.length + 3 * fcn.blocks.length + 2

theorem roomLeft_le {rank idom : Nat → Nat} {n : Nat} (hn : rank 0 < n) (blocks : List Nat) :
    roomLeft rank idom blocks ≤ blocks.length * n := by
  have hle : ∀ x ∈ blocks.map (room rank 0 (Placed idom) idom), x ≤ n := by
    intro x hx
    obtain ⟨b, -, rfl⟩ := List.mem_map.1 hx
    rw [room]
    split <;> omega
  have hsum := List.sum_le_card_nsmul _ n hle
  rwa [List.length_map] at hsum

/-- The numbering of the blocks that are reachable. -/
theorem search_spec (hfcn : HasEdges fcn) (hpos : 0 < fcn.blocks.length) {fuel : Nat}
    (hfuel : stepFuel fcn ≤ fuel) :
    ∃ s, search (edgesOf fcn) fuel = some s ∧ Numbering fcn s.postIndex s.postorder [] := by
  have hof := edgesOf_of hpos
  rw [Edges.of] at hof
  have hcount : 0 < (edgesOf fcn).count := hpos
  rw [search, if_pos hcount]
  refine depthFirst_ends hfcn hpos fuel _ (List.range fcn.blocks.length) ?_
    (fun x hx _ => List.mem_range.2 hx) ?_
  · simp only [pendingTargets, List.map_cons, List.map_nil, hof]
    exact .start fcn
  · simp only [pendingTargets, List.map_cons, List.map_nil, hof]
    rw [stepFuel] at hfuel
    omega

/-- The tree of the dominators of the blocks that are reachable. -/
structure TreeOf (fcn : MIRFunction V) (rank idom : Nat → Nat) : Prop where
  tree : RankedTree rank 0 (Placed idom) idom
  placed : ∀ b, b ∈ Placed idom ↔ Reachable (Edge fcn) 0 b
  dominates : ∀ b, Reachable (Edge fcn) 0 b → ∀ d, Dominates (Edge fcn) 0 d b ↔ Above idom 0 b d
  height : rank 0 < fcn.blocks.length

theorem placed_start : Placed (Function.update (fun _ => noBlock) 0 0) = {0} := by
  have hempty : Placed (fun _ => noBlock) = ∅ := by
    ext x
    exact iff_of_false (fun hne => hne rfl) (Set.notMem_empty x)
  rw [placed_update (by decide), hempty, insert_empty_eq]

/-- The numbering and the rounds end, with that tree. -/
theorem dominatorTree_found (hfcn : HasEdges fcn) (hpos : 0 < fcn.blocks.length) {fuel : Nat}
    (hfuel : stepFuel fcn ≤ fuel) :
    ∃ s idom, search (edgesOf fcn) fuel = some s ∧
      dominatorTree (predecessorsOf (edgesOf fcn)) s.postIndex s.postorder.reverse fuel fuel
        (Function.update (fun _ => noBlock) 0 0) = some idom ∧ TreeOf fcn s.postIndex idom := by
  obtain ⟨s, hs, hnum⟩ := search_spec hfcn hpos hfuel
  obtain ⟨parent, hnumbered⟩ := hnum.searching.numbered hnum.index
  have hmem := hnum.searching.mem_iff
  have hlen : s.postorder.length ≤ fcn.blocks.length := by
    have hsub : s.postorder ⊆ List.range fcn.blocks.length :=
      fun x hx => List.mem_range.2 (hfcn.reachable_lt hpos ((hmem x).1 hx))
    have hle := (List.subperm_of_subset hnum.searching.nodup hsub).length_le
    rwa [List.length_range] at hle
  have hroot : s.postIndex 0 < s.postorder.length := by
    obtain ⟨i, hi⟩ := List.getElem?_of_mem ((hmem 0).2 ⟨_, .start⟩)
    rw [hnum.index i 0 hi]
    exact (List.getElem?_eq_some_iff.1 hi).1
  rw [stepFuel] at hfuel
  have hrounds : Rounds fcn (predecessorsOf (edgesOf fcn)) s.postIndex parent fuel :=
    ⟨hfcn, hpos, fun b hb p => mem_predecessorsOf hfcn.targets (hfcn.reachable_lt hpos hb),
    hnumbered, by omega⟩
  have hle : s.postIndex 0 ≤ s.postorder.reverse.length := by
    rw [List.length_reverse]
    exact Nat.le_of_lt hroot
  have hstart := Sweeping.start hnumbered hle (Function.update (fun _ => noBlock) 0 0)
  rw [← placed_start] at hstart
  have hroom : roomLeft s.postIndex (Function.update (fun _ => noBlock) 0 0) s.postorder.reverse <
    fuel := by
    have hroomle : roomLeft s.postIndex (Function.update (fun _ => noBlock) 0 0)
      s.postorder.reverse ≤ _ :=
      roomLeft_le (Nat.lt_of_lt_of_le hroot hlen) _
    rw [List.length_reverse] at hroomle
    have hmul := Nat.mul_le_mul_right fcn.blocks.length hlen
    omega
  obtain ⟨idom, hidom, hsweeping, hdom⟩ := dominatorTree_spec hrounds (falling_reverse hnum.index)
    (fun b => List.mem_reverse.trans (hmem b)) fuel _ hroom hstart
  exact ⟨s, idom, hs, hidom, hsweeping.tree,
    fun b => ⟨hsweeping.reach b, fun hb => hsweeping.seen b hb (Nat.zero_le _)⟩, hdom,
    Nat.lt_of_lt_of_le hroot hlen⟩

/-- With the tree, the blocks that count are found. -/
theorem stepAt_spec {rank idom : Nat → Nat} (ht : TreeOf fcn rank idom) {fuel : Nat}
    (hfuel : fcn.blocks.length ≤ fuel) {b : Nat} {bb : MIRBasicBlock V}
      (hbb : fcn.blocks[b]? = some bb) :
    ∃ r, stepAt (edgesOf fcn) idom fuel b bb.terminator = some r ∧
      (r = true ↔ Counts fcn b bb.terminator) := by
  have hb := (List.getElem?_eq_some_iff.1 hbb).1
  rw [stepAt]
  by_cases hplace : idom b = noBlock
  · rw [if_pos hplace]
    refine ⟨false, rfl, iff_of_false Bool.false_ne_true fun hcounts => ?_⟩
    exact (ht.placed b).2 hcounts.1 hplace
  · have hreach := (ht.placed b).1 hplace
    rw [if_neg hplace]
    by_cases hcall : countedCall bb.terminator = true
    · rw [if_pos hcall]
      exact ⟨true, rfl, iff_of_true rfl ⟨hreach, .inl hcall⟩⟩
    · rw [if_neg hcall, edgesOf_of hb]
      have hheight := ht.height
      have hspec : ∀ t ∈ targetsOf fcn b,
          ∃ r, dominates idom t fuel b = some r ∧ (r = true ↔ Dominates (Edge fcn) 0 t b) := by
        intro t _
        obtain ⟨r, hr, hiff⟩ := dominates_spec ht.tree t fuel b hplace (by omega)
        exact ⟨r, hr, hiff.trans (ht.dominates b hreach t).symm⟩
      obtain ⟨r, hr, hiff⟩ := anyDominates_spec hspec
      refine ⟨r, hr, hiff.trans ⟨fun h => ⟨hreach, .inr h⟩, fun h => ?_⟩⟩
      exact h.2.resolve_left hcall

/-- With enough fuel the blocks that count are marked. -/
theorem stepBlocksOf_spec (hfcn : HasEdges fcn) {fuel : Nat} (hfuel : stepFuel fcn ≤ fuel) :
    ∃ steps, stepBlocksOf fuel fcn = some steps ∧ steps.length = fcn.blocks.length ∧
      ∀ b bb, fcn.blocks[b]? = some bb → (steps[b]? = some true ↔ Counts fcn b bb.terminator) := by
  by_cases hpos : 0 < fcn.blocks.length
  · obtain ⟨s, idom, hs, hidom, htree⟩ := dominatorTree_found hfcn hpos hfuel
    have hcount : 0 < (edgesOf fcn).count := hpos
    have hsteps : stepBlocksOf fuel fcn = stepsFrom (edgesOf fcn) idom fuel 0 fcn.blocks := by
      rw [stepBlocksOf]
      simp only [hs, hidom, hcount, Option.bind_eq_bind, Option.bind_some, if_true]
    have hlen : fcn.blocks.length ≤ fuel := by
      rw [stepFuel] at hfuel
      omega
    have hall : ∀ i bb, fcn.blocks[i]? = some bb →
        ∃ r, stepAt (edgesOf fcn) idom fuel (0 + i) bb.terminator = some r ∧
          (r = true ↔ Counts fcn (0 + i) bb.terminator) := by
      intro i bb hbb
      rw [Nat.zero_add]
      exact stepAt_spec htree hlen hbb
    obtain ⟨steps, hfrom, hlength, hmarks⟩ := stepsFrom_spec hall
    refine ⟨steps, hsteps.trans hfrom, hlength, fun b bb hbb => ?_⟩
    have hmark := hmarks b bb hbb
    rwa [Nat.zero_add] at hmark
  · have hnil : fcn.blocks = [] := List.length_eq_zero_iff.1 (by omega)
    obtain ⟨n, rfl⟩ : ∃ n, fuel = n + 1 := ⟨fuel - 1, by rw [stepFuel] at hfuel; omega⟩
    have hcount : ¬ 0 < (edgesOf fcn).count := hpos
    refine ⟨[], ?_, by rw [hnil]; rfl, fun b bb hbb => by rw [hnil] at hbb; exact nomatch hbb⟩
    simp only [stepBlocksOf, search, if_neg hcount, depthFirst, Option.bind_eq_bind,
      Option.bind_some,
      List.reverse_nil, dominatorTree, sweep, hnil, stepsFrom]
    rfl

/-- A circle with two entries, a loop, and a block that is not reachable. -/
example : stepBlocksOf (V := Mir.bare) 40
    ⟨[], [], [⟨[], .If ⟨.Return, []⟩ 1 2, false⟩, ⟨[], .Goto 2, false⟩,
    ⟨[], .If ⟨.Return, []⟩ 1 3, false⟩,
      ⟨[], .Goto 3, false⟩, ⟨[], .Goto 4, false⟩]⟩ = some [false, false, false, true, false] := by
  decide

end Steps

end Trustme.Eval
