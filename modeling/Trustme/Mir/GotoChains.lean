/-
  Subject:   The first loop of `MIROptimiseBlockSimplify` (mir_operations.cpp): chains of empty
             blocks that end in a Goto, and a Switch behind a Switch on the same value.

  * `getNewTarget`, `rewriteGotoChains`, `forwardSwitch`, `simplifyEdges`: the loop;
  * `ChainEnds`: a chain of empty blocks comes to an end;
  * `simplifyEdges_traces`: the executions stay as they are;
  * `edgesPass_settles_iff`: the loop ends exactly if all chains do.
-/
import Trustme.Mir.BlockEdits

namespace Trustme.Mir

open Metadata Lib

variable {V : Vocabulary} {W : Type}

/-! ## 1. The loop -/

instance [DecidableEq V.HIRPath] : DecidableEq (Storage V)
  | .Return, .Return => isTrue rfl
  | .Argument a _, .Argument b _ => decidable_of_iff (a = b) (by simp)
  | .Local a _, .Local b _ => decidable_of_iff (a = b) (by simp)
  | .Static p, .Static q => decidable_of_iff (p = q) (by simp)
  | .Return, .Argument _ _ | .Return, .Local _ _ | .Return, .Static _
  | .Argument _ _, .Return | .Argument _ _, .Local _ _ | .Argument _ _, .Static _
  | .Local _ _, .Return | .Local _ _, .Argument _ _ | .Local _ _, .Static _
  | .Static _, .Return | .Static _, .Argument _ _ | .Static _, .Local _ _ => isFalse nofun

instance [DecidableEq V.HIRPath] : DecidableEq (MIRLValue V) := fun a b =>
  decidable_of_iff (a.root = b.root ∧ a.wrappers = b.wrappers) (by
    cases a
    cases b
    simp)

/-- The block that an empty block goes on to, if it is another one. -/
def link (fcn : MIRFunction V) (bb : BitVec 32) : Option (BitVec 32) :=
  match fcn.blocks[bb.toNat]? with
  | some ⟨[], .Goto target, _⟩ => if bb = target then none else some target
  | _ => none

/-- `H::getNewTarget`; out of fuel, it does not return. -/
def getNewTarget (fcn : MIRFunction V) : Nat → BitVec 32 → Option (BitVec 32)
  | 0, _ => none
  | fuel + 1, bb =>
    match link fcn bb with
    | none => some bb
    | some target => getNewTarget fcn fuel target

/-- `RewriteGotoChains::visitTarget`, in block `bb`. -/
def newTarget (fcn : MIRFunction V) (fuel bb : Nat) (target : BitVec 32) : Option (BitVec 32) :=
  if target.toNat = bb then some target else getNewTarget fcn fuel target

def rewriteGotoChains (fcn : MIRFunction V) (fuel bb : Nat) (t : MIRTerminator V) :
    Option (MIRTerminator V) :=
  if t.targets.all fun b => (newTarget fcn fuel bb b).isSome then
    some (t.mapTargets fun b => (newTarget fcn fuel bb b).getD b)
  else none

section Pass

variable [DecidableEq V.HIRPath]

/-- Where a Switch on `val` goes on for the variant `idx`, if its target is such a Switch too. -/
def forwarded (fcn : MIRFunction V) (val : MIRLValue V) (idx : Nat) (target : BitVec 32) :
    BitVec 32 :=
  match fcn.blocks[target.toNat]? with
  | some ⟨[], .Switch val' targets validFlag _, _⟩ =>
    if validFlag = NONE ∧ val' = val then targets.getD idx target else target
  | _ => target

def forwardSwitch (fcn : MIRFunction V) : MIRTerminator V → MIRTerminator V
  | .Switch val targets validFlag invalidTarget =>
    if validFlag ≠ NONE then .Switch val targets validFlag invalidTarget
    else .Switch val (targets.mapIdx (forwarded fcn val)) validFlag invalidTarget
  | t => t

/-- The body of the loop. -/
def simplifyEdges (fuel bb : Nat) (fcn : MIRFunction V) : Option (MIRFunction V) :=
  match fcn.blocks[bb]? with
  | none => some fcn
  | some block =>
    match rewriteGotoChains fcn fuel bb block.terminator with
    | none => none
    | some t =>
      let fcn := setTerminator fcn bb t
      some (setTerminator fcn bb (forwardSwitch fcn t))

def edgesPass (fuel : Nat) (fcn : MIRFunction V) : Option (MIRFunction V) :=
  (List.range fcn.blocks.length).foldlM (fun fcn bb => simplifyEdges fuel bb fcn) fcn

end Pass

/-! ## 2. Chains -/

section Chains

variable {fcn : MIRFunction V}

/-- The chain of empty blocks that starts at a block comes to an end. -/
inductive ChainEnds (fcn : MIRFunction V) : BitVec 32 → Prop where
  | here {bb} (h : link fcn bb = none) : ChainEnds fcn bb
  | next {bb target} (h : link fcn bb = some target) (ht : ChainEnds fcn target) : ChainEnds fcn bb

theorem link_some {bb target : BitVec 32} (h : link fcn bb = some target) :
    ∃ block, fcn.blocks[bb.toNat]? = some block ∧ block.statements = [] ∧
      block.terminator = .Goto target ∧ bb ≠ target := by
  unfold link at h
  split at h
  · next target' isCleanup hb =>
    split at h
    · cases h
    · next hne =>
      cases h
      exact ⟨_, hb, rfl, rfl, hne⟩
  · cases h

theorem link_of_block {bb target : BitVec 32} {block : MIRBasicBlock V}
    (hblock : fcn.blocks[bb.toNat]? = some block) (hempty : block.statements = [])
    (hgoto : block.terminator = .Goto target) (hne : bb ≠ target) : link fcn bb = some target := by
  obtain ⟨statements, terminator, isCleanup⟩ := block
  cases hempty
  cases hgoto
  rw [link, hblock]
  exact if_neg hne

theorem getNewTarget_mono {n m : Nat} (hnm : n ≤ m) : ∀ {bb r : BitVec 32},
    getNewTarget fcn n bb = some r → getNewTarget fcn m bb = some r := by
  induction n generalizing m with
  | zero => exact fun h => by cases h
  | succ n ih =>
    intro bb r h
    obtain ⟨m, rfl⟩ : ∃ k, m = k + 1 := ⟨m - 1, by omega⟩
    rw [getNewTarget] at h ⊢
    split
    · next hl => rwa [hl] at h
    · next target hl =>
      rw [hl] at h
      exact ih (by omega) h

theorem ChainEnds.found {bb : BitVec 32} (h : ChainEnds fcn bb) :
    ∃ n r, getNewTarget fcn n bb = some r := by
  induction h with
  | here hl => exact ⟨1, _, by rw [getNewTarget, hl]⟩
  | next hl _ ih =>
    obtain ⟨n, r, hr⟩ := ih
    exact ⟨n + 1, r, by rw [getNewTarget, hl]; exact hr⟩

theorem getNewTarget_ends : ∀ {n : Nat} {bb r : BitVec 32}, getNewTarget fcn n bb = some r →
    ChainEnds fcn bb ∧ link fcn r = none
  | 0, _, _, h => by cases h
  | n + 1, bb, r, h => by
    rw [getNewTarget] at h
    split at h
    · next hl =>
      cases h
      exact ⟨.here hl, hl⟩
    · next target hl =>
      obtain ⟨hends, hr⟩ := getNewTarget_ends h
      exact ⟨.next hl hends, hr⟩

theorem getNewTarget_skips {I : Interp V W} (w : W) : ∀ {n : Nat} {bb r : BitVec 32},
    getNewTarget fcn n bb = some r → Skips I fcn w bb r
  | 0, _, _, h => by cases h
  | n + 1, bb, r, h => by
    rw [getNewTarget] at h
    split at h
    · cases h
      exact Skips.refl
    · next target hl =>
      obtain ⟨block, hb, hempty, hgoto, _⟩ := link_some hl
      have hstep : Moves I fcn (enter fcn bb.toNat w) none (enter fcn target.toNat w) := by
        have henter : enter fcn bb.toNat w = ⟨.inside bb.toNat [], w⟩ := by
          rw [enter, statementsAt, hb]
          exact congrArg (fun l => State.mk (.inside bb.toNat l) w) hempty
        rw [henter]
        refine .branch hb (by rw [hgoto]; rfl) ?_
        rw [hgoto]
        rfl
      exact Relation.ReflTransGen.head hstep (getNewTarget_skips w h)

theorem getNewTarget_lt {I : Interp V W} (hf : WellFormed I fcn) : ∀ {n : Nat} {bb r : BitVec 32},
    bb.toNat < fcn.blocks.length → getNewTarget fcn n bb = some r → r.toNat < fcn.blocks.length
  | 0, _, _, _, h => by cases h
  | n + 1, bb, r, hlt, h => by
    rw [getNewTarget] at h
    split at h
    · cases h
      exact hlt
    · next target hl =>
      obtain ⟨block, hb, _, hgoto, _⟩ := link_some hl
      exact getNewTarget_lt hf (hf.targets _ _ hb target (by rw [hgoto]; exact List.mem_cons_self))
        h

end Chains

/-! ## 3. One block -/

section Block

variable {I : Interp V W} {fcn : MIRFunction V} {fuel bb : Nat} {block : MIRBasicBlock V}
  {t : MIRTerminator V}

/-- What the rewriting puts for a target. -/
theorem newTarget_facts (hf : WellFormed I fcn) {b r : BitVec 32}
    (hlt : b.toNat < fcn.blocks.length)
    (h : newTarget fcn fuel bb b = some r) :
    r.toNat < fcn.blocks.length ∧ ∀ w, Skips I fcn w b r := by
  unfold newTarget at h
  split at h
  · cases h
    exact ⟨hlt, fun _ => Skips.refl⟩
  · exact ⟨getNewTarget_lt hf hlt h, fun w => getNewTarget_skips w h⟩

theorem rewriteGotoChains_facts (hf : WellFormed I fcn) (hb : fcn.blocks[bb]? = some block)
    (h : rewriteGotoChains fcn fuel bb block.terminator = some t) :
    Reroutes I fcn block.terminator t ∧ SwitchFits I t ∧
      ∀ b ∈ t.targets, b.toNat < fcn.blocks.length := by
  unfold rewriteGotoChains at h
  split at h
  · next hall =>
    cases h
    have hfacts : ∀ b ∈ block.terminator.targets,
        ((newTarget fcn fuel bb b).getD b).toNat < fcn.blocks.length ∧
          ∀ w, Skips I fcn w b ((newTarget fcn fuel bb b).getD b) := by
      intro b hmem
      obtain ⟨r, hr⟩ := Option.isSome_iff_exists.1 (List.all_eq_true.1 hall b hmem)
      rw [hr]
      exact newTarget_facts hf (hf.targets _ _ hb b hmem) hr
    have hne : ∀ b ∈ block.terminator.targets, (newTarget fcn fuel bb b).getD b ≠ NONE :=
      fun b hmem => hf.ne_none (hfacts b hmem).1
    refine ⟨?_, (hf.switches _ _ hb).mapTargets, ?_⟩
    · cases hbranch : block.terminator.isBranch with
      | true =>
        refine .branch hbranch ((MIRTerminator.isBranch_mapTargets _).trans hbranch) fun w => ?_
        rw [I.next_mapTargets w hne]
        cases hn : I.next w block.terminator with
        | none => exact .none
        | some b => exact .some ((hfacts b (List.mem_of_getElem? hn)).2 w)
      | false =>
        refine .same hbranch ((MIRTerminator.isBranch_mapTargets _).trans hbranch)
          (MIRTerminator.shape_mapTargets hne) ?_
        rw [MIRTerminator.targets_mapTargets hne, List.forall₂_map_right_iff, List.forall₂_same]
        exact fun b hmem => (hfacts b hmem).2
    · rw [MIRTerminator.targets_mapTargets hne]
      intro b hmem
      obtain ⟨b', hmem', rfl⟩ := List.mem_map.1 hmem
      exact (hfacts b' hmem').1
  · cases h

/-- Another terminator with its edges in the function. -/
theorem WellFormed.setTerminator (hf : WellFormed I fcn) (hfits : SwitchFits I t)
    (hlt : ∀ b ∈ t.targets, b.toNat < fcn.blocks.length) :
    WellFormed I (setTerminator fcn bb t) := by
  have hlook : ∀ (u : Nat) block', (Mir.setTerminator fcn bb t).blocks[u]? = some block' →
      block'.terminator = t ∨ fcn.blocks[u]? = some block' := by
    intro u block' hu
    by_cases he : bb = u
    · subst he
      cases hb : fcn.blocks[bb]? with
      | none =>
        rw [Mir.setTerminator, hb] at hu
        exact .inr (hb.symm.trans hu)
      | some block =>
        cases (setTerminator_same hb).symm.trans hu
        exact .inl rfl
    · exact .inr ((setTerminator_other he).symm.trans hu)
  constructor
  · rw [setTerminator_length]
    exact hf.entry
  · rw [setTerminator_length]
    exact hf.size
  · intro u block' hu b hmem
    rw [setTerminator_length]
    rcases hlook u block' hu with he | hold
    · exact hlt b (he ▸ hmem)
    · exact hf.targets u block' hold b hmem
  · intro u block' hu
    rcases hlook u block' hu with he | hold
    · exact he ▸ hfits
    · exact hf.switches u block' hold

variable [DecidableEq V.HIRPath]

theorem forwarded_facts (hf : WellFormed I fcn) {val : MIRLValue V} {idx : Nat} {b : BitVec 32}
    (hlt : b.toNat < fcn.blocks.length) (hidx : idx < I.variants val) :
    (forwarded fcn val idx b).toNat < fcn.blocks.length ∧
      ∀ w, I.variant val w = idx → Skips I fcn w b (forwarded fcn val idx b) := by
  unfold forwarded
  split
  · next val' targets validFlag invalidTarget isCleanup hb =>
    split
    · next hcond =>
      obtain ⟨rfl, rfl⟩ := hcond
      have hlen : targets.length = I.variants val' := (hf.switches _ _ hb).1
      have hget : targets[idx]? = some targets[idx] := List.getElem?_eq_getElem (hlen ▸ hidx)
      have hgetD : targets.getD idx b = targets[idx] := by rw [List.getD, hget]; rfl
      rw [hgetD]
      refine ⟨hf.targets _ _ hb _ ?_, fun w hw => ?_⟩
      · exact List.mem_append_left _ (List.getElem_mem _)
      · refine Relation.ReflTransGen.single ?_
        have henter : enter fcn b.toNat w = ⟨.inside b.toNat [], w⟩ := by
          rw [enter, statementsAt, hb]
          rfl
        rw [henter]
        refine .branch hb rfl ?_
        simp [Interp.next, Interp.edge, MIRTerminator.targets, hw, hget]
    · exact ⟨hlt, fun _ _ => Skips.refl⟩
  · exact ⟨hlt, fun _ _ => Skips.refl⟩

theorem forwardSwitch_facts (hf : WellFormed I fcn) (hfits : SwitchFits I t)
    (hlt : ∀ b ∈ t.targets, b.toNat < fcn.blocks.length) :
    (t = forwardSwitch fcn t ∨ Reroutes I fcn t (forwardSwitch fcn t)) ∧
      SwitchFits I (forwardSwitch fcn t) ∧
      ∀ b ∈ (forwardSwitch fcn t).targets, b.toNat < fcn.blocks.length := by
  cases t with
  | Switch val targets validFlag invalidTarget =>
    rw [forwardSwitch]
    split
    · exact ⟨.inl rfl, hfits, hlt⟩
    · next hv =>
      obtain rfl := not_not.1 hv
      obtain ⟨hlen, _⟩ := hfits
      have hmem : ∀ b ∈ targets, b.toNat < fcn.blocks.length := fun b hb =>
        hlt b (List.mem_append_left _ hb)
      refine ⟨.inr (.branch rfl rfl fun w => ?_), ⟨?_, fun hn => absurd rfl hn⟩, ?_⟩
      · simp only [Interp.next, Interp.edge, MIRTerminator.targets, ne_eq, not_true_eq_false,
          false_and, if_false, List.append_nil, List.getElem?_mapIdx]
        cases hget : targets[I.variant val w]? with
        | none => exact .none
        | some b =>
          obtain ⟨hidx, rfl⟩ := List.getElem?_eq_some_iff.1 hget
          exact .some ((forwarded_facts hf (hmem _ (List.getElem_mem _)) (hlen ▸ hidx)).2 w rfl)
      · rw [List.length_mapIdx]
        exact hlen
      · intro b hb
        simp only [MIRTerminator.targets, ne_eq, not_true_eq_false, if_false,
          List.append_nil] at hb
        obtain ⟨i, hi, rfl⟩ := List.mem_mapIdx.1 hb
        exact (forwarded_facts hf (hmem _ (List.getElem_mem _)) (hlen ▸ hi)).1
  | _ => exact ⟨.inl rfl, hfits, hlt⟩

omit [DecidableEq V.HIRPath] in
theorem setTerminator_self (hb : fcn.blocks[bb]? = some block) :
    setTerminator fcn bb block.terminator = fcn := by
  rw [setTerminator, hb]
  obtain ⟨locals, dropFlags, blocks⟩ := fcn
  obtain ⟨hlt, rfl⟩ := List.getElem?_eq_some_iff.1 hb
  exact congrArg (MIRFunction.mk locals dropFlags) (List.set_getElem_self hlt)

theorem simplifyEdges_traces {fcn' : MIRFunction V} (hf : WellFormed I fcn)
    (h : simplifyEdges fuel bb fcn = some fcn') : WellFormed I fcn' ∧ SameTraces I fcn fcn' := by
  unfold simplifyEdges at h
  split at h
  · cases h
    exact ⟨hf, .refl _⟩
  · next block hb =>
    split at h
    · cases h
    · next t ht =>
      cases h
      obtain ⟨hroute, hfits, hlt⟩ := rewriteGotoChains_facts hf hb ht
      have hf₁ : WellFormed I (setTerminator fcn bb t) := hf.setTerminator hfits hlt
      have hb₁ := setTerminator_same (t := t) hb
      obtain ⟨hroute₁, hfits₁, hlt₁⟩ := forwardSwitch_facts hf₁ hfits
        (fun b hmem => by rw [setTerminator_length]; exact hlt b hmem)
      refine ⟨hf₁.setTerminator hfits₁ hlt₁, (reroute_traces hb hroute).trans ?_⟩
      rcases hroute₁ with he | hroute₁
      · rw [← he]
        exact (setTerminator_self hb₁).symm ▸ .refl _
      · exact reroute_traces hb₁ hroute₁

end Block

/-! ## 4. The end of the loop -/

section Ends

variable {I : Interp V W} {fcn fcn' : MIRFunction V} {fuel bb : Nat} [DecidableEq V.HIRPath]

variable (h : simplifyEdges fuel bb fcn = some fcn')

include h

theorem simplifyEdges_block {block : MIRBasicBlock V}
    (hb : fcn.blocks[bb]? = some block) :
    ∃ t, rewriteGotoChains fcn fuel bb block.terminator = some t ∧ fcn'.blocks[bb]? =
      some { block with terminator := forwardSwitch (setTerminator fcn bb t) t } := by
  rw [simplifyEdges, hb] at h
  cases ht : rewriteGotoChains fcn fuel bb block.terminator with
  | none => simp [ht] at h
  | some t =>
    simp only [ht, Option.some.injEq] at h
    subst h
    have hb₁ := setTerminator_same (t := t) hb
    exact ⟨t, rfl, (setTerminator_same hb₁).trans rfl⟩

omit h in
theorem simplifyEdges_endless {block : MIRBasicBlock V} (hb : fcn.blocks[bb]? = some block)
    (h : rewriteGotoChains fcn fuel bb block.terminator = none) : simplifyEdges fuel bb fcn =
      none := by
  simp only [simplifyEdges, hb, h]

theorem simplifyEdges_other {u : Nat} (hu : bb ≠ u) :
    fcn'.blocks[u]? = fcn.blocks[u]? := by
  unfold simplifyEdges at h
  split at h
  · cases h
    rfl
  · split at h
    · cases h
    · cases h
      rw [setTerminator_other hu, setTerminator_other hu]

theorem simplifyEdges_length :
    fcn'.blocks.length = fcn.blocks.length := by
  unfold simplifyEdges at h
  split at h
  · cases h
    rfl
  · split at h
    · cases h
    · cases h
      rw [setTerminator_length, setTerminator_length]

theorem link_other {u : BitVec 32}
    (hu : bb ≠ u.toNat) : link fcn' u = link fcn u := by
  rw [link, link, simplifyEdges_other h hu]

omit h

variable {b : BitVec 32}

/-- The link of the block itself is moved to the end of its chain. -/
theorem link_self (h : simplifyEdges fuel b.toNat fcn = some fcn') :
    (link fcn b = none ∧ link fcn' b = none) ∨
      ∃ target r, link fcn b = some target ∧ getNewTarget fcn fuel target = some r ∧
        link fcn' b = some r := by
  cases hb : fcn.blocks[b.toNat]? with
  | none =>
    have hsame : fcn' = fcn := by
      unfold simplifyEdges at h
      rw [hb] at h
      exact (Option.some.inj h).symm
    have hnone : link fcn b = none := by rw [link, hb]
    exact .inl ⟨hnone, hsame ▸ hnone⟩
  | some block =>
    obtain ⟨t, ht, hb'⟩ := simplifyEdges_block h hb
    obtain ⟨statements, terminator, isCleanup⟩ := block
    cases statements with
    | cons x rest => exact .inl ⟨by rw [link, hb], by rw [link, hb']⟩
    | nil =>
      unfold rewriteGotoChains at ht
      split at ht
      · next hall =>
        cases ht
        cases terminator with
        | Goto target =>
          have hnew := List.all_eq_true.1 hall target List.mem_cons_self
          simp only [MIRTerminator.mapTargets, forwardSwitch] at hb'
          rw [link, link, hb, hb']
          by_cases hself : b = target
          · subst hself
            simp [newTarget]
          · have hne : target.toNat ≠ b.toNat := fun he => hself (BitVec.eq_of_toNat_eq he.symm)
            obtain ⟨r, hr⟩ := Option.isSome_iff_exists.1 hnew
            rw [newTarget, if_neg hne] at hr
            -- the end of the chain is not the block itself, which has a link
            have hr' : b ≠ r := by
              rintro rfl
              have hnone := (getNewTarget_ends hr).2
              rw [link, hb] at hnone
              simp [hself] at hnone
            refine .inr ⟨target, r, by simp [hself], hr, ?_⟩
            simp [newTarget, hne, hr, hr']
        | Switch val targets validFlag invalidTarget =>
          refine .inl ⟨by rw [link, hb], ?_⟩
          rw [link, hb']
          simp only [MIRTerminator.mapTargets, forwardSwitch]
          by_cases hv : validFlag = NONE
          · simp [hv]
          · simp [hv]
        | _ => exact .inl ⟨by rw [link, hb], by rw [link, hb']; rfl⟩
      · cases ht

theorem chainEnds_self (h : simplifyEdges fuel b.toNat fcn = some fcn') :
    ChainEnds fcn b := by
  rcases link_self h with ⟨hnone, _⟩ | ⟨target, r, hlink, hr, _⟩
  · exact .here hnone
  · exact .next hlink (getNewTarget_ends hr).1

theorem chainEnds_iff {u : BitVec 32} (h : simplifyEdges fuel b.toNat fcn = some fcn') :
    ChainEnds fcn' u ↔ ChainEnds fcn u := by
  constructor
  · intro hu
    induction hu with
    | @here u hl =>
      by_cases hub : b.toNat = u.toNat
      · exact BitVec.eq_of_toNat_eq hub ▸ chainEnds_self h
      · exact .here ((link_other h hub).symm.trans hl)
    | @next u target hl _ ih =>
      by_cases hub : b.toNat = u.toNat
      · exact BitVec.eq_of_toNat_eq hub ▸ chainEnds_self h
      · exact .next ((link_other h hub).symm.trans hl) ih
  · intro hu
    -- the end of a chain is still without a link
    have hend : ∀ r, link fcn r = none → ChainEnds fcn' r := by
      intro r hr
      by_cases hrb : b.toNat = r.toNat
      · obtain rfl := BitVec.eq_of_toNat_eq hrb
        rcases link_self h with ⟨_, hnone⟩ | ⟨target, r, hlink, _⟩
        · exact .here hnone
        · cases hr.symm.trans hlink
      · exact .here ((link_other h hrb).trans hr)
    induction hu with
    | here hl => exact hend _ hl
    | @next u target hl _ ih =>
      by_cases hub : b.toNat = u.toNat
      · obtain rfl := BitVec.eq_of_toNat_eq hub
        rcases link_self h with ⟨hnone, _⟩ | ⟨target', r, _, hr, hlink'⟩
        · cases hnone.symm.trans hl
        · exact .next hlink' (hend r (getNewTarget_ends hr).2)
      · exact .next ((link_other h hub).trans hl) ih

/-- From some fuel on, a loop gives `r`. -/
def Settles {α : Type} (p : Nat → Option α) (r : α) : Prop := ∃ n, ∀ fuel, n ≤ fuel →
    p fuel = some r

theorem Settles.bind {α β : Type} {p : Nat → Option α} {q : Nat → α → Option β} {a : α} {b : β}
    (h : Settles p a) (h' : Settles (q · a) b) :
      Settles (fun fuel => (p fuel).bind (q fuel)) b := by
  obtain ⟨n, hn⟩ := h
  obtain ⟨m, hm⟩ := h'
  refine ⟨max n m, fun fuel hfuel => ?_⟩
  change (p fuel).bind (q fuel) = some b
  rw [hn fuel (by omega), Option.bind_some]
  exact hm fuel (by omega)

omit [DecidableEq V.HIRPath] in
theorem newTarget_settles (bb : Nat)
    (hends : ∀ b : BitVec 32, b.toNat < fcn.blocks.length → ChainEnds fcn b)
    (hb : b.toNat < fcn.blocks.length) :
    ∃ r, Settles (fun fuel => newTarget fcn fuel bb b) r := by
  by_cases hself : b.toNat = bb
  · exact ⟨b, 0, fun _ _ => if_pos hself⟩
  · obtain ⟨n, r, hr⟩ := (hends b hb).found
    exact ⟨r, n, fun fuel hfuel => (if_neg hself).trans (getNewTarget_mono hfuel hr)⟩

omit [DecidableEq V.HIRPath] in
/-- For finitely many targets there is fuel for all. -/
theorem targets_settle (bb : Nat)
    (hends : ∀ b : BitVec 32, b.toNat < fcn.blocks.length → ChainEnds fcn b) :
    ∀ {l : List (BitVec 32)}, (∀ b ∈ l, b.toNat < fcn.blocks.length) →
      ∃ n, ∀ b ∈ l, ∃ r, ∀ fuel, n ≤ fuel → newTarget fcn fuel bb b = some r
  | [], _ => ⟨0, fun _ hb => nomatch hb⟩
  | b :: l, hl => by
    obtain ⟨r, n, hr⟩ := newTarget_settles bb hends (hl b List.mem_cons_self)
    obtain ⟨m, hm⟩ := targets_settle bb hends (l := l) fun b hb => hl b (List.mem_cons_of_mem _ hb)
    refine ⟨max n m, fun b' hb' => ?_⟩
    rcases List.mem_cons.1 hb' with rfl | hb'
    · exact ⟨r, fun fuel hfuel => hr fuel (by omega)⟩
    · obtain ⟨r', hr'⟩ := hm b' hb'
      exact ⟨r', fun fuel hfuel => hr' fuel (by omega)⟩

theorem simplifyEdges_settles (bb : Nat) (hf : WellFormed I fcn)
    (hends : ∀ b : BitVec 32, b.toNat < fcn.blocks.length → ChainEnds fcn b) :
    ∃ r, Settles (fun fuel => simplifyEdges fuel bb fcn) r := by
  cases hb : fcn.blocks[bb]? with
  | none => exact ⟨fcn, 0, fun fuel _ => by simp only [simplifyEdges, hb]⟩
  | some block =>
    obtain ⟨n, hn⟩ := targets_settle bb hends (hf.targets _ _ hb)
    have hrewrite : ∀ fuel, n ≤ fuel → rewriteGotoChains fcn fuel bb block.terminator =
        some (block.terminator.mapTargets fun b => (newTarget fcn n bb b).getD b) := by
      intro fuel hfuel
      have hall : ∀ b ∈ block.terminator.targets, (newTarget fcn fuel bb b).isSome := by
        intro b hmem
        obtain ⟨r, hr⟩ := hn b hmem
        rw [hr fuel hfuel]
        rfl
      rw [rewriteGotoChains, if_pos (List.all_eq_true.2 hall)]
      refine congrArg some (MIRTerminator.mapTargets_congr fun b hmem => ?_)
      obtain ⟨r, hr⟩ := hn b hmem
      rw [hr fuel hfuel, hr n (Nat.le_refl n)]
    exact ⟨_, n, fun fuel hfuel => by simp only [simplifyEdges, hb, hrewrite fuel hfuel]; rfl⟩

/-- The loop over some blocks. -/
theorem edges_settle_iff : ∀ {l : List Nat} {fcn : MIRFunction V}, WellFormed I fcn →
    (∀ bb ∈ l, bb < fcn.blocks.length) →
    ((∀ b : BitVec 32, b.toNat < fcn.blocks.length → ChainEnds fcn b) →
      ∃ r, Settles (fun fuel => l.foldlM (fun fcn bb => simplifyEdges fuel bb fcn) fcn) r) ∧
    ∀ {fuel r}, l.foldlM (fun fcn bb => simplifyEdges fuel bb fcn) fcn = some r →
      (WellFormed I r ∧ SameTraces I fcn r) ∧
        ∀ b : BitVec 32, b.toNat ∈ l → ChainEnds fcn b
  | [], fcn, hf, _ => by
    refine ⟨fun _ => ⟨fcn, 0, fun _ _ => rfl⟩, fun h => ?_⟩
    cases h
    exact ⟨⟨hf, .refl _⟩, fun _ hb => nomatch hb⟩
  | bb :: l, fcn, hf, hl => by
    have hbb : (BitVec.ofNat 32 bb).toNat = bb := by
      have hlt := Nat.lt_of_lt_of_le (hl bb List.mem_cons_self) hf.size
      exact Nat.mod_eq_of_lt (Nat.lt_trans hlt (by decide))
    constructor
    · intro hends
      obtain ⟨fcn', hfcn'⟩ := simplifyEdges_settles bb hf hends
      obtain ⟨n, hn⟩ := hfcn'
      have hstep := hn n (Nat.le_refl n)
      have hlen := simplifyEdges_length hstep
      have hends' : ∀ b : BitVec 32, b.toNat < fcn'.blocks.length → ChainEnds fcn' b := by
        intro b hb
        rw [hlen] at hb
        rw [← hbb] at hstep
        exact (chainEnds_iff hstep).2 (hends b hb)
      obtain ⟨r, hr⟩ := (edges_settle_iff (simplifyEdges_traces hf hstep).1 fun u hu => by
        rw [hlen]
        exact hl u (List.mem_cons_of_mem _ hu)).1 hends'
      exact ⟨r, Settles.bind ⟨n, hn⟩ hr⟩
    · intro fuel r h
      rw [List.foldlM_cons] at h
      obtain ⟨fcn', hstep, hrest⟩ := Option.bind_eq_some_iff.1 h
      have hlen := simplifyEdges_length hstep
      obtain ⟨hf', htraces⟩ := simplifyEdges_traces hf hstep
      obtain ⟨⟨hfr, htraces'⟩, hends⟩ := (edges_settle_iff hf' fun u hu => by
        rw [hlen]
        exact hl u (List.mem_cons_of_mem _ hu)).2 hrest
      refine ⟨⟨hfr, htraces.trans htraces'⟩, fun b hb => ?_⟩
      rw [← hbb] at hstep
      rcases List.mem_cons.1 hb with he | hb
      · obtain rfl : b = BitVec.ofNat 32 bb := BitVec.eq_of_toNat_eq (he.trans hbb.symm)
        exact chainEnds_self hstep
      · exact (chainEnds_iff hstep).1 (hends b hb)

/-- The loop ends exactly if all chains of empty blocks do; then the executions are as before. -/
theorem edgesPass_settles_iff (hf : WellFormed I fcn) :
    ((∀ b : BitVec 32, b.toNat < fcn.blocks.length → ChainEnds fcn b) →
      ∃ r, Settles (fun fuel => edgesPass fuel fcn) r) ∧
    ∀ {fuel r}, edgesPass fuel fcn = some r → (WellFormed I r ∧ SameTraces I fcn r) ∧
      ∀ b : BitVec 32, b.toNat < fcn.blocks.length → ChainEnds fcn b := by
  obtain ⟨hsettles, hresult⟩ := edges_settle_iff (l := List.range fcn.blocks.length) hf
    fun bb hbb => List.mem_range.1 hbb
  refine ⟨hsettles, fun h => ?_⟩
  obtain ⟨hr, hends⟩ := hresult h
  exact ⟨hr, fun b hb => hends b (List.mem_range.2 hb)⟩

end Ends

end Trustme.Mir
