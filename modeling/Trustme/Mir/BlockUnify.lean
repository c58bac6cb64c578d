/-
  Subject:   `MIROptimiseUnifyBlocks` (mir_operations.cpp): blocks that are the same become one.

  * `blockHash`, `blocksEqual`: what is compared, and what is only hashed;
  * `replacements`, `unifyRound`, `unifyBlocks`: the rounds;
  * `SameBlock`, `sameBlock_of_equal`: the hash tells the targets that are not compared;
  * `unifyBlocks_exact`: the rounds end, and the executions stay as they are, if the function
    keeps to the conventions of lowering; `rawOrNot_unified` does not.
-/
import Mathlib.Data.Finset.Card
import Mathlib.Data.List.Sort
import Mathlib.Data.List.SplitBy
import Trustme.Mir.BlockEdits
import Trustme.Mir.Sameness

namespace Trustme.Metadata

variable {V : Vocabulary}

/-! ## 1. Hashes -/

/-- `tag()`. -/
def MIRStatement.tag : MIRStatement V → BitVec 64
  | .Assign _ _ => 1
  | .Asm _ _ _ _ _ => 2
  | .Asm2 _ _ _ => 3
  | .SetDropFlag _ _ _ => 4
  | .SaveDropFlag _ _ _ => 5
  | .LoadDropFlag _ _ _ => 6

def MIRTerminator.tag : MIRTerminator V → BitVec 64
  | .Incomplete => 1
  | .Return => 2
  | .UnwindResume => 3
  | .UnwindTerminate => 4
  | .Unreachable => 5
  | .Goto _ => 6
  | .If _ _ _ => 7
  | .Switch _ _ _ _ => 8
  | .SwitchValue _ _ _ _ => 9
  | .Drop _ _ _ _ _ => 10
  | .Call _ _ _ _ _ _ _ => 11
  | .TailCall _ _ _ _ => 12
  | .Asm2 _ _ _ _ => 13

theorem MIRTerminator.tag_shape (t : MIRTerminator V) : t.shape.tag = t.tag := by
  cases t <;> rfl

end Trustme.Metadata

namespace Trustme.Mir

open Metadata Lib

variable {V : Vocabulary} {W : Type}

/-- `add`, in a `size_t` of 64 bits. -/
def mix (rv v : BitVec 64) : BitVec 64 := rv ^^^ (v + 0x9e3779b9 + (rv <<< 6) + (rv >>> 2))

/-- The hash before the targets. -/
def hashStart (block : MIRBasicBlock V) : BitVec 64 :=
  mix (block.statements.foldl (fun rv x => mix rv x.tag) (BitVec.ofNat 64 block.statements.length))
    block.terminator.tag

def blockHash (block : MIRBasicBlock V) : BitVec 64 :=
  block.terminator.targets.foldl (fun rv b => mix rv (b.setWidth 64)) (hashStart block)

/-- The mixing is injective in what is added. -/
theorem mix_injective {rv v v' : BitVec 64} (h : mix rv v = mix rv v') : v = v' := by
  have hsum := (BitVec.xor_right_inj _).1 h
  simp only [BitVec.add_assoc, BitVec.add_left_inj] at hsum
  exact hsum

theorem setWidth_injective {b b' : BitVec 32} (h : b.setWidth 64 = b'.setWidth 64) : b = b' := by
  have hnat := congrArg BitVec.toNat h
  rw [BitVec.toNat_setWidth_of_le (by decide), BitVec.toNat_setWidth_of_le (by decide)] at hnat
  exact BitVec.eq_of_toNat_eq hnat

/-- The last target is told by the hash if all before it is the same. -/
theorem last_of_hash {rv : BitVec 64} {l : List (BitVec 32)} {x y : BitVec 32}
    (h : (l ++ [x]).foldl (fun rv b => mix rv (b.setWidth 64)) rv =
      (l ++ [y]).foldl (fun rv b => mix rv (b.setWidth 64)) rv) : x = y := by
  rw [List.foldl_append, List.foldl_append] at h
  exact setWidth_injective (mix_injective h)

/-! ## 2. The rounds -/

section Rounds

variable [DecidableEq V.HIRType] [DecidableEq V.HIRPath] [DecidableEq V.HIRGenericPath]
  [DecidableEq V.HIRPathParams] [DecidableEq V.HIRConstGeneric]

def blocksEqual (a b : MIRBasicBlock V) : Bool :=
  decide (a.isCleanup = b.isCleanup) && sameList sameStatement a.statements b.statements &&
    terminatorsEqual a.terminator b.terminator

structure HashedBlock where
  hash : BitVec 64
  bbIdx : Nat

/-- The order of the sorting. -/
def HashedBlock.le (a b : HashedBlock) : Prop := a.hash < b.hash ∨ a.hash = b.hash ∧
    a.bbIdx ≤ b.bbIdx

instance : DecidableRel HashedBlock.le := fun a b =>
  inferInstanceAs (Decidable (a.hash < b.hash ∨ a.hash = b.hash ∧ a.bbIdx ≤ b.bbIdx))

/-- A block that is empty and not complete is left out. -/
def isGone (block : MIRBasicBlock V) : Bool :=
  match block.terminator with
  | .Incomplete => block.statements.isEmpty
  | _ => false

def hashedBlocks (fcn : MIRFunction V) : List HashedBlock :=
  (List.range fcn.blocks.length).filterMap fun bb =>
    fcn.blocks[bb]?.bind fun block => if isGone block then none else some ⟨blockHash block, bb⟩

def sameBlocks (fcn : MIRFunction V) (candidate bb : Nat) : Bool :=
  match fcn.blocks[candidate]?, fcn.blocks[bb]? with
  | some a, some b => blocksEqual a b
  | _, _ => false

/-- The blocks of a group that have been seen before, each with its representative. -/
def unifyGroup (fcn : MIRFunction V) : List Nat → List HashedBlock → List (Nat × Nat)
  | _, [] => []
  | groupReps, b :: rest =>
    match groupReps.find? (sameBlocks fcn · b.bbIdx) with
    | some candidate => (b.bbIdx, candidate) :: unifyGroup fcn groupReps rest
    | none => unifyGroup fcn (groupReps ++ [b.bbIdx]) rest

/-- The blocks with the same hash, sorted. -/
def groups (fcn : MIRFunction V) : List (List HashedBlock) :=
  ((hashedBlocks fcn).insertionSort HashedBlock.le).splitBy fun a b => a.hash == b.hash

/-- The entries of `replacements` that are not `~0u`. -/
def replacements (fcn : MIRFunction V) : List (Nat × Nat) :=
  (groups fcn).flatMap fun g => if 1 < g.length then unifyGroup fcn [] g else []

/-- Where a block is found after the replacing. -/
def replaced (rs : List (Nat × Nat)) (bb : Nat) : Nat :=
  ((rs.find? (·.1 == bb)).map (·.2)).getD bb

/-- `patchTgt`. -/
def patchTgt (rs : List (Nat × Nat)) (tgt : BitVec 32) : BitVec 32 :=
  BitVec.ofNat 32 (replaced rs tgt.toNat)

/-- The targets are patched, and the blocks that were replaced are emptied. -/
def patchBlocks (rs : List (Nat × Nat)) (fcn : MIRFunction V) : MIRFunction V :=
  { fcn with
    blocks := fcn.blocks.mapIdx fun bb block =>
      if rs.any (·.1 == bb) then ⟨[], .Incomplete, false⟩
      else { block with terminator := block.terminator.mapTargets (patchTgt rs) } }

def unifyRound (fcn : MIRFunction V) : Option (MIRFunction V) :=
  if (replacements fcn).isEmpty then none else some (patchBlocks (replacements fcn) fcn)

/-- `MIROptimiseUnifyBlocks`; out of fuel, it does not return. -/
def unifyBlocks : Nat → MIRFunction V → Option (MIRFunction V)
  | 0, _ => none
  | fuel + 1, fcn =>
    match unifyRound fcn with
    | none => some fcn
    | some fcn' => unifyBlocks fuel fcn'

end Rounds

/-! ## 3. Blocks that are the same -/

/-- The same statements, and the same terminator with the same targets. -/
structure SameBlock (a b : MIRBasicBlock V) : Prop where
  isCleanup : a.isCleanup = b.isCleanup
  statements : a.statements = b.statements
  shape : a.terminator.shape = b.terminator.shape
  targets : a.terminator.targets = b.terminator.targets

section Equal

variable [DecidableEq V.HIRType] [DecidableEq V.HIRPath] [DecidableEq V.HIRGenericPath]
  [DecidableEq V.HIRPathParams] [DecidableEq V.HIRConstGeneric] {c : Conventions V}

/-- Blocks that compare equal and have the same hash are the same. -/
theorem sameBlock_of_equal {a b : MIRBasicBlock V}
    (ha : (∀ x ∈ a.statements, x.Conforms c) ∧ a.terminator.Conforms c)
    (hb : (∀ x ∈ b.statements, x.Conforms c) ∧ b.terminator.Conforms c)
    (h : blocksEqual a b = true) (hhash : blockHash a = blockHash b) : SameBlock a b := by
  simp only [blocksEqual, Bool.and_eq_true, decide_eq_true_eq] at h
  obtain ⟨⟨hcleanup, hstatements⟩, hterminator⟩ := h
  have hs : a.statements = b.statements :=
    eq_of_sameList (fun x hx y hy => eq_of_sameStatement (ha.1 x hx) (hb.1 y hy)) hstatements
  obtain ⟨hshape, htargets⟩ := terminatorsEqual_facts ha.2 hb.2 hterminator
  refine ⟨hcleanup, hs, hshape, ?_⟩
  rcases htargets with heq | ⟨l, x, y, hx, hy⟩
  · exact heq
  · have htag : a.terminator.tag = b.terminator.tag := by
      rw [← MIRTerminator.tag_shape, hshape, MIRTerminator.tag_shape]
    have hstart : hashStart a = hashStart b := by rw [hashStart, hashStart, hs, htag]
    rw [blockHash, blockHash, hx, hy, hstart] at hhash
    rw [hx, hy, last_of_hash hhash]

end Equal

/-! ## 4. Who is replaced -/

instance : IsTrans HashedBlock HashedBlock.le where
  trans a b d h h' := by
    rcases h with h | ⟨h, hi⟩
    · rcases h' with h' | ⟨h', _⟩
      · exact .inl (BitVec.lt_trans h h')
      · exact .inl (h' ▸ h)
    · rcases h' with h' | ⟨h', hi'⟩
      · exact .inl (h ▸ h')
      · exact .inr ⟨h.trans h', Nat.le_trans hi hi'⟩

instance : Std.Total HashedBlock.le where
  total a b := by
    rcases Nat.lt_trichotomy a.hash.toNat b.hash.toNat with h | h | h
    · exact .inl (.inl h)
    · have heq := BitVec.eq_of_toNat_eq h
      rcases Nat.le_total a.bbIdx b.bbIdx with hi | hi
      · exact .inl (.inr ⟨heq, hi⟩)
      · exact .inr (.inr ⟨heq.symm, hi⟩)
    · exact .inr (.inl h)

section Groups

variable {fcn : MIRFunction V}

theorem mem_hashedBlocks {h : HashedBlock} (hmem : h ∈ hashedBlocks fcn) :
    ∃ block, fcn.blocks[h.bbIdx]? = some block ∧ isGone block = false ∧
      h.hash = blockHash block := by
  obtain ⟨bb, _, hbb⟩ := List.mem_filterMap.1 hmem
  obtain ⟨block, hblock, hsome⟩ := Option.bind_eq_some_iff.1 hbb
  split at hsome
  · cases hsome
  · next hgone =>
    cases hsome
    exact ⟨block, hblock, Bool.eq_false_iff.2 hgone, rfl⟩

theorem hashedBlocks_increasing : (hashedBlocks fcn).Pairwise fun a b => a.bbIdx < b.bbIdx := by
  refine List.Pairwise.filterMap _ ?_ List.pairwise_lt_range
  intro a b hab h ha h' hb
  obtain ⟨block, _, hsome⟩ := Option.bind_eq_some_iff.1 ha
  obtain ⟨block', _, hsome'⟩ := Option.bind_eq_some_iff.1 hb
  split at hsome
  · cases hsome
  · split at hsome'
    · cases hsome'
    · cases hsome
      cases hsome'
      exact hab

theorem groups_perm : (groups fcn).flatten.Perm (hashedBlocks fcn) := by
  rw [groups, List.flatten_splitBy]
  exact List.perm_insertionSort _ _

theorem groups_distinct : (groups fcn).flatten.Pairwise fun a b => a.bbIdx ≠ b.bbIdx :=
  groups_perm.symm.pairwise (hashedBlocks_increasing.imp Nat.ne_of_lt) fun h => h.symm

/-- In a group all have the same hash, and come in their order. -/
theorem group_facts {g : List HashedBlock} (hg : g ∈ groups fcn) :
    (∀ h ∈ g, h ∈ hashedBlocks fcn) ∧ g.Pairwise fun a b => a.hash = b.hash ∧
      a.bbIdx < b.bbIdx := by
  have hsub : g.Sublist (groups fcn).flatten := List.sublist_flatten_of_mem hg
  refine ⟨fun h hh => groups_perm.mem_iff.1 (hsub.mem hh), ?_⟩
  have hsorted : g.Pairwise HashedBlock.le := by
    refine List.Pairwise.sublist hsub ?_
    rw [groups, List.flatten_splitBy]
    exact List.pairwise_insertionSort _ _
  have hne : g.Pairwise fun a b => a.bbIdx ≠ b.bbIdx := List.Pairwise.sublist hsub groups_distinct
  have hhash : g.Pairwise fun a b => a.hash = b.hash := by
    have hchain := List.isChain_of_mem_splitBy hg
    have hchain' : g.IsChain fun a b => a.hash = b.hash := hchain.imp fun _ _ h => beq_iff_eq.1 h
    exact (List.isChain_iff_pairwise (R := fun a b : HashedBlock => a.hash = b.hash)).1 hchain'
  refine (hsorted.and (hne.and hhash)).imp fun h => ⟨h.2.2, ?_⟩
  rcases h.1 with hlt | ⟨_, hle⟩
  · exact absurd (h.2.2 ▸ hlt) (Nat.lt_irrefl _)
  · exact Nat.lt_of_le_of_ne hle h.2.1

/-- Groups with a block in common are one. -/
theorem group_unique {g g' : List HashedBlock} (hg : g ∈ groups fcn) (hg' : g' ∈ groups fcn)
    {h h' : HashedBlock} (hh : h ∈ g) (hh' : h' ∈ g') (hidx : h.bbIdx = h'.bbIdx) : g = g' := by
  by_contra hne
  have hdistinct : (groups fcn).flatten.Pairwise fun a b => a.bbIdx ≠ b.bbIdx := groups_distinct
  obtain ⟨_, hpairs⟩ := List.pairwise_flatten.1 hdistinct
  have hsymm : Std.Symm fun l l' : List HashedBlock => ∀ a ∈ l, ∀ b ∈ l', a.bbIdx ≠ b.bbIdx :=
    ⟨fun l l' h a ha b hb => (h b hb a ha).symm⟩
  exact hpairs.forall hg hg' hne h hh h' hh' hidx

variable [DecidableEq V.HIRType] [DecidableEq V.HIRPath] [DecidableEq V.HIRGenericPath]
  [DecidableEq V.HIRPathParams] [DecidableEq V.HIRConstGeneric]

/-- `bb` gives way to `candidate`. -/
structure GivesWay (fcn : MIRFunction V) (bb candidate : Nat) : Prop where
  less : candidate < bb
  found : ∃ a b, fcn.blocks[candidate]? = some a ∧ fcn.blocks[bb]? = some b ∧ isGone b = false ∧
    blocksEqual a b = true ∧ blockHash a = blockHash b

theorem unifyGroup_sides : ∀ {groupReps : List Nat} {g : List HashedBlock} {bb candidate : Nat},
    (bb, candidate) ∈ unifyGroup fcn groupReps g →
      bb ∈ g.map (·.bbIdx) ∧ candidate ∈ groupReps ++ g.map (·.bbIdx)
  | _, [], _, _, h => by cases h
  | groupReps, b :: rest, bb, candidate, h => by
    rw [unifyGroup] at h
    split at h
    · next c hc =>
      rcases List.mem_cons.1 h with heq | h
      · cases heq
        exact ⟨List.mem_cons_self, List.mem_append_left _ (List.mem_of_find?_eq_some hc)⟩
      · obtain ⟨hbb, hcand⟩ := unifyGroup_sides h
        refine ⟨List.mem_cons_of_mem _ hbb, ?_⟩
        rcases List.mem_append.1 hcand with hr | hr
        · exact List.mem_append_left _ hr
        · exact List.mem_append_right _ (List.mem_cons_of_mem _ hr)
    · obtain ⟨hbb, hcand⟩ := unifyGroup_sides h
      refine ⟨List.mem_cons_of_mem _ hbb, ?_⟩
      rwa [List.append_assoc] at hcand

/-- What is found in a group: the representatives come before, and stay. -/
theorem unifyGroup_facts {hash : BitVec 64} :
    ∀ {groupReps : List Nat} {g : List HashedBlock},
      (∀ r ∈ groupReps, ∀ block, fcn.blocks[r]? = some block → blockHash block = hash) →
      (∀ h ∈ g, h ∈ hashedBlocks fcn ∧ h.hash = hash) →
      (groupReps ++ g.map (·.bbIdx)).Pairwise (· < ·) →
      ∀ {bb candidate}, (bb, candidate) ∈ unifyGroup fcn groupReps g →
        GivesWay fcn bb candidate ∧ ∀ c, (candidate, c) ∉ unifyGroup fcn groupReps g
  | _, [], _, _, _, _, _, h => by cases h
  | groupReps, b :: rest, hreps, hg, hlt, bb, candidate, h => by
    have hrest : ∀ h ∈ rest, h ∈ hashedBlocks fcn ∧ h.hash = hash := fun h hh =>
      hg h (List.mem_cons_of_mem _ hh)
    obtain ⟨hb, hbhash⟩ := hg b List.mem_cons_self
    obtain ⟨block, hblock, hgone, hhash⟩ := mem_hashedBlocks hb
    rw [List.map_cons] at hlt
    rw [unifyGroup] at h ⊢
    split at h
    · next c hc =>
      have hcmem := List.mem_of_find?_eq_some hc
      have hcb : c < b.bbIdx := (List.pairwise_append.1 hlt).2.2 c hcmem _ List.mem_cons_self
      have hlt' : (groupReps ++ rest.map (·.bbIdx)).Pairwise (· < ·) :=
        hlt.sublist ((List.sublist_cons_self _ _).append_left _)
      -- a representative is none of those that are still to come
      have hstay : ∀ d ∈ groupReps ++ rest.map (·.bbIdx), d ≠ b.bbIdx := by
        intro d hd
        rcases List.mem_append.1 hd with hd | hd
        · exact Nat.ne_of_lt ((List.pairwise_append.1 hlt).2.2 d hd _ List.mem_cons_self)
        · exact Nat.ne_of_gt ((List.pairwise_cons.1 (List.pairwise_append.1 hlt).2.1).1 d hd)
      rcases List.mem_cons.1 h with heq | h
      · cases heq
        refine ⟨⟨hcb, ?_⟩, fun d hd => ?_⟩
        · have hfound := List.find?_some hc
          unfold sameBlocks at hfound
          split at hfound
          · next a a' ha ha' =>
            cases ha'.symm.trans hblock
            exact ⟨a, block, ha, hblock, hgone, hfound,
              (hreps _ hcmem a ha).trans (hbhash.symm.trans hhash)⟩
          · cases hfound
        · rcases List.mem_cons.1 hd with heq | hd
          · cases heq
            exact Nat.lt_irrefl _ hcb
          · obtain ⟨hmem, _⟩ := unifyGroup_sides hd
            exact absurd rfl (Nat.ne_of_lt
              ((List.pairwise_append.1 hlt').2.2 candidate hcmem _ hmem))
      · obtain ⟨hway, hnot⟩ := unifyGroup_facts hreps hrest hlt' h
        refine ⟨hway, fun d hd => ?_⟩
        rcases List.mem_cons.1 hd with heq | hd
        · cases heq
          exact hstay _ (unifyGroup_sides h).2 rfl
        · exact hnot d hd
    · refine unifyGroup_facts (fun r hr block' hb' => ?_) hrest ?_ h
      · rcases List.mem_append.1 hr with hr | hr
        · exact hreps r hr block' hb'
        · rw [List.mem_singleton.1 hr] at hb'
          cases hb'.symm.trans hblock
          exact hhash.symm.trans hbhash
      · rwa [List.append_assoc]

/-- What is found in all groups. -/
theorem replacements_facts {bb candidate : Nat} (h : (bb, candidate) ∈ replacements fcn) :
    GivesWay fcn bb candidate ∧ ∀ c, (candidate, c) ∉ replacements fcn := by
  have hgroup : ∀ {b c}, (b, c) ∈ replacements fcn → ∃ g ∈ groups fcn,
    (b, c) ∈ unifyGroup fcn [] g := by
    intro b c h
    obtain ⟨g, hg, hmem⟩ := List.mem_flatMap.1 h
    split at hmem
    · exact ⟨g, hg, hmem⟩
    · cases hmem
  obtain ⟨g, hg, hmem⟩ := hgroup h
  obtain ⟨hfrom, hpairs⟩ := group_facts hg
  have hfacts : GivesWay fcn bb candidate ∧ ∀ c, (candidate, c) ∉ unifyGroup fcn [] g := by
    cases g with
    | nil => cases hmem
    | cons b rest =>
      have hnone : ∀ r ∈ ([] : List Nat), ∀ block, fcn.blocks[r]? = some block →
          blockHash block = b.hash := fun r hr => absurd hr List.not_mem_nil
      refine unifyGroup_facts hnone (fun h hh => ⟨hfrom h hh, ?_⟩) ?_ hmem
      · rcases List.mem_cons.1 hh with rfl | hh
        · rfl
        · exact ((List.pairwise_cons.1 hpairs).1 h hh).1.symm
      · exact List.pairwise_map.2 (hpairs.imp fun h => h.2)
  refine ⟨hfacts.1, fun c hc => ?_⟩
  obtain ⟨g', hg', hmem'⟩ := hgroup hc
  obtain ⟨h₁, hh₁, he₁⟩ := List.mem_map.1 (unifyGroup_sides hmem).2
  obtain ⟨h₂, hh₂, he₂⟩ := List.mem_map.1 (unifyGroup_sides hmem').1
  obtain rfl := group_unique hg hg' hh₁ hh₂ (he₁.trans he₂.symm)
  exact hfacts.2 c hmem'

end Groups

/-! ## 5. One round -/

theorem MIRTerminator.conforms_mapTargets {c : Conventions V} {f : BitVec 32 → BitVec 32}
    {t : MIRTerminator V} (h : t.Conforms c) : (t.mapTargets f).Conforms c := by
  cases t with
  | Asm2 options lines params retBlock =>
    intro p hp
    obtain ⟨q, hq, rfl⟩ := List.mem_map.1 hp
    have hconf := h q hq
    cases q with
    | Label target => trivial
    | _ => exact hconf
  | Call retBlock unwind retVal fcn args source tracksCaller => exact h
  | TailCall fcn args source tracksCaller => exact h
  | _ => trivial

theorem isGone_mapTargets {block : MIRBasicBlock V} {f : BitVec 32 → BitVec 32} :
    isGone { block with terminator := block.terminator.mapTargets f } = isGone block := by
  obtain ⟨statements, terminator, isCleanup⟩ := block
  cases terminator <;> rfl

theorem replaced_cases (rs : List (Nat × Nat)) (u : Nat) :
    (replaced rs u = u ∧ rs.any (·.1 == u) = false) ∨
      ((u, replaced rs u) ∈ rs ∧ rs.any (·.1 == u) = true) := by
  cases hfind : rs.find? (·.1 == u) with
  | none =>
    refine .inl ⟨by rw [replaced, hfind]; rfl, ?_⟩
    rw [List.any_eq_false]
    exact List.find?_eq_none.1 hfind
  | some p =>
    have hmem := List.mem_of_find?_eq_some hfind
    have hfound := List.find?_some hfind
    have hfst : p.1 = u := beq_iff_eq.1 hfound
    have hsnd : replaced rs u = p.2 := by rw [replaced, hfind]; rfl
    refine .inr ⟨?_, List.any_eq_true.2 ⟨p, hmem, hfound⟩⟩
    rw [hsnd, ← hfst]
    exact hmem

/-- What stands in a block afterwards. -/
theorem patchBlocks_inv {fcn : MIRFunction V} {rs : List (Nat × Nat)} {u : Nat}
    {block : MIRBasicBlock V}
    (h : (patchBlocks rs fcn).blocks[u]? = some block) : block = ⟨[], .Incomplete, false⟩ ∨
      ∃ old, fcn.blocks[u]? = some old ∧ rs.any (·.1 == u) = false ∧
        block = { old with terminator := old.terminator.mapTargets (patchTgt rs) } := by
  rw [patchBlocks, List.getElem?_mapIdx] at h
  obtain ⟨old, hold, heq⟩ := Option.map_eq_some_iff.1 h
  split at heq
  · exact .inl heq.symm
  · next hnot => exact .inr ⟨old, hold, Bool.eq_false_iff.2 hnot, heq.symm⟩

/-- The blocks that are left. -/
def alive (fcn : MIRFunction V) : Finset Nat :=
  (Finset.range fcn.blocks.length).filter fun bb => fcn.blocks[bb]?.any (fun block => !isGone block)

theorem mem_alive {fcn : MIRFunction V} {u : Nat} :
    u ∈ alive fcn ↔ ∃ block, fcn.blocks[u]? = some block ∧
    isGone block = false := by
  rw [alive, Finset.mem_filter, Finset.mem_range]
  constructor
  · rintro ⟨hlt, hany⟩
    rw [List.getElem?_eq_getElem hlt, Option.any_some, Bool.not_eq_true'] at hany
    exact ⟨_, List.getElem?_eq_getElem hlt, hany⟩
  · rintro ⟨block, hb, hgone⟩
    refine ⟨(List.getElem?_eq_some_iff.1 hb).1, ?_⟩
    rw [hb, Option.any_some, hgone]
    rfl

section UnifyRound

variable [DecidableEq V.HIRType] [DecidableEq V.HIRPath] [DecidableEq V.HIRGenericPath]
  [DecidableEq V.HIRPathParams] [DecidableEq V.HIRConstGeneric] {c : Conventions V}
  {I : Interp V W} {fcn fcn' : MIRFunction V}

theorem replaced_le (u : Nat) : replaced (replacements fcn) u ≤ u := by
  rcases replaced_cases (replacements fcn) u with ⟨heq, _⟩ | ⟨hmem, _⟩
  · exact Nat.le_of_eq heq
  · exact Nat.le_of_lt (replacements_facts hmem).1.less

theorem patchTgt_toNat (b : BitVec 32) :
    (patchTgt (replacements fcn) b).toNat = replaced (replacements fcn) b.toNat := by
  rw [patchTgt, BitVec.toNat_ofNat, Nat.mod_eq_of_lt]
  exact Nat.lt_of_le_of_lt (replaced_le _) b.isLt

theorem patchTgt_lt (hf : WellFormed I fcn) {bb : Nat} {block : MIRBasicBlock V}
    (hb : fcn.blocks[bb]? = some block) {b : BitVec 32} (hmem : b ∈ block.terminator.targets) :
    (patchTgt (replacements fcn) b).toNat < fcn.blocks.length := by
  rw [patchTgt_toNat]
  exact Nat.lt_of_le_of_lt (replaced_le _) (hf.targets bb block hb b hmem)

/-- A block whose place is taken is the same as the one that takes it. -/
theorem replaced_same (hc : fcn.Conforms c) {bb candidate : Nat}
    (h : (bb, candidate) ∈ replacements fcn) : ∃ a b, fcn.blocks[candidate]? = some a ∧
      fcn.blocks[bb]? = some b ∧ isGone b = false ∧ SameBlock a b := by
  obtain ⟨a, b, ha, hb, hgone, heq, hhash⟩ := (replacements_facts h).1.found
  exact ⟨a, b, ha, hb, hgone, sameBlock_of_equal (hc a (List.mem_of_getElem? ha))
    (hc b (List.mem_of_getElem? hb)) heq hhash⟩

/-- Where a block is found afterwards. -/
theorem patchBlocks_block (hc : fcn.Conforms c) {u : Nat} {block : MIRBasicBlock V}
    (hb : fcn.blocks[u]? = some block) :
    ∃ rep, fcn.blocks[replaced (replacements fcn) u]? = some rep ∧ SameBlock rep block ∧
      (patchBlocks (replacements fcn) fcn).blocks[replaced (replacements fcn) u]? =
        some { rep with
          terminator := rep.terminator.mapTargets (patchTgt (replacements fcn)) } := by
  obtain ⟨rep, hrep, hsame, hnot⟩ : ∃ rep, fcn.blocks[replaced (replacements fcn) u]? = some rep ∧
      SameBlock rep block ∧ (replacements fcn).any (·.1 == replaced (replacements fcn) u) =
        false := by
    rcases replaced_cases (replacements fcn) u with ⟨heq, hnot⟩ | ⟨hmem, _⟩
    · rw [heq]
      exact ⟨block, hb, ⟨rfl, rfl, rfl, rfl⟩, hnot⟩
    · obtain ⟨a, b, ha, hb', _, hsame⟩ := replaced_same hc hmem
      cases hb'.symm.trans hb
      refine ⟨a, ha, hsame, List.any_eq_false.2 fun p hp hpc => ?_⟩
      rw [beq_iff_eq] at hpc
      exact (replacements_facts hmem).2 p.2 (hpc ▸ hp)
  refine ⟨rep, hrep, hsame, ?_⟩
  rw [patchBlocks, List.getElem?_mapIdx, hrep, Option.map_some, hnot]
  rfl

theorem round_redirects (hf : WellFormed I fcn) (hc : fcn.Conforms c) :
    Redirects fcn (patchBlocks (replacements fcn) fcn) (replaced (replacements fcn)) where
  entry := Nat.le_zero.1 (replaced_le 0)
  nonempty := hf.entry
  block u block hb := by
    obtain ⟨rep, hrep, hsame, hnew⟩ := patchBlocks_block hc hb
    have hne : ∀ b ∈ rep.terminator.targets, patchTgt (replacements fcn) b ≠ NONE := fun b hmem =>
      hf.ne_none (patchTgt_lt hf hrep hmem)
    refine ⟨_, hnew, hsame.statements, ?_, ?_⟩
    · exact (MIRTerminator.shape_mapTargets hne).trans hsame.shape
    · change List.map _ (MIRTerminator.mapTargets _ rep.terminator).targets = _
      rw [MIRTerminator.targets_mapTargets hne, hsame.targets, List.map_map]
      exact List.map_congr_left fun b _ => patchTgt_toNat b
  targets u block hb := hf.targets u block hb

theorem patchBlocks_wellFormed (hf : WellFormed I fcn) :
    WellFormed I (patchBlocks (replacements fcn) fcn) := by
  have hlength : (patchBlocks (replacements fcn) fcn).blocks.length = fcn.blocks.length :=
    List.length_mapIdx
  constructor
  · exact hlength ▸ hf.entry
  · exact hlength ▸ hf.size
  · intro u block hb b hmem
    rw [hlength]
    rcases patchBlocks_inv hb with rfl | ⟨old, hold, _, rfl⟩
    · cases hmem
    · rw [MIRTerminator.targets_mapTargets fun b hb => hf.ne_none (patchTgt_lt hf hold hb)] at hmem
      obtain ⟨b', hb', rfl⟩ := List.mem_map.1 hmem
      exact patchTgt_lt hf hold hb'
  · intro u block hb
    rcases patchBlocks_inv hb with rfl | ⟨old, hold, _, rfl⟩
    · trivial
    · exact (hf.switches u old hold).mapTargets

theorem patchBlocks_conforms (hc : fcn.Conforms c) :
    (patchBlocks (replacements fcn) fcn).Conforms c := by
  intro block hmem
  obtain ⟨u, hu⟩ := List.getElem?_of_mem hmem
  rcases patchBlocks_inv hu with rfl | ⟨old, hold, _, rfl⟩
  · exact ⟨fun x hx => absurd hx List.not_mem_nil, trivial⟩
  · obtain ⟨hs, ht⟩ := hc old (List.mem_of_getElem? hold)
    exact ⟨hs, MIRTerminator.conforms_mapTargets ht⟩

/-- Every round empties a block. -/
theorem round_fewer (hc : fcn.Conforms c) (h : (replacements fcn).isEmpty = false) :
    (alive (patchBlocks (replacements fcn) fcn)).card < (alive fcn).card := by
  refine Finset.card_lt_card (Finset.ssubset_iff_subset_ne.2 ⟨fun u hu => ?_, fun heq => ?_⟩)
  · obtain ⟨block, hb, hgone⟩ := mem_alive.1 hu
    rcases patchBlocks_inv hb with rfl | ⟨old, hold, _, rfl⟩
    · cases hgone
    · exact mem_alive.2 ⟨old, hold, isGone_mapTargets.symm.trans hgone⟩
  · obtain ⟨⟨bb, candidate⟩, hmem⟩ := List.exists_mem_of_ne_nil _ (List.isEmpty_eq_false_iff.1 h)
    obtain ⟨_, b, _, hb, hgone, _⟩ := replaced_same hc hmem
    have halive : bb ∈ alive (patchBlocks (replacements fcn) fcn) :=
      heq ▸ mem_alive.2 ⟨b, hb, hgone⟩
    obtain ⟨block, hblock, hgone'⟩ := mem_alive.1 halive
    rcases patchBlocks_inv hblock with rfl | ⟨_, _, hnot, _⟩
    · cases hgone'
    · exact List.any_eq_false.1 hnot _ hmem (beq_self_eq_true bb)

/-- One round keeps what is needed for the next one. -/
theorem unifyRound_facts (hf : WellFormed I fcn) (hc : fcn.Conforms c)
    (h : unifyRound fcn = some fcn') : WellFormed I fcn' ∧ fcn'.Conforms c ∧
      SameTraces I fcn fcn' ∧ (alive fcn').card < (alive fcn).card := by
  unfold unifyRound at h
  split at h
  · cases h
  · next hsome =>
    cases h
    exact ⟨patchBlocks_wellFormed hf, patchBlocks_conforms hc, (round_redirects hf hc).traces,
      round_fewer hc (Bool.eq_false_iff.2 hsome)⟩

end UnifyRound

/-! ## 6. All rounds -/

section Rounds

variable [DecidableEq V.HIRType] [DecidableEq V.HIRPath] [DecidableEq V.HIRGenericPath]
  [DecidableEq V.HIRPathParams] [DecidableEq V.HIRConstGeneric] {c : Conventions V}
  {I : Interp V W} {fcn : MIRFunction V}

/-- From one function to the next. -/
def UnifyRound (fcn fcn' : MIRFunction V) : Prop := unifyRound fcn = some fcn'

theorem rounds_keep (hf : WellFormed I fcn) (hc : fcn.Conforms c) {g : MIRFunction V}
    (h : Relation.ReflTransGen UnifyRound fcn g) :
    WellFormed I g ∧ g.Conforms c ∧ SameTraces I fcn g := by
  induction h with
  | refl => exact ⟨hf, hc, .refl _⟩
  | tail _ hround ih =>
    obtain ⟨hf', hc', htraces⟩ := ih
    obtain ⟨hf'', hc'', htraces', _⟩ := unifyRound_facts hf' hc' hround
    exact ⟨hf'', hc'', htraces.trans htraces'⟩

theorem unifyBlocks_stop {fuel : Nat} (h : unifyRound fcn = none) :
    unifyBlocks (fuel + 1) fcn = some fcn := by
  simp only [unifyBlocks, h]

theorem unifyBlocks_go {fuel : Nat} {fcn' : MIRFunction V} (h : unifyRound fcn = some fcn') :
    unifyBlocks (fuel + 1) fcn = unifyBlocks fuel fcn' := by
  simp only [unifyBlocks, h]

theorem rounds_end (n : Nat) : ∀ {fcn : MIRFunction V}, WellFormed I fcn → fcn.Conforms c →
    (alive fcn).card ≤ n → ∃ result, Settles (fun fuel => unifyBlocks fuel fcn) result ∧
      Relation.ReflTransGen UnifyRound fcn result ∧ unifyRound result = none := by
  induction n with
  | zero =>
    intro fcn hf hc hn
    cases hround : unifyRound fcn with
    | none =>
      refine ⟨fcn, ⟨1, fun fuel hfuel => ?_⟩, .refl, hround⟩
      obtain ⟨k, rfl⟩ : ∃ k, fuel = k + 1 := ⟨fuel - 1, by omega⟩
      exact unifyBlocks_stop hround
    | some fcn' => exact absurd (unifyRound_facts hf hc hround).2.2.2 (by omega)
  | succ n ih =>
    intro fcn hf hc hn
    cases hround : unifyRound fcn with
    | none =>
      refine ⟨fcn, ⟨1, fun fuel hfuel => ?_⟩, .refl, hround⟩
      obtain ⟨k, rfl⟩ : ∃ k, fuel = k + 1 := ⟨fuel - 1, by omega⟩
      exact unifyBlocks_stop hround
    | some fcn' =>
      obtain ⟨hf', hc', _, hless⟩ := unifyRound_facts hf hc hround
      obtain ⟨result, ⟨m, hm⟩, hreach, hend⟩ := ih hf' hc' (by omega)
      refine ⟨result, ⟨m + 1, fun fuel hfuel => ?_⟩, .head hround hreach, hend⟩
      obtain ⟨k, rfl⟩ : ∃ k, fuel = k + 1 := ⟨fuel - 1, by omega⟩
      exact (unifyBlocks_go hround).trans (hm k (by omega))

/-- The unification of blocks: in every round a block only gives way to an earlier one that is the
    same (block 0 stays), the rounds end, and the executions are as before. -/
theorem unifyBlocks_exact (hf : WellFormed I fcn) (hc : fcn.Conforms c) :
    (∀ g, Relation.ReflTransGen UnifyRound fcn g → ∀ bb candidate,
      (bb, candidate) ∈ replacements g →
      candidate < bb ∧ ∃ a b, g.blocks[candidate]? = some a ∧ g.blocks[bb]? = some b ∧
        SameBlock a b) ∧
    ∃ result, Settles (fun fuel => unifyBlocks fuel fcn) result ∧
      Relation.ReflTransGen UnifyRound fcn result ∧ SameTraces I fcn result := by
  constructor
  · intro g hg bb candidate hmem
    obtain ⟨_, hc', _⟩ := rounds_keep hf hc hg
    obtain ⟨a, b, ha, hb, _, hsame⟩ := replaced_same hc' hmem
    exact ⟨(replacements_facts hmem).1.less, a, b, ha, hb, hsame⟩
  · obtain ⟨result, hsettles, hreach, _⟩ := rounds_end (alive fcn).card hf hc (Nat.le_refl _)
    exact ⟨result, hsettles, hreach, (rounds_keep hf hc hreach).2.2⟩

end Rounds

/-- `bb0: if _0 { goto bb1 } else { goto bb2 }`, and two blocks that return. -/
def twoReturns : MIRFunction bare :=
  ⟨[], [], [⟨[], .If ⟨.Return, []⟩ 1 2, false⟩, ⟨[], .Return, false⟩, ⟨[], .Return, false⟩]⟩

/-- The same, but that `bb1` has `_0 = &_0` and `bb2` has `_0 = &raw const _0`. -/
def rawOrNot : MIRFunction bare :=
  ⟨[], [], [⟨[], .If ⟨.Return, []⟩ 1 2, false⟩,
    ⟨[.Assign ⟨.Return, []⟩ (.Borrow .Shared false ⟨.Return, []⟩)], .Return, false⟩,
    ⟨[.Assign ⟨.Return, []⟩ (.Borrow .Shared true ⟨.Return, []⟩)], .Return, false⟩]⟩

def plainConventions : Conventions bare := ⟨fun _ => false, fun binding => ⟨[], binding, 0⟩⟩

theorem branch_wellFormed (l l' : List (MIRStatement bare)) : WellFormed idle
    ⟨[], [], [⟨[], .If ⟨.Return, []⟩ 1 2, false⟩, ⟨l, .Return, false⟩, ⟨l', .Return, false⟩]⟩ where
  entry := (by decide : 0 < 3)
  size := (by decide : 3 ≤ NONE.toNat)
  targets := by
    intro bb block hb b hmem
    rcases bb with _ | _ | _ | bb
    · cases hb
      rcases List.mem_cons.1 hmem with rfl | hmem
      · exact (by decide : (1 : BitVec 32).toNat < 3)
      · rw [List.mem_singleton.1 hmem]
        exact (by decide : (2 : BitVec 32).toNat < 3)
    · cases hb
      cases hmem
    · cases hb
      cases hmem
    · cases hb
  switches := by
    intro bb block hb
    rcases bb with _ | _ | _ | bb <;> cases hb <;> trivial

theorem twoReturns_conforms : twoReturns.Conforms plainConventions := by
  intro block hmem
  simp only [twoReturns, List.mem_cons, List.not_mem_nil, or_false] at hmem
  rcases hmem with rfl | rfl | rfl <;> exact ⟨fun x hx => absurd hx List.not_mem_nil, trivial⟩

theorem twoReturns_unified :
    (∀ g, Relation.ReflTransGen UnifyRound twoReturns g → ∀ bb candidate,
      (bb, candidate) ∈ replacements g → candidate < bb ∧
        ∃ a b, g.blocks[candidate]? = some a ∧ g.blocks[bb]? = some b ∧ SameBlock a b) ∧
    ∃ result, Settles (fun fuel => unifyBlocks fuel twoReturns) result ∧
      Relation.ReflTransGen UnifyRound twoReturns result ∧ SameTraces idle twoReturns result :=
  unifyBlocks_exact (branch_wellFormed [] []) twoReturns_conforms

/-- Without the conventions blocks with other statements are unified. -/
theorem rawOrNot_unified : WellFormed idle rawOrNot ∧ (2, 1) ∈ replacements rawOrNot ∧
    ∃ a b, rawOrNot.blocks[1]? = some a ∧ rawOrNot.blocks[2]? = some b ∧ ¬ SameBlock a b := by
  refine ⟨branch_wellFormed _ _, by decide +kernel, _, _, rfl, rfl, fun h => ?_⟩
  cases h.statements

end Trustme.Mir
