/-
  Subject:   Functions that are the same up to the numbers of their locals, drop flags and blocks.

  * `Renaming`: the new numbers, and what they make of places, statements and blocks;
  * `Isomorphic`: one function is the reachable part of another one under a renaming;
  * `Isomorphic.sort`: `MIRSortBlocks` only gives the blocks other numbers.
-/
import Trustme.Mir.SortBlocks
import Trustme.Mir.Places

namespace Trustme.Mir

open Metadata Lib

variable {V : Vocabulary}

/-! ## 1. Renamings -/

structure Renaming where
  locals : Nat → Option Nat
  flags : BitVec 32 → BitVec 32
  blocks : Nat → Nat

namespace Renaming

variable (ρ : Renaming)

def root : Storage V → Option (Storage V)
  | .Local idx _ => (ρ.locals idx).bind Storage.newLocal
  | s => some s

def wrapper (w : Wrapper) : Option Wrapper :=
  if w.isIndex then (ρ.locals w.asIndex).map fun idx => .newIndex (BitVec.ofNat 32 idx) else some w

/-- A place under its new name: all of its locals have to have one. -/
def place (v : MIRLValue V) : Option (MIRLValue V) :=
  (ρ.root v.root).bind fun root => (visitAll ρ.wrapper v.wrappers).map (⟨root, ·⟩)

def statement (x : MIRStatement V) : Option (MIRStatement V) :=
  (x.visit ρ.place ρ.place).map (·.mapFlags ρ.flags)

def target (b : BitVec 32) : BitVec 32 := BitVec.ofNat 32 (ρ.blocks b.toNat)

def terminator (t : MIRTerminator V) : Option (MIRTerminator V) :=
  (t.visit ρ.place ρ.place).map fun t => (t.mapFlags ρ.flags).mapTargets ρ.target

def block (block : MIRBasicBlock V) : Option (MIRBasicBlock V) :=
  (visitAll ρ.statement block.statements).bind fun statements =>
    (ρ.terminator block.terminator).map fun t => ⟨statements, t, block.isCleanup⟩

end Renaming

/-! ## 2. Isomorphic functions -/

/-- The blocks that executions can get to. -/
def Reachable (fcn : MIRFunction V) (bb : Nat) : Prop :=
  Relation.ReflTransGen (fun a b => b ∈ successors fcn a) 0 bb

/-- There is a first block, and the edges of what can be reached are there. -/
structure EdgesInside (fcn : MIRFunction V) : Prop where
  entry : 0 < fcn.blocks.length
  targets : ∀ bb block, Reachable fcn bb → fcn.blocks[bb]? = some block →
    ∀ b ∈ block.terminator.targets, b.toNat < fcn.blocks.length

theorem EdgesInside.block {fcn : MIRFunction V} (h : EdgesInside fcn) {bb : Nat}
    (hbb : Reachable fcn bb) : ∃ block, fcn.blocks[bb]? = some block := by
  cases hbb with
  | refl => exact ⟨_, List.getElem?_eq_getElem h.entry⟩
  | @tail a _ ha hstep =>
    cases hblock : fcn.blocks[a]? with
    | none =>
      rw [successors, hblock] at hstep
      cases hstep
    | some block =>
      rw [successors_of_block hblock] at hstep
      obtain ⟨b, hb, rfl⟩ := List.mem_map.1 hstep
      exact ⟨_, List.getElem?_eq_getElem (h.targets a block ha hblock b hb)⟩

def blockFlags (block : MIRBasicBlock V) : List (BitVec 32) :=
  block.statements.flatMap (·.flags) ++ block.terminator.flags

/-- A flag that the reachable part of a function names. -/
def NamedFlag (fcn : MIRFunction V) (flag : BitVec 32) : Prop :=
  ∃ bb block, Reachable fcn bb ∧ fcn.blocks[bb]? = some block ∧ flag ∈ blockFlags block

/-- The function `fcn'` is the reachable part of `fcn` under new names. No name is `~0u`. -/
structure Isomorphic (ρ : Renaming) (fcn fcn' : MIRFunction V) : Prop where
  entry : ρ.blocks 0 = 0
  size : fcn'.blocks.length ≤ NONE.toNat
  block : ∀ bb block, Reachable fcn bb → fcn.blocks[bb]? = some block →
    ∃ block', ρ.block block = some block' ∧ fcn'.blocks[ρ.blocks bb]? = some block'
  blocks_injective : ∀ a b, Reachable fcn a → Reachable fcn b → ρ.blocks a = ρ.blocks b → a = b
  blocks_onto : ∀ u < fcn'.blocks.length, ∃ bb, Reachable fcn bb ∧ ρ.blocks bb = u
  locals : ∀ i j, ρ.locals i = some j → j < fcn'.locals.length ∧ fcn'.locals[j]? = fcn.locals[i]?
  locals_injective : ∀ i j k, ρ.locals i = some k → ρ.locals j = some k → i = j
  flags : ∀ flag, NamedFlag fcn flag → ρ.flags flag ≠ NONE ∧
    (ρ.flags flag).toNat < fcn'.dropFlags.length ∧
    fcn'.dropFlags[(ρ.flags flag).toNat]? = fcn.dropFlags[flag.toNat]?
  flags_injective : ∀ a b, NamedFlag fcn a → NamedFlag fcn b → ρ.flags a = ρ.flags b → a = b

/-! ## 3. The renamed edges -/

section Edges

variable {ρ : Renaming} {fcn fcn' : MIRFunction V}

theorem renamed_targets {t t' : MIRTerminator V} (h : ρ.terminator t = some t')
    (hflags : ∀ flag ∈ t.flags, ρ.flags flag ≠ NONE) (hne : ∀ b ∈ t.targets, ρ.target b ≠ NONE) :
    t'.targets = t.targets.map ρ.target := by
  obtain ⟨t₁, ht, rfl⟩ := Option.map_eq_some_iff.1 h
  obtain ⟨htargets, hsame⟩ := MIRTerminator.visit_keeps ht
  have hkept : (t₁.mapFlags ρ.flags).targets = t.targets := by
    rw [MIRTerminator.targets_mapFlags (by rwa [hsame]), htargets]
  rw [MIRTerminator.targets_mapTargets (by rwa [hkept]), hkept]

variable (h : Isomorphic ρ fcn fcn') (hin : EdgesInside fcn)

include h hin

theorem Isomorphic.target {bb : Nat} {block : MIRBasicBlock V} (hbb : Reachable fcn bb)
    (hblock : fcn.blocks[bb]? = some block) :
    ∀ b ∈ block.terminator.targets, (ρ.target b).toNat = ρ.blocks b.toNat ∧ ρ.target b ≠ NONE := by
  intro b hb
  have hreach : Reachable fcn b.toNat := hbb.tail (by
    rw [successors_of_block hblock]
    exact List.mem_map_of_mem hb)
  obtain ⟨next, hnext⟩ := hin.block hreach
  obtain ⟨next', _, hget⟩ := h.block _ _ hreach hnext
  have hlt : ρ.blocks b.toNat < NONE.toNat :=
    Nat.lt_of_lt_of_le (List.getElem?_eq_some_iff.1 hget).1 h.size
  have hnat : (ρ.target b).toNat = ρ.blocks b.toNat := by
    rw [Renaming.target, BitVec.toNat_ofNat, Nat.mod_eq_of_lt (Nat.lt_trans hlt NONE.isLt)]
  refine ⟨hnat, fun heq => ?_⟩
  rw [heq] at hnat
  omega

omit hin in
theorem Isomorphic.terminator_flags {bb : Nat} {block : MIRBasicBlock V} (hbb : Reachable fcn bb)
    (hblock : fcn.blocks[bb]? = some block) :
    ∀ flag ∈ block.terminator.flags, ρ.flags flag ≠ NONE := fun flag hflag =>
  (h.flags flag ⟨bb, block, hbb, hblock, List.mem_append_right _ hflag⟩).1

/-- The edges of a renamed block are the renamed edges. -/
theorem Isomorphic.successors {bb : Nat} (hbb : Reachable fcn bb) :
    successors fcn' (ρ.blocks bb) = (Mir.successors fcn bb).map ρ.blocks := by
  obtain ⟨block, hblock⟩ := hin.block hbb
  obtain ⟨block', hren, hget⟩ := h.block bb block hbb hblock
  obtain ⟨statements, _, hren⟩ := Option.bind_eq_some_iff.1 hren
  obtain ⟨t, ht, rfl⟩ := Option.map_eq_some_iff.1 hren
  have htarget := h.target hin hbb hblock
  have htargets := renamed_targets ht (h.terminator_flags hbb hblock) fun b hb => (htarget b hb).2
  rw [successors_of_block hget, successors_of_block hblock]
  simp only [htargets, List.map_map]
  exact List.map_congr_left fun b hb => (htarget b hb).1

/-- All of the new function can be reached. -/
theorem Isomorphic.reaches {u : Nat} (hu : u < fcn'.blocks.length) : Reachable fcn' u := by
  obtain ⟨bb, hbb, rfl⟩ := h.blocks_onto u hu
  clear hu
  induction hbb with
  | refl =>
    rw [h.entry]
    exact .refl
  | tail hbb hnext ih =>
    refine ih.tail ?_
    rw [h.successors hin hbb]
    exact List.mem_map_of_mem hnext

end Edges

/-! ## 4. Other orders -/

theorem mapTargets_mapTargets {f g : BitVec 32 → BitVec 32} {t : MIRTerminator V}
    (hf : ∀ b ∈ t.targets, f b ≠ NONE) :
    (t.mapTargets f).mapTargets g = t.mapTargets fun b => g (f b) := by
  cases t with
  | Switch val targets validFlag invalidTarget =>
    by_cases hflag : validFlag = NONE
    · simp [MIRTerminator.mapTargets, hflag]
    · simp [MIRTerminator.mapTargets, hflag]
  | Drop kind slot flagIdx target unwind =>
    simp [MIRTerminator.mapTargets, MIRUnwindAction.mapTargets_mapTargets]
  | Call retBlock unwind retVal fcn args source tracksCaller =>
    simp [MIRTerminator.mapTargets, MIRUnwindAction.mapTargets_mapTargets]
  | Asm2 options lines params retBlock =>
    by_cases hret : retBlock = NONE
    · simp [MIRTerminator.mapTargets, MIRAsmParam.mapTargets_mapTargets, hret]
    · have hne : f retBlock ≠ NONE := hf _ (by simp [MIRTerminator.targets, hret])
      simp [MIRTerminator.mapTargets, MIRAsmParam.mapTargets_mapTargets, hret, hne]
  | _ => simp [MIRTerminator.mapTargets]

/-- The same renaming, with the blocks in the order of `MIRSortBlocks`. -/
def Renaming.sorted (ρ : Renaming) (fcn' : MIRFunction V) : Renaming :=
  { ρ with blocks := fun bb => (sortIdxes fcn').idxOf (ρ.blocks bb) }

section Sorted

variable {ρ : Renaming} {fcn fcn' : MIRFunction V} (h : Isomorphic ρ fcn fcn')
  (hin : EdgesInside fcn)

include h hin

theorem Isomorphic.sorted_block {bb : Nat} {block : MIRBasicBlock V} (hbb : Reachable fcn bb)
    (hblock : fcn.blocks[bb]? = some block) :
    ∃ block', (ρ.sorted fcn').block block = some block' ∧
      (sortBlocks fcn').blocks[(ρ.sorted fcn').blocks bb]? = some block' := by
  obtain ⟨block', hren, hget⟩ := h.block bb block hbb hblock
  obtain ⟨statements, hstmts, hren⟩ := Option.bind_eq_some_iff.1 hren
  obtain ⟨t, ht, rfl⟩ := Option.map_eq_some_iff.1 hren
  obtain ⟨t₁, hvisit, rfl⟩ := Option.map_eq_some_iff.1 ht
  refine ⟨_, ?_, sortBlocks_block hget⟩
  obtain ⟨htargets, hflags⟩ := MIRTerminator.visit_keeps hvisit
  have hkept : (t₁.mapFlags ρ.flags).targets = block.terminator.targets := by
    rw [MIRTerminator.targets_mapFlags, htargets]
    rw [hflags]
    exact h.terminator_flags hbb hblock
  have htarget := h.target hin hbb hblock
  have hsame : ((t₁.mapFlags ρ.flags).mapTargets ρ.target).mapTargets (fixBbIdx (sortIdxes fcn')) =
      (t₁.mapFlags ρ.flags).mapTargets (ρ.sorted fcn').target := by
    rw [mapTargets_mapTargets fun b hb => (htarget b (hkept ▸ hb)).2]
    refine MIRTerminator.mapTargets_congr fun b hb => ?_
    rw [fixBbIdx, (htarget b (hkept ▸ hb)).1]
    rfl
  have hstmts' : visitAll (ρ.sorted fcn').statement block.statements = some statements := hstmts
  have hvisit' : block.terminator.visit (ρ.sorted fcn').place (ρ.sorted fcn').place = some t₁ :=
    hvisit
  rw [Renaming.block, hstmts', Option.bind_some, Renaming.terminator, hvisit', Option.map_some,
    Option.map_some, hsame]
  rfl

theorem Isomorphic.sort : Isomorphic (ρ.sorted fcn') fcn (sortBlocks fcn') where
  entry := by
    obtain ⟨block, hblock⟩ := hin.block .refl
    obtain ⟨block', _, hget⟩ := h.block 0 block .refl hblock
    rw [h.entry] at hget
    show (sortIdxes fcn').idxOf (ρ.blocks 0) = 0
    rw [h.entry]
    exact sortIdxes_head (List.getElem?_eq_some_iff.1 hget).1 fun u hu => h.reaches hin hu
  size := by
    rw [sortBlocks_length]
    exact h.size
  block bb block hbb hblock := h.sorted_block hin hbb hblock
  blocks_injective a b ha hb hab := by
    obtain ⟨block, hblock⟩ := hin.block ha
    obtain ⟨block', _, hget⟩ := h.block a block ha hblock
    have hmem : ρ.blocks a ∈ sortIdxes fcn' := mem_sortIdxes.2 (List.getElem?_eq_some_iff.1 hget).1
    exact h.blocks_injective a b ha hb ((List.idxOf_inj hmem).1 hab)
  blocks_onto u hu := by
    rw [sortBlocks_length, ← sortIdxes_length] at hu
    obtain ⟨bb, hbb, heq⟩ := h.blocks_onto _ (mem_sortIdxes.1 (List.getElem_mem hu))
    refine ⟨bb, hbb, ?_⟩
    show (sortIdxes fcn').idxOf (ρ.blocks bb) = u
    rw [heq]
    exact sortIdxes_nodup.idxOf_getElem u hu
  locals := h.locals
  locals_injective := h.locals_injective
  flags := h.flags
  flags_injective := h.flags_injective

end Sorted

end Trustme.Mir
