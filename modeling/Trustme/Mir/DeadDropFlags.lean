/-
  Subject:   `MIROptimiseDeadDropFlags`: the statements it removes, and which reads of drop flags
             stay as they were.

  * `readDropFlags`, `editedDropFlags`: the two summaries of the visited blocks;
  * `removeUnread`, `removeUnedited`: the two rounds;
  * `TameRun`: an execution in which a resume loads the default of a flag that is only ever set to
    its default;
  * `deadDropFlags_reads`: such executions read the same values before and after.
-/
import Trustme.Mir.Flow

namespace Trustme.Mir

open Lowering (LValue DropFlag)

variable {X Y : Type}

/-! ## 1. The pass -/

/-- The flags that a statement reads. -/
def Statement.reads : Statement X → List DropFlag
  | .setDropFlag _ _ (some o) => [o]
  | .saveDropFlag _ _ idx => [idx]
  | _ => []

namespace Function

variable (fcn : Function X Y)

/-- The visited blocks. -/
def visited : List (BasicBlock X Y) := fcn.visitBlocks.filterMap (fcn.blocks[·]?)

/-- `readDropFlags` of the first round. -/
def readDropFlags : List DropFlag :=
  fcn.visited.flatMap fun block =>
    block.statements.flatMap Statement.reads ++ block.terminator.flag.toList

/-- A statement that makes `editedDropFlags` of the second round true for its flag. -/
def edits : Statement X → List DropFlag
  | .setDropFlag idx _ (some _) => [idx]
  | .setDropFlag idx newVal none => if newVal != fcn.default idx then [idx] else []
  | _ => []

def editedDropFlags : List DropFlag :=
  fcn.visited.flatMap fun block => block.statements.flatMap fcn.edits

/-- The first round keeps the writes of flags that are read. -/
def keepsRead : Statement X → Bool
  | .setDropFlag idx _ _ => fcn.readDropFlags.contains idx
  | .loadDropFlag idx _ _ => fcn.readDropFlags.contains idx
  | _ => true

/-- The second round keeps the writes of flags that are edited. -/
def keepsEdited : Statement X → Bool
  | .setDropFlag idx _ _ => fcn.editedDropFlags.contains idx
  | _ => true

def removeUnread : Function X Y := fcn.rewriteVisited fcn.keepsRead

def removeUnedited : Function X Y := fcn.rewriteVisited fcn.keepsEdited

/-- `MIROptimiseDeadDropFlags`. -/
def deadDropFlags : Function X Y := fcn.removeUnread.removeUnedited

/-- The statement sets the flag. -/
def sets (f : DropFlag) : Statement X → Bool
  | .setDropFlag idx _ _ => idx == f
  | _ => false

/-- The flags that are read and set, but never to anything but their default. -/
def onlyReset : List DropFlag :=
  fcn.readDropFlags.filter fun f => !fcn.editedDropFlags.contains f &&
    fcn.visited.any fun block => block.statements.any (Function.sets f)

end Function

/-! ## 2. Tame executions -/

section Run

variable {W : Type} (M : Machine X Y W) (fcn : Function X Y) (flags : List DropFlag)

/-- A load of one of the flags gives its default. -/
def Tame (c : Config X W) : Prop :=
  match c.place with
  | .inside _ (.loadDropFlag idx slot bit :: _) =>
    idx ∈ flags → M.load slot bit c.world = fcn.default idx
  | _ => True

/-- An execution whose loads are tame, and the flags it reads. -/
inductive TameRun : Config X W → List FlagRead → Config X W → Prop where
  | refl (c : Config X W) : TameRun c [] c
  | step {c c' c'' : Config X W} {rs r : List FlagRead} (hrun : TameRun c rs c')
      (hstep : Step M fcn c' r c'') (htame : Tame M fcn flags c') : TameRun c (rs ++ r) c''

variable {M fcn flags}

theorem TameRun.trans {c c' c'' : Config X W} {rs ss : List FlagRead}
    (h : TameRun M fcn flags c rs c') (h' : TameRun M fcn flags c' ss c'') :
    TameRun M fcn flags c (rs ++ ss) c'' := by
  induction h' with
  | refl => rwa [List.append_nil]
  | step _ hstep htame ih =>
    rw [← List.append_assoc]
    exact ih.step hstep htame

end Run

/-! ## 3. One round -/

/-- What a round of the pass relies on: the flags of the two executions are related, removed
    statements keep them so, and what is kept reads the same values. -/
structure Round (fcn : Function X Y) (edit : Statement X → Bool) (flags : List DropFlag)
    (R : (DropFlag → Bool) → (DropFlag → Bool) → Prop) : Prop where
  start : R fcn.default fcn.default
  reads : ∀ block ∈ fcn.visited, ∀ s ∈ block.statements, edit s = true →
    ∀ φ ψ, R φ ψ → ∀ f ∈ s.reads, φ f = ψ f
  flag : ∀ block ∈ fcn.visited, ∀ φ ψ, R φ ψ → block.terminator.flag.map φ =
    block.terminator.flag.map ψ
  set : ∀ block ∈ fcn.visited, ∀ idx v, Statement.setDropFlag idx v none ∈ block.statements →
    ∀ φ ψ, R φ ψ → if edit (.setDropFlag idx v none) then R (setFlag φ idx v) (setFlag ψ idx v)
      else R (setFlag φ idx v) ψ
  copy : ∀ block ∈ fcn.visited, ∀ idx v o,
    Statement.setDropFlag idx v (some o) ∈ block.statements → ∀ φ ψ u, R φ ψ →
      if edit (.setDropFlag idx v (some o)) then R (setFlag φ idx u) (setFlag ψ idx u)
      else R (setFlag φ idx u) ψ
  load : ∀ block ∈ fcn.visited, ∀ idx slot bit,
    Statement.loadDropFlag idx slot bit ∈ block.statements → ∀ φ ψ u, R φ ψ →
      if edit (.loadDropFlag idx slot bit) then
        (idx ∈ flags → u = fcn.default idx) → R (setFlag φ idx u) (setFlag ψ idx u)
      else idx ∉ flags ∧ R (setFlag φ idx u) ψ
  keeps : ∀ s, edit s = false → (∃ idx v o, s = .setDropFlag idx v o) ∨
    ∃ idx slot bit, s = .loadDropFlag idx slot bit

section Round

variable {W : Type} {M : Machine X Y W} {fcn : Function X Y} {edit : Statement X → Bool}
  {flags : List DropFlag} {R : (DropFlag → Bool) → (DropFlag → Bool) → Prop}

theorem Round.edit_save (hr : Round fcn edit flags R) (slot : LValue) (bit : Nat)
    (idx : DropFlag) : edit (.saveDropFlag slot bit idx) = true := by
  cases h : edit (.saveDropFlag slot bit idx) with
  | true => rfl
  | false =>
    rcases hr.keeps _ h with ⟨_, _, _, h⟩ | ⟨_, _, _, h⟩
    · cases h
    · cases h

theorem Round.edit_other (hr : Round fcn edit flags R) (x : X) : edit (.other x) = true := by
  cases h : edit (.other x) with
  | true => rfl
  | false =>
    rcases hr.keeps _ h with ⟨_, _, _, h⟩ | ⟨_, _, _, h⟩
    · cases h
    · cases h

theorem readsOf_congr {bb : Nat} {flag : Option DropFlag} {φ ψ : DropFlag → Bool}
    (h : flag.map φ = flag.map ψ) : readsOf bb flag φ = readsOf bb flag ψ := by
  cases flag with
  | none => rfl
  | some f => simpa [readsOf] using h

/-- Two places of the executions before and after the round. -/
inductive SamePlace (fcn : Function X Y) (edit : Statement X → Bool) : Place X → Place X →
    Prop where
  | inside {bb : Nat} {block : BasicBlock X Y} {rest : List (Statement X)}
      (hbb : bb ∈ fcn.visitBlocks) (hblock : fcn.blocks[bb]? = some block)
      (hrest : ∀ s ∈ rest, s ∈ block.statements) :
      SamePlace fcn edit (.inside bb rest) (.inside bb (rest.filter edit))
  | ended {bb : Nat} : SamePlace fcn edit (.ended bb) (.ended bb)

structure Related (fcn : Function X Y) (edit : Statement X → Bool)
    (R : (DropFlag → Bool) → (DropFlag → Bool) → Prop) (c c' : Config X W) : Prop where
  place : SamePlace fcn edit c.place c'.place
  flags : R c.flags c'.flags
  world : c.world = c'.world

theorem mem_visited {bb : Nat} {block : BasicBlock X Y} (hbb : bb ∈ fcn.visitBlocks)
    (h : fcn.blocks[bb]? = some block) : block ∈ fcn.visited :=
  List.mem_filterMap.mpr ⟨bb, hbb, h⟩

variable {c c' : Config X W}

theorem TameRun.one {flags : List DropFlag} {r : List FlagRead} (hstep : Step M fcn c r c')
    (htame : Tame M fcn flags c) : TameRun M fcn flags c r c' :=
  (TameRun.refl c).step hstep htame

/-- At a statement: it is one of a visited block, and it is there after the round or is removed. -/
theorem SamePlace.cons {bb : Nat} {s : Statement X} {rest : List (Statement X)} {p : Place X}
    (h : SamePlace fcn edit (.inside bb (s :: rest)) p) :
    ∃ block ∈ fcn.visited, s ∈ block.statements ∧
      SamePlace fcn edit (.inside bb rest) (.inside bb (rest.filter edit)) ∧
      (edit s = true ∧ p = .inside bb (s :: rest.filter edit) ∨
        edit s = false ∧ p = .inside bb (rest.filter edit)) := by
  cases h with
  | inside hbb hblock hrest =>
    refine ⟨_, mem_visited hbb hblock, hrest _ List.mem_cons_self,
      .inside hbb hblock fun s hs => hrest s (List.mem_cons_of_mem _ hs), ?_⟩
    cases he : edit s with
    | true => exact .inl ⟨rfl, congrArg _ (List.filter_cons_of_pos he)⟩
    | false => exact .inr ⟨rfl, congrArg _ (List.filter_cons_of_neg (by simp [he]))⟩

/-- A statement that is no flag's is there after the round. -/
theorem SamePlace.cons_kept {bb : Nat} {s : Statement X} {rest : List (Statement X)} {p : Place X}
    (h : SamePlace fcn edit (.inside bb (s :: rest)) p) (he : edit s = true) :
    p = .inside bb (s :: rest.filter edit) := by
  obtain ⟨-, -, -, -, ⟨-, hp⟩ | ⟨he', -⟩⟩ := h.cons
  · exact hp
  · cases he.symm.trans he'

/-- A step before the round is the same step after it, or none. -/
theorem Round.forth (hr : Round fcn edit flags R) {c₁ : Config X W} {r : List FlagRead}
    (hrel : Related fcn edit R c c') (hstep : Step M fcn c r c₁) (htame : Tame M fcn flags c) :
    ∃ c₁', TameRun M (fcn.rewriteVisited edit) flags c' r c₁' ∧ Related fcn edit R c₁ c₁' := by
  obtain ⟨place', φ', w'⟩ := c'
  obtain ⟨hplace, hflags, hworld⟩ := hrel
  dsimp only at hplace hflags hworld
  cases hstep with
  | @set bb rest φ w idx v =>
    obtain rfl : w = w' := hworld
    obtain ⟨block, hblock, hmem, htail, hcase⟩ := hplace.cons
    have hset := hr.set block hblock idx v hmem φ φ' hflags
    obtain ⟨he, rfl⟩ | ⟨he, rfl⟩ := hcase
    · rw [he] at hset
      exact ⟨_, .one (.set idx v) trivial, htail, hset, rfl⟩
    · rw [he] at hset
      exact ⟨_, .refl _, htail, hset, rfl⟩
  | @copy bb rest φ w idx v o =>
    obtain rfl : w = w' := hworld
    obtain ⟨block, hblock, hmem, htail, hcase⟩ := hplace.cons
    have hset := hr.copy block hblock idx v o hmem φ φ' (v != φ o) hflags
    obtain ⟨he, rfl⟩ | ⟨he, rfl⟩ := hcase
    · rw [he] at hset
      have hread := hr.reads block hblock _ hmem he φ φ' hflags o List.mem_cons_self
      rw [hread] at hset
      refine ⟨_, .one (.copy idx v o) trivial, htail, ?_, rfl⟩
      rwa [hread]
    · rw [he] at hset
      exact ⟨_, .refl _, htail, hset, rfl⟩
  | @save bb rest φ w w₁ slot bit idx h =>
    obtain rfl : w = w' := hworld
    obtain ⟨block, hblock, hmem, htail, -⟩ := hplace.cons
    have he := hr.edit_save slot bit idx
    obtain rfl := hplace.cons_kept he
    rw [hr.reads block hblock _ hmem he φ φ' hflags idx List.mem_cons_self] at h
    exact ⟨_, .one (.save slot bit idx h) trivial, htail, hflags, rfl⟩
  | @load bb rest φ w idx slot bit =>
    obtain rfl : w = w' := hworld
    obtain ⟨block, hblock, hmem, htail, hcase⟩ := hplace.cons
    have hload := hr.load block hblock idx slot bit hmem φ φ' (M.load slot bit w) hflags
    obtain ⟨he, rfl⟩ | ⟨he, rfl⟩ := hcase
    · rw [he] at hload
      exact ⟨_, .one (.load idx slot bit) htame, htail, hload htame, rfl⟩
    · rw [he] at hload
      exact ⟨_, .refl _, htail, hload.2, rfl⟩
  | @stmt bb rest φ w w₁ x h =>
    obtain rfl : w = w' := hworld
    obtain ⟨-, -, -, htail, -⟩ := hplace.cons
    obtain rfl := hplace.cons_kept (hr.edit_other x)
    exact ⟨_, .one (.stmt x h) trivial, htail, hflags, rfl⟩
  | @jump bb φ w w₁ block block' target hblock hblock' htarget h =>
    obtain rfl : w = w' := hworld
    cases hplace with
    | @inside _ b _ hbb hb hrest =>
      rw [hblock] at hb
      cases hb
      have hflag := hr.flag block (mem_visited hbb hblock) φ φ' hflags
      have hbb' := fcn.target_mem_visitBlocks hbb hblock htarget
      rw [hflag] at h
      rw [readsOf_congr hflag]
      have hstep := @Step.jump X Y W M (fcn.rewriteVisited edit) bb φ' w w₁
        { block with statements := block.statements.filter edit }
        { block' with statements := block'.statements.filter edit } target
        (fcn.rewriteVisited_block edit hbb hblock) (fcn.rewriteVisited_block edit hbb' hblock')
        htarget h
      exact ⟨_, .one hstep trivial, .inside hbb' hblock' (fun s hs => hs), hflags, rfl⟩
  | @exit bb φ w w₁ block hblock h =>
    obtain rfl : w = w' := hworld
    cases hplace with
    | @inside _ b _ hbb hb hrest =>
      rw [hblock] at hb
      cases hb
      have hflag := hr.flag block (mem_visited hbb hblock) φ φ' hflags
      rw [hflag] at h
      rw [readsOf_congr hflag]
      have hstep := @Step.exit X Y W M (fcn.rewriteVisited edit) bb φ' w w₁
        { block with statements := block.statements.filter edit }
        (fcn.rewriteVisited_block edit hbb hblock) h
      exact ⟨_, .one hstep trivial, .ended, hflags, rfl⟩

/-- The execution before the round runs over the statements that are removed. -/
theorem Round.catchUp (hr : Round fcn edit flags R) {bb : Nat} {block : BasicBlock X Y} {w : W}
    {φ' : DropFlag → Bool} (hbb : bb ∈ fcn.visitBlocks) (hblock : fcn.blocks[bb]? = some block) :
    ∀ {rest : List (Statement X)} {φ : DropFlag → Bool}, (∀ s ∈ rest, s ∈ block.statements) →
      R φ φ' → ∃ rest₂ φ₂, rest₂.filter edit = rest.filter edit ∧
        (∀ s ∈ rest₂, s ∈ block.statements) ∧ R φ₂ φ' ∧ (∀ s ∈ rest₂.head?, edit s = true) ∧
        TameRun M fcn flags ⟨.inside bb rest, φ, w⟩ [] ⟨.inside bb rest₂, φ₂, w⟩
  | [], φ, _, hflags => ⟨[], φ, rfl, nofun, hflags, nofun, .refl _⟩
  | s :: rest, φ, hrest, hflags => by
    have hmem := hrest s List.mem_cons_self
    have htail : ∀ t ∈ rest, t ∈ block.statements := fun t ht =>
      hrest t (List.mem_cons_of_mem _ ht)
    have hgo {φ₁ : DropFlag → Bool} (he : edit s = false) (h₁ : R φ₁ φ')
        (hstep : Step M fcn ⟨.inside bb (s :: rest), φ, w⟩ [] ⟨.inside bb rest, φ₁, w⟩)
        (htame : Tame M fcn flags ⟨.inside bb (s :: rest), φ, w⟩) :
        ∃ rest₂ φ₂, rest₂.filter edit = (s :: rest).filter edit ∧
          (∀ s ∈ rest₂, s ∈ block.statements) ∧ R φ₂ φ' ∧ (∀ s ∈ rest₂.head?, edit s = true) ∧
          TameRun M fcn flags ⟨.inside bb (s :: rest), φ, w⟩ [] ⟨.inside bb rest₂, φ₂, w⟩ := by
      obtain ⟨rest₂, φ₂, h₂, hrest₂, hflags₂, hhead, hrun⟩ := hr.catchUp hbb hblock htail h₁
      refine ⟨rest₂, φ₂, ?_, hrest₂, hflags₂, hhead, (TameRun.one hstep htame).trans hrun⟩
      rw [h₂, List.filter_cons_of_neg (by simp [he])]
    cases he : edit s with
    | true =>
      refine ⟨s :: rest, φ, rfl, hrest, hflags, fun t ht => ?_, .refl _⟩
      cases ht
      exact he
    | false =>
      rcases hr.keeps s he with ⟨idx, v, o, rfl⟩ | ⟨idx, slot, bit, rfl⟩
      · cases o with
        | none =>
          have hset := hr.set block (mem_visited hbb hblock) idx v hmem φ φ' hflags
          rw [he] at hset
          exact hgo he hset (.set idx v) trivial
        | some o =>
          have hset := hr.copy block (mem_visited hbb hblock) idx v o hmem φ φ' (v != φ o)
            hflags
          rw [he] at hset
          exact hgo he hset (.copy idx v o) trivial
      · have hload := hr.load block (mem_visited hbb hblock) idx slot bit hmem φ φ'
          (M.load slot bit w) hflags
        rw [he] at hload
        exact hgo he hload.2 (.load idx slot bit) (fun hf => absurd hf hload.1)

/-- A step after the round, from where the execution before it has caught up. -/
theorem Round.back_step (hr : Round fcn edit flags R) {bb : Nat} {block : BasicBlock X Y} {w : W}
    {rest : List (Statement X)} {φ φ' : DropFlag → Bool} {r : List FlagRead} {c₁' : Config X W}
    (hbb : bb ∈ fcn.visitBlocks) (hblock : fcn.blocks[bb]? = some block)
    (hrest : ∀ s ∈ rest, s ∈ block.statements) (hflags : R φ φ')
    (hhead : ∀ s ∈ rest.head?, edit s = true)
    (hstep : Step M (fcn.rewriteVisited edit) ⟨.inside bb (rest.filter edit), φ', w⟩ r c₁')
    (htame : Tame M (fcn.rewriteVisited edit) flags ⟨.inside bb (rest.filter edit), φ', w⟩) :
    ∃ c₁, TameRun M fcn flags ⟨.inside bb rest, φ, w⟩ r c₁ ∧ Related fcn edit R c₁ c₁' := by
  have hvisited := mem_visited hbb hblock
  cases rest with
  | nil =>
    have hflag := hr.flag block hvisited φ φ' hflags
    cases hstep with
    | @jump _ _ _ w₁ b b' target hb hb' htarget h =>
      rw [fcn.rewriteVisited_block edit hbb hblock] at hb
      cases hb
      have hbb' := fcn.target_mem_visitBlocks hbb hblock htarget
      obtain ⟨block', hblock'⟩ : ∃ block', fcn.blocks[target]? = some block' := by
        have hlt := (List.getElem?_eq_some_iff.mp hb').1
        simp only [Function.rewriteVisited, List.length_mapIdx] at hlt
        exact ⟨_, List.getElem?_eq_getElem hlt⟩
      rw [fcn.rewriteVisited_block edit hbb' hblock'] at hb'
      cases hb'
      dsimp only at h
      rw [← hflag] at h
      dsimp only
      rw [← readsOf_congr hflag]
      exact ⟨_, .one (.jump hblock hblock' htarget h) trivial,
        .inside hbb' hblock' (fun s hs => hs), hflags, rfl⟩
    | @exit _ _ _ w₁ b hb h =>
      rw [fcn.rewriteVisited_block edit hbb hblock] at hb
      cases hb
      dsimp only at h
      rw [← hflag] at h
      dsimp only
      rw [← readsOf_congr hflag]
      exact ⟨_, .one (.exit hblock h) trivial, .ended, hflags, rfl⟩
  | cons s rest =>
    have he := hhead s rfl
    have hmem := hrest s List.mem_cons_self
    have htail : ∀ t ∈ rest, t ∈ block.statements := fun t ht =>
      hrest t (List.mem_cons_of_mem _ ht)
    rw [List.filter_cons_of_pos he] at hstep htame
    cases hstep with
    | set idx v =>
      have hset := hr.set block hvisited idx v hmem φ φ' hflags
      rw [he] at hset
      exact ⟨_, .one (.set idx v) trivial, .inside hbb hblock htail, hset, rfl⟩
    | copy idx v o =>
      have hset := hr.copy block hvisited idx v o hmem φ φ' (v != φ o) hflags
      rw [he] at hset
      refine ⟨_, .one (.copy idx v o) trivial, .inside hbb hblock htail, ?_, rfl⟩
      rw [← hr.reads block hvisited _ hmem he φ φ' hflags o List.mem_cons_self]
      exact hset
    | save slot bit idx h =>
      rw [← hr.reads block hvisited _ hmem he φ φ' hflags idx List.mem_cons_self] at h
      exact ⟨_, .one (.save slot bit idx h) trivial, .inside hbb hblock htail, hflags, rfl⟩
    | load idx slot bit =>
      have hload := hr.load block hvisited idx slot bit hmem φ φ' (M.load slot bit w) hflags
      rw [he] at hload
      exact ⟨_, .one (.load idx slot bit) htame, .inside hbb hblock htail, hload htame, rfl⟩
    | stmt x h =>
      exact ⟨_, .one (.stmt x h) trivial, .inside hbb hblock htail, hflags, rfl⟩

theorem Round.entry_related (hr : Round fcn edit flags R) (hne : fcn.blocks ≠ []) (w : W) :
    Related fcn edit R (fcn.entry w) ((fcn.rewriteVisited edit).entry w) := by
  cases hb : fcn.blocks[0]? with
  | none => exact absurd (List.length_eq_zero_iff.mp (by simpa using hb)) hne
  | some block =>
    have hb' := fcn.rewriteVisited_block edit fcn.zero_mem_visitBlocks hb
    simp only [Function.entry, hb, hb', Option.map_some, Option.getD_some]
    exact ⟨.inside fcn.zero_mem_visitBlocks hb (fun s hs => hs), hr.start, rfl⟩

theorem Round.run_forth (hr : Round fcn edit flags R) (hne : fcn.blocks ≠ []) {w : W}
    {rs : List FlagRead} (h : TameRun M fcn flags (fcn.entry w) rs c) :
    ∃ c', TameRun M (fcn.rewriteVisited edit) flags ((fcn.rewriteVisited edit).entry w) rs c' ∧
      Related fcn edit R c c' := by
  induction h with
  | refl => exact ⟨_, .refl _, hr.entry_related hne w⟩
  | step _ hstep htame ih =>
    obtain ⟨c', hrun, hrel⟩ := ih
    obtain ⟨c₁', hrun₁, hrel₁⟩ := hr.forth hrel hstep htame
    exact ⟨c₁', hrun.trans hrun₁, hrel₁⟩

theorem Round.run_back (hr : Round fcn edit flags R) (hne : fcn.blocks ≠ []) {w : W}
    {rs : List FlagRead}
    (h : TameRun M (fcn.rewriteVisited edit) flags ((fcn.rewriteVisited edit).entry w) rs c') :
    ∃ c, TameRun M fcn flags (fcn.entry w) rs c ∧ Related fcn edit R c c' := by
  induction h with
  | refl => exact ⟨_, .refl _, hr.entry_related hne w⟩
  | @step c' c₁' rs r _ hstep htame ih =>
    obtain ⟨⟨place, φ, w₀⟩, hrun, hplace, hflags, hworld⟩ := ih
    obtain ⟨place', φ', w'⟩ := c'
    dsimp only at hplace hflags hworld
    obtain rfl : w₀ = w' := hworld
    cases hplace with
    | inside hbb hblock hrest =>
      obtain ⟨rest₂, φ₂, hfilter, hrest₂, hflags₂, hhead, hrun₂⟩ :=
        hr.catchUp hbb hblock hrest hflags
      rw [← hfilter] at hstep htame
      obtain ⟨c₁, hrun₁, hrel₁⟩ := hr.back_step hbb hblock hrest₂ hflags₂ hhead hstep htame
      refine ⟨c₁, (hrun.trans (hrun₂.trans ?_)), hrel₁⟩
      exact hrun₁
    | ended => cases hstep

end Round

/-! ## 4. The two rounds -/

section Pass

variable (fcn : Function X Y)

theorem mem_visited_iff {block : BasicBlock X Y} : block ∈ fcn.visited ↔
    ∃ bb ∈ fcn.visitBlocks, fcn.blocks[bb]? = some block := List.mem_filterMap

/-- The visited blocks after a round. -/
theorem mem_visited_rewriteVisited {edit : Statement X → Bool} {block' : BasicBlock X Y} :
    block' ∈ (fcn.rewriteVisited edit).visited ↔
      ∃ block ∈ fcn.visited,
        block' = { block with statements := block.statements.filter edit } := by
  constructor
  · intro h
    obtain ⟨bb, hbb, h⟩ := (mem_visited_iff _).mp h
    rw [Function.visitBlocks_rewriteVisited] at hbb
    have hlt := (List.getElem?_eq_some_iff.mp h).1
    simp only [Function.rewriteVisited, List.length_mapIdx] at hlt
    have hblock := List.getElem?_eq_getElem hlt
    rw [fcn.rewriteVisited_block edit hbb hblock] at h
    cases h
    exact ⟨_, mem_visited hbb hblock, rfl⟩
  · rintro ⟨block, h, rfl⟩
    obtain ⟨bb, hbb, h⟩ := (mem_visited_iff fcn).mp h
    refine (mem_visited_iff _).mpr ⟨bb, ?_, fcn.rewriteVisited_block edit hbb h⟩
    rwa [Function.visitBlocks_rewriteVisited]

variable {f idx : DropFlag}

theorem mem_readDropFlags : f ∈ fcn.readDropFlags ↔ ∃ block ∈ fcn.visited,
    (∃ s ∈ block.statements, f ∈ s.reads) ∨ block.terminator.flag = some f := by
  simp only [Function.readDropFlags, List.mem_flatMap, List.mem_append, Option.mem_toList]

theorem mem_editedDropFlags : f ∈ fcn.editedDropFlags ↔ ∃ block ∈ fcn.visited,
    ∃ s ∈ block.statements, f ∈ fcn.edits s := by
  simp only [Function.editedDropFlags, List.mem_flatMap]

theorem setFlag_agree {S : List DropFlag} {φ ψ : DropFlag → Bool} (h : ∀ f ∈ S, φ f = ψ f)
    (idx : DropFlag) (v : Bool) : ∀ f ∈ S, setFlag φ idx v f = setFlag ψ idx v f := by
  intro f hf
  unfold setFlag
  split
  · rfl
  · exact h f hf

theorem setFlag_agree_left {S : List DropFlag} {φ ψ : DropFlag → Bool} (h : ∀ f ∈ S, φ f = ψ f)
    (hidx : idx ∉ S) (v : Bool) : ∀ f ∈ S, setFlag φ idx v f = ψ f := by
  intro f hf
  unfold setFlag
  split
  · rename_i hfi
    exact absurd (hfi ▸ hf) hidx
  · exact h f hf

/-- The first round: the flags that are read agree. -/
theorem round_unread : Round fcn fcn.keepsRead fcn.onlyReset
    (fun φ ψ => ∀ f ∈ fcn.readDropFlags, φ f = ψ f) where
  start := fun _ _ => rfl
  reads := fun block hb s hs _ φ ψ h f hf => h f ((mem_readDropFlags fcn).mpr ⟨block, hb,
    Or.inl ⟨s, hs, hf⟩⟩)
  flag := fun block hb φ ψ h => by
    cases hflag : block.terminator.flag with
    | none => rfl
    | some f =>
      rw [Option.map_some, Option.map_some, h f ((mem_readDropFlags fcn).mpr ⟨block, hb,
        Or.inr hflag⟩)]
  set := fun block hb idx v hs φ ψ h => by
    split
    · exact setFlag_agree h idx v
    · rename_i he
      exact setFlag_agree_left h (by simpa [Function.keepsRead] using he) v
  copy := fun block hb idx v o hs φ ψ u h => by
    split
    · exact setFlag_agree h idx u
    · rename_i he
      exact setFlag_agree_left h (by simpa [Function.keepsRead] using he) u
  load := fun block hb idx slot bit hs φ ψ u h => by
    split
    · exact fun _ => setFlag_agree h idx u
    · rename_i he
      have hidx : idx ∉ fcn.readDropFlags := by simpa [Function.keepsRead] using he
      exact ⟨fun hf => hidx (List.mem_filter.mp hf).1, setFlag_agree_left h hidx u⟩
  keeps := fun s he => by
    cases s with
    | setDropFlag idx v o => exact Or.inl ⟨idx, v, o, rfl⟩
    | loadDropFlag idx slot bit => exact Or.inr ⟨idx, slot, bit, rfl⟩
    | saveDropFlag slot bit idx => cases he
    | other x => cases he

/-- A flag that is read is edited after the first round where it was before. -/
theorem edited_removeUnread (hf : f ∈ fcn.readDropFlags) :
    f ∈ fcn.removeUnread.editedDropFlags ↔ f ∈ fcn.editedDropFlags := by
  rw [mem_editedDropFlags, mem_editedDropFlags]
  constructor
  · rintro ⟨block', hb', s, hs, he⟩
    obtain ⟨block, hb, rfl⟩ := (mem_visited_rewriteVisited fcn).mp hb'
    exact ⟨block, hb, s, (List.mem_filter.mp hs).1, he⟩
  · rintro ⟨block, hb, s, hs, he⟩
    refine ⟨_, (mem_visited_rewriteVisited fcn).mpr ⟨block, hb, rfl⟩, s,
      List.mem_filter.mpr ⟨hs, ?_⟩, he⟩
    obtain ⟨v, o, rfl⟩ : ∃ v o, s = .setDropFlag f v o := by
      cases s with
      | setDropFlag idx v o =>
        cases o with
        | none =>
          simp only [Function.edits] at he
          split at he
          · obtain rfl := List.mem_singleton.mp he
            exact ⟨v, none, rfl⟩
          · cases he
        | some o =>
          obtain rfl := List.mem_singleton.mp he
          exact ⟨v, some o, rfl⟩
      | loadDropFlag idx slot bit => cases he
      | saveDropFlag slot bit idx => cases he
      | other x => cases he
    simpa [Function.keepsRead] using hf

/-- What the second round removes: writes of the default to a flag that is only reset. -/
theorem removed_onlyReset {block : BasicBlock X Y} (hb : block ∈ fcn.removeUnread.visited)
    {v : Bool} {o : Option DropFlag} (hs : Statement.setDropFlag idx v o ∈ block.statements)
    (he : fcn.removeUnread.keepsEdited (.setDropFlag idx v o : Statement X) = false) :
    idx ∈ fcn.onlyReset ∧ o = none ∧ v = fcn.default idx := by
  have hnot : idx ∉ fcn.removeUnread.editedDropFlags := by simpa [Function.keepsEdited] using he
  obtain ⟨block₀, hb₀, rfl⟩ := (mem_visited_rewriteVisited fcn).mp hb
  obtain ⟨hs₀, hkeep⟩ := List.mem_filter.mp hs
  have hread : idx ∈ fcn.readDropFlags := by simpa [Function.keepsRead] using hkeep
  have hedit (h : idx ∈ fcn.edits (.setDropFlag idx v o : Statement X)) : False :=
    hnot ((edited_removeUnread fcn hread).mpr ((mem_editedDropFlags fcn).mpr
      ⟨block₀, hb₀, _, hs₀, h⟩))
  refine ⟨List.mem_filter.mpr ⟨hread, ?_⟩, ?_⟩
  · rw [Bool.and_eq_true]
    refine ⟨?_, List.any_eq_true.mpr ⟨block₀, hb₀, List.any_eq_true.mpr ⟨_, hs₀, ?_⟩⟩⟩
    · have := fun h => hnot ((edited_removeUnread fcn hread).mpr h)
      simpa using this
    · simp [Function.sets]
  · cases o with
    | some o => exact (hedit List.mem_cons_self).elim
    | none =>
      refine ⟨rfl, ?_⟩
      by_cases hv : v = fcn.default idx
      · exact hv
      · have : idx ∈ fcn.edits (.setDropFlag idx v none : Statement X) := by
          simp [Function.edits, hv]
        exact (hedit this).elim

theorem not_onlyReset_of_kept {v : Bool} {o : Option DropFlag}
    (he : fcn.removeUnread.keepsEdited (.setDropFlag idx v o : Statement X) = true) :
    idx ∉ fcn.onlyReset := by
  intro h
  obtain ⟨hread, h⟩ := List.mem_filter.mp h
  have hedit : idx ∈ fcn.removeUnread.editedDropFlags := by simpa [Function.keepsEdited] using he
  rw [edited_removeUnread fcn hread] at hedit
  simp [hedit] at h

/-- The second round: all flags agree, and those that are only reset have their defaults. -/
theorem round_unedited : Round fcn.removeUnread fcn.removeUnread.keepsEdited fcn.onlyReset
    (fun φ ψ => φ = ψ ∧ ∀ f ∈ fcn.onlyReset, φ f = fcn.default f) where
  start := ⟨rfl, fun _ _ => rfl⟩
  reads := fun block hb s hs _ φ ψ h f hf => by rw [h.1]
  flag := fun block hb φ ψ h => by rw [h.1]
  set := fun block hb idx v hs φ ψ h => by
    obtain ⟨rfl, h⟩ := h
    split
    · rename_i he
      exact ⟨rfl, setFlag_agree_left h (not_onlyReset_of_kept fcn he) v⟩
    · rename_i he
      obtain ⟨hidx, -, rfl⟩ := removed_onlyReset fcn hb hs (Bool.eq_false_iff.mpr he)
      have hsame : setFlag φ idx (fcn.default idx) = φ := by
        funext f
        unfold setFlag
        split
        · rename_i hf
          rw [hf, h idx hidx]
        · rfl
      refine ⟨hsame, ?_⟩
      rw [hsame]
      exact h
  copy := fun block hb idx v o hs φ ψ u h => by
    obtain ⟨rfl, h⟩ := h
    split
    · rename_i he
      exact ⟨rfl, setFlag_agree_left h (not_onlyReset_of_kept fcn he) u⟩
    · rename_i he
      obtain ⟨-, ho, -⟩ := removed_onlyReset fcn hb hs (Bool.eq_false_iff.mpr he)
      cases ho
  load := fun block hb idx slot bit hs φ ψ u h => by
    obtain ⟨rfl, h⟩ := h
    rw [if_pos (show fcn.removeUnread.keepsEdited (.loadDropFlag idx slot bit) = true from rfl)]
    intro hu
    refine ⟨rfl, fun f hf => ?_⟩
    unfold setFlag
    split
    · rename_i hfi
      rw [hfi] at hf ⊢
      exact hu hf
    · exact h f hf
  keeps := fun s he => by
    cases s with
    | setDropFlag idx v o => exact Or.inl ⟨idx, v, o, rfl⟩
    | loadDropFlag idx slot bit => cases he
    | saveDropFlag slot bit idx => cases he
    | other x => cases he

/-- Executions in which each resume loads the default of a flag that is read and only ever set to
    its default read the same flag values before and after the pass, and do the same otherwise. -/
theorem deadDropFlags_reads {W : Type} (M : Machine X Y W) (w w' : W) (rs : List FlagRead) :
    (∃ c, TameRun M fcn fcn.onlyReset (fcn.entry w) rs c ∧ c.world = w') ↔
      ∃ c, TameRun M fcn.deadDropFlags fcn.onlyReset (fcn.deadDropFlags.entry w) rs c ∧
        c.world = w' := by
  by_cases hne : fcn.blocks = []
  · have hsame : fcn.deadDropFlags = fcn := by
      obtain ⟨dropFlags, blocks⟩ := fcn
      cases hne
      rfl
    rw [hsame]
  have hne₁ : fcn.removeUnread.blocks ≠ [] := by
    simpa [Function.removeUnread, Function.rewriteVisited] using hne
  constructor
  · rintro ⟨c, hrun, rfl⟩
    obtain ⟨c₁, hrun₁, hrel₁⟩ := (round_unread fcn).run_forth hne hrun
    obtain ⟨c₂, hrun₂, hrel₂⟩ := (round_unedited fcn).run_forth hne₁ hrun₁
    exact ⟨c₂, hrun₂, (hrel₁.world.trans hrel₂.world).symm⟩
  · rintro ⟨c₂, hrun₂, rfl⟩
    obtain ⟨c₁, hrun₁, hrel₂⟩ := (round_unedited fcn).run_back hne₁ hrun₂
    obtain ⟨c, hrun, hrel₁⟩ := (round_unread fcn).run_back hne hrun₁
    exact ⟨c, hrun, hrel₁.world.trans hrel₂.world⟩

end Pass

/-! ## 5. A resume that loads something else -/

/-- A resumed body: flag 0 is loaded, reset, and read by a Drop. -/
def resumed : Function Unit Unit where
  dropFlags := [false]
  blocks := [⟨[.loadDropFlag 0 (.ofSlot ⟨true, 0⟩) 0, .setDropFlag 0 false none], ⟨(), some 0, []⟩⟩]

/-- The saved bit is set; the Drop ends the execution. -/
def savedTrue : Machine Unit Unit Unit where
  stmt := fun _ _ _ => True
  save := fun _ _ _ _ _ => True
  load := fun _ _ _ => true
  leave := fun _ _ _ _ target => target = none

theorem resumed_deadDropFlags : resumed.deadDropFlags.blocks =
    [⟨[.loadDropFlag 0 (.ofSlot ⟨true, 0⟩) 0], ⟨(), some 0, []⟩⟩] := rfl

/-- The executions of the body after the pass. -/
theorem resumed_reads {rs : List FlagRead} {c : Config Unit Unit}
    (h : TameRun savedTrue resumed.deadDropFlags [] (resumed.deadDropFlags.entry ()) rs c) :
    (c.place = .inside 0 [.loadDropFlag 0 (.ofSlot ⟨true, 0⟩) 0] ∧ rs = []) ∨
      (c.place = .inside 0 [] ∧ c.flags 0 = true ∧ rs = []) ∨
      (c.place = .ended 0 ∧ rs = [⟨0, 0, true⟩]) := by
  induction h with
  | refl => exact Or.inl ⟨rfl, rfl⟩
  | @step c c' rs r _ hstep _ ih =>
    obtain ⟨place, φ, w⟩ := c
    rcases ih with ⟨hp, rfl⟩ | ⟨hp, hφ, rfl⟩ | ⟨hp, rfl⟩
    · dsimp only at hp
      subst hp
      cases hstep
      exact Or.inr (Or.inl ⟨rfl, rfl, rfl⟩)
    · dsimp only at hp hφ
      subst hp
      cases hstep with
      | jump _ _ _ h => cases h
      | exit hblock h =>
        rw [resumed_deadDropFlags] at hblock
        cases hblock
        exact Or.inr (Or.inr ⟨rfl, by simp [readsOf, hφ]⟩)
    · dsimp only at hp
      subst hp
      cases hstep

/-- The write of the default is removed though a load has changed the flag: the Drop read `false`
    and reads `true`. -/
theorem deadDropFlags_load_lost :
    ¬ ∀ rs, (∃ c, TameRun savedTrue resumed [] (resumed.entry ()) rs c) ↔
      ∃ c, TameRun savedTrue resumed.deadDropFlags [] (resumed.deadDropFlags.entry ()) rs c := by
  intro h
  have hload : TameRun savedTrue resumed [] (resumed.entry ()) []
      ⟨.inside 0 [.setDropFlag 0 false none], setFlag resumed.default 0 true, ()⟩ :=
    .one (.load 0 (.ofSlot ⟨true, 0⟩) 0) (fun hf => by cases hf)
  have hset := hload.step (.set 0 false) trivial
  have hexit := hset.step (@Step.exit Unit Unit Unit savedTrue resumed 0 _ () () _ rfl rfl) trivial
  have hbefore : ∃ c, TameRun savedTrue resumed [] (resumed.entry ()) [⟨0, 0, false⟩] c :=
    ⟨_, hexit⟩
  obtain ⟨c, hc⟩ := (h _).mp hbefore
  rcases resumed_reads hc with ⟨-, h⟩ | ⟨-, -, h⟩ | ⟨-, h⟩
  · cases h
  · cases h
  · cases h

end Trustme.Mir
