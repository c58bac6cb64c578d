/-
  Subject:   The control flow of a MIR function, and its drop flags: what the passes over drop flags
             look at, and how such a function is executed.

  * `Statement`, `Terminator`, `Function`: the drop-flag statements and the targets, all else kept
    as it is;
  * `visitBlocks`: the blocks that `visitBlocks` of the passes calls its callback for;
  * `Machine`, `Step`: executions, with the flag reads of Drop and Switch as events.
-/
import Trustme.Lib.Explore
import Trustme.Lowering.DropCode

namespace Trustme.Mir

open Lowering (LValue DropFlag)

/-! ## 1. Functions -/

/-- `MIRStatement`. An `other` of `none` is the source's `~0u`. -/
inductive Statement (X : Type) where
  | setDropFlag (idx : DropFlag) (newVal : Bool) (other : Option DropFlag)
  | saveDropFlag (slot : LValue) (bitIndex : Nat) (idx : DropFlag)
  | loadDropFlag (idx : DropFlag) (slot : LValue) (bitIndex : Nat)
  | other (stmt : X)
  deriving Repr

/-- `MIRTerminator`: the flag that a Drop or a Switch reads, and the blocks it may go on at. -/
structure Terminator (Y : Type) where
  body : Y
  flag : Option DropFlag
  targets : List Nat
  deriving Repr

structure BasicBlock (X Y : Type) where
  statements : List (Statement X)
  terminator : Terminator Y
  deriving Repr

structure Function (X Y : Type) where
  dropFlags : List Bool
  blocks : List (BasicBlock X Y)
  deriving Repr

namespace Function

variable {X Y : Type} (fcn : Function X Y)

/-- The default of a drop flag. -/
def default (idx : DropFlag) : Bool := fcn.dropFlags.getD idx false

def succ (bb : Nat) : List Nat :=
  match fcn.blocks[bb]? with
  | some block => block.terminator.targets
  | none => []

/-- The blocks the passes visit. -/
def visitBlocks : List Nat := Lib.explore fcn.succ (Lib.searchFuel fcn.succ fcn.blocks.length) [0]
    []

theorem mem_visitBlocks_iff (bb : Nat) :
    bb ∈ fcn.visitBlocks ↔ Relation.ReflTransGen (fun a b => b ∈ fcn.succ a) 0 bb := by
  refine Lib.mem_explore_iff (fun v hv => ?_) bb
  unfold succ
  rw [List.getElem?_eq_none hv]

/-- A pass that rewrites the statements of the visited blocks. -/
def rewriteVisited (edit : Statement X → Bool) : Function X Y :=
  { fcn with
    blocks := fcn.blocks.mapIdx fun bb block =>
      if bb ∈ fcn.visitBlocks then { block with statements := block.statements.filter edit }
      else block }

theorem rewriteVisited_block (edit : Statement X → Bool) {bb : Nat} {block : BasicBlock X Y}
    (hbb : bb ∈ fcn.visitBlocks) (h : fcn.blocks[bb]? = some block) :
    (fcn.rewriteVisited edit).blocks[bb]? =
      some { block with statements := block.statements.filter edit } := by
  simp [rewriteVisited, h, hbb]

/-- The rewriting leaves the targets alone. -/
theorem succ_rewriteVisited (edit : Statement X → Bool) :
    (fcn.rewriteVisited edit).succ = fcn.succ := by
  funext bb
  unfold succ rewriteVisited
  rw [List.getElem?_mapIdx]
  cases fcn.blocks[bb]? with
  | none => rfl
  | some block =>
    dsimp only [Option.map_some]
    split <;> rfl

theorem visitBlocks_rewriteVisited (edit : Statement X → Bool) :
    (fcn.rewriteVisited edit).visitBlocks = fcn.visitBlocks := by
  unfold visitBlocks
  rw [succ_rewriteVisited]
  simp [rewriteVisited]

theorem zero_mem_visitBlocks : 0 ∈ fcn.visitBlocks :=
  (fcn.mem_visitBlocks_iff 0).mpr .refl

theorem target_mem_visitBlocks {bb target : Nat} {block : BasicBlock X Y}
    (hbb : bb ∈ fcn.visitBlocks) (h : fcn.blocks[bb]? = some block)
    (ht : target ∈ block.terminator.targets) : target ∈ fcn.visitBlocks := by
  refine (fcn.mem_visitBlocks_iff target).mpr (((fcn.mem_visitBlocks_iff bb).mp hbb).tail ?_)
  rw [succ, h]
  exact ht

end Function

/-! ## 2. Executions -/

/-- What everything but the drop flags does: the statements, the bits of a saved flag, and the
    terminators, which may depend on the flag they read. -/
structure Machine (X Y W : Type) where
  stmt : X → W → W → Prop
  save : LValue → Nat → Bool → W → W → Prop
  load : LValue → Nat → W → Bool
  leave : Y → Option Bool → W → W → Option Nat → Prop

/-- Where an execution is: in block `bb` with the statements that are left, or at an end after the
    terminator of `bb`. -/
inductive Place (X : Type) where
  | inside (bb : Nat) (rest : List (Statement X))
  | ended (bb : Nat)
  deriving Repr

structure Config (X W : Type) where
  place : Place X
  flags : DropFlag → Bool
  world : W

/-- A Drop or a Switch of block `bb` reads the flag. -/
structure FlagRead where
  bb : Nat
  flag : DropFlag
  value : Bool
  deriving DecidableEq, Repr

def setFlag (flags : DropFlag → Bool) (idx : DropFlag) (v : Bool) : DropFlag → Bool :=
  fun f => if f = idx then v else flags f

section Step

variable {X Y W : Type} (M : Machine X Y W) (fcn : Function X Y)

/-- The reads of a terminator. -/
def readsOf (bb : Nat) (flag : Option DropFlag) (flags : DropFlag → Bool) : List FlagRead :=
  match flag with
  | none => []
  | some f => [⟨bb, f, flags f⟩]

/-- One step of an execution, with the flags it reads at a terminator. -/
inductive Step : Config X W → List FlagRead → Config X W → Prop where
  | set {bb rest flags w} (idx : DropFlag) (v : Bool) :
      Step ⟨.inside bb (.setDropFlag idx v none :: rest), flags, w⟩ []
        ⟨.inside bb rest, setFlag flags idx v, w⟩
  | copy {bb rest flags w} (idx : DropFlag) (v : Bool) (o : DropFlag) :
      Step ⟨.inside bb (.setDropFlag idx v (some o) :: rest), flags, w⟩ []
        ⟨.inside bb rest, setFlag flags idx (v != flags o), w⟩
  | save {bb rest flags w w'} (slot : LValue) (bit : Nat) (idx : DropFlag)
      (h : M.save slot bit (flags idx) w w') :
      Step ⟨.inside bb (.saveDropFlag slot bit idx :: rest), flags, w⟩ []
        ⟨.inside bb rest, flags, w'⟩
  | load {bb rest flags w} (idx : DropFlag) (slot : LValue) (bit : Nat) :
      Step ⟨.inside bb (.loadDropFlag idx slot bit :: rest), flags, w⟩ []
        ⟨.inside bb rest, setFlag flags idx (M.load slot bit w), w⟩
  | stmt {bb rest flags w w'} (x : X) (h : M.stmt x w w') :
      Step ⟨.inside bb (.other x :: rest), flags, w⟩ [] ⟨.inside bb rest, flags, w'⟩
  | jump {bb flags w w' block block' target} (hblock : fcn.blocks[bb]? = some block)
      (hblock' : fcn.blocks[target]? = some block') (htarget : target ∈ block.terminator.targets)
      (h : M.leave block.terminator.body (block.terminator.flag.map flags) w w' (some target)) :
      Step ⟨.inside bb [], flags, w⟩ (readsOf bb block.terminator.flag flags)
        ⟨.inside target block'.statements, flags, w'⟩
  | exit {bb flags w w' block} (hblock : fcn.blocks[bb]? = some block)
      (h : M.leave block.terminator.body (block.terminator.flag.map flags) w w' none) :
      Step ⟨.inside bb [], flags, w⟩ (readsOf bb block.terminator.flag flags) ⟨.ended bb, flags, w'⟩

/-- The start of the function: the drop flags have their defaults. -/
def Function.entry (w : W) : Config X W :=
  ⟨.inside 0 ((fcn.blocks[0]?.map (·.statements)).getD []), fcn.default, w⟩

end Step

end Trustme.Mir
