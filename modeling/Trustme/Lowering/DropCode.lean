/-
  Subject:   The code `MirBuilder` emits to drop a value, and which drops it performs.

  * `LValue`, `valType`: places by their root and wrappers, and their types;
  * `DropStep`: a drop terminator, the loop over array elements, the switch over variants;
  * `DropEnv`, `runSteps`: the drops that are performed, in order, each with its unwind action;
  * `CleanupBlock`, `runCleanup`: the cleanup blocks that an unwind action leads to.
-/
import Trustme.Lowering.VarState

namespace Trustme.Lowering

/-! ## 1. Places -/

/-- `ScopeDropSlot`: an argument or a local. -/
structure ScopeDropSlot where
  isArgument : Bool
  index : Nat
  deriving DecidableEq, Repr

/-- `MIRLValue::Storage`. -/
inductive Storage where
  | returned
  | slot (slot : ScopeDropSlot)
  | global (path : String)
  deriving DecidableEq, Repr

/-- `MIRLValue::Wrapper`. -/
inductive Wrapper where
  | field (fieldIndex : Nat)
  | deref
  | index (idxLocal : Nat)
  | downcast (variantIndex : Nat)
  deriving DecidableEq, Repr

structure LValue where
  root : Storage
  wrappers : List Wrapper
  deriving DecidableEq, Repr

namespace LValue

def ofSlot (slot : ScopeDropSlot) : LValue := ⟨.slot slot, []⟩

def wrap (lv : LValue) (w : Wrapper) : LValue := ⟨lv.root, lv.wrappers ++ [w]⟩

def newField (lv : LValue) (fieldIndex : Nat) : LValue := lv.wrap (.field fieldIndex)

def newDeref (lv : LValue) : LValue := lv.wrap .deref

def newIndex (lv : LValue) (idxLocal : Nat) : LValue := lv.wrap (.index idxLocal)

def newDowncast (lv : LValue) (variantIndex : Nat) : LValue := lv.wrap (.downcast variantIndex)

end LValue

section Types

variable {Ty : Type} (tt : TypeTable Ty) (rootTy : Storage → Ty)

/-- The type behind a wrapper. -/
def wrapperType (ty : Ty) : Wrapper → Ty
  | .field fieldIndex => tt.field ty fieldIndex
  | .deref => tt.pointee ty
  | .index _ => tt.field ty 0
  | .downcast variantIndex => tt.variant ty variantIndex

def valType (lv : LValue) : Ty := lv.wrappers.foldl (wrapperType tt) (rootTy lv.root)

@[simp] theorem valType_ofSlot (slot : ScopeDropSlot) :
    valType tt rootTy (.ofSlot slot) = rootTy (.slot slot) := rfl

theorem valType_wrap (lv : LValue) (w : Wrapper) :
    valType tt rootTy (lv.wrap w) = wrapperType tt (valType tt rootTy lv) w := by
  simp [valType, LValue.wrap, List.foldl_append]

end Types

/-! ## 2. What is run -/

inductive DropKind where
  | shallow
  | deep
  deriving DecidableEq, Repr

/-- The unwind actions of the drops and calls of a body. -/
inductive UnwindAction where
  | terminate
  | cleanup (block : Nat)
  deriving DecidableEq, Repr

/-- A piece of straight code that drops: a drop terminator, the loop of `emitArrayElementDropLoop`,
    a switch over the variants of an enum (an arm without code goes on at once), and the assignment
    on the unwind edge of `assignReplacing`. -/
inductive DropStep where
  | drop (kind : DropKind) (val : LValue) (flag : Option DropFlag) (unwind : UnwindAction)
  | elements (arrLv : LValue) (idxLocal start stop : Nat) (flag : Option DropFlag)
      (unwind : UnwindAction)
  | switch (val : LValue) (flag : Option DropFlag) (arms : List (List DropStep))
  | assign (dst src : LValue)
  deriving Repr

/-- A step from a value to a part of it, when the code is run. -/
inductive Step where
  | field (i : Nat)
  | variant (i : Nat)
  | deref
  deriving DecidableEq, Repr

/-- What a run of the code finds: the drop flags, the active variants, the index locals. -/
structure DropEnv where
  flags : DropFlag → Bool
  disc : Storage → List Step → Nat
  locals : Nat → Nat

namespace DropEnv

variable (env : DropEnv)

def step : Wrapper → Step
  | .field fieldIndex => .field fieldIndex
  | .deref => .deref
  | .index idxLocal => .field (env.locals idxLocal)
  | .downcast variantIndex => .variant variantIndex

/-- The place an lvalue stands for. -/
def path (lv : LValue) : List Step := lv.wrappers.map env.step

@[simp] theorem path_ofSlot (slot : ScopeDropSlot) : env.path (.ofSlot slot) = [] := rfl

theorem path_wrap (lv : LValue) (w : Wrapper) :
    env.path (lv.wrap w) = env.path lv ++ [env.step w] := by
  simp [path, LValue.wrap]

/-- Whether a drop under the flag is performed. -/
def taken (flag : Option DropFlag) : Bool := (outerSource flag).read env.flags

end DropEnv

/-- A drop that is performed. -/
structure Dropped where
  root : Storage
  kind : DropKind
  path : List Step
  deriving DecidableEq, Repr

/-- A drop that is performed, with the action of its terminator should it unwind. -/
structure Event where
  dropped : Dropped
  unwind : UnwindAction
  deriving DecidableEq, Repr

mutual

def DropStep.run (env : DropEnv) : DropStep → List Event
  | .drop kind val flag unwind =>
    if env.taken flag then [⟨⟨val.root, kind, env.path val⟩, unwind⟩] else []
  | .elements arrLv _ start stop flag unwind =>
    if env.taken flag then
      (List.range' start (stop - start)).map fun i =>
        ⟨⟨arrLv.root, .deep, env.path arrLv ++ [.field i]⟩, unwind⟩
    else []
  | .switch val flag arms =>
    if env.taken flag then runArm env arms (env.disc val.root (env.path val)) else []
  | .assign _ _ => []

def runSteps (env : DropEnv) : List DropStep → List Event
  | [] => []
  | s :: ss => s.run env ++ runSteps env ss

def runArm (env : DropEnv) : List (List DropStep) → Nat → List Event
  | [], _ => []
  | arm :: _, 0 => runSteps env arm
  | _ :: arms, i + 1 => runArm env arms i

end

theorem runSteps_append (env : DropEnv) : ∀ (ss ts : List DropStep),
    runSteps env (ss ++ ts) = runSteps env ss ++ runSteps env ts
  | [], ts => by simp [runSteps]
  | s :: ss, ts => by
    rw [List.cons_append, runSteps, runSteps, runSteps_append env ss ts, List.append_assoc]

theorem runSteps_singleton (env : DropEnv) (s : DropStep) : runSteps env [s] = s.run env := by
  simp [runSteps]

theorem runArm_eq (env : DropEnv) : ∀ (arms : List (List DropStep)) (i : Nat),
    runArm env arms i = runSteps env (arms.getD i [])
  | [], i => by simp [runArm, runSteps]
  | arm :: arms, 0 => by simp [runArm]
  | arm :: arms, i + 1 => by
    rw [runArm, runArm_eq env arms i]
    simp

/-! ## 3. Cleanup blocks -/

/-- A cleanup block: its code, and the block it continues at (`UnwindResume` without one). -/
structure CleanupBlock where
  code : List DropStep
  next : Option Nat
  deriving Repr

/-- The drops from a cleanup block to `UnwindResume`, through a number of blocks. -/
def runCleanup (env : DropEnv) (blocks : List CleanupBlock) : Nat → Nat → Option (List Event)
  | 0, _ => none
  | n + 1, block =>
    match blocks[block]? with
    | none => none
    | some b =>
      match b.next with
      | none => some (runSteps env b.code)
      | some target => (runCleanup env blocks n target).map (runSteps env b.code ++ ·)

/-- More blocks may be run through, and more blocks be there. -/
theorem runCleanup_mono {env : DropEnv} {blocks blocks' : List CleanupBlock}
    (hb : blocks <+: blocks') : ∀ {n m block : Nat} {es : List Event}, n ≤ m →
      runCleanup env blocks n block = some es → runCleanup env blocks' m block = some es
  | n + 1, m + 1, block, es, hnm, h => by
    rw [runCleanup] at h ⊢
    cases hblock : blocks[block]? with
    | none => simp [hblock] at h
    | some b =>
      have hlt : block < blocks.length := (List.getElem?_eq_some_iff.mp hblock).1
      have hblock' : blocks'[block]? = some b := by
        obtain ⟨more, rfl⟩ := hb
        rw [List.getElem?_append_left hlt, hblock]
      rw [hblock] at h
      rw [hblock']
      dsimp only at h ⊢
      cases hnext : b.next with
      | none => rwa [hnext] at h
      | some target =>
        rw [hnext] at h
        dsimp only at h ⊢
        obtain ⟨rest, hrest, rfl⟩ := Option.map_eq_some_iff.mp h
        rw [runCleanup_mono hb (Nat.le_of_succ_le_succ hnm) hrest]
        rfl

/-- What the cleanup from a block drops. -/
def Unwinds (env : DropEnv) (blocks : List CleanupBlock) (block : Nat) (ds : List Dropped) : Prop :=
  ∃ n es, runCleanup env blocks n block = some es ∧ es.map Event.dropped = ds

theorem Unwinds.mono {env : DropEnv} {blocks blocks' : List CleanupBlock} {block : Nat}
    {ds : List Dropped} (hb : blocks <+: blocks') (h : Unwinds env blocks block ds) :
    Unwinds env blocks' block ds := by
  obtain ⟨n, es, h, hds⟩ := h
  exact ⟨n, es, runCleanup_mono hb (Nat.le_refl n) h, hds⟩

theorem Unwinds.last {env : DropEnv} {blocks : List CleanupBlock} {block : Nat}
    {code : List DropStep} (h : blocks[block]? = some ⟨code, none⟩) :
    Unwinds env blocks block ((runSteps env code).map Event.dropped) := by
  refine ⟨1, _, ?_, rfl⟩
  rw [runCleanup, h]

theorem Unwinds.next {env : DropEnv} {blocks : List CleanupBlock} {block target : Nat}
    {code : List DropStep} {ds : List Dropped} (h : blocks[block]? = some ⟨code, some target⟩)
    (ht : Unwinds env blocks target ds) :
    Unwinds env blocks block ((runSteps env code).map Event.dropped ++ ds) := by
  obtain ⟨n, es, hrun, rfl⟩ := ht
  refine ⟨n + 1, runSteps env code ++ es, ?_, List.map_append⟩
  rw [runCleanup, h]
  dsimp only
  rw [hrun]
  rfl

end Trustme.Lowering
