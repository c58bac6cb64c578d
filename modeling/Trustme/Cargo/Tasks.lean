/-
  Subject:   The build tasks, the order in which they are set up, and what names their results
             (src/bin/cargo/tasks.go).

  * `Task`, `TaskGraph`: a task, and the tasks that one build can reach;
  * `writeHashString`, `preimage`: the bytes which `taskUID` hashes;
  * `taskUID`: the name of a task's result;
  * `uniqueTasks`: every task that the roots need, dependencies first;
  * `dependents`, `pendings`: who waits for a task, and for how many results a task waits;
  * `taskPriorities`, `SortTasks`: which of the ready tasks goes first.

  A task is a pointer of type `τ`; what it points to is read through the graph. Of an output the
  path's stability, of a task its action and its `after` hook are left out: no function here reads
  them.
-/
import Trustme.Lib.Dag
import Mathlib.Data.Finset.Card
import Mathlib.Data.Finset.Union
import Mathlib.Data.List.Lex
import Mathlib.Data.List.Sort
import Mathlib.Data.Nat.Digits.Defs
import Mathlib.Order.Fin.Basic

namespace Trustme.Cargo

open Trustme.Lib (Dag)

/-! ## 1. Tasks -/

/-- A byte of a string. -/
abbrev Byte := Fin 256

scoped instance byteNeZero : NeZero 256 := ⟨by decide⟩
scoped instance byteLawful : LawfulBEq Byte := inferInstance

/-- A Go string: any sequence of bytes. -/
abbrev Str := List Byte

/-- The bytes of an ASCII text. -/
def ascii (s : String) : Str := s.toList.map fun c => Fin.ofNat 256 c.toNat

structure TaskOutput where
  name : Str
  tree : Bool
  executable : Bool
deriving DecidableEq

structure Task (τ : Type) where
  key : Str
  name : Str
  kind : Str
  deps : List τ
  inputs : List Str
  outputs : List TaskOutput
  signature : List Str

/-- The tasks in memory. They are built bottom up, so no chain of dependencies goes on for ever;
    one task may be the dependency of many, and several times of one. No dependency is nil. -/
structure TaskGraph (τ : Type) where
  task : τ → Task τ
  acyclic : WellFounded fun dep t => dep ∈ (task t).deps

/-- A task and its dependencies, as a graph. -/
def TaskGraph.dag {τ : Type} (g : TaskGraph τ) : Dag τ := ⟨fun t => (g.task t).deps, g.acyclic⟩

@[simp] theorem TaskGraph.dag_next {τ : Type} (g : TaskGraph τ) (t : τ) :
    g.dag.next t = (g.task t).deps := rfl

/-! ## 2. The name of a result -/

/-- Exceptions: what is thrown by a task or by reading a file, and the executor's own. -/
inductive Exception (ε : Type) where
  | thrown (e : ε)
  /-- `internal: dependency %s has no result` -/
  | noResult (name : Str)
  /-- `build graph deadlock: %d of %d tasks completed` -/
  | deadlock (completed total : Nat)

/-- What the executor is made with: the number of jobs, the digest of the program itself and of
    each file, and the hash function. -/
structure TaskExecutor (ε : Type) where
  jobs : Nat
  jobs_pos : 0 < jobs
  toolHash : Str
  digest : Str → Except ε Str
  sum256 : Str → Str

/-- `runTasks`: fewer than one job means one. -/
def clampJobs (jobs : Int) : Nat := (if jobs < 1 then 1 else jobs).toNat

theorem clampJobs_eq (jobs : Int) : (clampJobs jobs : Int) = max jobs 1 := by
  unfold clampJobs
  split <;> omega

theorem clampJobs_pos (jobs : Int) : 0 < clampJobs jobs := by
  have := clampJobs_eq jobs
  omega

/-- `runTasks` up to its call of `run`. -/
def makeExecutor {ε : Type} (jobs : Int) (toolHash : Str) (digest : Str → Except ε Str)
    (sum256 : Str → Str) : TaskExecutor ε where
  jobs := clampJobs jobs
  jobs_pos := clampJobs_pos jobs
  toolHash := toolHash
  digest := digest
  sum256 := sum256

def taskCacheVersion : Str := ascii "cargo-cas-v2"

/-- A number in base ten: `%d`. -/
def decimal (n : Nat) : Str := (Nat.toDigits 10 n).map fun c => Fin.ofNat 256 c.toNat

/-- What is written for one string: its length, a colon, and its bytes. -/
def writeHashString (value : Str) : Str := decimal value.length ++ ascii ":" ++ value

/-- The two flags of an output: `%t:%t`. -/
def outputFlags (o : TaskOutput) : Str :=
  ascii (toString o.tree) ++ ascii ":" ++ ascii (toString o.executable)

/-- `sort.Strings`. -/
def sortStrings (l : List Str) : List Str := l.insertionSort (· ≤ ·)

/-- Each input in order, with the digest of its file. -/
def digests {ε : Type} (ex : TaskExecutor ε) (inputs : List Str) : Except ε (List (Str × Str)) :=
  (sortStrings inputs).mapM fun input => do
    let value ← ex.digest input
    return (input, value)

/-- All the strings that are hashed, one after the other. -/
def hashedStrings (toolHash key kind : Str) (signature deps : List Str)
    (inputs : List (Str × Str)) (outputs : List TaskOutput) : List Str :=
  [taskCacheVersion, toolHash, key, kind] ++ signature ++ deps ++
    inputs.flatMap (fun p => [p.1, p.2]) ++ outputs.flatMap (fun o => [o.name, outputFlags o])

/-- The bytes that are hashed. -/
def preimage (strings : List Str) : Str := strings.flatMap writeHashString

/-- Base64 with the alphabet for URLs and without padding. -/
def base64URL : Str → Str
  | [] => []
  | [a] => [digit (a.val / 4), digit (a.val % 4 * 16)]
  | [a, b] =>
    [digit (a.val / 4), digit (a.val % 4 * 16 + b.val / 16), digit (b.val % 16 * 4)]
  | a :: b :: c :: rest =>
    digit (a.val / 4) :: digit (a.val % 4 * 16 + b.val / 16) ::
      digit (b.val % 16 * 4 + c.val / 64) :: digit (c.val % 64) :: base64URL rest
where
  digit (n : Nat) : Byte :=
    (ascii "ABCDEFGHIJKLMNOPQRSTUVWXYZabcdefghijklmnopqrstuvwxyz0123456789-_").getD n 0

/-- The results that the dependencies have, where they have one. -/
def depUids {τ ε : Type} (g : TaskGraph τ) (state : τ → Option Str) (deps : List τ) :
    Except (Exception ε) (List Str) :=
  deps.mapM fun dep =>
    match state dep with
    | none => .error (.noResult (g.task dep).name)
    | some uid => .ok uid

/-- The bytes that `taskUID` feeds to its hash. -/
def taskPreimage {τ ε : Type} (ex : TaskExecutor ε) (g : TaskGraph τ) (state : τ → Option Str)
    (t : τ) : Except (Exception ε) Str := do
  let task := g.task t
  let deps ← depUids g state task.deps
  let inputs ← (digests ex task.inputs).mapError .thrown
  return preimage (hashedStrings ex.toolHash task.key task.kind task.signature deps inputs
    task.outputs)

def taskUID {τ ε : Type} (ex : TaskExecutor ε) (g : TaskGraph τ) (state : τ → Option Str)
    (t : τ) : Except (Exception ε) Str := do
  let bytes ← taskPreimage ex g state t
  return base64URL ((ex.sum256 bytes).take 16)

/-! ## 3. The tasks in order -/

section Order

variable {τ : Type} [DecidableEq τ]

/-- `visit` of `uniqueTasks`, on the tasks seen and the result so far. -/
def visit (g : Dag τ) (acc : List τ × List τ) (task : τ) : List τ × List τ :=
  if task ∈ acc.1 then acc
  else
    let inner := (g.next task).foldl (fun acc dep => visit g acc dep) (task :: acc.1, acc.2)
    (inner.1, inner.2 ++ [task])
termination_by g.acyclic.wrap task

/-- Every task that the roots need. A root may be nil. -/
def uniqueTasks (g : TaskGraph τ) (roots : List (Option τ)) : List τ :=
  (roots.foldl (fun acc root =>
    match root with
    | none => acc
    | some task => visit g.dag acc task) ([], [])).2

/-- Who waits for a task, as often as it does. -/
def dependents (g : TaskGraph τ) (unique : List τ) : τ → List τ :=
  unique.foldl (fun m task => (g.task task).deps.foldl (fun m dep =>
    Function.update m dep (m dep ++ [task])) m) fun _ => []

/-- For how many results a task waits. -/
def pendings (g : TaskGraph τ) (unique : List τ) : τ → Int :=
  unique.foldl (fun m task => Function.update m task (g.task task).deps.length) fun _ => 0

/-- The names of the results of all tasks, set one after the other. -/
def taskStates {ε : Type} (ex : TaskExecutor ε) (g : TaskGraph τ) (unique : List τ)
    (state : τ → Option Str) : Except (Exception ε) (τ → Option Str) :=
  unique.foldlM (fun state task => do
    let uid ← taskUID ex g state task
    return Function.update state task (some uid)) state

/-- `collect` of `taskPriorities`: the tasks that wait for this one, directly or behind another,
    kept in `reach` once they are known. -/
def collect (waiting : Dag τ) (reach : τ → Option (Finset τ)) (task : τ) :
    (τ → Option (Finset τ)) × Finset τ :=
  match reach task with
  | some set => (reach, set)
  | none =>
    let inner := (waiting.next task).foldl (fun acc next =>
      let found := collect waiting acc.1 next
      (found.1, insert next acc.2 ∪ found.2)) (reach, ∅)
    (Function.update inner.1 task (some inner.2), inner.2)
termination_by waiting.acyclic.wrap task

def taskPriorities (waiting : Dag τ) (tasks : List τ) : τ → Nat :=
  (tasks.foldl (fun acc task =>
    let found := collect waiting acc.1 task
    (found.1, Function.update acc.2 task (1 + found.2.card)))
    ((fun _ => none : τ → Option (Finset τ)), (fun _ => 0 : τ → Nat))).2

/-- The order of `sortTasks`: more to wait for it, then the key. -/
def goesBefore (g : TaskGraph τ) (priority : τ → Nat) (a b : τ) : Bool :=
  if priority a ≠ priority b then priority a > priority b
  else (g.task a).key < (g.task b).key

/-- What `sort.Slice` promises: the same tasks, none in front of one which goes before it. Tasks
    that are equal for the order may end up either way. -/
def SortTasks (g : TaskGraph τ) (priority : τ → Nat) (l l' : List τ) : Prop :=
  l'.Perm l ∧ l'.Pairwise fun a b => goesBefore g priority b a = false

end Order

end Trustme.Cargo
