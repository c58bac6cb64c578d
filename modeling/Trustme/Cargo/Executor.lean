/-
  Subject:   `TaskExecutor.run`: one loop that starts tasks and receives their results, and the
             tasks themselves, each on a goroutine of its own (src/bin/cargo/tasks.go).

  * `Plan`, `TaskExecutor.prepare`: what `run` sets up before its loop;
  * `Exec`, `Place`: the loop's variables, the goroutines and the channel;
  * `Step`: one step of the loop or of a goroutine;
  * `Runs`: the runs, with what happened in them;
  * `release_snd`: who becomes ready when a result arrives.

  The steps of the goroutines and of the loop come in any order. A task ends in any way: with or
  without an exception. (`try` lets no other panic pass the executor: it ends the process.)
-/
import Trustme.Cargo.TaskOrder

namespace Trustme.Cargo

open Trustme.Lib (Dag)

variable {τ ε : Type}

/-! ## 1. The set-up -/

structure TaskResult (τ ε : Type) where
  task : τ
  err : Option ε

structure Plan (τ : Type) where
  unique : List τ
  dependents : τ → List τ
  pending : τ → Int
  priority : τ → Nat

/-- `run` up to its loop. It throws what `taskUID` throws. -/
def TaskExecutor.prepare [DecidableEq τ] (ex : TaskExecutor ε) (g : TaskGraph τ)
    (roots : List (Option τ)) (state : τ → Option Str) : Except (Exception ε) (Plan τ) := do
  let unique := uniqueTasks g roots
  let _ ← taskStates ex g unique state
  return { unique := unique
           dependents := (waiting g roots).next
           pending := pendings g unique
           priority := taskPriorities (waiting g roots) unique }

/-! ## 2. The loop and the goroutines -/

/-- Where the loop is. -/
inductive Place (ε : Type) where
  /-- At the condition of the outer loop. -/
  | loop
  /-- At the condition of the inner loop, which starts tasks. -/
  | fill
  /-- Waiting for a result. -/
  | wait
  /-- Behind the outer loop. -/
  | drain
  /-- Out of `run`, with or without an exception. -/
  | ended (thrown : Option (Exception ε))

structure Exec (τ ε : Type) where
  place : Place ε
  pending : τ → Int
  ready : List τ
  running : Nat
  completed : Nat
  failed : Bool
  first : Option ε
  /-- The goroutines whose task has not ended. -/
  executing : List τ
  /-- The results in the channel, the oldest first. -/
  results : List (TaskResult τ ε)

/-- What happens: the loop starts a task, a task ends and its goroutine sends the result, the loop
    receives it. -/
inductive Event (τ ε : Type) where
  | start (t : τ)
  | finish (t : τ) (err : Option ε)
  | receive (t : τ) (err : Option ε)

/-- The loop over the tasks that wait for a result: the new counters and the new ready list. -/
def release [DecidableEq τ] (pending : τ → Int) (ready : List τ) (nexts : List τ) :
    (τ → Int) × List τ :=
  nexts.foldl (fun acc next =>
    let pending := Function.update acc.1 next (acc.1 next - 1)
    (pending, if pending next = 0 then acc.2 ++ [next] else acc.2)) (pending, ready)

/-- Where the loop goes when it can start no task. -/
def afterFill (plan : Plan τ) (s : Exec τ ε) : Place ε :=
  if s.running = 0 then
    if s.failed then .drain
    else .ended (some (.deadlock s.completed plan.unique.length))
  else .wait

/-- How many steps the loop can take before it waits. -/
def Place.rank : Place ε → Nat
  | .loop => 3
  | .fill => 2
  | .wait => 0
  | .drain => 1
  | .ended _ => 0

theorem afterFill_rank (plan : Plan τ) (s : Exec τ ε) : (afterFill plan s).rank ≤ 1 := by
  unfold afterFill
  split
  · split <;> simp [Place.rank]
  · simp [Place.rank]

section Machine

variable [DecidableEq τ]

/-- One step. -/
inductive Step (ex : TaskExecutor ε) (g : TaskGraph τ) (plan : Plan τ) :
    Exec τ ε → Option (Event τ ε) → Exec τ ε → Prop where
  | again (s : Exec τ ε) (hp : s.place = .loop) (hc : s.completed < plan.unique.length) :
      Step ex g plan s none { s with place := .fill }
  | leave (s : Exec τ ε) (hp : s.place = .loop) (hc : ¬ s.completed < plan.unique.length) :
      Step ex g plan s none { s with place := .drain }
  | start (s : Exec τ ε) (t : τ) (rest : List τ) (hp : s.place = .fill) (hf : s.failed = false)
      (hr : s.running < ex.jobs) (hq : s.ready = t :: rest) :
      Step ex g plan s (some (.start t))
        { s with ready := rest, running := s.running + 1, executing := s.executing ++ [t] }
  | filled (s : Exec τ ε) (hp : s.place = .fill)
      (hn : ¬ (s.failed = false ∧ s.running < ex.jobs ∧ s.ready ≠ [])) :
      Step ex g plan s none { s with place := afterFill plan s }
  | success (s : Exec τ ε) (t : τ) (rest : List (TaskResult τ ε)) (ready : List τ)
      (hp : s.place = .wait) (hq : s.results = ⟨t, none⟩ :: rest)
      (hs : SortTasks g plan.priority (release s.pending s.ready (plan.dependents t)).2 ready) :
      Step ex g plan s (some (.receive t none))
        { s with place := .loop, results := rest, running := s.running - 1,
                 completed := s.completed + 1,
                 pending := (release s.pending s.ready (plan.dependents t)).1, ready := ready }
  | failure (s : Exec τ ε) (t : τ) (e : ε) (rest : List (TaskResult τ ε)) (hp : s.place = .wait)
      (hq : s.results = ⟨t, some e⟩ :: rest) :
      Step ex g plan s (some (.receive t (some e)))
        { s with place := .loop, results := rest, running := s.running - 1,
                 completed := s.completed + 1, failed := true, first := s.first.or (some e) }
  | drainOne (s : Exec τ ε) (r : TaskResult τ ε) (rest : List (TaskResult τ ε))
      (hp : s.place = .drain) (hr : 0 < s.running) (hq : s.results = r :: rest) :
      Step ex g plan s (some (.receive r.task r.err))
        { s with results := rest, running := s.running - 1, first := s.first.or r.err }
  | drained (s : Exec τ ε) (hp : s.place = .drain) (hr : ¬ 0 < s.running) :
      Step ex g plan s none { s with place := .ended (s.first.map .thrown) }
  | finish (s : Exec τ ε) (t : τ) (err : Option ε) (ht : t ∈ s.executing)
      (hroom : s.results.length < ex.jobs) :
      Step ex g plan s (some (.finish t err))
        { s with executing := s.executing.erase t, results := s.results ++ [⟨t, err⟩] }

/-- What the loop begins with, when its first ready list has been sorted. -/
def Exec.begin (plan : Plan τ) (ready : List τ) : Exec τ ε where
  place := .loop
  pending := plan.pending
  ready := ready
  running := 0
  completed := 0
  failed := false
  first := none
  executing := []
  results := []

/-- The runs, with their events in order. -/
inductive Runs (ex : TaskExecutor ε) (g : TaskGraph τ) (plan : Plan τ) :
    List (Event τ ε) → Exec τ ε → Prop where
  | begin (ready : List τ) (hs : SortTasks g plan.priority
      (plan.unique.filter fun t => plan.pending t = 0) ready) :
      Runs ex g plan [] (Exec.begin plan ready)
  | step (tr : List (Event τ ε)) (s s' : Exec τ ε) (e : Option (Event τ ε))
      (h : Runs ex g plan tr s) (hs : Step ex g plan s e s') : Runs ex g plan (tr ++ e.toList) s'

end Machine

/-! ## 3. What has happened -/

/-- The tasks that were started, in order. -/
def started (tr : List (Event τ ε)) : List τ :=
  tr.filterMap fun
    | .start t => some t
    | _ => none

/-- The results that were sent, in order. -/
def finished (tr : List (Event τ ε)) : List (TaskResult τ ε) :=
  tr.filterMap fun
    | .finish t err => some ⟨t, err⟩
    | _ => none

/-- The results that were received, in order. -/
def received (tr : List (Event τ ε)) : List (TaskResult τ ε) :=
  tr.filterMap fun
    | .receive t err => some ⟨t, err⟩
    | _ => none

/-- The tasks whose result was received and is a success. -/
def succeeded (tr : List (Event τ ε)) : List τ :=
  tr.filterMap fun
    | .receive t none => some t
    | _ => none

section Events

variable (tr : List (Event τ ε)) (t : τ) (err : Option ε)

@[simp] theorem started_start : started (tr ++ [.start t]) = started tr ++ [t] := by
  simp [started]

@[simp] theorem started_finish : started (tr ++ [.finish t err]) = started tr := by
  simp [started]

@[simp] theorem started_receive : started (tr ++ [.receive t err]) = started tr := by
  simp [started]

@[simp] theorem finished_start : finished (tr ++ [.start t]) = finished tr := by
  simp [finished]

@[simp] theorem finished_finish : finished (tr ++ [.finish t err]) = finished tr ++ [⟨t, err⟩] := by
  simp [finished]

@[simp] theorem finished_receive : finished (tr ++ [.receive t err]) = finished tr := by
  simp [finished]

@[simp] theorem received_start : received (tr ++ [.start t]) = received tr := by
  simp [received]

@[simp] theorem received_finish : received (tr ++ [.finish t err]) = received tr := by
  simp [received]

@[simp] theorem received_receive :
    received (tr ++ [.receive t err]) = received tr ++ [⟨t, err⟩] := by
  simp [received]

@[simp] theorem succeeded_start : succeeded (tr ++ [.start t]) = succeeded tr := by
  simp [succeeded]

@[simp] theorem succeeded_finish : succeeded (tr ++ [.finish t err]) = succeeded tr := by
  simp [succeeded]

@[simp] theorem succeeded_success :
    succeeded (tr ++ [.receive t (none : Option ε)]) = succeeded tr ++ [t] := by
  simp [succeeded]

@[simp] theorem succeeded_failure (e : ε) :
    succeeded (tr ++ [.receive t (some e)]) = succeeded tr := by
  simp [succeeded]

end Events

variable {tr : List (Event τ ε)}

theorem mem_started {t : τ} : t ∈ started tr ↔ .start t ∈ tr := by
  unfold started
  rw [List.mem_filterMap]
  constructor
  · intro ⟨e, he, h⟩
    split at h
    · cases h
      exact he
    · cases h
  · exact fun h => ⟨_, h, rfl⟩

theorem mem_finished {r : TaskResult τ ε} :
    r ∈ finished tr ↔ .finish r.task r.err ∈ tr := by
  unfold finished
  rw [List.mem_filterMap]
  constructor
  · intro ⟨e, he, h⟩
    split at h
    · cases h
      exact he
    · cases h
  · exact fun h => ⟨_, h, rfl⟩

theorem mem_received {r : TaskResult τ ε} :
    r ∈ received tr ↔ .receive r.task r.err ∈ tr := by
  unfold received
  rw [List.mem_filterMap]
  constructor
  · intro ⟨e, he, h⟩
    split at h
    · cases h
      exact he
    · cases h
  · exact fun h => ⟨_, h, rfl⟩

theorem mem_succeeded {t : τ} :
    t ∈ succeeded tr ↔ .receive t none ∈ tr := by
  unfold succeeded
  rw [List.mem_filterMap]
  constructor
  · intro ⟨e, he, h⟩
    split at h
    · cases h
      exact he
    · cases h
  · exact fun h => ⟨_, h, rfl⟩

/-- A task that succeeded is one whose result was received. -/
theorem succeeded_subset {t : τ} (h : t ∈ succeeded tr) :
    t ∈ (received tr).map (·.task) :=
  List.mem_map.2 ⟨⟨t, none⟩, mem_received.2 (mem_succeeded.1 h), rfl⟩

/-! ## 4. Who becomes ready -/

section Release

variable [DecidableEq τ]

theorem release_cons (pending : τ → Int) (ready : List τ) (n : τ) (nexts : List τ) :
    release pending ready (n :: nexts) =
      release (Function.update pending n (pending n - 1))
        (if pending n - 1 = 0 then ready ++ [n] else ready) nexts := by
  unfold release
  rw [List.foldl_cons]
  simp only [Function.update_self]

theorem release_fst (nexts : List τ) (t : τ) : ∀ (pending : τ → Int) (ready : List τ),
    (release pending ready nexts).1 t = pending t - nexts.count t := by
  induction nexts with
  | nil =>
    intro pending ready
    simp [release]
  | cons n nexts ih =>
    intro pending ready
    rw [release_cons, ih, List.count_cons]
    by_cases h : t = n
    · subst h
      rw [Function.update_self]
      simp
      omega
    · rw [Function.update_of_ne h]
      simp [Ne.symm h]

/-- With counters that are high enough, exactly those tasks are put on the list whose counter the
    result brings to zero, and each once. -/
theorem release_snd (nexts : List τ) : ∀ (pending : τ → Int) (ready : List τ),
    (∀ t ∈ nexts, (nexts.count t : Int) ≤ pending t) →
    ∃ new, (release pending ready nexts).2 = ready ++ new ∧ new.Nodup ∧
      ∀ t, t ∈ new ↔ t ∈ nexts ∧ pending t = nexts.count t := by
  induction nexts with
  | nil =>
    intro pending ready _
    exact ⟨[], by simp [release], List.nodup_nil, by simp⟩
  | cons n nexts ih =>
    intro pending ready hle
    have hn := hle n List.mem_cons_self
    rw [List.count_cons_self] at hn
    have hle' : ∀ t ∈ nexts,
        (nexts.count t : Int) ≤ Function.update pending n (pending n - 1) t := by
      intro t ht
      by_cases h : t = n
      · subst h
        rw [Function.update_self]
        omega
      · have := hle t (List.mem_cons_of_mem _ ht)
        rw [List.count_cons_of_ne (Ne.symm h)] at this
        rwa [Function.update_of_ne h]
    obtain ⟨new, he, hnd, hmem⟩ := ih _ (if pending n - 1 = 0 then ready ++ [n] else ready) hle'
    rw [release_cons, he]
    -- away from the head, the counters and the counts are the old ones
    have hother : ∀ t, t ≠ n → (t ∈ new ↔ t ∈ n :: nexts ∧
        pending t = (n :: nexts).count t) := by
      intro t ht
      rw [hmem, Function.update_of_ne ht, List.count_cons_of_ne (Ne.symm ht)]
      simp [ht]
    split
    case isTrue hz =>
      have hzero : nexts.count n = 0 := by omega
      have hnot : n ∉ nexts := List.count_eq_zero.1 hzero
      have hnew : n ∉ new := fun hm => hnot ((hmem n).1 hm).1
      refine ⟨n :: new, by simp, List.nodup_cons.2 ⟨hnew, hnd⟩, fun t => ?_⟩
      by_cases h : t = n
      · subst h
        rw [List.count_cons_self, hzero]
        simp
        omega
      · rw [List.mem_cons, or_iff_right h]
        exact hother t h
    case isFalse hz =>
      refine ⟨new, rfl, hnd, fun t => ?_⟩
      by_cases h : t = n
      · subst h
        rw [hmem, Function.update_self, List.count_cons_self]
        constructor
        · intro ⟨_, hc⟩
          exact ⟨List.mem_cons_self, by omega⟩
        · intro ⟨_, hc⟩
          have hpos : 0 < nexts.count t := by omega
          exact ⟨List.count_pos_iff.1 hpos, by omega⟩
      · exact hother t h

end Release

end Trustme.Cargo
