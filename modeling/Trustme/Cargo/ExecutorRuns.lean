/-
  Subject:   What holds in every run of the task executor.

  * `Kept`, `kept_runs`: how the counters, the ready list, the goroutines and the channel belong
    together, at every moment of every run;
  * `Kept.not_stuck`: with nothing running and nothing failed, a task is ready;
  * `Correct`, `run_correct`: what the executor promises;
  * `work_lt`: every step takes the run nearer to its end.
-/
import Trustme.Cargo.Executor

namespace Trustme.Cargo

open Trustme.Lib (Dag)

variable {τ ε : Type} [DecidableEq τ]

/-! ## 1. Counting what a task still waits for -/

/-- How many of the dependencies have not succeeded, each as often as it is named. -/
def owed (g : TaskGraph τ) (done : List τ) (t : τ) : Nat :=
  (g.task t).deps.countP fun d => decide (d ∉ done)

theorem owed_eq_zero {g : TaskGraph τ} {done : List τ} {t : τ} :
    owed g done t = 0 ↔ ∀ d ∈ (g.task t).deps, d ∈ done := by
  unfold owed
  rw [List.countP_eq_zero]
  simp

/-- One more success: every mention of it is settled. -/
theorem owed_snoc {g : TaskGraph τ} {done : List τ} {d t : τ} (hd : d ∉ done) :
    owed g (done ++ [d]) t + (g.task t).deps.count d = owed g done t := by
  unfold owed
  induction (g.task t).deps with
  | nil => rfl
  | cons w ws ih =>
    rw [List.countP_cons, List.countP_cons, List.count_cons]
    generalize ws.countP (fun e => decide (e ∉ done ++ [d])) = a at ih ⊢
    generalize ws.countP (fun e => decide (e ∉ done)) = b at ih ⊢
    by_cases h : w = d
    · subst h
      simp [hd]
      omega
    · by_cases hw : w ∈ done
      · simp [h, hw]
        omega
      · simp [h, hw]
        omega

/-! ## 2. The invariant -/

/-- What the place of the loop says. -/
def Placed (plan : Plan τ) (s : Exec τ ε) : Prop :=
  match s.place with
  | .loop => True
  | .fill => s.completed < plan.unique.length
  | .wait => 0 < s.running
  | .drain => s.running = 0 ∧ (s.failed = false → plan.unique.length ≤ s.completed)
  | .ended thrown => s.running = 0 ∧ (s.failed = false → plan.unique.length ≤ s.completed) ∧
      thrown = s.first.map .thrown

/-- What holds at every moment. -/
structure Kept (ex : TaskExecutor ε) (g : TaskGraph τ) (plan : Plan τ) (tr : List (Event τ ε))
    (s : Exec τ ε) : Prop where
  counted : s.running = s.executing.length + s.results.length
  within : s.running ≤ ex.jobs
  sent : finished tr = received tr ++ s.results
  begun : (started tr).Perm (s.executing ++ (finished tr).map (·.task))
  tally : s.completed = (received tr).length
  once : (started tr ++ s.ready).Nodup
  known : ∀ t ∈ started tr ++ s.ready, t ∈ plan.unique
  waits : ∀ t ∈ plan.unique, s.pending t = owed g (succeeded tr) t
  due : ∀ t ∈ plan.unique, s.pending t = 0 ↔ t ∈ started tr ++ s.ready
  flagged : s.failed = s.first.isSome
  earliest : s.first = (received tr).findSome? (·.err)
  placed : Placed plan s

/-- What the loop is set up with. -/
structure Laid (g : TaskGraph τ) (plan : Plan τ) : Prop where
  nodup : plan.unique.Nodup
  inOrder : g.dag.InOrder plan.unique
  dependents : plan.dependents = dependents g plan.unique
  pending : plan.pending = pendings g plan.unique

section Steps

variable {ex : TaskExecutor ε} {g : TaskGraph τ} {plan : Plan τ} {tr : List (Event τ ε)}
  {s s' : Exec τ ε}

/-- All that was started is executing, in the channel or received. -/
theorem Kept.begun' (h : Kept ex g plan tr s) : (started tr).Perm
    (s.executing ++ ((received tr).map (·.task) ++ s.results.map (·.task))) := by
  rw [← List.map_append, ← h.sent]
  exact h.begun

variable {rest : List (TaskResult τ ε)}

/-- What is executing or in the channel was not received. -/
theorem Kept.not_succeeded (h : Kept ex g plan tr s) {r : TaskResult τ ε}
    (hq : s.results = r :: rest) : r.task ∉ succeeded tr := by
  intro hm
  have hnd := (h.begun'.nodup_iff.1 (List.nodup_append.1 h.once).1)
  have hdis := List.disjoint_of_nodup_append (List.nodup_append.1 hnd).2.1
  refine hdis (succeeded_subset hm) ?_
  rw [hq]
  simp

theorem kept_begin (hl : Laid g plan) {ready : List τ} (hs : SortTasks g plan.priority
    (plan.unique.filter fun t => plan.pending t = 0) ready) :
    Kept ex g plan [] (Exec.begin plan ready) := by
  have hmem : ∀ t, t ∈ ready ↔ t ∈ plan.unique ∧ plan.pending t = 0 := by
    intro t
    rw [hs.1.mem_iff, List.mem_filter, decide_eq_true_eq]
  constructor
  · rfl
  · exact Nat.zero_le _
  · rfl
  · exact List.Perm.refl _
  · rfl
  · exact hs.1.nodup_iff.2 (hl.nodup.filter _)
  · exact fun t ht => ((hmem t).1 ht).1
  · intro t ht
    show plan.pending t = _
    rw [hl.pending, pendings_eq g ht, owed]
    simp [succeeded]
  · intro t ht
    show plan.pending t = 0 ↔ t ∈ ready
    rw [hmem, and_iff_right ht]
  · rfl
  · rfl
  · trivial

/-- The steps that only move the loop. -/
theorem Kept.move (h : Kept ex g plan tr s) {place : Place ε}
    (hp : Placed plan { s with place := place }) : Kept ex g plan tr { s with place := place } where
  counted := h.counted
  within := h.within
  sent := h.sent
  begun := h.begun
  tally := h.tally
  once := h.once
  known := h.known
  waits := h.waits
  due := h.due
  flagged := h.flagged
  earliest := h.earliest
  placed := hp

/-- **Nothing is stuck**: with nothing running, nothing failed and tasks left, one is ready. The
    first task of the list which has not succeeded waits for no other. -/
theorem Kept.not_stuck (hl : Laid g plan) (h : Kept ex g plan tr s) (hr : s.running = 0)
    (hf : s.failed = false) (hc : s.completed < plan.unique.length) : s.ready ≠ [] := by
  intro hnil
  have hcount := h.counted
  have hexec : s.executing = [] := List.length_eq_zero_iff.1 (by omega)
  have hres : s.results = [] := List.length_eq_zero_iff.1 (by omega)
  have hperm := h.begun'
  rw [hexec, hres, List.nil_append, List.map_nil, List.append_nil] at hperm
  -- no result is a failure, so all that was started has succeeded
  have hok : ∀ r ∈ received tr, r.err = none := by
    have hfirst : (received tr).findSome? (·.err) = none := by
      rw [← h.earliest]
      have := h.flagged
      rw [hf] at this
      simpa using this.symm
    exact List.findSome?_eq_none_iff.1 hfirst
  have hdone : ∀ t ∈ started tr, t ∈ succeeded tr := by
    intro t ht
    obtain ⟨r, hr, rfl⟩ := List.mem_map.1 (hperm.mem_iff.1 ht)
    have hev := mem_received.1 hr
    rw [hok r hr] at hev
    exact mem_succeeded.2 hev
  have hleft : ∃ t ∈ plan.unique, ¬ t ∈ started tr := by
    by_contra hall
    have hsub : plan.unique ⊆ started tr := fun t ht => by
      by_contra hn
      exact hall ⟨t, ht, hn⟩
    have hlen := (hl.nodup.subperm hsub).length_le
    rw [hperm.length_eq, List.length_map, ← h.tally] at hlen
    omega
  obtain ⟨t, ht, hnot, hdeps⟩ := hl.inOrder.exists_first hleft
  have hzero : owed g (succeeded tr) t = 0 := owed_eq_zero.2 fun d hd => hdone d (hdeps d hd)
  have hpend : s.pending t = 0 := by
    rw [h.waits t ht, hzero]
    rfl
  have hmem := (h.due t ht).1 hpend
  rw [hnil, List.append_nil] at hmem
  exact hnot hmem

theorem kept_start (h : Kept ex g plan tr s) {t : τ} {rest : List τ}
    (hp : s.place = .fill) (hr : s.running < ex.jobs) (hq : s.ready = t :: rest) :
    Kept ex g plan (tr ++ [.start t])
      { s with ready := rest, running := s.running + 1, executing := s.executing ++ [t] } := by
  have hsame : started tr ++ [t] ++ rest = started tr ++ s.ready := by
    rw [hq, List.append_assoc]
    rfl
  constructor
  · have := h.counted
    simp only [List.length_append, List.length_singleton]
    omega
  · exact hr
  · simpa using h.sent
  · rw [started_start, finished_start]
    have hmid : (s.executing ++ [t] ++ (finished tr).map (·.task)).Perm
        (s.executing ++ (finished tr).map (·.task) ++ [t]) := by
      rw [List.append_assoc, List.append_assoc]
      exact List.perm_append_comm.append_left _
    exact (h.begun.append_right [t]).trans hmid.symm
  · simpa using h.tally
  · rw [started_start, hsame]
    exact h.once
  · rw [started_start, hsame]
    exact h.known
  · simpa using h.waits
  · rw [started_start, hsame]
    exact h.due
  · exact h.flagged
  · simpa using h.earliest
  · have hpl := h.placed
    unfold Placed at hpl ⊢
    simp only [hp] at hpl ⊢
    exact hpl

theorem kept_finish (h : Kept ex g plan tr s) {t : τ} {err : Option ε} (ht : t ∈ s.executing) :
    Kept ex g plan (tr ++ [.finish t err])
      { s with executing := s.executing.erase t, results := s.results ++ [⟨t, err⟩] } := by
  constructor
  · have hpos := List.length_pos_of_mem ht
    have := h.counted
    simp only [List.length_append, List.length_singleton, List.length_erase_of_mem ht]
    omega
  · exact h.within
  · rw [finished_finish, received_finish, h.sent, List.append_assoc]
  · rw [started_finish, finished_finish, List.map_append]
    refine h.begun.trans ?_
    have herase := List.perm_cons_erase ht
    refine (herase.append_right _).trans ?_
    rw [List.cons_append, ← List.append_assoc]
    exact (List.perm_append_singleton t _).symm
  · simpa using h.tally
  · simpa using h.once
  · simpa using h.known
  · simpa using h.waits
  · simpa using h.due
  · exact h.flagged
  · simpa using h.earliest
  · exact h.placed

/-- A failure is received. -/
theorem kept_failure (h : Kept ex g plan tr s) {t : τ} {e : ε}
    (hq : s.results = ⟨t, some e⟩ :: rest) :
    Kept ex g plan (tr ++ [.receive t (some e)])
      { s with place := .loop, results := rest, running := s.running - 1,
               completed := s.completed + 1, failed := true, first := s.first.or (some e) } := by
  have hcount := h.counted
  rw [hq, List.length_cons] at hcount
  constructor
  · simp only
    omega
  · have := h.within
    simp only
    omega
  · simpa [hq] using h.sent
  · simpa using h.begun
  · simpa using h.tally
  · simpa using h.once
  · simpa using h.known
  · simpa using h.waits
  · simpa using h.due
  · cases s.first <;> simp
  · rw [received_receive, List.findSome?_append, ← h.earliest]
    simp
  · trivial

/-- A success is received: the tasks that waited for it last become ready. -/
theorem kept_success (hl : Laid g plan) (h : Kept ex g plan tr s) {t : τ} {ready : List τ}
    (hq : s.results = ⟨t, none⟩ :: rest)
    (hs : SortTasks g plan.priority (release s.pending s.ready (plan.dependents t)).2 ready) :
    Kept ex g plan (tr ++ [.receive t none])
      { s with place := .loop, results := rest, running := s.running - 1,
               completed := s.completed + 1,
               pending := (release s.pending s.ready (plan.dependents t)).1, ready := ready } := by
  have hcount := h.counted
  rw [hq, List.length_cons] at hcount
  have hfresh : t ∉ succeeded tr := h.not_succeeded hq
  have hnext : ∀ u, u ∈ plan.dependents t ↔ u ∈ plan.unique ∧ t ∈ (g.task u).deps := by
    intro u
    rw [hl.dependents, mem_dependents g hl.nodup]
  have hcnt : ∀ u ∈ plan.unique, (plan.dependents t).count u = (g.task u).deps.count t := by
    intro u hu
    rw [hl.dependents, count_dependents g hl.nodup, if_pos hu]
  -- the counters after the result
  have hpend : ∀ u ∈ plan.unique, (release s.pending s.ready (plan.dependents t)).1 u =
      owed g (succeeded tr ++ [t]) u := by
    intro u hu
    have := owed_snoc (g := g) (t := u) hfresh
    rw [release_fst, h.waits u hu, hcnt u hu]
    omega
  obtain ⟨new, hnew, hnd, hmem⟩ := release_snd (plan.dependents t) s.pending s.ready
    (fun u hu => by
      have huq := ((hnext u).1 hu).1
      have := owed_snoc (g := g) (t := u) hfresh
      rw [h.waits u huq, hcnt u huq]
      omega)
  have hperm : (started tr ++ ready).Perm (started tr ++ s.ready ++ new) := by
    rw [List.append_assoc, ← hnew]
    exact hs.1.append_left _
  -- a task that becomes ready now was waiting for this one
  have hnewWaits : ∀ u ∈ new, u ∈ plan.unique ∧ u ∉ started tr ++ s.ready := by
    intro u hu
    obtain ⟨hdep, hp⟩ := (hmem u).1 hu
    have huq := ((hnext u).1 hdep).1
    refine ⟨huq, fun hm => ?_⟩
    have hz := (h.due u huq).2 hm
    have hpos := List.count_pos_iff.2 hdep
    omega
  constructor
  · simp only
    omega
  · have := h.within
    simp only
    omega
  · simpa [hq] using h.sent
  · simpa using h.begun
  · simpa using h.tally
  · rw [started_receive]
    refine hperm.nodup_iff.2 (h.once.append hnd ?_)
    exact fun u hu hun => (hnewWaits u hun).2 hu
  · intro u hu
    rw [started_receive] at hu
    rcases List.mem_append.1 (hperm.mem_iff.1 hu) with hu | hu
    · exact h.known u hu
    · exact (hnewWaits u hu).1
  · simpa using hpend
  · intro u hu
    rw [started_receive]
    show (release s.pending s.ready (plan.dependents t)).1 u = 0 ↔ u ∈ started tr ++ ready
    rw [hperm.mem_iff, List.mem_append, ← h.due u hu, hmem, release_fst]
    by_cases hdep : u ∈ plan.dependents t
    · have hpos := List.count_pos_iff.2 hdep
      rw [and_iff_right hdep]
      constructor
      · intro hz
        exact .inr (by omega)
      · rintro (hz | hz)
        · -- its counter would have been too low before
          have := owed_snoc (g := g) (t := u) hfresh
          rw [h.waits u hu] at hz ⊢
          rw [hcnt u hu] at hpos ⊢
          omega
        · omega
    · rw [List.count_eq_zero.2 hdep]
      simp [hdep]
  · exact h.flagged
  · rw [received_receive, List.findSome?_append, ← h.earliest]
    simp
  · trivial

/-- One step keeps it. -/
theorem kept_step (hl : Laid g plan) (h : Kept ex g plan tr s) {e : Option (Event τ ε)}
    (hs : Step ex g plan s e s') : Kept ex g plan (tr ++ e.toList) s' := by
  have hpl := h.placed
  cases hs with
  | again hp hc =>
    rw [Option.toList_none, List.append_nil]
    exact h.move hc
  | leave hp hc =>
    rw [Option.toList_none, List.append_nil]
    refine h.move ⟨show s.running = 0 from ?_, fun _ => Nat.le_of_not_lt hc⟩
    -- all that can be started has been received
    have hlen := (List.nodup_append.1 h.once).1.subperm
      (fun t ht => h.known t (List.mem_append_left _ ht)) |>.length_le
    have hb := h.begun'.length_eq
    have := h.counted
    have := h.tally
    simp only [List.length_append, List.length_map] at hb
    omega
  | start t rest hp hf hr hq => exact kept_start h hp hr hq
  | filled hp hn =>
    rw [Option.toList_none, List.append_nil]
    refine h.move ?_
    unfold Placed at hpl
    simp only [hp] at hpl
    unfold Placed afterFill
    by_cases hr : s.running = 0
    · cases hf : s.failed with
      | true => simp [hr]
      | false =>
        -- the executor's own complaint cannot come up
        have hq := h.not_stuck hl hr hf hpl
        exact absurd ⟨hf, by rw [hr]; exact ex.jobs_pos, hq⟩ hn
    · simp only [hr, if_false]
      omega
  | success t rest ready hp hq hs => exact kept_success hl h hq hs
  | failure t e rest hp hq => exact kept_failure h hq
  | drainOne r rest hp hr hq =>
    unfold Placed at hpl
    simp only [hp] at hpl
    omega
  | drained hp hr =>
    rw [Option.toList_none, List.append_nil]
    unfold Placed at hpl
    simp only [hp] at hpl
    exact h.move ⟨hpl.1, hpl.2, rfl⟩
  | finish t err ht hroom => exact kept_finish h ht

theorem kept_runs (hl : Laid g plan) (h : Runs ex g plan tr s) : Kept ex g plan tr s := by
  induction h with
  | begin ready hs => exact kept_begin hl hs
  | step tr s s' e _ hs ih => exact kept_step hl ih hs

end Steps

/-! ## 3. The end of a run -/

section Ends

variable {ex : TaskExecutor ε} {g : TaskGraph τ} {plan : Plan τ} {tr : List (Event τ ε)}
  {s s' : Exec τ ε}

/-- Until its end the executor can go on. -/
theorem Kept.goes_on (h : Kept ex g plan tr s) :
    (∃ thrown, s.place = .ended thrown) ∨ ∃ e s', Step ex g plan s e s' := by
  have hcount := h.counted
  have hpl := h.placed
  unfold Placed at hpl
  cases hp : s.place with
  | loop =>
    by_cases hc : s.completed < plan.unique.length
    · exact .inr ⟨_, _, .again s hp hc⟩
    · exact .inr ⟨_, _, .leave s hp hc⟩
  | fill =>
    by_cases hn : s.failed = false ∧ s.running < ex.jobs ∧ s.ready ≠ []
    · obtain ⟨hf, hr, hne⟩ := hn
      obtain ⟨t, rest, hq⟩ := List.exists_cons_of_ne_nil hne
      exact .inr ⟨_, _, .start s t rest hp hf hr hq⟩
    · exact .inr ⟨_, _, .filled s hp hn⟩
  | wait =>
    simp only [hp] at hpl
    cases hq : s.results with
    | nil =>
      -- the channel is empty, so a goroutine has room in it
      rw [hq, List.length_nil] at hcount
      obtain ⟨t, ht⟩ := List.exists_mem_of_length_pos (show 0 < s.executing.length by omega)
      exact .inr ⟨_, _, .finish s t none ht (by rw [hq]; exact ex.jobs_pos)⟩
    | cons r rest =>
      obtain ⟨t, err⟩ := r
      cases err with
      | none =>
        obtain ⟨ready, hs⟩ := exists_sortTasks g plan.priority
          (release s.pending s.ready (plan.dependents t)).2
        exact .inr ⟨_, _, .success s t rest ready hp hq hs⟩
      | some e => exact .inr ⟨_, _, .failure s t e rest hp hq⟩
  | drain =>
    simp only [hp] at hpl
    exact .inr ⟨_, _, .drained s hp (by omega)⟩
  | ended thrown => exact .inl ⟨thrown, rfl⟩

/-- What is left to do: a task is started, ends and is received. -/
def work (plan : Plan τ) (s : Exec τ ε) : Nat :=
  4 * (3 * (plan.unique.length - s.completed - s.running) + 2 * s.executing.length +
    s.results.length) + s.place.rank

/-- **Every step takes the run nearer to its end**, whoever takes it. -/
theorem Kept.work_lt (h : Kept ex g plan tr s) {e : Option (Event τ ε)}
    (hs : Step ex g plan s e s') :
    work plan s' < work plan s := by
  have hcount := h.counted
  have hpl := h.placed
  unfold Placed at hpl
  cases hs with
  | again hp hc =>
    simp only [work, hp, Place.rank]
    omega
  | leave hp hc =>
    simp only [work, hp, Place.rank]
    omega
  | start t rest hp hf hr hq =>
    -- one task more was not started yet
    have hlen := h.once.subperm (fun t ht => h.known t ht) |>.length_le
    have hb := h.begun'.length_eq
    have := h.tally
    rw [hq] at hlen
    simp only [List.length_append, List.length_map, List.length_cons] at hlen hb
    simp only [work, hp, List.length_append, List.length_singleton]
    omega
  | filled hp hn =>
    have hrank := afterFill_rank plan s
    have hfill : s.place.rank = 2 := by rw [hp]; rfl
    simp only [work]
    omega
  | success t rest ready hp hq hs =>
    simp only [work, hp, hq, Place.rank, List.length_cons]
    rw [hq, List.length_cons] at hcount
    omega
  | failure t e rest hp hq =>
    simp only [work, hp, hq, Place.rank, List.length_cons]
    rw [hq, List.length_cons] at hcount
    omega
  | drainOne r rest hp hr hq =>
    simp only [hp] at hpl
    omega
  | drained hp hr =>
    simp only [work, hp, Place.rank]
    omega
  | finish t err ht hroom =>
    have hpos := List.length_pos_of_mem ht
    simp only [work, List.length_append, List.length_singleton, List.length_erase_of_mem ht]
    omega

/-- Every run goes on to an end. -/
theorem runs_end (hl : Laid g plan) (h : Runs ex g plan tr s) :
    ∃ more s' thrown, Runs ex g plan (tr ++ more) s' ∧ s'.place = .ended thrown := by
  induction hw : work plan s using Nat.strongRecOn generalizing tr s with
  | _ n ih =>
    have hk := kept_runs hl h
    rcases hk.goes_on with ⟨thrown, he⟩ | ⟨e, s₁, hs⟩
    · exact ⟨[], s, thrown, by rwa [List.append_nil], he⟩
    · obtain ⟨more, s', thrown, hr, he⟩ := ih _ (hw ▸ hk.work_lt hs) (.step tr s s₁ e h hs) rfl
      exact ⟨e.toList ++ more, s', thrown, by rwa [← List.append_assoc], he⟩

/-- At the end nothing is left running, and the exception is the first failure. -/
theorem Kept.at_end (h : Kept ex g plan tr s) {thrown : Option (Exception ε)}
    (he : s.place = .ended thrown) : s.executing = [] ∧ s.results = [] ∧
      (s.failed = false → plan.unique.length ≤ s.completed) ∧ thrown = s.first.map .thrown := by
  have hcount := h.counted
  have hpl := h.placed
  unfold Placed at hpl
  simp only [he] at hpl
  exact ⟨List.length_eq_zero_iff.1 (by omega), List.length_eq_zero_iff.1 (by omega), hpl.2⟩

/-- With no failure, a result of every task has been received. -/
theorem Kept.all_received (h : Kept ex g plan tr s)
    (he : s.place = .ended none) {t : τ} (ht : t ∈ plan.unique) : .receive t none ∈ tr := by
  obtain ⟨hexec, hres, hall, hfirst⟩ := h.at_end he
  have hnone : s.first = none := by
    cases hf : s.first with
    | none => rfl
    | some e =>
      rw [hf] at hfirst
      cases hfirst
  have hperm := h.begun'
  rw [hexec, hres, List.nil_append, List.map_nil, List.append_nil] at hperm
  -- as many tasks were started as there are
  have hsub : (started tr).Subperm plan.unique :=
    (List.nodup_append.1 h.once).1.subperm fun u hu => h.known u (List.mem_append_left _ hu)
  have hlen : plan.unique.length ≤ (started tr).length := by
    rw [hperm.length_eq, List.length_map, ← h.tally]
    exact hall (by rw [h.flagged, hnone]; rfl)
  have hstart : t ∈ started tr := (hsub.perm_of_length_le hlen).mem_iff.2 ht
  obtain ⟨r, hr, rfl⟩ := List.mem_map.1 (hperm.mem_iff.1 hstart)
  have hok : (received tr).findSome? (·.err) = none := by rw [← h.earliest, hnone]
  have hev := mem_received.1 hr
  rwa [List.findSome?_eq_none_iff.1 hok r hr] at hev

end Ends

/-! ## 4. What the executor promises -/

/-- What holds of what has happened, and of where the loop is, at every moment. -/
structure Correct (ex : TaskExecutor ε) (g : TaskGraph τ) (roots : List (Option τ)) (plan : Plan τ)
    (tr : List (Event τ ε)) (s : Exec τ ε) : Prop where
  /-- Only tasks that the roots need are started, -/
  needed : ∀ t ∈ started tr, Reachable g roots t
  /-- each at most once, -/
  once : (started tr).Nodup
  /-- and when all its dependencies have ended with success. -/
  dependencies : ∀ front t back, tr = front ++ .start t :: back →
    ∀ d ∈ (g.task t).deps, .finish d none ∈ front ∧ .receive d none ∈ front
  /-- The tasks that were started and have not ended are never more than the jobs. -/
  jobs : (started tr).Perm (s.executing ++ (finished tr).map (·.task)) ∧
    s.executing.length ≤ ex.jobs
  noDeadlock : ∀ completed total, s.place ≠ .ended (some (.deadlock completed total))
  /-- Behind the first failure that is received nothing is started. -/
  noStart : ∀ front t e back, tr = front ++ .receive t (some e) :: back → started back = []
  /-- Until its end the executor can go on; at its end it has a result of all that it started. -/
  goesOn : (∃ thrown, s.place = .ended thrown) ∨ ∃ e s', Step ex g plan s e s'
  waits : ∀ thrown, s.place = .ended thrown → s.executing = [] ∧
    ∀ t ∈ started tr, ∃ err, .finish t err ∈ tr ∧ .receive t err ∈ tr
  /-- When it returns, every task has completed. -/
  returns : s.place = .ended none → ∀ t, Reachable g roots t → .receive t none ∈ tr
  /-- What it throws is the first failure that was received. -/
  raises : ∀ x, s.place = .ended (some x) →
    ∃ e, x = .thrown e ∧ (received tr).findSome? (·.err) = some e

section Correctness

variable {ex : TaskExecutor ε} {g : TaskGraph τ} {plan : Plan τ} {tr : List (Event τ ε)}
  {s s' : Exec τ ε}

/-- A run up to one of its events, and the step of that event. -/
theorem Runs.split (h : Runs ex g plan tr s) : ∀ {front back : List (Event τ ε)}
    {e : Event τ ε}, tr = front ++ e :: back →
    ∃ s₁ s₂, Runs ex g plan front s₁ ∧ Step ex g plan s₁ (some e) s₂ := by
  induction h with
  | begin ready hs =>
    intro front back e he
    simp at he
  | step tr s s' o h hs ih =>
    intro front back e he
    cases o with
    | none =>
      rw [Option.toList_none, List.append_nil] at he
      exact ih he
    | some e' =>
      rcases List.eq_nil_or_concat back with rfl | ⟨back', x, rfl⟩
      · obtain ⟨rfl, heq⟩ := List.append_inj' he rfl
        obtain rfl : e' = e := by simpa using heq
        exact ⟨s, s', h, hs⟩
      · rw [List.concat_eq_append, ← List.cons_append, ← List.append_assoc] at he
        obtain ⟨rfl, _⟩ := List.append_inj' he rfl
        exact ih rfl

/-- What was received was sent. -/
theorem Kept.finish_of_receive (h : Kept ex g plan tr s) {t : τ} {err : Option ε}
    (ht : .receive t err ∈ tr) : .finish t err ∈ tr := by
  have hrec := mem_received (r := ⟨t, err⟩).2 ht
  exact mem_finished.1 (by rw [h.sent]; exact List.mem_append_left _ hrec)

/-- When a task is started, its dependencies have succeeded and no failure has been received. -/
theorem Runs.at_start (hl : Laid g plan) (h : Runs ex g plan tr s) {front back : List (Event τ ε)}
    {t : τ} (he : tr = front ++ .start t :: back) :
    (∀ d ∈ (g.task t).deps, .finish d none ∈ front ∧ .receive d none ∈ front) ∧
      ∀ r ∈ received front, r.err = none := by
  obtain ⟨s₁, s₂, hr, hs⟩ := h.split he
  have hk := kept_runs hl hr
  cases hs with
  | start t rest hp hf hr hq =>
    have hmem : t ∈ started front ++ s₁.ready := by
      rw [hq]
      simp
    have hu := hk.known t hmem
    have hz := (hk.due t hu).2 hmem
    rw [hk.waits t hu] at hz
    have hfirst : s₁.first = none := by
      have := hk.flagged
      rw [hf] at this
      simpa using this.symm
    rw [hk.earliest] at hfirst
    refine ⟨fun d hd => ?_, List.findSome?_eq_none_iff.1 hfirst⟩
    have hzero : owed g (succeeded front) t = 0 := by omega
    have hdone := mem_succeeded.1 (owed_eq_zero.1 hzero d hd)
    exact ⟨hk.finish_of_receive hdone, hdone⟩

theorem runs_correct (hl : Laid g plan) {roots : List (Option τ)}
    (hu : ∀ t, t ∈ plan.unique ↔ Reachable g roots t) (h : Runs ex g plan tr s) :
    Correct ex g roots plan tr s := by
  have hk := kept_runs hl h
  constructor
  · exact fun t ht => (hu t).1 (hk.known t (List.mem_append_left _ ht))
  · exact (List.nodup_append.1 hk.once).1
  · exact fun front t back he => (h.at_start hl he).1
  · have := hk.counted
    have := hk.within
    exact ⟨hk.begun, by omega⟩
  · intro completed total he
    obtain ⟨_, _, _, hx⟩ := hk.at_end he
    cases hf : s.first with
    | none => rw [hf] at hx; cases hx
    | some e => rw [hf] at hx; cases hx
  · intro front t e back he
    refine List.eq_nil_iff_forall_not_mem.2 fun u hu => ?_
    obtain ⟨b₁, b₂, rfl⟩ := List.append_of_mem (mem_started.1 hu)
    have he' : tr = (front ++ .receive t (some e) :: b₁) ++ .start u :: b₂ := by
      rw [he, List.append_assoc]
      rfl
    have hnone := (h.at_start hl he').2
    have hbad := hnone ⟨t, some e⟩ (mem_received.2 (by simp))
    cases hbad
  · exact hk.goes_on
  · intro thrown he
    obtain ⟨hexec, hres, _, _⟩ := hk.at_end he
    refine ⟨hexec, fun t ht => ?_⟩
    have hmem := hk.begun'.mem_iff.1 ht
    rw [hexec, hres, List.nil_append, List.map_nil, List.append_nil] at hmem
    obtain ⟨r, hr, rfl⟩ := List.mem_map.1 hmem
    have hrec := mem_received.1 hr
    exact ⟨r.err, hk.finish_of_receive hrec, hrec⟩
  · exact fun he t ht => hk.all_received he ((hu t).2 ht)
  · intro x he
    obtain ⟨_, _, _, hx⟩ := hk.at_end he
    cases hf : s.first with
    | none => rw [hf] at hx; cases hx
    | some e =>
      rw [hf] at hx
      cases hx
      exact ⟨e, rfl, by rw [← hk.earliest, hf]⟩

/-- What `run` sets up. -/
theorem laid_of_prepare {roots : List (Option τ)} {state : τ → Option Str}
    (h : ex.prepare g roots state = .ok plan) :
    Laid g plan ∧ ∀ t, t ∈ plan.unique ↔ Reachable g roots t := by
  unfold TaskExecutor.prepare at h
  cases hs : taskStates ex g (uniqueTasks g roots) state with
  | error x =>
    simp only [hs] at h
    cases h
  | ok states =>
    simp only [hs] at h
    cases h
    exact ⟨⟨uniqueTasks_nodup g roots, uniqueTasks_inOrder g roots, rfl, rfl⟩,
      fun t => mem_uniqueTasks g roots⟩

end Correctness

/-- **The executor is correct under every order of events**: for every graph of tasks, all roots,
    every number of jobs and every way in which the tasks end. Before it starts a task it can only
    fail on an input that cannot be read. -/
theorem run_correct (jobs : Int) (toolHash : Str) (digest : Str → Except ε Str)
    (sum256 : Str → Str) (g : TaskGraph τ) (roots : List (Option τ)) (state : τ → Option Str) :
    let ex := makeExecutor jobs toolHash digest sum256
    (ex.jobs : Int) = max jobs 1 ∧
    match ex.prepare g roots state with
    | .error x => ∃ t e, Reachable g roots t ∧ Unreadable ex g t e ∧ x = .thrown e
    | .ok plan => ∀ tr s, Runs ex g plan tr s → Correct ex g roots plan tr s := by
  intro ex
  refine ⟨clampJobs_eq jobs, ?_⟩
  cases hp : ex.prepare g roots state with
  | ok plan =>
    obtain ⟨hl, hu⟩ := laid_of_prepare hp
    exact fun tr s h => runs_correct hl hu h
  | error x =>
    unfold TaskExecutor.prepare at hp
    cases hs : taskStates ex g (uniqueTasks g roots) state with
    | ok states =>
      simp only [hs] at hp
      cases hp
    | error y =>
      simp only [hs] at hp
      cases hp
      obtain ⟨t, ht, e, hbad, rfl⟩ := taskStates_error (uniqueTasks_inOrder g roots) hs
      exact ⟨t, e, (mem_uniqueTasks g roots).1 ht, hbad, rfl⟩

/-- Four tasks: the last one needs two others, one of them twice, and both need the first. -/
def diamond : TaskGraph (Fin 4) where
  task t :=
    { key := [Fin.ofNat 256 t.val], name := [], kind := [], inputs := [], outputs := []
      signature := []
      deps := match t with
        | 0 => []
        | 1 => [0]
        | 2 => [0, 0]
        | 3 => [1, 2, 1] }
  acyclic := by
    refine Subrelation.wf (r := fun d t => d.val < t.val) ?_ (measure Fin.val).wf
    intro d t
    revert d t
    decide

theorem run_correct_diamond : ∃ plan tr s thrown,
    Runs (makeExecutor 2 [] (fun _ => .ok []) id : TaskExecutor Unit) diamond plan tr s ∧
      s.place = .ended thrown ∧
      Correct (makeExecutor 2 [] (fun _ => .ok []) id) diamond [some 3] plan tr s := by
  have h := (run_correct (ε := Unit) 2 [] (fun _ => .ok []) id diamond [some 3] fun _ => none).2
  cases hp : (makeExecutor 2 [] (fun _ => .ok []) id : TaskExecutor Unit).prepare diamond
      [some 3] (fun _ => none) with
  | error x =>
    rw [hp] at h
    obtain ⟨t, e, _, ⟨input, _, hbad⟩, _⟩ := h
    cases hbad
  | ok plan =>
    rw [hp] at h
    obtain ⟨ready, hs⟩ := exists_sortTasks diamond plan.priority
      (plan.unique.filter fun t => plan.pending t = 0)
    have hbegin : Runs (makeExecutor 2 [] (fun _ => .ok []) id : TaskExecutor Unit) diamond plan []
        (Exec.begin plan ready) := Runs.begin ready hs
    obtain ⟨tr, s, thrown, hr, he⟩ := runs_end (laid_of_prepare hp).1 hbegin
    exact ⟨plan, [] ++ tr, s, thrown, hr, he, h _ _ hr⟩

end Trustme.Cargo
