/-
  Subject:   What the set-up of a build gives.

  * `uniqueTasks_nodup`, `uniqueTasks_inOrder`, `mem_uniqueTasks`: each task the roots need, once,
    behind its dependencies;
  * `count_dependents`: a task waits for another as often as it names it;
  * `pendings_eq`: and for as many results as it has dependencies;
  * `taskStates_error`: naming the results fails on a file that cannot be read, never for want of
    a dependency's result;
  * `taskPriorities_eq`: the priority counts the tasks that wait, directly or not;
  * `exists_sortTasks`: the ready list can be sorted.
-/
import Trustme.Cargo.Tasks
import Mathlib.Data.Prod.Lex

namespace Trustme.Cargo

open Trustme.Lib (Dag)

variable {τ : Type}

/-! ## 1. The order of the tasks -/

section Visit

variable {g : Dag τ}

/-- What the two lists of `visit` are between two calls. -/
structure Sound (g : Dag τ) (acc : List τ × List τ) : Prop where
  seen : ∀ t ∈ acc.2, t ∈ acc.1
  nodup : acc.2.Nodup
  inOrder : g.InOrder acc.2

/-- No task that is still being visited is found behind `t`. -/
def Clear (g : Dag τ) (acc : List τ × List τ) (t : τ) : Prop :=
  ∀ u, g.Reaches t u → u ∈ acc.1 → u ∈ acc.2

/-- What visiting the tasks `ts` does. -/
structure Visited (g : Dag τ) (ts : List τ) (acc acc' : List τ × List τ) : Prop where
  sound : Sound g acc'
  open_iff : ∀ t, (t ∈ acc'.1 ∧ t ∉ acc'.2) ↔ (t ∈ acc.1 ∧ t ∉ acc.2)
  keeps : ∀ t ∈ acc.2, t ∈ acc'.2
  found : ∀ t ∈ ts, t ∈ acc'.2
  fresh : ∀ u ∈ acc'.2, u ∈ acc.2 ∨ ∃ t ∈ ts, g.Reaches t u

/-- What is being visited does not change, so the way stays clear. -/
theorem Visited.clear {ts : List τ} {acc acc' : List τ × List τ} (h : Visited g ts acc acc') {t : τ}
    (hc : Clear g acc t) : Clear g acc' t := by
  intro u hu hseen
  by_contra hnot
  have hopen := (h.open_iff u).1 ⟨hseen, hnot⟩
  exact hopen.2 (hc u hu hopen.1)

theorem Visited.nil {acc : List τ × List τ} (h : Sound g acc) : Visited g [] acc acc where
  sound := h
  open_iff _ := Iff.rfl
  keeps _ ht := ht
  found _ ht := absurd ht List.not_mem_nil
  fresh _ hu := .inl hu

theorem Visited.cons {t : τ} {ts : List τ} {acc acc' acc'' : List τ × List τ}
    (h : Visited g [t] acc acc') (h' : Visited g ts acc' acc'') :
    Visited g (t :: ts) acc acc'' where
  sound := h'.sound
  open_iff u := (h'.open_iff u).trans (h.open_iff u)
  keeps u hu := h'.keeps u (h.keeps u hu)
  found u hu := by
    rcases List.mem_cons.1 hu with rfl | hu
    · exact h'.keeps _ (h.found _ List.mem_cons_self)
    · exact h'.found u hu
  fresh u hu := by
    rcases h'.fresh u hu with hu | ⟨w, hw, hr⟩
    · rcases h.fresh u hu with hu | ⟨w, hw, hr⟩
      · exact .inl hu
      · obtain rfl := List.mem_singleton.1 hw
        exact .inr ⟨w, List.mem_cons_self, hr⟩
    · exact .inr ⟨w, List.mem_cons_of_mem _ hw, hr⟩

variable [DecidableEq τ]

/-- Visiting one after the other. -/
theorem visited_foldl {ts : List τ} (hv : ∀ t ∈ ts, ∀ acc, Sound g acc → Clear g acc t →
    Visited g [t] acc (visit g acc t)) : ∀ {acc : List τ × List τ}, Sound g acc →
    (∀ t ∈ ts, Clear g acc t) → Visited g ts acc (ts.foldl (fun acc t => visit g acc t) acc) := by
  induction ts with
  | nil => exact fun h _ => Visited.nil h
  | cons t ts ih =>
    intro acc h hc
    have h1 := hv t List.mem_cons_self acc h (hc t List.mem_cons_self)
    have h2 := ih (fun u hu => hv u (List.mem_cons_of_mem _ hu)) h1.sound
      (fun u hu => h1.clear (hc u (List.mem_cons_of_mem _ hu)))
    exact h1.cons h2

/-- A task that is not seen yet: it is put on the list when all behind it is. -/
theorem Visited.close {t : τ} {acc acc' : List τ × List τ} (hs : Sound g acc) (ht : t ∉ acc.1)
    (h : Visited g (g.next t) (t :: acc.1, acc.2) acc') :
    Visited g [t] acc (acc'.1, acc'.2 ++ [t]) := by
  have hopen := (h.open_iff t).2 ⟨List.mem_cons_self, fun hm => ht (hs.seen t hm)⟩
  constructor
  · refine ⟨fun u hu => ?_, ?_, h.sound.inOrder.snoc h.found⟩
    · rcases List.mem_append.1 hu with hu | hu
      · exact h.sound.seen u hu
      · rw [List.mem_singleton.1 hu]
        exact hopen.1
    · exact h.sound.nodup.append (List.nodup_singleton t) (by simpa using hopen.2)
  · intro u
    have hu := h.open_iff u
    by_cases he : u = t
    · subst he
      simp [ht]
    · simpa [he] using hu
  · exact fun u hu => List.mem_append_left _ (h.keeps u hu)
  · simp
  · intro u hu
    rcases List.mem_append.1 hu with hu | hu
    · rcases h.fresh u hu with hu | ⟨w, hw, hr⟩
      · exact .inl hu
      · exact .inr ⟨t, List.mem_singleton.2 rfl, .head hw hr⟩
    · rw [List.mem_singleton.1 hu]
      exact .inr ⟨t, List.mem_singleton.2 rfl, .refl t⟩

/-- A visit, by induction on what the task depends on. -/
theorem visited_visit (t : τ) : ∀ (acc : List τ × List τ), Sound g acc → Clear g acc t →
    Visited g [t] acc (visit g acc t) := by
  induction t using g.acyclic.induction with
  | _ t ih =>
    intro acc hs hc
    rw [visit]
    split
    case isTrue hseen =>
      have hdone := hc t (.refl t) hseen
      refine ⟨hs, fun _ => Iff.rfl, fun _ hu => hu, ?_, fun _ hu => .inl hu⟩
      simpa using hdone
    case isFalse hnot =>
      refine Visited.close hs hnot (visited_foldl ih ?_ ?_)
      · exact ⟨fun u hu => List.mem_cons_of_mem _ (hs.seen u hu), hs.nodup, hs.inOrder⟩
      · -- the task itself is open now, and a path from a dependency does not come back to it
        intro w hw u hu hseen
        rcases List.mem_cons.1 hseen with rfl | hseen
        · exact absurd (Relation.TransGen.head' hw hu) (g.not_behind_self u)
        · exact hc u (.head hw hu) hseen

end Visit

section Unique

variable [DecidableEq τ] (g : TaskGraph τ) (roots : List (Option τ))

/-- The tasks of a build: a root or behind one. -/
def Reachable (t : τ) : Prop := ∃ r, some r ∈ roots ∧ g.dag.Reaches r t

/-- With nothing being visited, every way is clear. -/
theorem visited_roots : ∀ (roots : List (Option τ)) {acc : List τ × List τ}, Sound g.dag acc →
    (∀ t ∈ acc.1, t ∈ acc.2) →
    Visited g.dag (roots.filterMap id) acc (roots.foldl (fun acc root =>
      match root with
      | none => acc
      | some task => visit g.dag acc task) acc)
  | [], _, h, _ => Visited.nil h
  | none :: roots, _, h, hd => visited_roots roots h hd
  | some r :: roots, acc, h, hd => by
    have h1 := visited_visit r acc h fun u _ hu => hd u hu
    refine h1.cons (visited_roots roots h1.sound fun u hu => ?_)
    by_contra hnot
    have hopen := (h1.open_iff u).1 ⟨hu, hnot⟩
    exact hopen.2 (hd u hopen.1)

theorem visited_uniqueTasks : ∃ seen, Visited g.dag (roots.filterMap id) ([], [])
    (seen, uniqueTasks g roots) := by
  have hs : Sound g.dag ([], []) := ⟨fun _ h => h, List.nodup_nil, Dag.InOrder.nil⟩
  exact ⟨_, visited_roots g roots hs fun _ h => h⟩

theorem uniqueTasks_nodup : (uniqueTasks g roots).Nodup := by
  obtain ⟨_, h⟩ := visited_uniqueTasks g roots
  exact h.sound.nodup

/-- Every task stands behind its dependencies. -/
theorem uniqueTasks_inOrder : g.dag.InOrder (uniqueTasks g roots) := by
  obtain ⟨_, h⟩ := visited_uniqueTasks g roots
  exact h.sound.inOrder

/-- The list holds exactly the tasks that the roots need. -/
theorem mem_uniqueTasks {t : τ} : t ∈ uniqueTasks g roots ↔ Reachable g roots t := by
  obtain ⟨_, h⟩ := visited_uniqueTasks g roots
  constructor
  · intro ht
    rcases h.fresh t ht with ht | ⟨r, hr, hreach⟩
    · cases ht
    · exact ⟨r, by simpa using hr, hreach⟩
  · intro ⟨r, hr, hreach⟩
    induction hreach with
    | refl => exact h.found r (by simpa using hr)
    | tail _ hw ih => exact h.sound.inOrder.closed ih hw

end Unique

/-! ## 2. Who waits for whom -/

section Waiting

variable [DecidableEq τ] (g : TaskGraph τ)

/-- One task's dependencies, each with the task put behind those that wait for it already. -/
theorem foldl_update_append (t d : τ) : ∀ (deps : List τ) (m : τ → List τ),
    deps.foldl (fun m dep => Function.update m dep (m dep ++ [t])) m d =
      m d ++ List.replicate (deps.count d) t
  | [], m => by simp
  | w :: deps, m => by
    rw [List.foldl_cons, foldl_update_append t d deps, List.count_cons]
    by_cases h : d = w
    · subst h
      simp [List.replicate_succ]
    · simp [h, Ne.symm h]

theorem dependents_snoc (l : List τ) (t d : τ) :
    dependents g (l ++ [t]) d =
      dependents g l d ++ List.replicate ((g.task t).deps.count d) t := by
  unfold dependents
  rw [List.foldl_append, List.foldl_cons, List.foldl_nil, foldl_update_append]

/-- A task waits for another as often as it names it. -/
theorem count_dependents {l : List τ} (hl : l.Nodup) (t d : τ) :
    (dependents g l d).count t = if t ∈ l then (g.task t).deps.count d else 0 := by
  induction l using List.reverseRecOn with
  | nil => rfl
  | append_singleton l u ih =>
    obtain ⟨hl', _, hu⟩ := List.nodup_append.1 hl
    rw [dependents_snoc, List.count_append, ih hl', List.count_replicate]
    by_cases h : u = t
    · subst h
      have hnot : u ∉ l := fun hm => hu u hm u (List.mem_singleton.2 rfl) rfl
      simp [hnot]
    · have h' : t ≠ u := fun he => h he.symm
      simp [h, h']

theorem mem_dependents {l : List τ} (hl : l.Nodup) {t d : τ} :
    t ∈ dependents g l d ↔ t ∈ l ∧ d ∈ (g.task t).deps := by
  rw [← List.count_pos_iff, count_dependents g hl]
  split
  case isTrue h => simp [h, List.count_pos_iff]
  case isFalse h => simp [h]

theorem pendings_snoc (l : List τ) (t : τ) :
    pendings g (l ++ [t]) = Function.update (pendings g l) t (g.task t).deps.length := by
  unfold pendings
  rw [List.foldl_append, List.foldl_cons, List.foldl_nil]

theorem pendings_eq {l : List τ} {t : τ} (ht : t ∈ l) :
    pendings g l t = (g.task t).deps.length := by
  induction l using List.reverseRecOn with
  | nil => cases ht
  | append_singleton l u ih =>
    rw [pendings_snoc]
    by_cases h : t = u
    · subst h
      rw [Function.update_self]
    · rw [Function.update_of_ne h]
      exact ih ((List.mem_append.1 ht).resolve_right (by simpa using h))

/-- Who waits for a task, as a graph. -/
def waiting (roots : List (Option τ)) : Dag τ where
  next := dependents g (uniqueTasks g roots)
  acyclic := (uniqueTasks_inOrder g roots).wf_turned (uniqueTasks_nodup g roots)
    (mem_dependents g (uniqueTasks_nodup g roots)).1

end Waiting

/-! ## 3. Naming the results -/

section States

variable {ε : Type} {ex : TaskExecutor ε} {g : TaskGraph τ}

/-- A task's input cannot be read. -/
def Unreadable (ex : TaskExecutor ε) (g : TaskGraph τ) (t : τ) (e : ε) : Prop :=
  ∃ input ∈ (g.task t).inputs, ex.digest input = .error e

theorem mapM_error {α β ε' : Type} {f : α → Except ε' β} {x : ε'} : ∀ {l : List α},
    l.mapM f = .error x → ∃ a ∈ l, f a = .error x
  | [], h => by cases h
  | a :: l, h => by
    rw [List.mapM_cons] at h
    cases ha : f a with
    | error y =>
      rw [ha] at h
      cases h
      exact ⟨a, List.mem_cons_self, ha⟩
    | ok b =>
      cases hl : l.mapM f with
      | error y =>
        rw [ha, hl] at h
        cases h
        obtain ⟨a', ha', hf⟩ := mapM_error hl
        exact ⟨a', List.mem_cons_of_mem _ ha', hf⟩
      | ok bs =>
        rw [ha, hl] at h
        cases h

theorem digests_error {inputs : List Str} {e : ε} (h : digests ex inputs = .error e) :
    ∃ input ∈ inputs, ex.digest input = .error e := by
  obtain ⟨input, hmem, hf⟩ := mapM_error h
  refine ⟨input, (List.perm_insertionSort _ inputs).mem_iff.1 hmem, ?_⟩
  cases hd : ex.digest input with
  | error y =>
    rw [hd] at hf
    cases hf
    rfl
  | ok value =>
    rw [hd] at hf
    cases hf

/-- With a result for every dependency, only a file can be in the way. -/
theorem taskUID_error {state : τ → Option Str} {t : τ} {x : Exception ε}
    (hd : ∀ d ∈ (g.task t).deps, state d ≠ none) (h : taskUID ex g state t = .error x) :
    ∃ e, Unreadable ex g t e ∧ x = .thrown e := by
  unfold taskUID taskPreimage at h
  cases hu : depUids (ε := ε) g state (g.task t).deps with
  | error y =>
    obtain ⟨d, hmem, hf⟩ := mapM_error hu
    cases hs : state d with
    | none => exact absurd hs (hd d hmem)
    | some uid =>
      simp only [hs] at hf
      cases hf
  | ok uids =>
    simp only [hu] at h
    cases hi : digests ex (g.task t).inputs with
    | error e =>
      rw [hi] at h
      cases h
      exact ⟨e, digests_error hi, rfl⟩
    | ok value =>
      rw [hi] at h
      cases h

/-- Naming the results of a list in order: every dependency has been named. -/
theorem taskStates_error [DecidableEq τ] {l : List τ} (hl : g.dag.InOrder l)
    {state : τ → Option Str}
    {x : Exception ε} (h : taskStates ex g l state = .error x) :
    ∃ t ∈ l, ∃ e, Unreadable ex g t e ∧ x = .thrown e := by
  suffices H : ∀ back front state, l = front ++ back → (∀ d ∈ front, state d ≠ none) →
      taskStates ex g back state = .error x → ∃ t ∈ back, ∃ e, Unreadable ex g t e ∧
        x = .thrown e by
    exact H l [] state rfl (fun _ hd => absurd hd List.not_mem_nil) h
  intro back
  induction back with
  | nil => intro _ _ _ _ he; cases he
  | cons t back ih =>
    intro front state hsplit hnamed he
    unfold taskStates at he
    rw [List.foldlM_cons] at he
    cases hu : taskUID ex g state t with
    | error y =>
      rw [hu] at he
      cases he
      have hdeps : ∀ d ∈ (g.task t).deps, state d ≠ none := fun d hd =>
        hnamed d (hl front t back hsplit d hd)
      exact ⟨t, List.mem_cons_self, taskUID_error hdeps hu⟩
    | ok uid =>
      rw [hu] at he
      have hnext : ∀ d ∈ front ++ [t], Function.update state t (some uid) d ≠ none := by
        intro d hd
        by_cases h : d = t
        · subst h
          simp
        · rw [Function.update_of_ne h]
          exact hnamed d ((List.mem_append.1 hd).resolve_right (by simpa using h))
      obtain ⟨t', ht', hbad⟩ := ih (front ++ [t]) _ (by rw [hsplit, List.append_assoc]; rfl)
        hnext he
      exact ⟨t', List.mem_cons_of_mem _ ht', hbad⟩

end States

/-! ## 4. Priorities -/

section Priorities

variable [DecidableEq τ] {w : Dag τ}

/-- What is kept is right. -/
def Known (w : Dag τ) (reach : τ → Option (Finset τ)) : Prop :=
  ∀ t set, reach t = some set → ∀ u, u ∈ set ↔ w.Behind t u

theorem Known.update {reach : τ → Option (Finset τ)} (h : Known w reach) {t : τ} {set : Finset τ}
    (hset : ∀ u, u ∈ set ↔ w.Behind t u) : Known w (Function.update reach t (some set)) := by
  intro t' set' ht'
  by_cases he : t' = t
  · subst he
    rw [Function.update_self] at ht'
    cases ht'
    exact hset
  · rw [Function.update_of_ne he] at ht'
    exact h t' set' ht'

/-- The tasks that wait behind those of a list. -/
theorem collect_foldl {l : List τ} (hl : ∀ n ∈ l, ∀ reach, Known w reach →
    Known w (collect w reach n).1 ∧ ∀ u, u ∈ (collect w reach n).2 ↔ w.Behind n u) :
    ∀ (acc : (τ → Option (Finset τ)) × Finset τ), Known w acc.1 →
      let acc' := l.foldl (fun acc next =>
        let found := collect w acc.1 next
        (found.1, insert next acc.2 ∪ found.2)) acc
      Known w acc'.1 ∧ ∀ u, u ∈ acc'.2 ↔ u ∈ acc.2 ∨ ∃ n ∈ l, n = u ∨ w.Behind n u := by
  induction l with
  | nil => exact fun acc h => ⟨h, fun u => by simp⟩
  | cons n l ih =>
    intro acc h
    obtain ⟨hk, hn⟩ := hl n List.mem_cons_self acc.1 h
    obtain ⟨hk', hu⟩ := ih (fun m hm => hl m (List.mem_cons_of_mem _ hm))
      ((collect w acc.1 n).1, insert n acc.2 ∪ (collect w acc.1 n).2) hk
    refine ⟨hk', fun u => ?_⟩
    rw [List.foldl_cons, hu, Finset.mem_union, Finset.mem_insert, hn, List.exists_mem_cons_iff]
    constructor
    · rintro (((rfl | h) | h) | h)
      · exact .inr (.inl (.inl rfl))
      · exact .inl h
      · exact .inr (.inl (.inr h))
      · exact .inr (.inr h)
    · rintro (h | (rfl | h) | h)
      · exact .inl (.inl (.inr h))
      · exact .inl (.inl (.inl rfl))
      · exact .inl (.inr h)
      · exact .inr h

/-- `collect` gives all that wait, by induction on who waits for whom. -/
theorem collect_eq (t : τ) : ∀ reach, Known w reach →
    Known w (collect w reach t).1 ∧ ∀ u, u ∈ (collect w reach t).2 ↔ w.Behind t u := by
  induction t using w.acyclic.induction with
  | _ t ih =>
    intro reach hk
    rw [collect]
    cases hr : reach t with
    | some set => exact ⟨hk, hk t set hr⟩
    | none =>
      obtain ⟨hk', hu⟩ := collect_foldl ih (reach, ∅) hk
      have hset : ∀ u, u ∈ ((w.next t).foldl (fun acc next =>
          let found := collect w acc.1 next
          (found.1, insert next acc.2 ∪ found.2)) (reach, ∅)).2 ↔ w.Behind t u := by
        intro u
        rw [hu, Dag.behind_iff]
        simp
      exact ⟨hk'.update hset, hset⟩

/-- **The priority of a task** is one more than the number of tasks that wait for it, directly or
    behind another. -/
theorem taskPriorities_eq {tasks : List τ} {t : τ} (ht : t ∈ tasks) :
    ∃ set : Finset τ, (∀ u, u ∈ set ↔ w.Behind t u) ∧
      taskPriorities w tasks t = 1 + set.card := by
  suffices H : ∀ (tasks : List τ) (acc : (τ → Option (Finset τ)) × (τ → Nat)), Known w acc.1 →
      (t ∈ tasks ∨ ∃ set : Finset τ, (∀ u, u ∈ set ↔ w.Behind t u) ∧ acc.2 t = 1 + set.card) →
      ∃ set : Finset τ, (∀ u, u ∈ set ↔ w.Behind t u) ∧ (tasks.foldl (fun acc task =>
        let found := collect w acc.1 task
        (found.1, Function.update acc.2 task (1 + found.2.card))) acc).2 t = 1 + set.card by
    exact H tasks _ (fun _ _ h => by cases h) (.inl ht)
  intro tasks
  induction tasks with
  | nil => exact fun acc _ h => h.resolve_left List.not_mem_nil
  | cons u tasks ih =>
    intro acc hk h
    obtain ⟨hk', hset⟩ := collect_eq u acc.1 hk
    refine ih _ hk' ?_
    by_cases he : t = u
    · subst he
      exact .inr ⟨_, hset, Function.update_self _ _ _⟩
    · refine h.imp (fun hm => (List.mem_cons.1 hm).resolve_left he) ?_
      intro ⟨set, hs, hc⟩
      exact ⟨set, hs, (Function.update_of_ne he _ _).trans hc⟩

theorem oneWaits_acyclic :
    WellFounded fun b a : Bool => b ∈ if a then ([] : List Bool) else [true] := by
  refine Subrelation.wf (fun {b a} h => ?_) (measure fun t : Bool => if t then 0 else 1).wf
  cases a with
  | false =>
    obtain rfl : b = true := List.mem_singleton.1 h
    exact Nat.zero_lt_one
  | true => cases h

/-- `true` waits for `false`. -/
def oneWaits : Dag Bool := ⟨fun t => if t then [] else [true], oneWaits_acyclic⟩

theorem taskPriorities_eq_oneWaits : ∃ set : Finset Bool, (∀ u, u ∈ set ↔ oneWaits.Behind false u) ∧
    taskPriorities oneWaits [true, false] false = 1 + set.card :=
  taskPriorities_eq (by decide)

end Priorities

/-! ## 5. Sorting -/

/-- `sort.Slice` always has an answer: the order compares pairs of a number and a key. -/
theorem exists_sortTasks (g : TaskGraph τ) (priority : τ → Nat) (l : List τ) :
    ∃ l', SortTasks g priority l l' := by
  let rank : τ → ℕᵒᵈ ×ₗ Str := fun t => toLex (OrderDual.toDual (priority t), (g.task t).key)
  have hrank : ∀ a b, goesBefore g priority a b = decide (rank a < rank b) := by
    intro a b
    rw [Bool.eq_iff_iff, decide_eq_true_eq, Prod.Lex.toLex_lt_toLex, goesBefore]
    by_cases h : priority a = priority b
    · simp [h]
    · simp [h]
  let le : τ → τ → Prop := fun a b => rank a ≤ rank b
  have : Std.Total le := ⟨fun a b => le_total (rank a) (rank b)⟩
  have : IsTrans τ le := ⟨fun a b c => le_trans⟩
  refine ⟨l.insertionSort le, List.perm_insertionSort le l, ?_⟩
  refine (List.pairwise_insertionSort le l).imp fun {a b} hab => ?_
  rw [hrank]
  exact decide_eq_false (not_lt_of_ge hab)

end Trustme.Cargo
