/-
  Subject:   Machines that emit something now and then, and loops that consume what they emit.

  A machine has one step function; a step goes on silently, emits, is done or fails. Run to its
  next emission it is an iterator (`pull`); a loop over the iterator folds what comes out of it
  (`consume`). Both need fuel. What a machine emits is described without fuel by a trace, traces
  compose, and the loop is shown once to compute the fold over the trace.

  * `Next`, `pull`, `consume`: the machine, the iterator and the loop;
  * `Trace`, `andThen`, `iterate`: what is emitted, in parts and in a loop;
  * `Emits`, `Goes`: what a machine emits on the way from a state;
  * `consume_of_goes`: the fold that a loop computes.
-/
import Mathlib.Data.List.Basic

namespace Trustme.Lib

/-- One step: silent, with an emission, the end, or a failure. -/
inductive Next (σ ο ε : Type)
  | again (s : σ)
  | emit (o : ο) (s : σ)
  | done
  | fail (e : ε)

namespace Next

variable {σ ο ε β : Type}

/-! ## 1. The iterator and the loop -/

/-- Steps until something is emitted, or the end. -/
def pull (step : σ → Next σ ο ε) : Nat → σ → Option (Except ε (Option ο × σ))
  | 0, _ => none
  | fuel + 1, s =>
    match step s with
    | again s' => pull step fuel s'
    | emit o s' => some (.ok (some o, s'))
    | done => some (.ok (none, s))
    | fail e => some (.error e)

/-- `while (o = next()) b = f(b, o)`, and the state of the machine at the end. -/
def consume (step : σ → Next σ ο ε) (f : β → ο → Except ε β) :
    Nat → σ → β → Option (Except ε (β × σ))
  | 0, _, _ => none
  | fuel + 1, s, b =>
    match pull step fuel s with
    | none => none
    | some (.error e) => some (.error e)
    | some (.ok (none, s')) => some (.ok (b, s'))
    | some (.ok (some o, s')) =>
      match f b o with
      | .error e => some (.error e)
      | .ok b' => consume step f fuel s' b'

/-! ## 2. What is emitted -/

/-- What is emitted, and the failure that ends it, if one does. -/
structure Trace (ο ε : Type) where
  emitted : List ο
  failure : Option ε

namespace Trace

/-- Nothing comes after a failure. -/
def andThen (t t' : Trace ο ε) : Trace ο ε :=
  match t.failure with
  | none => ⟨t.emitted ++ t'.emitted, t'.failure⟩
  | some _ => t

theorem andThen_of_none {t : Trace ο ε} (h : t.failure = none) (t' : Trace ο ε) :
    t.andThen t' = ⟨t.emitted ++ t'.emitted, t'.failure⟩ := by
  unfold andThen
  rw [h]

theorem andThen_of_some {t : Trace ο ε} {e : ε} (h : t.failure = some e) (t' : Trace ο ε) :
    t.andThen t' = t := by
  unfold andThen
  rw [h]

theorem andThen_done (t : Trace ο ε) : t.andThen ⟨[], none⟩ = t := by
  cases h : t.failure with
  | none =>
    rw [andThen_of_none h, List.append_nil, ← h]
  | some e => rw [andThen_of_some h]

/-- A body once for each of `n` indices from `i` on, with something between two of them. -/
def iterate (body : Nat → Trace ο ε) (between : Nat → List ο) : Nat → Nat → Trace ο ε
  | 0, _ => ⟨[], none⟩
  | 1, i => body i
  | n + 2, i => (body i).andThen
      (andThen ⟨between (i + 1), none⟩ (iterate body between (n + 1) (i + 1)))

theorem iterate_congr {body body' : Nat → Trace ο ε} {between : Nat → List ο} {n i : Nat}
    (h : ∀ j, i ≤ j → j < i + n → body j = body' j) :
    iterate body between n i = iterate body' between n i := by
  induction n generalizing i with
  | zero => rfl
  | succ n ih =>
    cases n with
    | zero => exact h i (Nat.le_refl i) (by omega)
    | succ n =>
      rw [iterate, iterate, h i (Nat.le_refl i) (by omega),
        ih fun j hj hlt => h j (by omega) (by omega)]

/-- Every emission is of one kind, and so is the failure. -/
def Only (p : ο → Prop) (q : ε → Prop) (t : Trace ο ε) : Prop :=
  (∀ o ∈ t.emitted, p o) ∧ ∀ e, t.failure = some e → q e

section Only

variable {p : ο → Prop} {q : ε → Prop}

theorem Only.andThen {t t' : Trace ο ε} (h : t.Only p q) (h' : t'.Only p q) :
    (t.andThen t').Only p q := by
  cases ht : t.failure with
  | none =>
    rw [andThen_of_none ht]
    refine ⟨fun o ho => ?_, h'.2⟩
    obtain ho | ho := List.mem_append.1 ho
    · exact h.1 o ho
    · exact h'.1 o ho
  | some e =>
    rw [andThen_of_some ht]
    exact h

theorem Only.iterate {body : Nat → Trace ο ε} {between : Nat → List ο} {n i : Nat}
    (h : ∀ j, i ≤ j → j < i + n → (body j).Only p q)
    (hb : ∀ j, i < j → j < i + n → ∀ o ∈ between j, p o) :
    (Trace.iterate body between n i).Only p q := by
  have hnone : ∀ os : List ο, (∀ o ∈ os, p o) → Only p q (⟨os, none⟩ : Trace ο ε) :=
    fun os hos => ⟨hos, fun e he => by simp at he⟩
  induction n generalizing i with
  | zero => exact hnone [] fun o ho => by simp at ho
  | succ n ih =>
    cases n with
    | zero => exact h i (Nat.le_refl i) (by omega)
    | succ n =>
      refine (h i (Nat.le_refl i) (by omega)).andThen (Only.andThen ?_ ?_)
      · exact hnone _ (hb (i + 1) (by omega) (by omega))
      · exact ih (fun j hj hlt => h j (by omega) (by omega))
          fun j hj hlt => hb j (by omega) (by omega)

end Only

end Trace

section Emits

variable (step : σ → Next σ ο ε)

/-- On the way from one state to another the machine emits these. -/
inductive Emits : σ → List ο → σ → Prop
  | refl (s : σ) : Emits s [] s
  | again {s s' t : σ} {os : List ο} (h : step s = again s') (hr : Emits s' os t) : Emits s os t
  | emit {s s' t : σ} {o : ο} {os : List ο} (h : step s = emit o s') (hr : Emits s' os t) :
      Emits s (o :: os) t

variable {step}

theorem Emits.trans {s t u : σ} {os os' : List ο} (h : Emits step s os t)
    (h' : Emits step t os' u) : Emits step s (os ++ os') u := by
  induction h with
  | refl => exact h'
  | again hs _ ih => exact Emits.again hs (ih h')
  | emit hs _ ih => exact Emits.emit hs (ih h')

theorem Emits.step_again {s s' : σ} (h : step s = .again s') : Emits step s [] s' :=
  Emits.again h (Emits.refl s')

theorem Emits.step_emit {s s' : σ} {o : ο} (h : step s = .emit o s') : Emits step s [o] s' :=
  Emits.emit h (Emits.refl s')

variable (step)

/-- The machine goes along a trace: to a state, or to the failure at its end. -/
def Goes (s : σ) (tr : Trace ο ε) (t : σ) : Prop :=
  match tr.failure with
  | none => Emits step s tr.emitted t
  | some e => ∃ u, Emits step s tr.emitted u ∧ step u = fail e

variable {step}

theorem Emits.goes {s t u : σ} {os : List ο} {tr : Trace ο ε} (h : Emits step s os t)
    (h' : Goes step t tr u) : Goes step s (Trace.andThen ⟨os, none⟩ tr) u := by
  rw [Trace.andThen_of_none rfl]
  unfold Goes at h' ⊢
  cases htr : tr.failure with
  | none =>
    simp only [htr] at h' ⊢
    exact h.trans h'
  | some e =>
    simp only [htr] at h' ⊢
    obtain ⟨v, hv, hfail⟩ := h'
    exact ⟨v, h.trans hv, hfail⟩

theorem Goes.emits {s t : σ} {tr : Trace ο ε} (h : Goes step s tr t) (htr : tr.failure = none) :
    Emits step s tr.emitted t := by
  unfold Goes at h
  rw [htr] at h
  exact h

theorem Goes.andThen {s t u : σ} {tr tr' : Trace ο ε} (h : Goes step s tr t)
    (h' : tr.failure = none → Goes step t tr' u) : Goes step s (tr.andThen tr') u := by
  cases htr : tr.failure with
  | none =>
    have hgo := Emits.goes (h.emits htr) (h' htr)
    rw [Trace.andThen_of_none rfl] at hgo
    rw [Trace.andThen_of_none htr]
    exact hgo
  | some e =>
    rw [Trace.andThen_of_some htr]
    unfold Goes at h ⊢
    rw [htr] at h ⊢
    exact h

end Emits

/-! ## 3. What the loop computes -/

section Consume

variable {step : σ → Next σ ο ε}

theorem pull_again {s s' : σ} (h : step s = again s') (fuel : Nat) :
    pull step (fuel + 1) s = pull step fuel s' := by
  rw [pull, h]

theorem pull_emit {s s' : σ} {o : ο} (h : step s = emit o s') (fuel : Nat) :
    pull step (fuel + 1) s = some (.ok (some o, s')) := by
  rw [pull, h]

/-- The fold, with the state at the end; or the failure of the machine, if it fails. -/
def outcome (f : β → ο → Except ε β) (b : β) (tr : Trace ο ε) (t : σ) : Except ε (β × σ) :=
  match tr.emitted.foldlM f b with
  | .error e => .error e
  | .ok b' =>
    match tr.failure with
    | none => .ok (b', t)
    | some e => .error e

/-- **The loop folds what is emitted.** -/
theorem consume_of_goes {f : β → ο → Except ε β} {s t : σ} {tr : Trace ο ε}
    (h : Goes step s tr t) (hdone : tr.failure = none → step t = done) (b : β) :
    ∃ N, ∀ fuel ≥ N, consume step f fuel s b = some (outcome f b tr t) := by
  obtain ⟨u, hrun, hend⟩ : ∃ u, Emits step s tr.emitted u ∧
      (match tr.failure with | none => step u = done ∧ u = t | some e => step u = fail e) := by
    rw [Goes] at h
    cases htr : tr.failure with
    | none =>
      rw [htr] at h
      exact ⟨t, h, hdone htr, rfl⟩
    | some e =>
      rw [htr] at h
      exact h
  obtain ⟨os, r⟩ := tr
  -- the iterator reaches its next answer after `k` steps; then the loop has `N` more rounds
  suffices H : (∃ N k, ∀ fuel ≥ N, ∀ fuel' ≥ k,
      (match pull step fuel' s with
        | none => none
        | some (.error e) => some (.error e)
        | some (.ok (none, s')) => some (.ok (b, s'))
        | some (.ok (some o, s')) =>
          match f b o with
          | .error e => some (.error e)
          | .ok b' => consume step f fuel s' b') = some (outcome f b ⟨os, r⟩ t)) by
    obtain ⟨N, k, H⟩ := H
    refine ⟨max N k + 1, fun fuel hfuel => ?_⟩
    obtain ⟨n, rfl⟩ : ∃ n, fuel = n + 1 := ⟨fuel - 1, by omega⟩
    exact H n (by omega) n (by omega)
  clear h hdone
  simp only at hrun hend
  induction hrun generalizing b with
  | refl s =>
    refine ⟨0, 1, fun fuel _ fuel' hf => ?_⟩
    obtain ⟨n, rfl⟩ : ∃ n, fuel' = n + 1 := ⟨fuel' - 1, by omega⟩
    cases r with
    | none =>
      obtain ⟨hstep, rfl⟩ := hend
      simp only [pull, hstep]
      rfl
    | some e =>
      simp only [pull, hend]
      rfl
  | again hs _ ih =>
    obtain ⟨N, k, H⟩ := ih b hend
    refine ⟨N, k + 1, fun fuel hfuel fuel' hf => ?_⟩
    obtain ⟨n, rfl⟩ : ∃ n, fuel' = n + 1 := ⟨fuel' - 1, by omega⟩
    rw [pull_again hs]
    exact H fuel hfuel n (by omega)
  | @emit s s' t o os hs _ ih =>
    cases hb : f b o with
    | error e =>
      refine ⟨0, 1, fun fuel _ fuel' hf => ?_⟩
      obtain ⟨n, rfl⟩ : ∃ n, fuel' = n + 1 := ⟨fuel' - 1, by omega⟩
      simp only [pull_emit hs, hb, outcome, List.foldlM_cons]
      rfl
    | ok b' =>
      obtain ⟨N, k, H⟩ := ih b' hend
      refine ⟨max N k + 1, 1, fun fuel hfuel fuel' hf => ?_⟩
      obtain ⟨n, rfl⟩ : ∃ n, fuel' = n + 1 := ⟨fuel' - 1, by omega⟩
      obtain ⟨m, rfl⟩ : ∃ m, fuel = m + 1 := ⟨fuel - 1, by omega⟩
      simp only [pull_emit hs, hb, outcome, List.foldlM_cons]
      exact H m (by omega) m (by omega)

end Consume

end Next

end Trustme.Lib
