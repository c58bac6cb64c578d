/-
  Subject:   Threads that run at the same time, each with a cell of its own.

  * `Interleaves`: a trace has the actions of every thread in their order;
  * `run_own`: where the cells differ, a thread's cell is as if it ran alone.
-/
import Mathlib.Data.List.Basic
import Mathlib.Logic.Function.Basic

namespace Trustme.Lib.Threads

variable {C S A : Type} [DecidableEq C]

/-- Every action changes the cell of its thread. -/
def run (cell : Nat → C) (act : S → A → S) (v : C → S) (trace : List (Nat × A)) : C → S :=
  trace.foldl (fun v a => Function.update v (cell a.1) (act (v (cell a.1)) a.2)) v

def actionsOf (trace : List (Nat × A)) (i : Nat) : List A :=
  (trace.filter fun a => a.1 = i).map Prod.snd

def Interleaves (program : Nat → List A) (trace : List (Nat × A)) : Prop :=
  ∀ i, actionsOf trace i = program i

theorem run_own {cell : Nat → C} {act : S → A → S} {i : Nat} {trace : List (Nat × A)}
    (hown : ∀ a ∈ trace, cell a.1 = cell i → a.1 = i) (v : C → S) :
    run cell act v trace (cell i) = (actionsOf trace i).foldl act (v (cell i)) := by
  induction trace generalizing v with
  | nil => rfl
  | cons a trace ih =>
    have hrest := ih (fun b hb => hown b (List.mem_cons_of_mem a hb))
      (Function.update v (cell a.1) (act (v (cell a.1)) a.2))
    change run cell act (Function.update v (cell a.1) (act (v (cell a.1)) a.2)) trace (cell i) = _
    rw [hrest, actionsOf, actionsOf]
    by_cases hi : a.1 = i
    · rw [List.filter_cons_of_pos (by simpa using hi), List.map_cons, List.foldl_cons, hi,
        Function.update_self]
    · have hcell : cell i ≠ cell a.1 := fun heq => hi (hown a List.mem_cons_self heq.symm)
      rw [List.filter_cons_of_neg (by simpa using hi), Function.update_of_ne hcell]

end Trustme.Lib.Threads
