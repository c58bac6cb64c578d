/-
  Subject:   Scanners over a list that give back what is left of it, and how they can end.

  * `Outcome`: a result, an error, a panic, or a loop that goes on;
  * `Returns`: a result or an error;
  * `Leaves n`: it returns, with at most `n` of the list left; `Leaves.bind` puts scanners
    together;
  * `Below`: the same, unless the fuel is not enough; `Below.iterate` for all larger fuel.
-/
import Mathlib.Data.List.Basic

namespace Trustme.Lib

variable {ε α β σ : Type}

/-- How a call ends. `running` stands for a loop that is not over when the fuel is. -/
inductive Outcome (ε α : Type) where
  | ok (a : α)
  | err (e : ε)
  | panic (message : String)
  | running
  deriving DecidableEq

namespace Outcome

def bind : Outcome ε α → (α → Outcome ε β) → Outcome ε β
  | .ok a, f => f a
  | .err e, _ => .err e
  | .panic m, _ => .panic m
  | .running, _ => .running

instance : Monad (Outcome ε) where
  pure := .ok
  bind := bind

@[simp] theorem ok_bind (a : α) (f : α → Outcome ε β) : (Outcome.ok a >>= f) = f a := rfl
@[simp] theorem err_bind (e : ε) (f : α → Outcome ε β) : (Outcome.err e >>= f) = .err e := rfl
@[simp] theorem panic_bind (m : String) (f : α → Outcome ε β) :
    (Outcome.panic m >>= f) = .panic m := rfl
@[simp] theorem running_bind (f : α → Outcome ε β) :
    (Outcome.running >>= f) = .running := rfl

/-- `ok_or` -/
def okOr (e : ε) : Option α → Outcome ε α
  | some a => .ok a
  | none => .err e

/-! ## 1. Calls that return -/

def Returns : Outcome ε α → Prop
  | .ok _ => True
  | .err _ => True
  | .panic _ => False
  | .running => False

theorem okOr_returns (e : ε) (o : Option α) : (okOr e o).Returns := by
  cases o <;> trivial

theorem Returns.bind {r : Outcome ε α} {f : α → Outcome ε β} (h : r.Returns)
    (hf : ∀ a, (f a).Returns) : (r >>= f).Returns := by
  cases r with
  | ok a => exact hf a
  | err e => trivial
  | panic m => exact h.elim
  | running => exact h.elim

/-! ## 2. What is left -/

/-- It returns, and leaves at most `n` of the list. -/
def Leaves (n : Nat) : Outcome ε (α × List σ) → Prop
  | .ok (_, it) => it.length ≤ n
  | .err _ => True
  | .panic _ => False
  | .running => False

variable {r : Outcome ε (α × List σ)} {m n : Nat}

theorem Leaves.mono (h : r.Leaves m) (hmn : m ≤ n) : r.Leaves n := by
  cases r with
  | ok a => exact Nat.le_trans h hmn
  | err e => trivial
  | panic m => exact h.elim
  | running => exact h.elim

theorem Leaves.bind {f : α × List σ → Outcome ε (β × List σ)} (h : r.Leaves m)
    (hf : ∀ a it, it.length ≤ m → (f (a, it)).Leaves n) : (r >>= f).Leaves n := by
  cases r with
  | ok a => exact hf a.1 a.2 h
  | err e => trivial
  | panic m => exact h.elim
  | running => exact h.elim

/-- In front of a scanner there may be a call that scans nothing. -/
theorem Returns.leaves {r : Outcome ε α} {f : α → Outcome ε (β × List σ)} (h : r.Returns)
    (hf : ∀ a, (f a).Leaves n) : (r >>= f).Leaves n := by
  cases r with
  | ok a => exact hf a
  | err e => trivial
  | panic m => exact h.elim
  | running => exact h.elim

/-! ## 3. More fuel -/

/-- With more fuel a loop may end that had not. -/
def Below (r r' : Outcome ε α) : Prop := r = .running ∨ r = r'

theorem Below.refl (r : Outcome ε α) : r.Below r := .inr rfl

theorem Below.bind {r r' : Outcome ε α} {f f' : α → Outcome ε β} (h : r.Below r')
    (hf : ∀ a, (f a).Below (f' a)) :
    (r >>= f).Below (r' >>= f') := by
  rcases h with rfl | rfl
  · exact .inl rfl
  · cases r with
    | ok a => exact hf a
    | err e => exact .inr rfl
    | panic m => exact .inr rfl
    | running => exact .inl rfl

/-- A call that has ended ends in the same way with more fuel. -/
theorem Below.iterate {f : Nat → Outcome ε α} (h : ∀ n, (f n).Below (f (n + 1))) {m n : Nat}
    (hmn : m ≤ n)
    (hends : f m ≠ .running) : f n = f m := by
  induction hmn with
  | refl => rfl
  | @step n _ ih =>
    rcases h n with hrunning | hsame
    · rw [ih] at hrunning
      exact absurd hrunning hends
    · rw [← hsame, ih]

end Outcome

end Trustme.Lib
