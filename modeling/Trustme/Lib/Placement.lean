/-
  Subject:   Things put one after the other, each at a multiple of its alignment.

  * `roundUp`: the least multiple of an alignment from a number on;
  * `cursor`: where the last one ends;
  * `Placed`: what is asked of the offsets: aligned, apart, and before the cursor;
  * `Placed.append`: one more thing at the rounded cursor keeps it.
-/
import Mathlib.Algebra.Order.Ring.Nat
import Mathlib.Data.List.Basic
import Mathlib.Logic.Function.Basic

namespace Trustme.Lib

/-- The least multiple of `a` that is not below `n`. -/
def roundUp (n a : Nat) : Nat := (n + a - 1) / a * a

theorem dvd_roundUp (n a : Nat) : a ∣ roundUp n a := Dvd.intro_left _ rfl

theorem le_roundUp {a : Nat} (ha : 0 < a) (n : Nat) : n ≤ roundUp n a := by
  have hdiv := Nat.div_add_mod (n + a - 1) a
  have hmod := Nat.mod_lt (n + a - 1) ha
  rw [Nat.mul_comm] at hdiv
  unfold roundUp
  omega

/-! ## 1. The cursor -/

variable {ι : Type} (size align : ι → Nat)

/-- Where the last one ends. -/
def cursor : Nat → List ι → Nat
  | n, [] => n
  | n, i :: l => cursor (roundUp n (align i) + size i) l

@[simp] theorem cursor_nil (n : Nat) : cursor size align n [] = n := rfl

@[simp] theorem cursor_cons (n : Nat) (i : ι) (l : List ι) :
    cursor size align n (i :: l) = cursor size align (roundUp n (align i) + size i) l := rfl

theorem cursor_append (n : Nat) (l l' : List ι) :
    cursor size align n (l ++ l') = cursor size align (cursor size align n l) l' := by
  induction l generalizing n with
  | nil => rfl
  | cons i l ih => exact ih _

theorem cursor_congr {size size' : ι → Nat} {l : List ι} (h : ∀ i ∈ l, size i = size' i) (n : Nat) :
    cursor size align n l = cursor size' align n l := by
  induction l generalizing n with
  | nil => rfl
  | cons i l ih =>
    rw [cursor_cons, cursor_cons, h i List.mem_cons_self]
    exact ih (fun j hj => h j (List.mem_cons_of_mem _ hj)) _

/-! ## 2. The offsets -/

/-- The things of the list lie at multiples of their alignments, apart from each other, between
    the start and the cursor. -/
structure Placed (start : Nat) (offsets : ι → Nat) (done : List ι) (stop : Nat) : Prop where
  start_le : start ≤ stop
  aligned : ∀ i ∈ done, align i ∣ offsets i
  from_start : ∀ i ∈ done, start ≤ offsets i
  before_stop : ∀ i ∈ done, offsets i + size i ≤ stop
  apart : ∀ i ∈ done, ∀ j ∈ done, i ≠ j →
    offsets i + size i ≤ offsets j ∨ offsets j + size j ≤ offsets i

variable {size align}

theorem Placed.nil (start : Nat) (offsets : ι → Nat) :
    Placed size align start offsets [] start where
  start_le := Nat.le_refl start
  aligned := by simp
  from_start := by simp
  before_stop := by simp
  apart := by simp

/-- One more thing at the rounded cursor keeps it. -/
theorem Placed.append [DecidableEq ι] {start stop : Nat} {offsets : ι → Nat} {done : List ι} {i : ι}
    (h : Placed size align start offsets done stop) (ha : 0 < align i) (hi : i ∉ done) :
    Placed size align start (Function.update offsets i (roundUp stop (align i))) (done ++ [i])
      (roundUp stop (align i) + size i) := by
  have hup := le_roundUp ha stop
  have hold : ∀ j ∈ done, Function.update offsets i (roundUp stop (align i)) j = offsets j :=
    fun j hj =>
    Function.update_of_ne (ne_of_mem_of_not_mem hj hi) _ _
  have hstop := h.start_le
  refine ⟨by omega, fun j hmj => ?_, fun j hmj => ?_, fun j hmj => ?_, fun j hmj k hmk hne => ?_⟩
    <;>
    rcases List.mem_append.1 hmj with hj | hj
  · rw [hold j hj]
    exact h.aligned j hj
  · obtain rfl := List.mem_singleton.1 hj
    rw [Function.update_self]
    exact dvd_roundUp _ _
  · rw [hold j hj]
    exact h.from_start j hj
  · obtain rfl := List.mem_singleton.1 hj
    rw [Function.update_self]
    omega
  · have hj' := h.before_stop j hj
    rw [hold j hj]
    omega
  · obtain rfl := List.mem_singleton.1 hj
    rw [Function.update_self]
  · rcases List.mem_append.1 hmk with hk | hk
    · rw [hold j hj, hold k hk]
      exact h.apart j hj k hk hne
    · obtain rfl := List.mem_singleton.1 hk
      have hj' : offsets j + size j ≤ stop := h.before_stop j hj
      rw [hold j hj, Function.update_self]
      exact Or.inl (hj'.trans hup)
  · obtain rfl := List.mem_singleton.1 hj
    rcases List.mem_append.1 hmk with hk | hk
    · have hk' := h.before_stop k hk
      rw [hold k hk, Function.update_self]
      exact Or.inr (hk'.trans hup)
    · exact absurd (List.mem_singleton.1 hk).symm hne

end Trustme.Lib
