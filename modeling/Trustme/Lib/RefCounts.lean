/-
  Subject:   How many references there are to each slot of a table whose slots refer to each other.

  * `held`: the references from the roots and from the slots;
  * `held_roots`, `held_slot`, `held_grow`: how they change with the roots, with one slot, and
    with a slot more;
  * `held_close`: the references of a slot become roots.
-/
import Mathlib.Algebra.BigOperators.Group.Finset.Basic
import Mathlib.Algebra.BigOperators.Intervals
import Mathlib.Data.List.Perm.Basic

namespace Trustme.Lib.RefCounts

/-- References to slot `i` of `n`; slot `j` refers to the slots `out j`. -/
def held (n : Nat) (out : Nat → List Nat) (roots : List Nat) (i : Nat) : Nat :=
  roots.count i + ∑ j ∈ Finset.range n, (out j).count i

variable {n : Nat} {out out' : Nat → List Nat} {roots : List Nat}

theorem held_roots (more roots : List Nat) (i : Nat) :
    held n out (more ++ roots) i = more.count i + held n out roots i := by
  rw [held, held, List.count_append, Nat.add_assoc]

theorem held_root (r : Nat) (roots : List Nat) (i : Nat) :
    held n out (r :: roots) i = [r].count i + held n out roots i := held_roots [r] roots i

theorem held_perm {roots' : List Nat} (h : roots.Perm roots') (i : Nat) :
    held n out roots i = held n out roots' i := by
  rw [held, held, h.count_eq]

variable {r j : Nat}

theorem root_held (h : r ∈ roots) : 0 < held n out roots r :=
  Nat.lt_of_lt_of_le (List.count_pos_iff.mpr h) (Nat.le_add_right _ _)

theorem slot_held (hj : j < n) (h : r ∈ out j) : 0 < held n out roots r := by
  have hsum := Finset.add_sum_erase _ (fun j => (out j).count r) (Finset.mem_range.mpr hj)
  have hpos := List.count_pos_iff.mpr h
  unfold held
  omega

/-- What is held once, by a root, is not held by others. -/
theorem held_once (h : held n out (r :: roots) r = 1) :
    r ∉ roots ∧ ∀ j < n, r ∉ out j := by
  rw [held_root, List.count_singleton_self] at h
  refine ⟨fun hr => ?_, fun j hj hr => ?_⟩
  · have hpos : 0 < held n out roots r := root_held hr
    omega
  · have hpos : 0 < held n out roots r := slot_held hj hr
    omega

theorem held_congr (h : ∀ j < n, out' j = out j) (i : Nat) :
    held n out' roots i = held n out roots i := by
  rw [held, held, Finset.sum_congr rfl fun j hj => by rw [h j (Finset.mem_range.mp hj)]]

/-- One slot is changed. -/
theorem held_slot (hj : j < n) (h : ∀ k, k ≠ j → out' k = out k) (i : Nat) :
    held n out' roots i + (out j).count i = held n out roots i + (out' j).count i := by
  have hmem : j ∈ Finset.range n := Finset.mem_range.mpr hj
  have hrest : ∑ k ∈ (Finset.range n).erase j, (out' k).count i =
      ∑ k ∈ (Finset.range n).erase j, (out k).count i :=
    Finset.sum_congr rfl fun k hk => by rw [h k (Finset.ne_of_mem_erase hk)]
  rw [held, held, ← Finset.add_sum_erase _ _ hmem, ← Finset.add_sum_erase _ _ hmem, hrest]
  omega

/-- The references of a slot that is closed become roots. -/
theorem held_close (hj : j < n) (h : ∀ k, k ≠ j → out' k = out k) (hnone : out' j = [])
    (i : Nat) : held n out' (out j ++ roots) i = held n out roots i := by
  have hslot : held n out' roots i + (out j).count i = held n out roots i + (out' j).count i :=
    held_slot hj h i
  rw [hnone, List.count_nil] at hslot
  rw [held_roots]
  omega

/-- Roots become the references of a slot that had none. -/
theorem held_open (hj : j < n) (h : ∀ k, k ≠ j → out' k = out k) (hnone : out j = [])
    (i : Nat) : held n out' roots i = held n out (out' j ++ roots) i := by
  have hslot : held n out' roots i + (out j).count i = held n out roots i + (out' j).count i :=
    held_slot hj h i
  rw [hnone, List.count_nil] at hslot
  rw [held_roots]
  omega

/-- There is a slot more. -/
theorem held_grow (h : ∀ j < n, out' j = out j) (i : Nat) :
    held (n + 1) out' roots i = held n out (out' n ++ roots) i := by
  have hsame : held n out' roots i = held n out roots i := held_congr h i
  rw [held_roots, ← hsame, held, held, Finset.sum_range_succ]
  omega

end Trustme.Lib.RefCounts
