/-
  Subject:   Lists from which the unused positions are taken out, and the numbers that the others
             get.

  * `rank`: the new number of a position;
  * `keep`: what is left;
  * `keep_rank`, `rank_injective`, `rank_onto`: the positions in use are those of what is left.
-/
import Mathlib.Data.List.Basic

namespace Trustme.Lib

variable {α : Type}

/-- How many positions before `i` are in use. -/
def rank (used : Nat → Bool) : Nat → Nat
  | 0 => 0
  | i + 1 => rank used i + if used i then 1 else 0

/-- The elements whose positions, counted from `i` on, are in use. -/
def keepFrom (used : Nat → Bool) : Nat → List α → List α
  | _, [] => []
  | i, a :: l => if used i then a :: keepFrom used (i + 1) l else keepFrom used (i + 1) l

def keep (used : Nat → Bool) (l : List α) : List α := keepFrom used 0 l

variable {used : Nat → Bool}

variable {i j : Nat}

theorem rank_mono (h : i ≤ j) : rank used i ≤ rank used j := by
  induction h with
  | refl => exact Nat.le_refl _
  | step _ ih => exact Nat.le_trans ih (Nat.le_add_right _ _)

theorem rank_le (i : Nat) : rank used i ≤ i := by
  induction i with
  | zero => exact Nat.le_refl 0
  | succ i ih =>
    rw [rank]
    split <;> omega

theorem rank_succ (h : used i = true) : rank used (i + 1) = rank used i + 1 := by
  rw [rank, if_pos h]

theorem rank_skip (h : ¬ used i = true) : rank used (i + 1) = rank used i := by
  rw [rank, if_neg h, Nat.add_zero]

theorem rank_lt (hi : used i = true) (h : i < j) : rank used i < rank used j := by
  have hstep : rank used (i + 1) ≤ rank used j := rank_mono h
  rw [rank_succ hi] at hstep
  exact hstep

theorem rank_injective (hi : used i = true) (hj : used j = true)
    (h : rank used i = rank used j) : i = j := by
  rcases Nat.lt_trichotomy i j with hlt | heq | hlt
  · exact absurd (rank_lt hi hlt) (by omega)
  · exact heq
  · exact absurd (rank_lt hj hlt) (by omega)

theorem keepFrom_rank : ∀ {l : List α} {i k : Nat}, used (i + k) = true →
    (keepFrom used i l)[rank used (i + k) - rank used i]? = l[k]?
  | [], _, _, _ => rfl
  | a :: l, i, 0, h => by
    have hi : used i = true := h
    rw [Nat.add_zero, Nat.sub_self, keepFrom, if_pos hi]
    rfl
  | a :: l, i, k + 1, h => by
    have hle : rank used (i + 1) ≤ rank used (i + (k + 1)) := rank_mono (by omega)
    have hnext := keepFrom_rank (l := l) (i := i + 1) (k := k)
      (by rwa [Nat.add_assoc, Nat.add_comm 1])
    rw [Nat.add_assoc, Nat.add_comm 1 k] at hnext
    rw [keepFrom, List.getElem?_cons_succ]
    by_cases hi : used i = true
    · rw [rank_succ hi] at hle hnext
      obtain ⟨m, hm⟩ : ∃ m, rank used (i + (k + 1)) - rank used i = m + 1 :=
        ⟨rank used (i + (k + 1)) - rank used i - 1, by omega⟩
      rw [if_pos hi, hm, List.getElem?_cons_succ, ← hnext]
      congr 1
      omega
    · rw [rank_skip hi] at hnext
      rw [if_neg hi, hnext]

/-- A position in use is found under its new number. -/
theorem keep_rank {l : List α} (h : used i = true) :
    (keep used l)[rank used i]? = l[i]? := by
  have hi : used (0 + i) = true := (Nat.zero_add i).symm ▸ h
  have hfrom := keepFrom_rank (l := l) hi
  rwa [Nat.zero_add, rank, Nat.sub_zero] at hfrom

theorem keepFrom_length : ∀ {l : List α} {i : Nat},
    (keepFrom used i l).length = rank used (i + l.length) - rank used i
  | [], i => by rw [keepFrom, List.length_nil, Nat.add_zero, Nat.sub_self]
  | a :: l, i => by
    have hlen := keepFrom_length (l := l) (i := i + 1)
    have hle : rank used (i + 1) ≤ rank used (i + 1 + l.length) := rank_mono (by omega)
    rw [List.length_cons, Nat.add_comm l.length 1, ← Nat.add_assoc, keepFrom]
    by_cases hi : used i = true
    · rw [rank_succ hi] at hlen hle
      rw [if_pos hi, List.length_cons, hlen]
      omega
    · rw [rank_skip hi] at hlen
      rw [if_neg hi, hlen]

theorem keep_length (l : List α) : (keep used l).length = rank used l.length := by
  rw [keep, keepFrom_length, Nat.zero_add, rank, Nat.sub_zero]

/-- All that is left was in use. -/
theorem rank_onto : ∀ {n k : Nat}, k < rank used n → ∃ i < n, used i = true ∧ rank used i = k
  | 0, k, h => absurd h (Nat.not_lt_zero k)
  | n + 1, k, h => by
    rw [rank] at h
    by_cases hk : k < rank used n
    · obtain ⟨i, hi, hused, hrank⟩ := rank_onto hk
      exact ⟨i, by omega, hused, hrank⟩
    · by_cases hn : used n = true
      · rw [if_pos hn] at h
        exact ⟨n, by omega, hn, by omega⟩
      · rw [if_neg hn] at h
        exact absurd h (by omega)

theorem mem_keep {l : List α} {a : α} (h : a ∈ keep used l) :
    ∃ i, used i = true ∧ l[i]? = some a := by
  obtain ⟨k, hk, rfl⟩ := List.getElem_of_mem h
  have hlt := hk
  rw [keep_length] at hlt
  obtain ⟨i, _, hi, hrank⟩ := rank_onto hlt
  refine ⟨i, hi, ?_⟩
  rw [← keep_rank hi, hrank, List.getElem?_eq_getElem hk]

end Trustme.Lib
