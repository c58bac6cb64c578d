/-
  Subject:   A map from keys to indices on one side, a table on the other.

  * `Ids`: the map, with its size;
  * `insert`, `eraseAll`: a new key, and keys that are forgotten again;
  * `Points`: the table has at every index what belongs to the key.
-/
import Mathlib.Data.List.Basic
import Mathlib.Data.List.Nodup

namespace Trustme.Lib

/-! ## 1. Maps to indices -/

/-- A map from keys to indices, with its size. -/
abbrev Ids (κ : Type) := List (κ × Nat)

namespace Ids

variable {κ : Type} [DecidableEq κ]

def find (ids : Ids κ) (k : κ) : Option Nat := ids.lookup k

/-- A key that is there keeps its index. -/
def insert (ids : Ids κ) (k : κ) (i : Nat) : Ids κ :=
  if (ids.find k).isSome then ids else ids ++ [(k, i)]

def eraseAll (ids : Ids κ) (keys : List κ) : Ids κ := ids.filter fun e => e.1 ∉ keys

variable {ids : Ids κ} {k k' : κ} {i : Nat}

theorem find_eq_none : ids.find k = none ↔ k ∉ ids.map Prod.fst := by
  unfold find
  rw [List.lookup_eq_none_iff, List.mem_map]
  constructor
  · rintro h ⟨e, he, rfl⟩
    simpa using h e he
  · intro h e he
    have hne : k ≠ e.1 := fun hk => h ⟨e, he, hk.symm⟩
    simpa using hne

theorem insert_new (h : ids.find k = none) (i : Nat) : ids.insert k i = ids ++ [(k, i)] := by
  rw [insert, h]
  rfl

theorem insert_old (h : ids.find k = some i) (j : Nat) : ids.insert k j = ids := by
  rw [insert, h]
  rfl

theorem find_append : (ids ++ [(k, i)]).find k' =
    (ids.find k').or (if k' = k then some i else none) := by
  unfold find
  rw [List.lookup_append, List.lookup_cons, List.lookup_nil]
  by_cases h : k' = k
  · rw [if_pos h, beq_iff_eq.2 h]
  · rw [if_neg h, beq_eq_false_iff_ne.2 h]

theorem find_insert_self (h : ids.find k = none) (i : Nat) : (ids.insert k i).find k = some i := by
  rw [insert_new h, find_append, h, if_pos rfl]
  rfl

/-- A key is forgotten that was not there. -/
theorem eraseAll_absent (h : ids.find k = none) (keys : List κ) :
    ids.eraseAll (keys ++ [k]) = ids.eraseAll keys := by
  refine List.filter_congr fun e he => ?_
  have hne : e.1 ≠ k := fun hk => find_eq_none.1 h (List.mem_map.2 ⟨e, he, hk⟩)
  simp [hne]

/-- A key is forgotten that was new. -/
theorem eraseAll_insert (h : ids.find k = none) (i : Nat) {keys : List κ} (hk : k ∈ keys) :
    (ids.insert k i).eraseAll keys = ids.eraseAll keys := by
  rw [insert_new h, eraseAll, List.filter_append]
  simp [eraseAll, hk]

theorem nodup_insert (h : (ids.map Prod.fst).Nodup) : ((ids.insert k i).map Prod.fst).Nodup := by
  rcases hf : ids.find k with _ | j
  · rw [insert_new hf, List.map_append, List.nodup_append']
    refine ⟨h, List.nodup_singleton _, fun a ha hk => find_eq_none.1 hf ?_⟩
    rwa [show a = k from List.mem_singleton.1 hk] at ha
  · rwa [insert_old hf]

/-! ## 2. Tables -/

variable {ν : Type} {R : κ → ν → Prop} {table : List ν}

/-- What the table has at the index of a key, belongs to it. -/
def Points (R : κ → ν → Prop) (ids : Ids κ) (table : List ν) : Prop :=
  ∀ k i, ids.find k = some i → ∃ v, table[i]? = some v ∧ R k v

namespace Points

theorem nil : Points R ([] : Ids κ) table := fun _ _ h => nomatch h

theorem lt (h : Points R ids table) (hf : ids.find k = some i) : i < table.length := by
  obtain ⟨v, hv, _⟩ := h k i hf
  exact (List.getElem?_eq_some_iff.1 hv).1

/-- The table grows. -/
theorem append (h : Points R ids table) (rest : List ν) : Points R ids (table ++ rest) := by
  intro k i hf
  obtain ⟨v, hv, hr⟩ := h k i hf
  exact ⟨v, by rw [List.getElem?_append_left (h.lt hf), hv], hr⟩

/-- A key gets the index of an entry. -/
theorem insert {v : ν} (h : Points R ids table) (hv : table[i]? = some v) (hr : R k v) :
    Points R (ids.insert k i) table := by
  rcases hf : ids.find k with _ | j
  · rw [insert_new hf]
    intro k' i' hf'
    rw [find_append] at hf'
    rcases ho : ids.find k' with _ | j
    · rw [ho, Option.none_or] at hf'
      split at hf'
      · next he =>
        cases hf'
        exact ⟨v, hv, he ▸ hr⟩
      · cases hf'
    · rw [ho, Option.some_or] at hf'
      cases hf'
      exact h k' _ ho
  · rwa [insert_old hf]

/-- A key that is new gets the new entry. -/
theorem push {v : ν} (h : Points R ids table) (hr : R k v) :
    Points R (ids.insert k table.length) (table ++ [v]) :=
  (h.append [v]).insert (by rw [List.getElem?_append_right (Nat.le_refl _), Nat.sub_self]; rfl) hr


end Points

end Ids

end Trustme.Lib
