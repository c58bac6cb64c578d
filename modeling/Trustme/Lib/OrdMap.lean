/-
  Subject:   Finite maps from numbers, kept as a list of entries in key order.

  `find` looks a key up, `insert` adds an entry where the key is missing and leaves the
  map alone where it is there. Iteration is over the list, so in key order.
-/
import Mathlib.Data.List.Basic
import Mathlib.Data.List.Forall2

namespace Trustme.Lib

/-- A finite map with number keys: its entries, smallest key first. -/
abbrev OrdMap (V : Type) := List (Nat × V)

namespace OrdMap

variable {V : Type}

/-- The value at a key. -/
def find (k : Nat) : OrdMap V → Option V
  | [] => none
  | (k', v) :: m => if k = k' then some v else find k m

/-- Put an entry before the first larger key. -/
def place (k : Nat) (v : V) : OrdMap V → OrdMap V
  | [] => [(k, v)]
  | (k', v') :: m => if k < k' then (k, v) :: (k', v') :: m else (k', v') :: place k v m

/-- Add an entry; a key that is there keeps its value. -/
def insert (k : Nat) (v : V) (m : OrdMap V) : OrdMap V :=
  match find k m with
  | some _ => m
  | none => place k v m

/-- Put another value at a key that is there. -/
def set (k : Nat) (v : V) (m : OrdMap V) : OrdMap V :=
  m.map fun p => if p.1 = k then (p.1, v) else p

@[simp] theorem find_nil (k : Nat) : find k ([] : OrdMap V) = none := rfl

@[simp] theorem find_cons (k k' : Nat) (v : V) (m : OrdMap V) :
    find k ((k', v) :: m) = if k = k' then some v else find k m := rfl

theorem find_mem {k : Nat} {v : V} : ∀ {m : OrdMap V}, find k m = some v → (k, v) ∈ m
  | [], h => by simp at h
  | (k', v') :: m, h => by
    rw [find_cons] at h
    split at h
    · rename_i hk
      cases h
      exact hk ▸ List.mem_cons_self
    · exact List.mem_cons_of_mem _ (find_mem h)

theorem find_place {k : Nat} (j : Nat) (v : V) : ∀ {m : OrdMap V}, find k m = none →
    find j (place k v m) = if j = k then some v else find j m
  | [], _ => rfl
  | (k', v') :: m, h => by
    rw [find_cons] at h
    split at h
    · cases h
    · rename_i hne
      unfold place
      split
      · rfl
      · rw [find_cons, find_place j v h, find_cons]
        by_cases hj : j = k'
        · simp [hj, Ne.symm hne]
        · simp [hj]

/-- What an insertion changes: the new key, where it was missing. -/
theorem find_insert (k j : Nat) (v : V) (m : OrdMap V) :
    find j (insert k v m) = if j = k then some ((find k m).getD v) else find j m := by
  unfold insert
  split
  · rename_i w hw
    by_cases hj : j = k
    · subst hj
      simp [hw]
    · simp [hj]
  · rename_i hn
    rw [find_place j v hn, hn]
    rfl

theorem place_perm (k : Nat) (v : V) : ∀ m : OrdMap V, (place k v m).Perm ((k, v) :: m)
  | [] => .refl _
  | (k', v') :: m => by
    unfold place
    split
    · exact .refl _
    · exact ((place_perm k v m).cons (k', v')).trans (.swap _ _ _)

end OrdMap

/-! ## Lists side by side -/

section Side

variable {α β : Type} {R : α → β → Prop}

theorem forall₂_mem_left : ∀ {l : List α} {m : List β}, List.Forall₂ R l m → ∀ a ∈ l,
    ∃ b ∈ m, R a b
  | _ :: _, _ :: _, .cons h hs, a, ha => by
    rcases List.mem_cons.mp ha with rfl | ha
    · exact ⟨_, List.mem_cons_self, h⟩
    · obtain ⟨b, hb, hab⟩ := forall₂_mem_left hs a ha
      exact ⟨b, List.mem_cons_of_mem _ hb, hab⟩

theorem forall₂_getElem : ∀ {l : List α} {m : List β} {i : Nat} {a : α}, List.Forall₂ R l m →
    l[i]? = some a → ∃ b, m[i]? = some b ∧ R a b
  | _ :: _, _ :: _, 0, a, .cons h _, ha => by
    cases ha
    exact ⟨_, rfl, h⟩
  | _ :: _, _ :: _, i + 1, a, .cons _ hs, ha => forall₂_getElem (i := i) hs ha

/-- Two maps with the same keys: what is found in them is related, or nothing is. -/
theorem forall₂_find {V W : Type} {R : Nat × V → Nat × W → Prop} (hR : ∀ p q, R p q → p.1 = q.1)
    (k : Nat) : ∀ {l : OrdMap V} {m : OrdMap W}, List.Forall₂ R l m →
      (l.find k = none ∧ m.find k = none) ∨
        ∃ v w, l.find k = some v ∧ m.find k = some w ∧ R (k, v) (k, w)
  | [], [], .nil => Or.inl ⟨rfl, rfl⟩
  | (j, v) :: l, (j', w) :: m, .cons h hs => by
    obtain rfl : j = j' := hR _ _ h
    rw [OrdMap.find_cons, OrdMap.find_cons]
    by_cases hk : k = j
    · subst hk
      exact Or.inr ⟨v, w, if_pos rfl, if_pos rfl, h⟩
    · rw [if_neg hk, if_neg hk]
      exact forall₂_find hR k hs

/-- An entry is put in the same place of two maps with the same keys. -/
theorem forall₂_place {V W : Type} {R : Nat × V → Nat × W → Prop} (hR : ∀ p q, R p q → p.1 = q.1)
    {k : Nat} {v : V} {w : W} (hvw : R (k, v) (k, w)) : ∀ {l : OrdMap V} {m : OrdMap W},
      List.Forall₂ R l m → List.Forall₂ R (l.place k v) (m.place k w)
  | [], [], .nil => .cons hvw .nil
  | (j, v') :: l, (j', w') :: m, .cons h hs => by
    obtain rfl : j = j' := hR _ _ h
    unfold OrdMap.place
    split
    · exact .cons hvw (.cons h hs)
    · exact .cons h (forall₂_place hR hvw hs)

end Side

end Trustme.Lib
