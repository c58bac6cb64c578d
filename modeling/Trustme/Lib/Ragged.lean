/-
  Subject:   Ragged tables: lists of lists of lists, as deep as a number says, with the values at
             the bottom.

  A path of indices leads to a value, and what a path has beyond the depth is not read.

  * `Ragged`, `get`, `set`: the tables;
  * `get_set_same`, `get_set_ne`: a value changed on one path;
  * `paths`: the values with their paths, in order;
  * `Bare`: tables without a value.
-/
import Mathlib.Data.List.Basic

namespace Trustme.Lib

/-- A value, or a list of tables that are less deep by one. -/
def Ragged (α : Type) : Nat → Type
  | 0 => α
  | k + 1 => List (Ragged α k)

namespace Ragged

variable {α β : Type}

/-- The tables in a table. -/
def rows {k : Nat} (t : Ragged α (k + 1)) : List (Ragged α k) := t

def ofRows {k : Nat} (ts : List (Ragged α k)) : Ragged α (k + 1) := ts

@[simp] theorem rows_ofRows {k : Nat} (ts : List (Ragged α k)) : rows (ofRows ts) = ts := rfl

/-! ## 1. Reading and writing -/

def get : {k : Nat} → Ragged α k → List Nat → Option α
  | 0, a, _ => some a
  | _ + 1, _, [] => none
  | _ + 1, ts, i :: p =>
    match (rows ts)[i]? with
    | none => none
    | some t => get t p

def set : {k : Nat} → Ragged α k → List Nat → α → Ragged α k
  | 0, _, _, b => b
  | _ + 1, ts, [], _ => ts
  | _ + 1, ts, i :: p, b =>
    match (rows ts)[i]? with
    | none => ts
    | some t => ofRows ((rows ts).set i (set t p b))

def map (f : α → β) : {k : Nat} → Ragged α k → Ragged β k
  | 0, a => f a
  | _ + 1, ts => ofRows ((rows ts).map (map f))

variable {k : Nat} {p : List Nat}

theorem get_set_same {t : Ragged α k} {a b : α}
    (h : get t p = some a) : get (set t p b) p = some b := by
  induction k generalizing p with
  | zero => rfl
  | succ k ih =>
    cases p with
    | nil => simp [get] at h
    | cons i p =>
      rw [get] at h
      cases ht : (rows t)[i]? with
      | none => simp [ht] at h
      | some t' =>
        simp only [ht] at h
        have hlt := (List.getElem?_eq_some_iff.1 ht).1
        rw [set]
        simp only [ht]
        rw [get, rows_ofRows]
        simp only [List.getElem?_set_self hlt]
        exact ih h

/-- A path that differs within the depth reads what it read before. -/
theorem get_set_ne {t : Ragged α k} {q : List Nat} {b : α}
    (h : p.take k ≠ q.take k) : get (set t p b) q = get t q := by
  induction k generalizing p q with
  | zero => exact absurd rfl h
  | succ k ih =>
    cases p with
    | nil => rfl
    | cons i p =>
      cases q with
      | nil => rw [get, get]
      | cons j q =>
        rw [set]
        cases ht : (rows t)[i]? with
        | none => rfl
        | some t' =>
          simp only
          rw [get, get, rows_ofRows]
          by_cases hij : i = j
          · subst hij
            have hlt := (List.getElem?_eq_some_iff.1 ht).1
            simp only [List.getElem?_set_self hlt, ht]
            refine ih (fun he => h ?_)
            rw [List.take_succ_cons, List.take_succ_cons, he]
          · simp only [List.getElem?_set_ne hij]

theorem get_map {t : Ragged α k} {f : α → β} :
    get (map f t) p = (get t p).map f := by
  induction k generalizing p with
  | zero => rfl
  | succ k ih =>
    cases p with
    | nil => rfl
    | cons i p =>
      rw [get, get, map, rows_ofRows, List.getElem?_map]
      cases (rows t)[i]? with
      | none => rfl
      | some t' => exact ih

/-! ## 2. The values in order -/

/-- The values of the tables from index `i` on. -/
def pathsFrom {k : Nat} (paths : Ragged α k → List (List Nat × α)) :
    Nat → List (Ragged α k) → List (List Nat × α)
  | _, [] => []
  | i, t :: ts => (paths t).map (fun x => (i :: x.1, x.2)) ++ pathsFrom paths (i + 1) ts

/-- The values with their paths, in the order of the paths. -/
def paths : {k : Nat} → Ragged α k → List (List Nat × α)
  | 0, a => [([], a)]
  | _ + 1, ts => pathsFrom paths 0 (rows ts)

theorem length_of_mem_paths {t : Ragged α k} {x : List Nat × α} (hx : x ∈ paths t) :
    x.1.length = k := by
  induction k generalizing x with
  | zero =>
    obtain rfl := List.mem_singleton.1 hx
    rfl
  | succ k ih =>
    have key : ∀ (i : Nat) (ts : List (Ragged α k)), x ∈ pathsFrom paths i ts →
        x.1.length = k + 1 := by
      intro i ts
      induction ts generalizing i with
      | nil => intro h; simp [pathsFrom] at h
      | cons u ts ihu =>
        intro h
        rw [pathsFrom, List.mem_append] at h
        obtain h | h := h
        · obtain ⟨y, hy, rfl⟩ := List.mem_map.1 h
          exact congrArg (· + 1) (ih hy)
        · exact ihu (i + 1) h
    exact key 0 (rows t) hx

/-- The first path that is a prefix of a longer one leads to what the longer one reads. -/
theorem find_paths {t : Ragged α k} :
    ((paths t).find? (fun x => x.1.isPrefixOf p)).map (fun x => x.2) = get t p := by
  induction k generalizing p with
  | zero => rfl
  | succ k ih =>
    cases p with
    | nil =>
      have hnone : (paths t).find? (fun x => x.1.isPrefixOf []) = none := by
        rw [List.find?_eq_none]
        intro x hx hp
        have hlen := length_of_mem_paths hx
        have := (List.isPrefixOf_iff_prefix.1 hp).length_le
        simp only [List.length_nil] at this
        omega
      rw [hnone]
      rfl
    | cons j p =>
      have key : ∀ (i : Nat) (ts : List (Ragged α k)),
          ((pathsFrom paths i ts).find? (fun x => x.1.isPrefixOf (j :: p))).map (fun x => x.2)
            = if i ≤ j then (match ts[j - i]? with | none => none | some u => get u p)
              else none := by
        intro i ts
        induction ts generalizing i with
        | nil => simp [pathsFrom]
        | cons u ts ihu =>
          rw [pathsFrom, List.find?_append, List.find?_map]
          by_cases hij : i = j
          · subst hij
            have hrest := ihu (i + 1)
            rw [if_neg (by omega), Option.map_eq_none_iff] at hrest
            rw [hrest, Option.or_none, Option.map_map, if_pos (Nat.le_refl _), Nat.sub_self]
            have hpred : ((fun x : List Nat × α => x.1.isPrefixOf (i :: p)) ∘
                fun x : List Nat × α => (i :: x.1, x.2)) = fun x => x.1.isPrefixOf p := by
              funext x
              simp [List.isPrefixOf]
            rw [hpred]
            exact ih
          · have hblock : (paths u).find? ((fun x : List Nat × α => x.1.isPrefixOf (j :: p)) ∘
                fun x : List Nat × α => (i :: x.1, x.2)) = none := by
              rw [List.find?_eq_none]
              intro x _
              simp [List.isPrefixOf, hij]
            rw [hblock, Option.map_none, Option.none_or, ihu]
            by_cases hle : i ≤ j
            · rw [if_pos hle, if_pos (by omega), show j - i = (j - (i + 1)) + 1 by omega,
                List.getElem?_cons_succ]
            · rw [if_neg hle, if_neg (by omega)]
      have h := key 0 (rows t)
      rw [if_pos (Nat.zero_le _), Nat.sub_zero] at h
      exact h

/-- What is read depends on the path only as far as the table is deep. -/
theorem get_take {t : Ragged α k} : get t (p.take k) = get t p := by
  induction k generalizing p with
  | zero => rfl
  | succ k ih =>
    cases p with
    | nil => rfl
    | cons i p =>
      rw [List.take_succ_cons, get, get]
      cases (rows t)[i]? with
      | none => rfl
      | some t' => exact ih

/-! ## 3. Tables without a value -/

def Bare : {k : Nat} → Ragged α k → Prop
  | 0, _ => False
  | _ + 1, ts => ∀ t ∈ rows ts, Bare t

theorem pathsFrom_eq_nil {paths : Ragged α k → List (List Nat × α)} {i : Nat}
    {ts : List (Ragged α k)} : pathsFrom paths i ts = [] ↔ ∀ t ∈ ts, paths t = [] := by
  induction ts generalizing i with
  | nil => simp [pathsFrom]
  | cons t ts ih => simp [pathsFrom, ih]

theorem bare_iff {t : Ragged α k} : Bare t ↔ paths t = [] := by
  induction k with
  | zero => simp [Bare, paths]
  | succ k ih =>
    rw [Bare, paths, pathsFrom_eq_nil]
    exact forall₂_congr fun t _ => ih

theorem Bare.get {k : Nat} {t : Ragged α k} (h : Bare t) (p : List Nat) : get t p = none := by
  induction k generalizing p with
  | zero => exact h.elim
  | succ k ih =>
    cases p with
    | nil => rfl
    | cons i p =>
      rw [Ragged.get]
      cases ht : (rows t)[i]? with
      | none => rfl
      | some t' => exact ih (h t' (List.mem_of_getElem? ht)) p

theorem bare_map {t : Ragged α k} {f : α → β} : Bare (map f t) ↔ Bare t := by
  induction k with
  | zero => exact Iff.rfl
  | succ k ih =>
    rw [Bare, Bare, map]
    constructor
    · intro h t' ht
      exact ih.1 (h _ (List.mem_map_of_mem ht))
    · intro h t' ht
      obtain ⟨u, hu, rfl⟩ := List.mem_map.1 ht
      exact ih.2 (h u hu)

end Ragged

end Trustme.Lib
