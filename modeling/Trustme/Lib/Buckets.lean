/-
  Subject:   Lists that are kept one after the other in a vector, with a table of where each begins.

  * `slice`: the elements of a vector from one index to another;
  * `layOut`: one list after the other is put at the end;
  * `countKeys`, `sumUp`, `place`: the counting sort;
  * `slice_place`: it puts into the bucket of a key what comes with the key, in order.
-/
import Mathlib.Data.List.Induction
import Mathlib.Logic.Function.Basic

namespace Trustme.Lib

/-- The elements of a vector from one index to another. -/
def slice (v : Nat → Nat) (i j : Nat) : List Nat := (List.range' i (j - i)).map v

variable {i j b : Nat}

theorem slice_cons {v : Nat → Nat} (h : i < j) : slice v i j = v i :: slice v (i + 1) j := by
  have hlen : j - i = (j - (i + 1)) + 1 := by omega
  rw [slice, hlen, List.range'_succ, List.map_cons, slice]

theorem slice_nil {v : Nat → Nat} (h : j ≤ i) : slice v i j = [] := by
  rw [slice, Nat.sub_eq_zero_of_le h]
  rfl

theorem slice_eq {v : Nat → Nat} {l : List Nat} (hj : j = i + l.length)
    (hv : ∀ k x, l[k]? = some x → v (i + k) = x) : slice v i j = l := by
  subst hj
  rw [slice, Nat.add_sub_cancel_left]
  refine List.ext_getElem? fun k => ?_
  rw [List.getElem?_map]
  by_cases hk : k < l.length
  · rw [List.getElem?_range' hk, List.getElem?_eq_getElem hk, Option.map_some, Nat.one_mul]
    exact congrArg some (hv k _ (List.getElem?_eq_getElem hk))
  · rw [List.getElem?_eq_none (by simpa using hk), List.getElem?_eq_none (by simpa using hk)]
    rfl

/-! ## 1. One list after the other -/

/-- Where the lists begin, the end of the last one too, and their elements. -/
def layOut (lists : List (List Nat)) : List Nat × List Nat :=
  let (starts, items) := lists.foldl (fun acc l => (acc.1 ++ [acc.2.length], acc.2 ++ l)) ([], [])
  (starts ++ [items.length], items)

theorem layOut_eq (lists : List (List Nat)) :
    layOut lists = ((List.range (lists.length + 1)).map fun b => (lists.take b).flatten.length,
      lists.flatten) := by
  have hfold : lists.foldl (fun acc l => (acc.1 ++ [acc.2.length], acc.2 ++ l))
    (([], []) : List Nat × List Nat) =
      ((List.range lists.length).map fun b => (lists.take b).flatten.length, lists.flatten) := by
    induction lists using List.reverseRecOn with
    | nil => rfl
    | append_singleton lists l ih =>
      rw [List.foldl_append, ih, List.foldl_cons, List.foldl_nil, List.length_append,
        List.length_singleton,
        List.range_succ, List.map_append, List.map_singleton, List.take_left, List.flatten_append,
        List.flatten_singleton]
      congr 2
      refine List.map_congr_left fun b hb => ?_
      rw [List.take_append_of_le_length (Nat.le_of_lt (List.mem_range.1 hb))]
  rw [layOut, hfold, List.range_succ, List.map_append, List.map_singleton, List.take_length]

theorem layOut_start {lists : List (List Nat)} (hb : b ≤ lists.length) :
    (layOut lists).1.getD b 0 = (lists.take b).flatten.length := by
  have hlt : b < (List.range (lists.length + 1)).length := by
    rw [List.length_range]
    omega
  rw [layOut_eq, List.getD_eq_getElem?_getD, List.getElem?_map, List.getElem?_eq_getElem hlt]
  simp

/-- Between where a list begins and where the next one begins is the list. -/
theorem slice_layOut {lists : List (List Nat)} {l : List Nat} (hl : lists[b]? = some l) :
    slice (fun i => (layOut lists).2.getD i 0) ((layOut lists).1.getD b 0)
      ((layOut lists).1.getD (b + 1) 0) = l := by
  obtain ⟨hb, rfl⟩ := List.getElem?_eq_some_iff.1 hl
  rw [layOut_start (Nat.le_of_lt hb), layOut_start hb]
  have htake : lists.take (b + 1) = lists.take b ++ [lists[b]] := (List.take_append_getElem hb).symm
  refine slice_eq (by rw [htake, List.flatten_append, List.flatten_singleton, List.length_append])
    fun k x hx => ?_
  have hsplit : lists.flatten = ((lists.take b).flatten ++ lists[b]) ++
    (lists.drop (b + 1)).flatten := by
    rw [← List.flatten_singleton (l := lists[b]), ← List.flatten_append, ← htake,
      ← List.flatten_append,
      List.take_append_drop]
  have hk := (List.getElem?_eq_some_iff.1 hx).1
  rw [layOut_eq, List.getD_eq_getElem?_getD, hsplit, List.getElem?_append_left (by
    rw [List.length_append]
    omega), List.getElem?_append_right (by omega), Nat.add_sub_cancel_left, hx]
  rfl

/-! ## 2. The counting sort -/

/-- One place up, the number of elements with each key. -/
def countKeys (keys : List Nat) : Nat → Nat :=
  keys.foldl (fun count key => Function.update count (key + 1) (count (key + 1) + 1)) fun _ => 0

def sumUp (n : Nat) (count : Nat → Nat) : Nat → Nat :=
  (List.range n).foldl (fun count b => Function.update count (b + 1) (count (b + 1) + count b))
    count

/-- An element goes to where its key is filled up to. -/
def place (s : (Nat → Nat) × (Nat → Nat)) (x : Nat × Nat) : (Nat → Nat) × (Nat → Nat) :=
  (Function.update s.1 (s.2 x.1) x.2, Function.update s.2 x.1 (s.2 x.1 + 1))

theorem countKeys_eq (keys : List Nat) :
    countKeys keys 0 = 0 ∧ ∀ b, countKeys keys (b + 1) = keys.count b := by
  induction keys using List.reverseRecOn with
  | nil => exact ⟨rfl, fun _ => rfl⟩
  | append_singleton keys key ih =>
    obtain ⟨hzero, hsucc⟩ := ih
    rw [countKeys, List.foldl_append, ← countKeys, List.foldl_cons, List.foldl_nil]
    refine ⟨?_, fun b => ?_⟩
    · rw [Function.update_of_ne (by omega), hzero]
    · rw [List.count_append, List.count_singleton]
      by_cases hb : b = key
      · subst hb
        rw [Function.update_self, hsucc]
        simp
      · rw [Function.update_of_ne (by omega), hsucc]
        simp [Ne.symm hb]

/-- Where the bucket of a key begins: after all elements of lower keys. -/
def below (keys : List Nat) (b : Nat) : Nat := keys.countP (· < b)

theorem below_succ (keys : List Nat) (b : Nat) :
    below keys (b + 1) = below keys b + keys.count b := by
  induction keys with
  | nil => rfl
  | cons key keys ih =>
    simp only [below, List.countP_cons, List.count_cons, decide_eq_true_eq, beq_iff_eq] at ih ⊢
    split <;> split <;> split <;> omega

theorem sumUp_eq (keys : List Nat) (n : Nat) :
    ∀ b, b ≤ n → sumUp n (countKeys keys) b = below keys b := by
  obtain ⟨hzero, hsucc⟩ := countKeys_eq keys
  have hall : ∀ b, sumUp n (countKeys keys) b =
      if b ≤ n then below keys b else countKeys keys b := by
    induction n with
    | zero =>
      intro b
      by_cases hb : b ≤ 0
      · cases Nat.le_zero.1 hb
        have hbelow : below keys 0 = 0 := by simp [below]
        rw [if_pos hb, hbelow]
        exact hzero
      · rw [if_neg hb]
        rfl
    | succ n ih =>
      intro b
      rw [sumUp, List.range_succ, List.foldl_append, ← sumUp, List.foldl_cons, List.foldl_nil]
      by_cases hb : b = n + 1
      · subst hb
        rw [Function.update_self, ih, ih, if_neg (by omega), if_pos (Nat.le_refl n), hsucc,
          if_pos (Nat.le_refl _), below_succ, Nat.add_comm]
      · rw [Function.update_of_ne hb, ih]
        split <;> split <;> first | rfl | omega
  intro b hb
  rw [hall, if_pos hb]

theorem below_mono (keys : List Nat) {c : Nat} (h : b ≤ c) : below keys b ≤ below keys c := by
  induction h with
  | refl => exact Nat.le_refl _
  | step _ ih =>
    rw [below_succ]
    omega

/-- What the elements with a key come with. -/
def bucket (xs : List (Nat × Nat)) (b : Nat) : List Nat :=
  (xs.filter fun x => x.1 = b).map Prod.snd

theorem bucket_append (xs ys : List (Nat × Nat)) (b : Nat) :
    bucket (xs ++ ys) b = bucket xs b ++ bucket ys b := by
  rw [bucket, bucket, bucket, List.filter_append, List.map_append]

theorem bucket_length (xs : List (Nat × Nat)) (b : Nat) :
    (bucket xs b).length = (xs.map Prod.fst).count b := by
  induction xs with
  | nil => rfl
  | cons x xs ih =>
    rw [bucket, List.map_cons, List.count_cons, List.filter_cons, ← ih]
    by_cases hx : x.1 = b
    · simp [hx, bucket]
    · simp [hx, bucket]

theorem bucket_singleton (x : Nat × Nat) (b : Nat) :
    bucket [x] b = if x.1 = b then [x.2] else [] := by
  by_cases hx : x.1 = b <;> simp [bucket, hx]

/-- The buckets of the keys that occur follow one another. -/
def Apart (start : Nat → Nat) (xs : List (Nat × Nat)) : Prop :=
  ∀ x ∈ xs, ∀ y ∈ xs, x.1 < y.1 → start x.1 + (bucket xs x.1).length ≤ start y.1

/-- After some of the elements: the buckets are filled up to their number, with what they come
    with. -/
theorem place_spec {start : Nat → Nat} {all : List (Nat × Nat)} (hstart : Apart start all)
    {xs ys : List (Nat × Nat)} (hall : all = xs ++ ys) :
    (∀ b, (xs.foldl place (fun _ => 0, start)).2 b = start b + (bucket xs b).length) ∧
      ∀ b k v, (bucket xs b)[k]? = some v → (xs.foldl place (fun _ => 0, start)).1 (start b + k) =
        v := by
  induction xs using List.reverseRecOn generalizing ys with
  | nil => exact ⟨fun _ => rfl, fun b k v h => nomatch h⟩
  | append_singleton xs x ih =>
    obtain ⟨hfill, hput⟩ := ih (hall.trans (List.append_assoc ..))
    have hle : ∀ b, (bucket xs b).length + (bucket [x] b).length ≤ (bucket all b).length := by
      intro b
      rw [hall, bucket_append, bucket_append, List.length_append, List.length_append]
      exact Nat.le_add_right _ _
    have hx : x ∈ all := by simp [hall]
    have hxs : ∀ y ∈ xs, y ∈ all := fun y hy => by simp [hall, hy]
    have hxone : (bucket [x] x.1).length = 1 := by
      rw [bucket_singleton, if_pos rfl, List.length_singleton]
    have hlex := hle x.1
    simp only [List.foldl_append, List.foldl_cons, List.foldl_nil, place, bucket_append,
      bucket_singleton]
    refine ⟨fun b => ?_, fun b k v hv => ?_⟩
    · by_cases hxb : x.1 = b
      · subst hxb
        rw [Function.update_self, hfill, if_pos rfl, List.length_append, List.length_singleton,
          Nat.add_assoc]
      · rw [Function.update_of_ne (Ne.symm hxb), hfill, if_neg hxb, List.append_nil]
    · rw [hfill]
      by_cases hk : k < (bucket xs b).length
      · have hvold : (bucket xs b)[k]? = some v := by rwa [List.getElem?_append_left hk] at hv
        obtain ⟨y, hy, rfl⟩ : ∃ y ∈ xs, y.1 = b := by
          obtain ⟨y, hy, -⟩ := List.mem_map.1 (List.mem_of_getElem? hvold)
          exact ⟨y, (List.mem_filter.1 hy).1, of_decide_eq_true (List.mem_filter.1 hy).2⟩
        have hley := hle y.1
        have hne : start y.1 + k ≠ start x.1 + (bucket xs x.1).length := by
          -- an element with another key goes to a bucket before or after
          rcases Nat.lt_trichotomy y.1 x.1 with hlt | heq | hlt
          · have happart := hstart y (hxs y hy) x hx hlt
            omega
          · rw [heq] at hk ⊢
            omega
          · have happart := hstart x hx y (hxs y hy) hlt
            omega
        rw [Function.update_of_ne hne]
        exact hput _ k v hvold
      · rw [List.getElem?_append_right (Nat.le_of_not_lt hk)] at hv
        by_cases hxb : x.1 = b
        · subst hxb
          rw [if_pos rfl] at hv
          obtain ⟨hlt, hval⟩ := List.getElem?_eq_some_iff.1 hv
          rw [List.length_singleton] at hlt
          have hkeq : k = (bucket xs x.1).length := by omega
          subst hkeq
          rw [Function.update_self, ← hval]
          simp
        · rw [if_neg hxb] at hv
          exact nomatch hv

/-- The counting sort puts what comes with a key, in order, where its bucket begins. -/
theorem slice_place {n : Nat} {xs : List (Nat × Nat)} (hn : ∀ x ∈ xs, x.1 < n) (hb : b < n) :
    slice (xs.foldl place (fun _ => 0, sumUp n (countKeys (xs.map Prod.fst)))).1
      (sumUp n (countKeys (xs.map Prod.fst)) b) (sumUp n (countKeys (xs.map Prod.fst)) (b + 1)) =
        bucket xs b := by
  have heq := sumUp_eq (xs.map Prod.fst) n
  have hapart : Apart (sumUp n (countKeys (xs.map Prod.fst))) xs := by
    intro x hx y hy hlt
    have hmono := below_mono (xs.map Prod.fst) (Nat.succ_le_of_lt hlt)
    rw [heq _ (Nat.le_of_lt (hn x hx)), heq _ (Nat.le_of_lt (hn y hy)), bucket_length, ← below_succ]
    exact hmono
  have hall : xs = xs ++ [] := (List.append_nil xs).symm
  refine slice_eq ?_ fun k v hv => (place_spec hapart hall).2 b k v hv
  rw [heq _ hb, heq _ (Nat.le_of_lt hb), below_succ, bucket_length]

end Trustme.Lib
