/-
  Subject:   Byte memory that holds pointers, cell by cell and in its compressed form.

  * `Cell`: a byte of memory: not initialised, plain, or one byte of a pointer;
  * `Store`: the compressed form: the bytes, which of them are initialised, and where pointers
    start;
  * `Store.cells`: the cells a store stands for;
  * `Uncut`: no pointer lies partly inside a range and partly outside;
  * `Overwritten.cells`, `Store.cells_part`: overwriting a range of a store and taking a part out
    of it are the same as on its cells, where the range cuts no pointer.
-/
import Trustme.Lib.ByteStore

namespace Trustme.Lib

variable {P : Type}

/-- `ptr v k p` is byte `k` of a pointer with provenance `p`. -/
inductive Cell (P : Type) where
  | uninit
  | byte (v : BitVec 8)
  | ptr (v : BitVec 8) (k : Nat) (p : P)
deriving DecidableEq

/-- The value of an initialised cell. -/
def Cell.value : Cell P → Option (BitVec 8)
  | .uninit => none
  | .byte v => some v
  | .ptr v _ _ => some v

/-- A pointer takes up `w` bytes from where it starts. -/
structure Store (P : Type) where
  size : Nat
  init : Nat → Bool
  val : Nat → BitVec 8
  start : Nat → Option P

/-- The pointer over position `j`: how far into it, and its provenance. -/
def fragAt (w : Nat) (start : Nat → Option P) (j : Nat) : Option (Nat × P) :=
  (List.range w).findSome? fun k => if k ≤ j then (start (j - k)).map fun p => (k, p) else none

def Store.cell (w : Nat) (s : Store P) (j : Nat) : Cell P :=
  if s.init j then
    match fragAt w s.start j with
    | some (k, p) => .ptr (s.val j) k p
    | none => .byte (s.val j)
  else .uninit

def Store.cells (w : Nat) (s : Store P) : List (Cell P) := (List.range s.size).map (s.cell w)

/-- The pointers lie apart from each other, inside the store and on initialised bytes. -/
structure Store.Sound (w : Nat) (s : Store P) : Prop where
  apart : ∀ {x y : Nat} {p q : P}, s.start x = some p → s.start y = some q → x < y → x + w ≤ y
  inside : ∀ {x : Nat} {p : P}, s.start x = some p → x + w ≤ s.size
  init : ∀ {x : Nat} {p : P}, s.start x = some p → ∀ k < w, s.init (x + k) = true

/-- A range of `len` bytes at `ofs` cuts no pointer: each lies outside it or inside. -/
def Uncut (w : Nat) (start : Nat → Option P) (ofs len : Nat) : Prop :=
  ∀ x p, start x = some p →
    x + w ≤ ofs ∨ ofs + len ≤ x ∨ (ofs ≤ x ∧ x + w ≤ ofs + len) ∨ len = 0

variable {w : Nat}

/-! ## 1. The pointer over a position -/

variable {start : Nat → Option P}

theorem fragAt_eq_none {j : Nat} :
    fragAt w start j = none ↔ ∀ k < w, k ≤ j → start (j - k) = none := by
  simp only [fragAt, List.findSome?_eq_none_iff, List.mem_range]
  refine ⟨fun h k hk hkj => ?_, fun h k hk => ?_⟩
  · have hx := h k hk
    rw [if_pos hkj] at hx
    simpa using hx
  · split
    · next hkj => simp [h k hk hkj]
    · rfl

theorem fragAt_some {j k : Nat} {p : P}
    (h : fragAt w start j = some (k, p)) : k < w ∧ k ≤ j ∧ start (j - k) = some p := by
  obtain ⟨i, hi, hx⟩ := List.exists_of_findSome?_eq_some h
  rw [List.mem_range] at hi
  split at hx
  · next hij =>
    rw [Option.map_eq_some_iff] at hx
    obtain ⟨q, hq, heq⟩ := hx
    simp only [Prod.mk.injEq] at heq
    obtain ⟨rfl, rfl⟩ := heq
    exact ⟨hi, hij, hq⟩
  · cases hx

/-- Where pointers lie apart there is one over a position at most. -/
theorem fragAt_eq_some {j k : Nat} {p : P}
    (hapart : ∀ {x y : Nat} {p q : P}, start x = some p → start y = some q → x < y → x + w ≤ y)
    (hk : k < w) (hkj : k ≤ j) (hp : start (j - k) = some p) :
    fragAt w start j = some (k, p) := by
  cases hf : fragAt w start j with
  | none =>
    have hnone := fragAt_eq_none.mp hf k hk hkj
    rw [hp] at hnone
    cases hnone
  | some r =>
    obtain ⟨i, q⟩ := r
    obtain ⟨hi, hij, hq⟩ := fragAt_some hf
    have heq : i = k := by
      rcases Nat.lt_trichotomy (j - i) (j - k) with hlt | heq | hlt
      · have := hapart hq hp hlt
        omega
      · omega
      · have := hapart hp hq hlt
        omega
    subst heq
    rw [hp] at hq
    cases hq
    rfl

@[simp] theorem Store.length_cells (s : Store P) : (s.cells w).length = s.size := by
  simp [Store.cells]

theorem Store.getElem?_cells (s : Store P) (j : Nat) :
    (s.cells w)[j]? = if j < s.size then some (s.cell w j) else none := by
  rw [Store.cells, List.getElem?_map]
  split
  · next hj => rw [List.getElem?_range hj, Option.map_some]
  · next hj => rw [List.getElem?_eq_none (by simpa using hj), Option.map_none]

/-- A cell is settled by whether its position is initialised, its value and the pointer over it. -/
theorem Store.cell_congr {s t : Store P} {i j : Nat} (hinit : s.init i = t.init j)
    (hval : s.val i = t.val j) (hfrag : fragAt w s.start i = fragAt w t.start j) :
    s.cell w i = t.cell w j := by
  rw [Store.cell, Store.cell, hinit, hval, hfrag]

/-! ## 2. Overwriting a range -/

/-- `s'` is `s` with `t` put in at `ofs`. -/
structure Overwritten (s t s' : Store P) (ofs : Nat) : Prop where
  fits : ofs + t.size ≤ s.size
  size : s'.size = s.size
  init : ∀ j, s'.init j = if ofs ≤ j ∧ j < ofs + t.size then t.init (j - ofs) else s.init j
  val : ∀ j, j < s.size →
    s'.val j = if ofs ≤ j ∧ j < ofs + t.size then t.val (j - ofs) else s.val j
  start : ∀ j, s'.start j = if ofs ≤ j ∧ j < ofs + t.size then t.start (j - ofs) else s.start j

section Overwritten

variable {s t s' : Store P} {ofs : Nat}

theorem Overwritten.sound (h : Overwritten s t s' ofs) (hs : s.Sound w) (ht : t.Sound w)
    (hw : 0 < w) (hcut : Uncut w s.start ofs t.size) : s'.Sound w where
  apart := by
    intro x y p q hx hy hlt
    rw [h.start] at hx hy
    split at hx <;> split at hy
    · have := ht.apart hx hy (by omega)
      omega
    · have := ht.inside hx
      omega
    · rcases hcut x p hx with h1 | h1 | h1 | h1 <;> omega
    · exact hs.apart hx hy hlt
  inside := by
    intro x p hx
    have hfits := h.fits
    rw [h.start] at hx
    rw [h.size]
    split at hx
    · have := ht.inside hx
      omega
    · exact hs.inside hx
  init := by
    intro x p hx k hk
    rw [h.start] at hx
    rw [h.init]
    split at hx
    · next hin =>
      have hend := ht.inside hx
      rw [if_pos (by omega), show x + k - ofs = x - ofs + k by omega]
      exact ht.init hx k hk
    · next hout =>
      rw [if_neg (by rcases hcut x p hx with h1 | h1 | h1 | h1 <;> omega)]
      exact hs.init hx k hk

/-- The pointer over a position that is overwritten is the one of what is put in. -/
theorem Overwritten.fragAt_in (h : Overwritten s t s' ofs) (hs' : s'.Sound w)
    (hcut : Uncut w s.start ofs t.size) {j : Nat} (hj : ofs ≤ j ∧ j < ofs + t.size) :
    fragAt w s'.start j = fragAt w t.start (j - ofs) := by
  cases hf : fragAt w t.start (j - ofs) with
  | some r =>
    obtain ⟨k, p⟩ := r
    obtain ⟨hk, hkj, hp⟩ := fragAt_some hf
    refine fragAt_eq_some hs'.apart hk (by omega) ?_
    rw [h.start, if_pos (by omega), show j - k - ofs = j - ofs - k by omega]
    exact hp
  | none =>
    refine fragAt_eq_none.mpr fun k hk hkj => ?_
    rw [h.start]
    split
    · rw [show j - k - ofs = j - ofs - k by omega]
      exact fragAt_eq_none.mp hf k hk (by omega)
    · cases hx : s.start (j - k) with
      | none => rfl
      | some p => rcases hcut _ p hx with h1 | h1 | h1 | h1 <;> omega

/-- The pointer over another position stays. -/
theorem Overwritten.fragAt_out (h : Overwritten s t s' ofs) (hs' : s'.Sound w)
    (ht : t.Sound w) (hcut : Uncut w s.start ofs t.size) {j : Nat}
    (hj : ¬(ofs ≤ j ∧ j < ofs + t.size)) : fragAt w s'.start j = fragAt w s.start j := by
  cases hf : fragAt w s.start j with
  | some r =>
    obtain ⟨k, p⟩ := r
    obtain ⟨hk, hkj, hp⟩ := fragAt_some hf
    refine fragAt_eq_some hs'.apart hk hkj ?_
    rw [h.start, if_neg (by rcases hcut _ p hp with h1 | h1 | h1 | h1 <;> omega)]
    exact hp
  | none =>
    refine fragAt_eq_none.mpr fun k hk hkj => ?_
    rw [h.start]
    split
    · next hin =>
      cases hx : t.start (j - k - ofs) with
      | none => rfl
      | some p =>
        have := ht.inside hx
        omega
    · exact fragAt_eq_none.mp hf k hk hkj

/-- **Overwriting a range that cuts no pointer** overwrites its cells. -/
theorem Overwritten.cells (h : Overwritten s t s' ofs) (hs : s.Sound w) (ht : t.Sound w)
    (hw : 0 < w) (hcut : Uncut w s.start ofs t.size) :
    s'.cells w = splice (s.cells w) ofs (t.cells w) := by
  have hs' := h.sound hs ht hw hcut
  have hfits := h.fits
  refine List.ext_getElem? fun j => ?_
  rw [getElem?_splice (by simpa using hfits), Store.getElem?_cells, Store.getElem?_cells,
    Store.getElem?_cells, Store.length_cells, h.size]
  by_cases hlt : j < s.size
  · rw [if_pos hlt, if_pos hlt]
    by_cases hj : ofs ≤ j ∧ j < ofs + t.size
    · rw [if_pos hj, if_pos (by omega)]
      refine congrArg some (Store.cell_congr ?_ ?_ (h.fragAt_in hs' hcut hj))
      · rw [h.init, if_pos hj]
      · rw [h.val j hlt, if_pos hj]
    · rw [if_neg hj]
      refine congrArg some (Store.cell_congr ?_ ?_ (h.fragAt_out hs' ht hcut hj))
      · rw [h.init, if_neg hj]
      · rw [h.val j hlt, if_neg hj]
  · rw [if_neg hlt, if_neg hlt, if_neg (by omega)]

end Overwritten

/-! ## 3. A part of a store -/

/-- The bytes `ofs..ofs + len`. -/
def Store.part (s : Store P) (ofs len : Nat) : Store P where
  size := len
  init i := s.init (ofs + i)
  val i := s.val (ofs + i)
  start i := if i < len then s.start (ofs + i) else none

section Part

variable {s : Store P} {ofs len : Nat}

theorem Store.start_part_eq_some {i : Nat} {p : P} :
    (s.part ofs len).start i = some p ↔ i < len ∧ s.start (ofs + i) = some p := by
  simp [Store.part]

theorem Store.sound_part (hs : s.Sound w) (hcut : Uncut w s.start ofs len) :
    (s.part ofs len).Sound w where
  apart := by
    intro x y p q hx hy hlt
    have := hs.apart (start_part_eq_some.mp hx).2 (start_part_eq_some.mp hy).2 (by omega)
    omega
  inside := by
    intro x p hx
    obtain ⟨hlt, hp⟩ := start_part_eq_some.mp hx
    show x + w ≤ len
    rcases hcut _ p hp with h | h | h | h <;> omega
  init := by
    intro x p hx k hk
    have := hs.init (start_part_eq_some.mp hx).2 k hk
    rwa [Nat.add_assoc] at this

/-- **A part whose range cuts no pointer** has the cells of that range. -/
theorem Store.cells_part (hs : s.Sound w) (hfits : ofs + len ≤ s.size)
    (hcut : Uncut w s.start ofs len) :
    (s.part ofs len).cells w = ((s.cells w).drop ofs).take len := by
  refine List.ext_getElem? fun j => ?_
  rw [List.getElem?_take, List.getElem?_drop, Store.getElem?_cells, Store.getElem?_cells]
  show (if j < len then _ else _) = _
  by_cases hj : j < len
  · rw [if_pos hj, if_pos hj, if_pos (by omega)]
    refine congrArg some (Store.cell_congr rfl rfl ?_)
    cases hf : fragAt w s.start (ofs + j) with
    | some r =>
      obtain ⟨k, p⟩ := r
      obtain ⟨hk, hkj, hp⟩ := fragAt_some hf
      have hin : k ≤ j := by rcases hcut _ p hp with h | h | h | h <;> omega
      refine fragAt_eq_some (sound_part hs hcut).apart hk hin ?_
      refine start_part_eq_some.mpr ⟨by omega, ?_⟩
      rwa [show ofs + (j - k) = ofs + j - k by omega]
    | none =>
      refine fragAt_eq_none.mpr fun k hk hkj => ?_
      have hnone := fragAt_eq_none.mp hf k hk (by omega)
      show (if j - k < len then s.start (ofs + (j - k)) else none) = none
      rw [if_pos (by omega), show ofs + (j - k) = ofs + j - k by omega]
      exact hnone
  · rw [if_neg hj, if_neg hj]

end Part

end Trustme.Lib
