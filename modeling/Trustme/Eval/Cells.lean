/-
  Subject:   The reference memory: every byte of an object is not initialised, a plain byte, or a
             byte of a pointer into some object.

  * `Prov`, `RefObject`, `RefMemory`: the reference objects and what their pointers point into;
  * `RefMemory.slice`, `store`, `copy`: reading and overwriting cells;
  * `RefMemory.read`, `IsPointer`: what a read gives;
  * `refStep`: what an operation of the evaluator does to the reference memory;
  * `Obj.store`, `Memory.ref`: the reference memory that a pool of the evaluator stands for;
  * `cells_imported`: a copy out of a static makes an object for every pointer it takes over.
-/
import Trustme.Lib.Fragments
import Trustme.Eval.Memory

namespace Trustme.Eval

open Trustme.Lib

variable {Path : Type}

/-! ## 1. Objects -/

/-- What a pointer points into: an object of the memory or, in the value of a static, an item or
    bytes of its own. -/
inductive Prov (Path : Type) where
  | object (id : RelocPtr)
  | named (p : Path)
  | bytes (data : List Byte)
deriving DecidableEq

/-- A static has a name. -/
structure RefObject (Path : Type) where
  name : Option Path
  cells : List (Cell (Prov Path))

abbrev RefMemory (Path : Type) := List (RefObject Path)

def plain (data : List Byte) : List (Cell (Prov Path)) := data.map .byte

/-- The object that stands for a target that is none yet. -/
def Prov.target : Prov Path → Option (RefObject Path)
  | .object _ => none
  | .named p => some ⟨some p, []⟩
  | .bytes data => some ⟨none, plain data⟩

/-- The object that the first byte of a pointer asks for. -/
def newTarget : Cell (Prov Path) → Option (RefObject Path)
  | .ptr _ 0 p => p.target
  | _ => none

/-- The object for a target, `fresh` if it is none yet. -/
def Prov.resolve (fresh : RelocPtr) : Prov Path → RelocPtr
  | .object id => id
  | _ => fresh

/-- A pointer byte after its target has become object `id`. -/
def follow : Option RelocPtr → Cell (Prov Path) → Cell (Prov Path)
  | some id, .ptr v k p => .ptr v k (.object (p.resolve id))
  | _, c => c

/-- Cells taken out of an object: a pointer to an item or to bytes of its own now points into a new
    object, `n` being the next. The other bytes of the pointer (`cur`) follow its first. -/
def importCells : Nat → Option RelocPtr → List (Cell (Prov Path)) → List (Cell (Prov Path))
  | _, _, [] => []
  | n, cur, c :: cs =>
    if (newTarget c).isSome then follow (some n) c :: importCells (n + 1) (some n) cs
    else follow cur c :: importCells n cur cs

namespace RefMemory

def slice (R : RefMemory Path) (storage : Option RelocPtr) (ofs len : Nat) :
    List (Cell (Prov Path)) :=
  match storage.bind fun id => R[id]? with
  | some o => (o.cells.drop ofs).take len
  | none => []

def store (R : RefMemory Path) (storage : Option RelocPtr) (ofs : Nat)
    (cells : List (Cell (Prov Path))) : RefMemory Path :=
  match storage with
  | some id => R.modify id fun o => { o with cells := splice o.cells ofs cells }
  | none => R

/-- The new objects that `cells` ask for. -/
def adopt (R : RefMemory Path) (cells : List (Cell (Prov Path))) : RefMemory Path :=
  R ++ cells.filterMap newTarget

def copy (R : RefMemory Path) (dst src : ValueRef) : RefMemory Path :=
  let cells := R.slice src.storage src.ofs (min dst.len src.len)
  (R.adopt cells).store dst.storage dst.ofs (importCells R.length none cells)

end RefMemory

namespace RefMemory

/-- The values of a range, all of it initialised. -/
def read (R : RefMemory Path) (storage : Option RelocPtr) (ofs len : Nat) : Option (List Byte) :=
  let cells := R.slice storage ofs len
  if cells.length = len then cells.mapM Cell.value else none

end RefMemory

/-- The cells are those of one pointer, all `w` bytes of it. -/
def IsPointer (w : Nat) (cells : List (Cell (Prov Path))) (p : Prov Path) : Prop :=
  cells.length = w ∧ ∀ k < w, ∃ v, cells[k]? = some (.ptr v k p)

/-! ## 2. The reference memory of a pool -/

def EncodedReloc.prov (r : EncodedReloc Path) : Prov Path :=
  match r.p with
  | some p => .named p
  | none => .bytes r.bytes

/-- The bytes of a static without a value cannot be read. -/
def Obj.store : Obj Path → Store (Prov Path)
  | .allocation a =>
    { size := a.length
      init := a.mask.test
      val := fun j => a.data.getD j 0
      start := fun j => (a.getReloc j).map .object }
  | .constant c =>
    { size := c.length
      init := fun _ => true
      val := fun j => c.data.getD j 0
      start := fun _ => none }
  | .staticRef s =>
    { size := s.length
      init := fun _ => s.encoded.isSome
      val := fun j => ((s.encoded.map EncodedLiteral.bytes).getD []).getD j 0
      start := fun j => (s.findReloc j).map EncodedReloc.prov }

def Obj.name : Obj Path → Option Path
  | .staticRef s => some s.path
  | _ => none

/-- `w` is the size of a pointer. -/
def Obj.ref (w : Nat) (o : Obj Path) : RefObject Path := ⟨o.name, o.store.cells w⟩

def Memory.ref (w : Nat) (mem : Memory Path) : RefMemory Path := mem.map (Obj.ref w)

/-! ## 3. The steps of the reference memory -/

def refStep (arch : TargetArch) (R : RefMemory Path) : Op Path → RefMemory Path
  | .allocate size => R ++ [⟨none, List.replicate size .uninit⟩]
  | .allocateHeap size => R ++ [⟨none, List.replicate size .uninit⟩]
  | .allocateRo data => R ++ [⟨none, plain data⟩]
  | .constant data => R ++ [⟨none, plain data⟩]
  | .staticRef s => R ++ [(Obj.staticRef s).ref arch.ptrSize]
  | .makeGlobal _ => R
  | .deallocate _ => R
  | .writeBytes dst data => R.store dst.storage dst.ofs (plain data)
  | .writeFloat dst bits value => R.store dst.storage dst.ofs (plain ((value.image bits).getD []))
  | .writeUint dst bits value =>
    R.store dst.storage dst.ofs (plain (toLeBytes value ((bits + 7) / 8)))
  | .writeSint dst bits value =>
    R.store dst.storage dst.ofs (plain (toLeBytes value ((bits + 7) / 8)))
  | .writePtr dst value reloc =>
    let bytes := toLeBytes (value.setWidth 128) arch.ptrSize
    R.store dst.storage dst.ofs <|
      match reloc with
      | some id => bytes.mapIdx fun k v => .ptr v k (.object id)
      | none => plain bytes
  | .copyFrom dst src => R.copy dst src
  | .copyFromOverlapping dst src =>
    if dst.storage = src.storage ∧ dst.ofs = src.ofs then R else R.copy dst src
  | .readPtr src => R.adopt (R.slice src.storage src.ofs 1)

/-! ## 4. Importing the pointers of a static -/

section Import

variable {w : Nat} {s : Store (Prov Path)}

/-- The objects that the pointers before position `k` ask for. -/
def targetsBefore (start : Nat → Option (Prov Path)) (k : Nat) : List (RefObject Path) :=
  (List.range k).filterMap fun i => (start i).bind Prov.target

/-- The object that the pointer at `k` points into after an import, `n` being the next object. -/
def importedId (n : Nat) (start : Nat → Option (Prov Path)) (k : Nat) : Option RelocPtr :=
  (start k).map (Prov.resolve (n + (targetsBefore start k).length))

/-- The store after an import. -/
def imported (n : Nat) (s : Store (Prov Path)) : Store (Prov Path) :=
  { s with start := fun k => (importedId n s.start k).map .object }

theorem targetsBefore_succ (start : Nat → Option (Prov Path)) (k : Nat) :
    targetsBefore start (k + 1) = targetsBefore start k ++ ((start k).bind Prov.target).toList := by
  rw [targetsBefore, targetsBefore, List.range_succ, List.filterMap_append]
  cases h : (start k).bind Prov.target <;> simp [h]

theorem start_imported {n k : Nat} :
    (imported n s).start k = (s.start k).map fun p =>
      .object (p.resolve (n + (targetsBefore s.start k).length)) := by
  simp [imported, importedId, Function.comp_def]

theorem sound_imported (n : Nat) (hs : s.Sound w) : (imported n s).Sound w where
  apart := by
    intro x y p q hx hy hlt
    rw [start_imported, Option.map_eq_some_iff] at hx hy
    obtain ⟨p', hx', -⟩ := hx
    obtain ⟨q', hy', -⟩ := hy
    exact hs.apart hx' hy' hlt
  inside := by
    intro x p hx
    rw [start_imported, Option.map_eq_some_iff] at hx
    obtain ⟨p', hx', -⟩ := hx
    exact hs.inside hx'
  init := by
    intro x p hx
    rw [start_imported, Option.map_eq_some_iff] at hx
    obtain ⟨p', hx', -⟩ := hx
    exact hs.init hx'

/-- The pointer over a position, after an import. -/
theorem fragAt_imported (n : Nat) (hs : s.Sound w) (j : Nat) :
    fragAt w (imported n s).start j = (fragAt w s.start j).map fun r =>
      (r.1, .object (r.2.resolve (n + (targetsBefore s.start (j - r.1)).length))) := by
  cases hf : fragAt w s.start j with
  | none =>
    refine fragAt_eq_none.mpr fun k hk hkj => ?_
    rw [start_imported, fragAt_eq_none.mp hf k hk hkj]
    rfl
  | some r =>
    obtain ⟨k, p⟩ := r
    obtain ⟨hk, hkj, hp⟩ := fragAt_some hf
    refine fragAt_eq_some (sound_imported n hs).apart hk hkj ?_
    rw [start_imported, hp]
    rfl

/-- The first byte of a pointer is the cell where it starts. -/
theorem newTarget_cell (hw : 0 < w) (hs : s.Sound w) (j : Nat) :
    newTarget (s.cell w j) = (s.start j).bind Prov.target := by
  cases hp : s.start j with
  | some p =>
    have hinit : s.init j = true := hs.init hp 0 hw
    have hfrag : fragAt w s.start j = some (0, p) := fragAt_eq_some hs.apart hw (Nat.zero_le j) hp
    rw [Store.cell, hfrag, if_pos hinit]
    rfl
  | none =>
    rw [Store.cell]
    split
    · cases hf : fragAt w s.start j with
      | none => rfl
      | some r =>
        obtain ⟨k, p⟩ := r
        cases k with
        | zero =>
          have hstart := (fragAt_some hf).2.2
          rw [Nat.sub_zero, hp] at hstart
          cases hstart
        | succ k => rfl
    · rfl

theorem filterMap_take_cells (hw : 0 < w) (hs : s.Sound w) {k : Nat} (hk : k ≤ s.size) :
    ((s.cells w).take k).filterMap newTarget = targetsBefore s.start k := by
  rw [Store.cells, ← List.map_take, List.take_range, Nat.min_eq_left hk, List.filterMap_map,
    targetsBefore]
  exact congrFun (congrArg List.filterMap (funext fun i => newTarget_cell hw hs i)) _

/-- The object last made, after `q` more. -/
def lastMade (n : Nat) (cur : Option RelocPtr) : Nat → Option RelocPtr
  | 0 => cur
  | q + 1 => some (n + q)

/-- A cell after an import follows the last pointer that has asked for an object. -/
theorem getElem?_importCells : ∀ {cs : List (Cell (Prov Path))} {n : Nat} {cur : Option RelocPtr}
    {j : Nat}, (importCells n cur cs)[j]? =
      (cs[j]?).map (follow (lastMade n cur ((cs.take (j + 1)).filterMap newTarget).length))
  | [], n, cur, j => by simp [importCells]
  | c :: cs, n, cur, 0 => by
    rw [importCells]
    cases hc : newTarget c <;> simp [hc, lastMade]
  | c :: cs, n, cur, j + 1 => by
    rw [importCells]
    cases hc : newTarget c with
    | some t =>
      have hlast : ∀ q, lastMade (n + 1) (some n) q = lastMade n cur (q + 1) := fun q => by
        cases q with
        | zero => rfl
        | succ q => rw [lastMade, lastMade, show n + 1 + q = n + (q + 1) by omega]
      simp only [Option.isSome_some, if_true, List.getElem?_cons_succ, List.take_succ_cons,
        List.filterMap_cons, hc, List.length_cons]
      rw [getElem?_importCells, hlast]
    | none =>
      simp only [Option.isSome_none, Bool.false_eq_true, if_false, List.getElem?_cons_succ,
        List.take_succ_cons, List.filterMap_cons, hc]
      exact getElem?_importCells

/-- No pointer asks for an object between the start of a pointer and a later byte of it. -/
theorem targetsBefore_inside (hs : s.Sound w) {x k : Nat} {p : Prov Path}
    (hx : s.start x = some p) (hk : k < w) :
    targetsBefore s.start (x + k + 1) = targetsBefore s.start x ++ p.target.toList := by
  induction k with
  | zero =>
    rw [Nat.add_zero, targetsBefore_succ, hx]
    rfl
  | succ k ih =>
    have hnone : s.start (x + (k + 1)) = none := by
      cases hy : s.start (x + (k + 1)) with
      | none => rfl
      | some q =>
        have := hs.apart hx hy (by omega)
        omega
    rw [targetsBefore_succ, hnone, ← ih (by omega)]
    simp [Nat.add_assoc]

/-- The bytes of a pointer follow its first byte. -/
theorem follow_inside (hs : s.Sound w) {n x k : Nat} {p : Prov Path} (hx : s.start x = some p)
    (hk : k < w) (v : Byte) :
    follow (lastMade n none (targetsBefore s.start (x + k + 1)).length) (.ptr v k p) =
      .ptr v k (.object (p.resolve (n + (targetsBefore s.start x).length))) := by
  rw [targetsBefore_inside hs hx hk]
  cases p with
  | object id => cases (targetsBefore s.start x ++ _).length <;> rfl
  | named q => simp [Prov.target, lastMade, follow]
  | bytes data => simp [Prov.target, lastMade, follow]

/-- **An import of cells is an import of the store**: every pointer keeps its place, and the ones
    to items or bytes of their own point into the new objects. -/
theorem cells_imported (hw : 0 < w) (hs : s.Sound w) (n : Nat) :
    (imported n s).cells w = importCells n none (s.cells w) := by
  refine List.ext_getElem? fun j => ?_
  rw [getElem?_importCells, Store.getElem?_cells, Store.getElem?_cells]
  show (if j < s.size then _ else _) = _
  by_cases hj : j < s.size
  · rw [if_pos hj, if_pos hj, Option.map_some, filterMap_take_cells hw hs (by omega), Store.cell,
      Store.cell, fragAt_imported n hs]
    refine congrArg some ?_
    show (if s.init j then _ else _) = _
    cases hf : fragAt w s.start j with
    | none => cases s.init j <;> cases (targetsBefore s.start (j + 1)).length <;> rfl
    | some r =>
      obtain ⟨k, p⟩ := r
      obtain ⟨hk, hkj, hp⟩ := fragAt_some hf
      have hinit := hs.init hp k hk
      have hfollow := follow_inside (n := n) hs hp hk (s.val j)
      rw [show j - k + k = j by omega] at hinit hfollow
      rw [if_pos hinit, if_pos hinit]
      exact hfollow.symm
  · rw [if_neg hj, if_neg hj]
    rfl

end Import

end Trustme.Eval
