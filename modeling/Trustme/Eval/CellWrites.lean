/-
  Subject:   What the operations of the evaluator do to the cells of one object.

  * `Obj.Sound`: what holds of every object of the pool between two operations;
  * `getReloc_setReloc`, `getReloc_extWriteBytes`: the relocation list as a map from offsets;
  * `written`, `pointed`: a write overwrites cells with plain bytes, or with a pointer;
  * `getReloc_step`: a relocation that a copy takes over.
-/
import Mathlib.Data.List.GetD
import Mathlib.Data.List.TakeWhile
import Trustme.Eval.Cells

namespace Trustme.Eval

open Trustme.Lib

variable {Path : Type} {w : Nat}

/-! ## 1. Soundness -/

/-- The lists have their lengths, and the pointers stored lie apart on initialised bytes. -/
def Obj.Sound (w : Nat) : Obj Path → Prop
  | .allocation a =>
    a.data.length = a.length ∧ a.mask.length = (a.length + 7) / 8 ∧
      (Obj.allocation a : Obj Path).store.Sound w
  | .constant c => c.length ≤ c.data.length
  | .staticRef s => (Obj.staticRef s).store.Sound w

theorem Obj.Sound.store {o : Obj Path} (h : o.Sound w) : o.store.Sound w := by
  cases o with
  | allocation a => exact h.2.2
  | staticRef s => exact h
  | constant c => exact ⟨nofun, nofun, nofun⟩

variable {ofs len : Nat} {bytes : List Byte}

/-- What `getBytes` without the check gives: the values of the cells of the range. -/
theorem Obj.getBytes_some {o : Obj Path} (ho : o.Sound w)
    (h : o.getBytes ofs len false = some bytes) :
    ofs + len ≤ o.store.size ∧ bytes.length = len ∧
      ∀ i < len, bytes.getD i 0 = o.store.val (ofs + i) := by
  have key : ∀ data : List Byte, ofs + len ≤ data.length → bytes = (data.drop ofs).take len →
      bytes.length = len ∧ ∀ i < len, bytes.getD i 0 = data.getD (ofs + i) 0 := by
    intro data hdata hb
    subst hb
    refine ⟨by rw [List.length_take, List.length_drop]; omega, fun i hi => ?_⟩
    rw [List.getD_eq_getElem?_getD, List.getElem?_take, if_pos hi, List.getElem?_drop,
      List.getD_eq_getElem?_getD]
  cases o with
  | allocation a =>
    simp only [Obj.getBytes, Allocation.getBytes, Bool.false_and, Bool.false_eq_true,
      if_false] at h
    split at h
    · cases h
    · next hin =>
      simp only [Bool.not_eq_true, Bool.not_eq_false', Allocation.inside, Bool.and_eq_true,
        decide_eq_true_eq] at hin
      cases h
      exact ⟨hin.2, key a.data (by rw [ho.1]; exact hin.2) rfl⟩
  | constant c =>
    simp only [Obj.getBytes, Constant.getBytes] at h
    split at h
    · next hin =>
      cases h
      have hle : c.length ≤ c.data.length := ho
      exact ⟨hin.2.2, key c.data (by omega) rfl⟩
    · cases h
  | staticRef s =>
    simp only [Obj.getBytes, StaticRef.getBytes] at h
    split at h
    · next lit hlit =>
      split at h
      · next hin =>
        cases h
        have hlen := s.length_eq lit hlit
        have hfits : ofs + len ≤ s.length := by omega
        refine ⟨hfits, ?_⟩
        simp only [Obj.store, hlit, Option.map_some, Option.getD_some]
        exact key lit.bytes hin.2.2 rfl
      · cases h
    · split at h
      · next hin =>
        cases h
        obtain ⟨rfl, hle⟩ := hin
        exact ⟨hle, rfl, fun i hi => absurd hi (Nat.not_lt_zero i)⟩
      · cases h

/-! ## 2. The relocation list -/

theorem getReloc_setReloc (a : Allocation) (ofs : Nat) (p : RelocPtr) (x : Nat) :
    (a.setReloc ofs (some p)).getReloc x = if x = ofs then some p else a.getReloc x := by
  have hsplit := List.takeWhile_append_dropWhile
    (p := fun r : Reloc => decide (r.offset < ofs)) (l := a.relocations)
  rw [Allocation.setReloc, Allocation.getReloc, Allocation.getReloc]
  dsimp only
  rw [List.find?_append]
  split
  · next hx =>
    subst hx
    have hnone : (a.relocations.takeWhile fun r => r.offset < x).find?
        (fun r => r.offset == x) = none := by
      refine List.find?_eq_none.mpr fun r hr => ?_
      have hlt := List.mem_takeWhile_imp hr
      simp only [decide_eq_true_eq] at hlt
      simp only [beq_iff_eq]
      omega
    rw [hnone, Option.none_or, List.find?_cons_of_pos (by simp), Option.map_some]
  · next hx =>
    rw [List.find?_cons_of_neg (by simpa using fun h => hx h.symm), ← List.find?_append, hsplit]

variable {a a' : Allocation}

theorem getReloc_extWriteBytes (h : a.extWriteBytes ofs len = some a') (x : Nat) :
    a'.getReloc x = if ofs ≤ x ∧ x < ofs + len then none else a.getReloc x := by
  rw [Allocation.extWriteBytes] at h
  split at h
  · cases h
    rw [Allocation.getReloc, Allocation.getReloc]
    dsimp only
    rw [List.find?_filter]
    split
    · next hx =>
      rw [List.find?_eq_none.mpr, Option.map_none]
      intro r _
      by_cases hr : r.offset = x
      · subst hr
        simp [hx]
      · simp [hr]
    · next hx =>
      refine congrArg _ (congrFun (congrArg List.find? (funext fun r => ?_)) _)
      by_cases hr : r.offset = x
      · subst hr
        have hkeep : (!(decide (ofs ≤ r.offset) && decide (r.offset < ofs + len))) = true := by
          simp only [Bool.not_eq_true', Bool.and_eq_false_iff, decide_eq_false_iff_not]
          omega
        simp [hkeep]
      · simp [hr]
  · cases h

theorem extWriteBytes_fits (h : a.extWriteBytes ofs len = some a') : ofs + len ≤ a.length := by
  rw [Allocation.extWriteBytes] at h
  split at h
  · next hin =>
    simp only [Allocation.inside, Bool.and_eq_true, decide_eq_true_eq] at hin
    exact hin.2
  · cases h

/-! ## 3. Plain bytes and pointers put into an allocation -/

/-- Plain bytes. -/
def plainStore (bytes : List Byte) : Store (Prov Path) where
  size := bytes.length
  init := fun _ => true
  val := fun j => bytes.getD j 0
  start := fun _ => none

/-- The bytes of one pointer. -/
def ptrStore (bytes : List Byte) (p : Prov Path) : Store (Prov Path) :=
  { (plainStore bytes : Store (Prov Path)) with start := fun j => if j = 0 then some p else none }

theorem sound_plainStore (bytes : List Byte) : (plainStore bytes : Store (Prov Path)).Sound w :=
  ⟨nofun, nofun, nofun⟩

theorem sound_ptrStore (hb : bytes.length = w) (p : Prov Path) :
    (ptrStore bytes p).Sound w where
  apart := by
    intro x y p q hx hy hlt
    have hy' : (if y = 0 then some _ else none) = some q := hy
    split at hy'
    · omega
    · cases hy'
  inside := by
    intro x q hx
    have hx' : (if x = 0 then some _ else none) = some q := hx
    split at hx'
    · show x + w ≤ bytes.length
      omega
    · cases hx'
  init := fun _ _ _ => rfl

theorem cells_plainStore (bytes : List Byte) :
    (plainStore bytes : Store (Prov Path)).cells w = plain bytes := by
  refine List.ext_getElem? fun j => ?_
  have hf : fragAt w (plainStore bytes : Store (Prov Path)).start j = none :=
    fragAt_eq_none.mpr fun _ _ _ => rfl
  rw [Store.getElem?_cells, Store.cell, hf, plain, List.getElem?_map]
  show (if j < bytes.length then some (Cell.byte (bytes.getD j 0)) else none) = _
  split
  · next hj => rw [List.getElem?_eq_getElem hj, List.getD_eq_getElem _ _ hj, Option.map_some]
  · next hj => rw [List.getElem?_eq_none (by omega), Option.map_none]

theorem cells_ptrStore (hb : bytes.length = w) (p : Prov Path) :
    (ptrStore bytes p).cells w = bytes.mapIdx fun k v => .ptr v k p := by
  refine List.ext_getElem? fun j => ?_
  rw [Store.getElem?_cells, List.getElem?_mapIdx]
  show (if j < bytes.length then _ else none) = _
  split
  · next hj =>
    have hf : fragAt w (ptrStore bytes p).start j = some (j, p) :=
      fragAt_eq_some (sound_ptrStore hb p).apart (by omega) (Nat.le_refl j) (by simp [ptrStore])
    rw [List.getElem?_eq_getElem hj, Option.map_some, Store.cell, hf]
    show some (Cell.ptr (bytes.getD j 0) j p) = _
    rw [List.getD_eq_getElem _ _ hj]
  · next hj => rw [List.getElem?_eq_none (by omega), Option.map_none]

/-- The lengths that a write keeps. -/
structure SameShape (a a' : Allocation) : Prop where
  length : a'.length = a.length
  data : a'.data.length = a.data.length
  mask : a'.mask.length = a.mask.length

/-- A write of bytes. -/
theorem written (ha : (Obj.allocation a : Obj Path).Sound w)
    (h : a.extWriteBytes ofs bytes.length = some a') :
    SameShape a (a'.memcpy ofs bytes) ∧
      Overwritten (Obj.allocation a : Obj Path).store (plainStore bytes)
        (Obj.allocation (a'.memcpy ofs bytes)).store ofs := by
  have hfits := extWriteBytes_fits h
  have hget := getReloc_extWriteBytes h
  obtain ⟨hdata, hmask, -⟩ := ha
  have hsplice : ofs + bytes.length ≤ a.data.length := by omega
  rw [Allocation.extWriteBytes] at h
  split at h
  · cases h
    have hm := extWriteMask_marked (show ofs + bytes.length ≤ 8 * a.mask.length by omega)
    refine ⟨⟨rfl, length_splice hsplice, hm.length⟩, hfits, rfl, fun j => ?_, fun j hj => ?_,
      fun j => ?_⟩
    · show (extWriteMask a.mask ofs bytes.length).test j =
        if ofs ≤ j ∧ j < ofs + bytes.length then true else a.mask.test j
      rw [hm.test]
      by_cases hj : ofs ≤ j ∧ j < ofs + bytes.length <;> simp [hj]
    · show (splice a.data ofs bytes).getD j 0 =
        if ofs ≤ j ∧ j < ofs + bytes.length then bytes.getD (j - ofs) 0 else a.data.getD j 0
      rw [List.getD_eq_getElem?_getD, getElem?_splice hsplice, List.getD_eq_getElem?_getD,
        List.getD_eq_getElem?_getD]
      split <;> rfl
    · have hj := hget j
      show (Allocation.getReloc _ j).map _ =
        if ofs ≤ j ∧ j < ofs + bytes.length then none else (a.getReloc j).map _
      rw [show ∀ b : Allocation, (b.memcpy ofs bytes).getReloc j =
        b.getReloc j from fun _ => rfl, hj]
      split <;> rfl
  · cases h

/-- What a write keeps makes the allocation sound again. -/
theorem Obj.Sound.overwritten (ha : (Obj.allocation a : Obj Path).Sound w) (hw : 0 < w)
    (hshape : SameShape a a') {t : Store (Prov Path)}
    (h : Overwritten (Obj.allocation a).store t (Obj.allocation a').store ofs) (ht : t.Sound w)
    (hcut : Uncut w (Obj.allocation a : Obj Path).store.start ofs t.size) :
    (Obj.allocation a' : Obj Path).Sound w :=
  ⟨hshape.data.trans (ha.1.trans hshape.length.symm),
    by rw [hshape.mask, ha.2.1, hshape.length], h.sound ha.store ht hw hcut⟩

/-- A write of a pointer: its bytes, and a relocation at the first of them. -/
theorem pointed (id : RelocPtr) (hpos : 0 < bytes.length)
    (h : Overwritten (Obj.allocation a : Obj Path).store (plainStore bytes)
      (Obj.allocation a').store ofs) :
    Overwritten (Obj.allocation a : Obj Path).store (ptrStore bytes (.object id))
      (Obj.allocation (a'.setReloc ofs (some id))).store ofs where
  fits := h.fits
  size := h.size
  init := h.init
  val := h.val
  start j := by
    have hj := h.start j
    show ((a'.setReloc ofs (some id)).getReloc j).map Prov.object =
      if ofs ≤ j ∧ j < ofs + bytes.length then (if j - ofs = 0 then _ else none) else _
    rw [getReloc_setReloc]
    by_cases hofs : j = ofs
    · subst hofs
      simp [hpos]
    · have hj' : ((a'.getReloc j).map .object : Option (Prov Path)) =
          if ofs ≤ j ∧ j < ofs + bytes.length then none
          else (Obj.allocation a : Obj Path).store.start j := hj
      rw [if_neg hofs, hj']
      split
      · rw [if_neg (by omega)]
      · rfl

/-! ## 4. The new objects of a static -/

theorem sound_new (len : Nat) : (Obj.allocation (.new len) : Obj Path).Sound w :=
  ⟨by simp [Allocation.new], by simp [Allocation.new], nofun, nofun, nofun⟩

theorem ref_new (h : len < 2 ^ 32) :
    (Obj.allocation (.new len) : Obj Path).ref w = ⟨none, List.replicate len .uninit⟩ := by
  have hlen : len % 2 ^ 32 = len := Nat.mod_eq_of_lt h
  have hcell : ∀ j, (Obj.allocation (.new len) : Obj Path).store.cell w j = .uninit := by
    intro j
    have hinit : (Obj.allocation (.new len) : Obj Path).store.init j = false := by
      show Mask.test (List.replicate ((len % 2 ^ 32 + 7) / 8) 0) j = false
      rw [Mask.test_eq, List.getD_eq_getElem?_getD, List.getElem?_replicate]
      split <;> simp
    rw [Store.cell, hinit]
    rfl
  refine congrArg (RefObject.mk none) (List.ext_getElem? fun j => ?_)
  rw [Store.getElem?_cells, hcell, List.getElem?_replicate]
  show (if j < len % 2 ^ 32 then _ else _) = _
  rw [hlen]

/-- A read-only allocation holds the bytes it is made of. -/
theorem allocateRo_ref (Path : Type) {data : List Byte} (hw : 0 < w)
    (h : allocateRo data = some a) :
    (Obj.allocation a : Obj Path).ref w = ⟨none, plain data⟩ ∧
      (Obj.allocation a : Obj Path).Sound w := by
  rw [allocateRo, Option.map_eq_some_iff] at h
  obtain ⟨b, hb, rfl⟩ := h
  rw [Allocation.writeBytes, Option.map_eq_some_iff] at hb
  obtain ⟨c, hc, rfl⟩ := hb
  have hnew : (Obj.allocation (.new data.length) : Obj Path).Sound w := sound_new data.length
  obtain ⟨hshape, hover⟩ := written hnew hc
  have hcut : Uncut w (Obj.allocation (.new data.length) : Obj Path).store.start 0
      (plainStore data : Store (Prov Path)).size := nofun
  have hsound := hnew.overwritten hw hshape hover (sound_plainStore data) hcut
  have hcells := hover.cells hnew.store (sound_plainStore data) hw hcut
  have hfits : 0 + data.length ≤ data.length % 2 ^ 32 := extWriteBytes_fits hc
  rw [cells_plainStore, splice_all] at hcells
  · exact ⟨congrArg (RefObject.mk none) hcells, hsound⟩
  · rw [Store.length_cells, plain, List.length_map]
    show data.length = data.length % 2 ^ 32
    have := Nat.mod_le data.length (2 ^ 32)
    omega

/-- The object that a relocation of a static asks for. -/
theorem target_ref {r : EncodedReloc Path} {obj : Obj Path} (hw : 0 < w)
    (h : r.target = some obj) : r.prov.target = some (obj.ref w) ∧ obj.Sound w := by
  unfold EncodedReloc.target at h
  unfold EncodedReloc.prov
  cases hp : r.p with
  | some p =>
    simp only [hp] at h ⊢
    cases h
    exact ⟨rfl, nofun, nofun, nofun⟩
  | none =>
    simp only [hp, Option.map_eq_some_iff] at h ⊢
    obtain ⟨a, ha, rfl⟩ := h
    obtain ⟨href, hsound⟩ := allocateRo_ref Path hw ha
    exact ⟨congrArg some href.symm, hsound⟩

/-- `getReloc` gives the object that the pointer at `ofs` points into, which it makes where the
    pointer is one of a static. -/
theorem getReloc_step {o : Obj Path} {mem mem' : Memory Path} {r : Option RelocPtr} (hw : 0 < w)
    (h : o.getReloc mem ofs = some (r, mem')) :
    r = (o.store.start ofs).map (Prov.resolve mem.length) ∧
      ∃ objs, mem' = mem ++ objs ∧
        objs.map (Obj.ref w) = ((o.store.start ofs).bind Prov.target).toList ∧
        ∀ obj ∈ objs, obj.Sound w := by
  cases o with
  | allocation a =>
    simp only [Obj.getReloc, Option.some.injEq, Prod.mk.injEq] at h
    obtain ⟨rfl, rfl⟩ := h
    have hstart : (Obj.allocation a : Obj Path).store.start ofs =
        (a.getReloc ofs).map Prov.object := rfl
    rw [hstart]
    refine ⟨?_, [], (List.append_nil _).symm, ?_, nofun⟩
    · cases a.getReloc ofs <;> rfl
    · cases a.getReloc ofs <;> rfl
  | constant c =>
    simp only [Obj.getReloc, Option.some.injEq, Prod.mk.injEq] at h
    obtain ⟨rfl, rfl⟩ := h
    exact ⟨rfl, [], (List.append_nil _).symm, rfl, nofun⟩
  | staticRef s =>
    have hstart : (Obj.staticRef s : Obj Path).store.start ofs =
        (s.findReloc ofs).map EncodedReloc.prov := rfl
    rw [hstart]
    simp only [Obj.getReloc] at h
    split at h
    · next hnone =>
      simp only [Option.some.injEq, Prod.mk.injEq] at h
      obtain ⟨rfl, rfl⟩ := h
      rw [hnone]
      exact ⟨rfl, [], (List.append_nil _).symm, rfl, nofun⟩
    · next reloc hreloc =>
      rw [Option.map_eq_some_iff] at h
      obtain ⟨obj, hobj, heq⟩ := h
      simp only [Prod.mk.injEq] at heq
      obtain ⟨rfl, rfl⟩ := heq
      obtain ⟨htarget, hsound⟩ := target_ref hw hobj
      rw [hreloc]
      refine ⟨?_, [obj], rfl, ?_, by simpa using hsound⟩
      · show some mem.length = some (reloc.prov.resolve mem.length)
        cases hp : reloc.prov with
        | object id => rw [hp] at htarget; cases htarget
        | named p => rfl
        | bytes data => rfl
      · show [obj.ref w] = ((some reloc.prov).bind Prov.target).toList
        rw [Option.bind_some, htarget]
        rfl

end Trustme.Eval
