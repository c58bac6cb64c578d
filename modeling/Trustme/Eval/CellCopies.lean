/-
  Subject:   Writes and copies of the evaluator against the reference memory.

  * `Stands`: a pool stands for a reference memory;
  * `Stands.writeBytes`, `writeUint`, `writeFloat`, `writePtr`: a write stores cells;
  * `Taking`: a copy while it looks for relocations; `copyRelocs_taking` -- its loop;
  * `masked`, `filled`: the mask that a copy takes over, with the bytes;
  * `Stands.copyFrom`: a copy whose ranges cut no pointer copies cells.
-/
import Trustme.Eval.CellWrites

namespace Trustme.Eval

open Trustme.Lib

variable {Path : Type} {w : Nat}

/-! ## 1. A pool and the reference memory it stands for -/

/-- `mem` stands for `R`. -/
structure Stands (w : Nat) (mem : Memory Path) (R : RefMemory Path) : Prop where
  sound : ∀ o ∈ mem, o.Sound w
  ref : mem.ref w = R

namespace Memory

theorem asValue_some {mem : Memory Path} {storage : Option RelocPtr} {o : Obj Path} :
    mem.asValue storage = some o ↔ ∃ id, storage = some id ∧ mem[id]? = some o := by
  cases storage <;> simp [asValue]

theorem update_some {mem mem' : Memory Path} {storage : Option RelocPtr}
    {f : Allocation → Option Allocation} (h : mem.update storage f = some mem') :
    ∃ id a a', storage = some id ∧ mem[id]? = some (.allocation a) ∧ f a = some a' ∧
      mem' = mem.set id (.allocation a') := by
  unfold update at h
  split at h
  · next id a hid =>
    obtain ⟨id', hsome, hget⟩ := asValue_some.mp hid
    cases hsome
    rw [Option.map_eq_some_iff] at h
    obtain ⟨a', ha', rfl⟩ := h
    exact ⟨id, a, a', rfl, hget, ha', rfl⟩
  · cases h

end Memory

section Stands

variable {mem : Memory Path} {R : RefMemory Path}

variable (h : Stands w mem R)

include h

theorem Stands.length : mem.length = R.length := by
  rw [← h.ref, Memory.ref, List.length_map]

theorem Stands.getElem? (id : Nat) :
    R[id]? = (mem[id]?).map (Obj.ref w) := by
  rw [← h.ref, Memory.ref, List.getElem?_map]

theorem Stands.sound_at {id : Nat} {o : Obj Path} (ho : mem[id]? = some o) :
    o.Sound w := h.sound o (List.mem_of_getElem? ho)

/-- New objects. -/
theorem Stands.append {objs : Memory Path} {refs : RefMemory Path}
    (hrefs : objs.map (Obj.ref w) = refs) (hsound : ∀ o ∈ objs, o.Sound w) :
    Stands w (mem ++ objs) (R ++ refs) where
  sound o ho := by
    rcases List.mem_append.mp ho with hm | hm
    · exact h.sound o hm
    · exact hsound o hm
  ref := by rw [Memory.ref, List.map_append, hrefs, ← h.ref, Memory.ref]

theorem Stands.append_one {o : Obj Path} {r : RefObject Path}
    (href : o.ref w = r) (hsound : o.Sound w) : Stands w (mem ++ [o]) (R ++ [r]) :=
  h.append (by rw [List.map_singleton, href]) fun o' ho' => by
    rw [List.mem_singleton] at ho'
    exact ho' ▸ hsound

/-- An allocation overwritten. -/
theorem Stands.set (hw : 0 < w) {id : RelocPtr} {a a' : Allocation}
    (hid : mem[id]? = some (.allocation a)) (hshape : SameShape a a') {t : Store (Prov Path)}
    {ofs : Nat} (hover : Overwritten (Obj.allocation a).store t (Obj.allocation a').store ofs)
    (ht : t.Sound w) (hcut : Uncut w (Obj.allocation a : Obj Path).store.start ofs t.size) :
    Stands w (mem.set id (.allocation a')) (R.store (some id) ofs (t.cells w)) where
  sound o ho := by
    rcases List.mem_or_eq_of_mem_set ho with hm | rfl
    · exact h.sound o hm
    · exact (h.sound_at hid).overwritten hw hshape hover ht hcut
  ref := by
    have hcells := hover.cells (h.sound_at hid).store ht hw hcut
    refine List.ext_getElem? fun k => ?_
    rw [Memory.ref, List.getElem?_map, RefMemory.store, List.getElem?_modify, h.getElem?,
      List.getElem?_set]
    by_cases hk : id = k
    · subst hk
      have hlt : id < mem.length := (List.getElem?_eq_some_iff.mp hid).1
      rw [if_pos rfl, if_pos hlt, hid]
      simp only [Option.map_some, Obj.ref, hcells, if_true]
      rfl
    · simp [hk]

/-- The cells of a range that cuts no pointer. -/
theorem Stands.slice {storage : Option RelocPtr} {o : Obj Path}
    (ho : mem.asValue storage = some o) {ofs len : Nat} (hfits : ofs + len ≤ o.store.size)
    (hcut : Uncut w o.store.start ofs len) :
    R.slice storage ofs len = (o.store.part ofs len).cells w := by
  obtain ⟨id, rfl, hid⟩ := Memory.asValue_some.mp ho
  rw [Store.cells_part (h.sound_at hid).store hfits hcut, RefMemory.slice, Option.bind_some,
    h.getElem?, hid]
  rfl

end Stands

/-- A range of an object cuts no pointer stored in it. -/
def Memory.Uncut (w : Nat) (mem : Memory Path) (storage : Option RelocPtr) (ofs len : Nat) : Prop :=
  ∀ o, mem.asValue storage = some o → Lib.Uncut w o.store.start ofs len

/-! ## 2. Writes -/

section Writes

variable {mem mem' : Memory Path} {R : RefMemory Path} {v : ValueRef}

/-- Bytes put in by `extWriteBytes`. -/
theorem Stands.write (h : Stands w mem R) (hw : 0 < w) {bytes : List Byte}
    (hstep : mem.update v.storage (fun a =>
      (a.extWriteBytes v.ofs bytes.length).map fun a => a.memcpy v.ofs bytes) = some mem')
    (hcut : mem.Uncut w v.storage v.ofs bytes.length) :
    Stands w mem' (R.store v.storage v.ofs (plain bytes)) := by
  obtain ⟨id, a, a', hid, ha, ha', rfl⟩ := Memory.update_some hstep
  rw [Option.map_eq_some_iff] at ha'
  obtain ⟨b, hb, rfl⟩ := ha'
  have hcut' := hcut _ (Memory.asValue_some.mpr ⟨id, hid, ha⟩)
  obtain ⟨hshape, hover⟩ := written (h.sound_at ha) hb
  rw [hid, ← cells_plainStore (w := w)]
  exact h.set hw ha hshape hover (sound_plainStore bytes) hcut'

theorem RefMemory.store_nil (R : RefMemory Path) (storage : Option RelocPtr) (ofs : Nat) :
    R.store storage ofs [] = R := by
  cases storage with
  | none => rfl
  | some id =>
    refine List.ext_getElem? fun k => ?_
    rw [RefMemory.store, List.getElem?_modify]
    simp [splice]

theorem Stands.writeBytes (h : Stands w mem R) (hw : 0 < w) {data : List Byte}
    (hstep : v.writeBytes mem data = some mem') (hcut : mem.Uncut w v.storage v.ofs data.length) :
    Stands w mem' (R.store v.storage v.ofs (plain data)) := by
  rw [ValueRef.writeBytes, Option.bind_eq_bind, Option.bind_eq_some_iff] at hstep
  obtain ⟨-, -, hstep⟩ := hstep
  split at hstep
  · exact h.write hw hstep hcut
  · next hzero =>
    have hnil : data = [] := List.length_eq_zero_iff.mp (by omega)
    subst hnil
    cases hstep
    rw [plain, List.map_nil, RefMemory.store_nil]
    exact h

theorem length_toLeBytes (value : BitVec 128) {n : Nat} (h : n ≤ 16) :
    (toLeBytes value n).length = n := by
  simp [toLeBytes, h]

theorem Stands.writeUint (h : Stands w mem R) (hw : 0 < w) {bits : Nat} {value : BitVec 128}
    (hstep : v.writeUint mem bits value = some mem') (hbits : bits ≤ 128)
    (hcut : mem.Uncut w v.storage v.ofs ((bits + 7) / 8)) :
    Stands w mem' (R.store v.storage v.ofs (plain (toLeBytes value ((bits + 7) / 8)))) := by
  rw [ValueRef.writeUint, Option.bind_eq_bind, Option.bind_eq_some_iff] at hstep
  obtain ⟨-, -, hstep⟩ := hstep
  have hlen := length_toLeBytes value (show (bits + 7) / 8 ≤ 16 by omega)
  refine h.write hw ?_ (by rw [hlen]; exact hcut)
  rw [hlen]
  exact hstep

theorem FloatValue.length_image {value : FloatValue} {bits : Nat} {bytes : List Byte}
    (h : value.image bits = some bytes) : bytes.length = bits / 8 := by
  unfold FloatValue.image at h
  split at h
  · cases h; simp
  · cases h; simp
  · cases h; simp
  · cases h; simp
  · cases h

theorem Stands.writeFloat (h : Stands w mem R) (hw : 0 < w) {bits : Nat} {value : FloatValue}
    (hstep : v.writeFloat mem bits value = some mem')
    (hcut : mem.Uncut w v.storage v.ofs (bits / 8)) :
    Stands w mem' (R.store v.storage v.ofs (plain ((value.image bits).getD []))) := by
  rw [ValueRef.writeFloat, Option.bind_eq_bind, Option.bind_eq_some_iff] at hstep
  obtain ⟨bytes, hbytes, hstep⟩ := hstep
  rw [hbytes]
  exact h.writeBytes hw hstep (by rw [Option.getD_some, FloatValue.length_image hbytes]; exact hcut)

/-- A pointer: its bytes, then its relocation. -/
theorem Stands.writePtr {arch : TargetArch} (h : Stands arch.ptrSize mem R) {value : BitVec 64}
    {reloc : Option RelocPtr} (hstep : v.writePtr arch mem value reloc = some mem')
    (hcut : mem.Uncut arch.ptrSize v.storage v.ofs arch.ptrSize) :
    Stands arch.ptrSize mem' (refStep arch R (.writePtr v value reloc)) := by
  have hw := arch.ptrSize_pos
  have hle := arch.ptrSize_le
  have hbits : (arch.pointerBits + 7) / 8 = arch.ptrSize := by
    have := arch.whole_bytes
    unfold TargetArch.ptrSize
    omega
  have hlen := length_toLeBytes (value.setWidth 128) (show arch.ptrSize ≤ 16 by omega)
  rw [ValueRef.writePtr, Option.bind_eq_bind, Option.bind_eq_some_iff] at hstep
  obtain ⟨mem₁, hstep₁, hstep₂⟩ := hstep
  rw [ValueRef.writeUint, Option.bind_eq_bind, Option.bind_eq_some_iff, hbits] at hstep₁
  obtain ⟨-, -, hstep₁⟩ := hstep₁
  dsimp only at hstep₁
  obtain ⟨id, a, a', hid, ha, ha', rfl⟩ := Memory.update_some hstep₁
  rw [Option.map_eq_some_iff] at ha'
  obtain ⟨b, hb, rfl⟩ := ha'
  obtain ⟨id', c, c', hid', hc, hc', rfl⟩ := Memory.update_some hstep₂
  have hlt : id < mem.length := (List.getElem?_eq_some_iff.mp ha).1
  rw [hid] at hid'
  cases hid'
  rw [List.getElem?_set_self hlt] at hc
  cases hc
  cases hc'
  rw [List.set_set]
  have hcut' := hcut _ (Memory.asValue_some.mpr ⟨id, hid, ha⟩)
  have hb' : a.extWriteBytes v.ofs (toLeBytes (value.setWidth 128) arch.ptrSize).length =
      some b := by rw [hlen]; exact hb
  obtain ⟨hshape, hover⟩ := written (h.sound_at ha) hb'
  cases reloc with
  | none =>
    show Stands _ _ (R.store v.storage v.ofs (plain _))
    rw [hid, ← cells_plainStore (w := arch.ptrSize)]
    refine h.set hw ha hshape hover (sound_plainStore _) ?_
    show Lib.Uncut _ _ _ (toLeBytes (value.setWidth 128) arch.ptrSize).length
    rw [hlen]
    exact hcut'
  | some p =>
    show Stands _ _ (R.store v.storage v.ofs (List.mapIdx (fun k b => .ptr b k (.object p)) _))
    rw [hid, ← cells_ptrStore hlen]
    have hover' := pointed p (by omega) hover
    refine h.set hw ha ?_ hover' (sound_ptrStore hlen _) ?_
    · exact ⟨hshape.length, hshape.data, hshape.mask⟩
    show Lib.Uncut _ _ _ (toLeBytes (value.setWidth 128) arch.ptrSize).length
    rw [hlen]
    exact hcut'

end Writes

/-! ## 3. Copies -/

/-- A copy under way: `i` bytes looked at for a relocation. `base` is the pool at its beginning and
    `a` the allocation `id` of it. -/
structure Taking (w : Nat) (base : Memory Path) (id : RelocPtr) (a : Allocation)
    (start : Nat → Option (Prov Path)) (ofs i : Nat) (mem : Memory Path) (a' : Allocation) :
    Prop where
  pool : ∃ objs, mem = base.set id (.allocation a') ++ objs ∧
    objs.map (Obj.ref w) = targetsBefore start i ∧ ∀ o ∈ objs, o.Sound w
  alloc : a' = { a with relocations := a'.relocations }
  reloc : ∀ x, a'.getReloc x =
    if ofs ≤ x ∧ x < ofs + i then importedId base.length start (x - ofs) else a.getReloc x

section Copies

variable {base mem mem' : Memory Path} {id : RelocPtr} {a a' : Allocation}
  {start : Nat → Option (Prov Path)} {v other : ValueRef} {len : Nat}

theorem Taking.objs_length {i : Nat} (h : Taking w base id a start v.ofs i mem a') :
    mem.length = base.length + (targetsBefore start i).length := by
  obtain ⟨objs, rfl, href, -⟩ := h.pool
  rw [List.length_append, List.length_set, ← href, List.length_map]

/-- The source of a copy under way: its relocations are those it had. -/
theorem Taking.source (len : Nat) {i : Nat} (h : Taking w base id a start v.ofs i mem a')
    (hid : base[id]? = some (.allocation a)) (hi : i < len)
    (hdisj : other.storage = some id → v.ofs + len ≤ other.ofs ∨ other.ofs + len ≤ v.ofs)
    (hsrc : ∃ o, base.asValue other.storage = some o ∧
      ∀ k < len, o.store.start (other.ofs + k) = start k) :
    ∃ o, mem.asValue other.storage = some o ∧ o.store.start (other.ofs + i) = start i := by
  obtain ⟨o, ho, hstart⟩ := hsrc
  obtain ⟨id', hid', ho'⟩ := Memory.asValue_some.mp ho
  obtain ⟨objs, rfl, -, -⟩ := h.pool
  have hlt : id' < base.length := (List.getElem?_eq_some_iff.mp ho').1
  by_cases heq : id' = id
  · subst heq
    rw [hid] at ho'
    cases ho'
    refine ⟨.allocation a', Memory.asValue_some.mpr ⟨id', hid', ?_⟩, ?_⟩
    · rw [List.getElem?_append_left (by simpa using hlt), List.getElem?_set_self hlt]
    · rw [← hstart i hi]
      have hout := hdisj hid'
      show (a'.getReloc (other.ofs + i)).map _ = (a.getReloc (other.ofs + i)).map _
      rw [h.reloc, if_neg (by omega)]
  · refine ⟨o, Memory.asValue_some.mpr ⟨id', hid', ?_⟩, hstart i hi⟩
    rw [List.getElem?_append_left (by simpa using hlt), List.getElem?_set_ne (Ne.symm heq), ho']

/-- One more byte looked at. -/
theorem Taking.next {i : Nat} {mem₁ mem₂ : Memory Path} {r : Option RelocPtr} {o : Obj Path}
    (h : Taking w base id a start v.ofs i mem a') (hw : 0 < w) (hv : v.storage = some id)
    (hlt : id < base.length) (hclear : a.getReloc (v.ofs + i) = none)
    (hstart : o.store.start (other.ofs + i) = start i)
    (hget : o.getReloc mem (other.ofs + i) = some (r, mem₁))
    (hset : v.takeReloc mem₁ i r = some mem₂) :
    ∃ a'', Taking w base id a start v.ofs (i + 1) mem₂ a'' := by
  obtain ⟨hr, objs', rfl, href', hsound'⟩ := getReloc_step hw hget
  have hlen := h.objs_length
  obtain ⟨objs, rfl, href, hsound⟩ := h.pool
  rw [hstart, hlen] at hr
  rw [hstart] at href'
  have hrefs : (objs ++ objs').map (Obj.ref w) = targetsBefore start (i + 1) := by
    rw [List.map_append, href, href', targetsBefore_succ]
  have hsounds : ∀ o ∈ objs ++ objs', o.Sound w := by
    intro o ho
    rcases List.mem_append.mp ho with hm | hm
    · exact hsound o hm
    · exact hsound' o hm
  have hid : importedId base.length start i = r := hr.symm
  cases r with
  | none =>
    cases hset
    refine ⟨a', ⟨_, List.append_assoc _ _ _, hrefs, hsounds⟩, h.alloc, fun x => ?_⟩
    rw [h.reloc]
    by_cases hx : x = v.ofs + i
    · subst hx
      rw [if_neg (by omega), if_pos (by omega), Nat.add_sub_cancel_left, hid, hclear]
    · by_cases hin : v.ofs ≤ x ∧ x < v.ofs + i
      · rw [if_pos hin, if_pos (by omega)]
      · rw [if_neg hin, if_neg (by omega)]
  | some p =>
    obtain ⟨id', b, b', hid', hb, hb', rfl⟩ := Memory.update_some hset
    rw [hv] at hid'
    cases hid'
    have hself : (base.set id (.allocation a') ++ objs ++ objs')[id]? =
        some (.allocation a') := by
      rw [List.append_assoc, List.getElem?_append_left (by simpa using hlt),
        List.getElem?_set_self hlt]
    rw [hself] at hb
    cases hb
    cases hb'
    refine ⟨a'.setReloc (v.ofs + i) (some p), ⟨objs ++ objs', ?_, hrefs, hsounds⟩, ?_,
      fun x => ?_⟩
    · rw [List.append_assoc, List.set_append_left _ _ (by simpa using hlt), List.set_set]
    · rw [h.alloc]
      rfl
    · rw [getReloc_setReloc, h.reloc]
      by_cases hx : x = v.ofs + i
      · subst hx
        rw [if_pos rfl, if_pos (by omega), Nat.add_sub_cancel_left, hid]
      · rw [if_neg hx]
        by_cases hin : v.ofs ≤ x ∧ x < v.ofs + i
        · rw [if_pos hin, if_pos (by omega)]
        · rw [if_neg hin, if_neg (by omega)]

/-- The loop takes over every relocation of the range. -/
theorem copyRelocs_taking (hw : 0 < w) (hv : v.storage = some id)
    (hid : base[id]? = some (.allocation a))
    (hclear : ∀ i < len, a.getReloc (v.ofs + i) = none)
    (hdisj : other.storage = some id → v.ofs + len ≤ other.ofs ∨ other.ofs + len ≤ v.ofs)
    (hsrc : ∃ o, base.asValue other.storage = some o ∧
      ∀ k < len, o.store.start (other.ofs + k) = start k) :
    ∀ {n i : Nat} {mem : Memory Path} {a' : Allocation}, i + n = len →
      Taking w base id a start v.ofs i mem a' →
      ValueRef.copyRelocs v other mem i n = some mem' →
      ∃ a'', Taking w base id a start v.ofs len mem' a''
  | 0, i, mem, a', hi, h, hstep => by
    cases hstep
    have hil : i = len := by omega
    exact ⟨a', hil ▸ h⟩
  | n + 1, i, mem, a', hi, h, hstep => by
    have hlt : id < base.length := (List.getElem?_eq_some_iff.mp hid).1
    obtain ⟨o, ho, hstart⟩ := h.source len hid (by omega) hdisj hsrc
    rw [ValueRef.copyRelocs, ho] at hstep
    simp only [Option.bind_eq_bind, Option.bind_some] at hstep
    rw [Option.bind_eq_some_iff] at hstep
    obtain ⟨⟨r, mem₁⟩, hget, hstep⟩ := hstep
    rw [Option.bind_eq_some_iff] at hstep
    obtain ⟨mem₂, hset, hrest⟩ := hstep
    obtain ⟨a'', h'⟩ := h.next hw hv hlt (hclear i (by omega)) hstart hget hset
    exact copyRelocs_taking hw hv hid hclear hdisj hsrc (by omega) h' hrest

/-- The mask taken over: the bits of the range are those of the source, wherever it is kept. `a` is
    the destination after its bytes have been written, all of the range being set. -/
theorem masked {o : Obj Path} (hid : mem[id]? = some (.allocation a))
    (hmask : a.mask.length = (a.length + 7) / 8)
    (ho' : mem.asValue other.storage = some o)
    (hset : ∀ j, v.ofs ≤ j → j < v.ofs + len → a.mask.test j = true)
    (hread : ∀ i < len, (∀ s, o ≠ .allocation s) → o.store.init (other.ofs + i) = true)
    (hdisj : other.storage = some id → v.ofs + len ≤ other.ofs ∨ other.ofs + len ≤ v.ofs)
    (h : mem.writeMaskFrom (some id) v.ofs other.storage other.ofs len = some mem') :
    ∃ m, mem' = mem.set id (.allocation { a with mask := m }) ∧
      Copied (fun i => o.store.init (other.ofs + i)) a.mask m v.ofs len := by
  rw [Memory.writeMaskFrom, ho', Option.bind_eq_bind, Option.bind_some] at h
  obtain ⟨id', b, b', hid', hb, hb', rfl⟩ := Memory.update_some h
  cases hid'
  rw [hid] at hb
  cases hb
  split at hb'
  · next hin =>
    simp only [Allocation.inside, Bool.and_eq_true, decide_eq_true_eq] at hin
    have hlen : v.ofs + len ≤ 8 * a.mask.length := by omega
    -- the bits are set already, so that a constant or a static has nothing to change
    have hsame : (∀ s, o ≠ .allocation s) →
        Copied (fun i => o.store.init (other.ofs + i)) a.mask (readMaskSet a.mask v.ofs len)
          v.ofs len := fun hne => by
      obtain ⟨hl, ht⟩ := readMaskSet_sameBits hlen hset
      refine ⟨hl, fun j => ?_⟩
      rw [ht]
      split
      · next hj => rw [hset j hj.1 hj.2, hread (j - v.ofs) (by omega) hne]
      · rfl
    cases o with
    | allocation s =>
      dsimp only at hb'
      split at hb'
      · cases hb'
        refine ⟨_, rfl, ?_⟩
        by_cases heq : some id = other.storage
        · obtain ⟨id', hid', hs⟩ := Memory.asValue_some.mp ho'
          rw [hid'] at heq
          cases heq
          rw [hid] at hs
          cases hs
          rw [if_pos hid'.symm]
          exact readMask_copied (steady_self (hdisj hid')) hlen
        · rw [if_neg heq]
          exact readMask_copied (steady_const _ _ _ _ _) hlen
      · cases hb'
    | constant c =>
      cases hb'
      exact ⟨_, rfl, hsame fun s h => by cases h⟩
    | staticRef s =>
      cases hb'
      exact ⟨_, rfl, hsame fun s h => by cases h⟩
  · cases hb'

/-- What can be read of a constant or static is initialised. -/
theorem init_of_getBytes {o : Obj Path} {ofs n : Nat} {bytes : List Byte}
    (h : o.getBytes ofs n false = some bytes) (hne : ∀ s, o ≠ .allocation s) {i : Nat}
    (hi : i < n) : o.store.init (ofs + i) = true := by
  cases o with
  | allocation a => exact absurd rfl (hne a)
  | constant c => rfl
  | staticRef s =>
    show s.encoded.isSome = true
    simp only [Obj.getBytes, StaticRef.getBytes] at h
    split at h
    · next lit hlit => rw [hlit]; rfl
    · split at h
      · omega
      · cases h

theorem apart_of_storage (h : v.apart other len = true) (heq : v.storage = other.storage) :
    v.ofs + len ≤ other.ofs ∨ other.ofs + len ≤ v.ofs := by
  rw [ValueRef.apart, if_pos heq] at h
  split at h
  · exact .inl (by simpa using h)
  · exact .inr (by simpa using h)

/-- The source of a copy after a change of the destination outside of what is copied. -/
theorem kept (a' : Allocation) {o : Obj Path} (ha : mem[id]? = some (.allocation a))
    (ho : mem.asValue other.storage = some o)
    (hdisj : other.storage = some id → v.ofs + len ≤ other.ofs ∨ other.ofs + len ≤ v.ofs)
    (hinit : ∀ j, ¬(v.ofs ≤ j ∧ j < v.ofs + len) → a'.mask.test j = a.mask.test j)
    (hstart : ∀ j, ¬(v.ofs ≤ j ∧ j < v.ofs + len) → a'.getReloc j = a.getReloc j) :
    ∃ o', Memory.asValue (mem.set id (.allocation a')) other.storage = some o' ∧
      (∀ i < len, o'.store.init (other.ofs + i) = o.store.init (other.ofs + i)) ∧
      (∀ i < len, o'.store.start (other.ofs + i) = o.store.start (other.ofs + i)) ∧
      ((∀ s, o' ≠ .allocation s) → o' = o) := by
  obtain ⟨ido, hido, hoat⟩ := Memory.asValue_some.mp ho
  have hlt : id < mem.length := (List.getElem?_eq_some_iff.mp ha).1
  by_cases heq : ido = id
  · subst heq
    rw [ha] at hoat
    cases hoat
    have hout := hdisj hido
    refine ⟨.allocation a', Memory.asValue_some.mpr ⟨ido, hido, List.getElem?_set_self hlt⟩,
      fun i hi => hinit _ (by omega), fun i hi => ?_, fun hne => absurd rfl (hne a')⟩
    show (a'.getReloc _).map _ = (a.getReloc _).map _
    rw [hstart _ (by omega)]
  · refine ⟨o, Memory.asValue_some.mpr ⟨ido, hido, ?_⟩, fun _ _ => rfl, fun _ _ => rfl,
      fun _ => rfl⟩
    rw [List.getElem?_set_ne (Ne.symm heq), hoat]

/-- After the loop the destination holds the part of the source, its pointers imported. -/
theorem Taking.overwritten {o : Obj Path} {a₁ a₂ a₃ : Allocation} {bytes : List Byte}
    (h : Taking w base id a₂ (o.store.part other.ofs len).start v.ofs len mem' a₃)
    (hover : Overwritten (Obj.allocation a : Obj Path).store (plainStore bytes)
      (Obj.allocation a₁).store v.ofs)
    (hlen : bytes.length = len)
    (hval : ∀ i < len, bytes.getD i 0 = o.store.val (other.ofs + i))
    (ha₂ : ∃ m, a₂ = { a₁ with mask := m } ∧
      Copied (fun i => o.store.init (other.ofs + i)) a₁.mask m v.ofs len) :
    Overwritten (Obj.allocation a : Obj Path).store
      (imported base.length (o.store.part other.ofs len)) (Obj.allocation a₃).store v.ofs := by
  obtain ⟨m, rfl, hm⟩ := ha₂
  have hsize : (plainStore bytes : Store (Prov Path)).size = len := hlen
  refine ⟨hsize ▸ hover.fits, ?_, fun j => ?_, fun j hj => ?_, fun j => ?_⟩
  · rw [h.alloc]
    exact hover.size
  · rw [h.alloc]
    show m.test j = if v.ofs ≤ j ∧ j < v.ofs + len then o.store.init (other.ofs + (j - v.ofs))
      else (Obj.allocation a : Obj Path).store.init j
    have hj := hover.init j
    rw [hsize] at hj
    rw [hm.test]
    split
    · rfl
    · next hout =>
      rw [if_neg hout] at hj
      exact hj
  · rw [h.alloc]
    have hj' := hover.val j hj
    rw [hsize] at hj'
    show (Obj.allocation a₁ : Obj Path).store.val j =
      if v.ofs ≤ j ∧ j < v.ofs + len then o.store.val (other.ofs + (j - v.ofs))
      else (Obj.allocation a : Obj Path).store.val j
    rw [hj']
    split
    · next hin => exact hval (j - v.ofs) (by omega)
    · rfl
  · have hj := hover.start j
    rw [hsize] at hj
    show (a₃.getReloc j).map Prov.object = if v.ofs ≤ j ∧ j < v.ofs + len then
      (importedId base.length (o.store.part other.ofs len).start (j - v.ofs)).map Prov.object
      else (Obj.allocation a : Obj Path).store.start j
    rw [h.reloc]
    split
    · rfl
    · next hout =>
      rw [if_neg hout] at hj
      exact hj

/-- The destination of a copy with its bytes and its mask written, and no relocation in the range
    yet. `a` is the allocation before, and `o` the source. -/
structure Filled (base : Memory Path) (id : RelocPtr) (a a' : Allocation) (o : Obj Path)
    (v other : ValueRef) (bytes : List Byte) : Prop where
  shape : SameShape a a'
  wrote : ∃ a₁ m, Overwritten (Obj.allocation a : Obj Path).store (plainStore bytes)
    (Obj.allocation a₁).store v.ofs ∧ a' = { a₁ with mask := m } ∧
      Copied (fun i => o.store.init (other.ofs + i)) a₁.mask m v.ofs bytes.length
  reloc : ∀ j, a'.getReloc j =
    if v.ofs ≤ j ∧ j < v.ofs + bytes.length then none else a.getReloc j
  source : ∃ o', Memory.asValue (base.set id (.allocation a')) other.storage = some o' ∧
    ∀ i < bytes.length, o'.store.start (other.ofs + i) = o.store.start (other.ofs + i)

/-- The bytes are written, and then the mask is taken over from the source. -/
theorem filled {o : Obj Path} {a₁ : Allocation} {bytes : List Byte}
    (hsound : (Obj.allocation a : Obj Path).Sound w) (ha : mem[id]? = some (.allocation a))
    (ho : mem.asValue other.storage = some o)
    (hbytes : o.getBytes other.ofs bytes.length false = some bytes)
    (hdisj : other.storage = some id →
      v.ofs + bytes.length ≤ other.ofs ∨ other.ofs + bytes.length ≤ v.ofs)
    (ha₁ : a.writeBytes v.ofs bytes = some a₁)
    (hmask : Memory.writeMaskFrom (mem.set id (.allocation a₁)) (some id) v.ofs other.storage
      other.ofs bytes.length = some mem') :
    ∃ a', mem' = mem.set id (.allocation a') ∧ Filled mem id a a' o v other bytes := by
  have hlt : id < mem.length := (List.getElem?_eq_some_iff.mp ha).1
  rw [Allocation.writeBytes, Option.map_eq_some_iff] at ha₁
  obtain ⟨b, hb, rfl⟩ := ha₁
  obtain ⟨hshape, hover⟩ := written hsound hb
  have hreloc := getReloc_extWriteBytes hb
  have hinit : ∀ j, (b.memcpy v.ofs bytes).mask.test j =
      if v.ofs ≤ j ∧ j < v.ofs + bytes.length then true else a.mask.test j := hover.init
  obtain ⟨o₁, ho₁, hinit₁, -, hne₁⟩ := kept (b.memcpy v.ofs bytes) ha ho hdisj
    (fun j hj => by rw [hinit, if_neg hj]) (fun j hj => (hreloc j).trans (if_neg hj))
  obtain ⟨m, rfl, hm⟩ := masked (List.getElem?_set_self hlt)
    (by rw [hshape.mask, hshape.length]; exact hsound.2.1) ho₁
    (fun j h1 h2 => by rw [hinit, if_pos ⟨h1, h2⟩])
    (fun i hi hne => by
      rw [hinit₁ i hi]
      exact init_of_getBytes hbytes (fun s hs => hne s ((hne₁ hne).trans hs)) hi)
    hdisj hmask
  have hm' : Copied (fun i => o.store.init (other.ofs + i)) (b.memcpy v.ofs bytes).mask m
      v.ofs bytes.length := by
    refine ⟨hm.length, fun j => ?_⟩
    rw [hm.test]
    split
    · exact hinit₁ _ (by omega)
    · rfl
  obtain ⟨o₂, ho₂, -, hstart₂, -⟩ := kept { b.memcpy v.ofs bytes with mask := m } ha ho hdisj
    (fun j hj => by rw [hm'.test, if_neg hj, hinit, if_neg hj])
    (fun j hj => (hreloc j).trans (if_neg hj))
  exact ⟨{ b.memcpy v.ofs bytes with mask := m }, List.set_set ..,
    ⟨hshape.length, hshape.data, hm.length.trans hshape.mask⟩, ⟨_, m, hover, rfl, hm'⟩, hreloc,
    o₂, ho₂, hstart₂⟩

/-- What a copy does to the pool: one allocation changes and new objects come at the end. -/
structure Copying (w : Nat) (mem mem' : Memory Path) (R : RefMemory Path) (v other : ValueRef) :
    Prop where
  length : (R.slice other.storage other.ofs (min v.len other.len)).length = min v.len other.len
  pool : ∃ id a₀ a objs, v.storage = some id ∧ mem[id]? = some (.allocation a₀) ∧
    mem' = mem.set id (.allocation a) ++ objs ∧ objs.map (Obj.ref w) =
      (R.slice other.storage other.ofs (min v.len other.len)).filterMap newTarget

/-- The relocations are taken over, and the cells of the range are those of the source. -/
theorem Filled.copy {R : RefMemory Path} {o : Obj Path} {a₂ : Allocation} {bytes : List Byte}
    (hfill : Filled mem id a a₂ o v other bytes) (h : Stands w mem R) (hw : 0 < w)
    (hid : v.storage = some id) (ha : mem[id]? = some (.allocation a))
    (ho : mem.asValue other.storage = some o) (hosound : o.Sound w)
    (hbytes : o.getBytes other.ofs bytes.length false = some bytes)
    (hlen : min v.len other.len = bytes.length)
    (hdisj : other.storage = some id →
      v.ofs + bytes.length ≤ other.ofs ∨ other.ofs + bytes.length ≤ v.ofs)
    (hsrc : mem.Uncut w other.storage other.ofs bytes.length)
    (hdst : mem.Uncut w v.storage v.ofs bytes.length)
    (hloop : ValueRef.copyRelocs v other (mem.set id (.allocation a₂)) 0 bytes.length = some mem') :
    Stands w mem' (R.copy v other) ∧ Copying w mem mem' R v other := by
  have hlt : id < mem.length := (List.getElem?_eq_some_iff.mp ha).1
  obtain ⟨hofits, -, hbval⟩ := Obj.getBytes_some hosound hbytes
  obtain ⟨a₁, m, hover, ha₂, hm⟩ := hfill.wrote
  obtain ⟨o₂, ho₂, hstart₂⟩ := hfill.source
  have hbegin : Taking w (mem.set id (.allocation a₂)) id a₂
      (o.store.part other.ofs bytes.length).start v.ofs 0 (mem.set id (.allocation a₂)) a₂ :=
    ⟨⟨[], by rw [List.set_set, List.append_nil], rfl, fun o ho => absurd ho List.not_mem_nil⟩,
      rfl, fun x => by rw [if_neg (by omega)]⟩
  obtain ⟨a₃, h₃⟩ := copyRelocs_taking hw hid (List.getElem?_set_self hlt)
    (fun i hi => by rw [hfill.reloc, if_pos (by omega)]) hdisj
    ⟨o₂, ho₂, fun k hk => by
      rw [hstart₂ k hk]
      exact (if_pos hk).symm⟩ (Nat.zero_add _) hbegin hloop
  have hover₃ := h₃.overwritten hover rfl hbval ⟨m, ha₂, hm⟩
  obtain ⟨objs, rfl, hrefs, hsounds⟩ := h₃.pool
  have hshape₃ : SameShape a a₃ := by
    rw [h₃.alloc]
    exact ⟨hfill.shape.length, hfill.shape.data, hfill.shape.mask⟩
  have hcuto := hsrc o ho
  have hpart := Store.sound_part hosound.store hcuto
  have htargets : targetsBefore (o.store.part other.ofs bytes.length).start bytes.length =
      ((o.store.part other.ofs bytes.length).cells w).filterMap newTarget := by
    rw [← filterMap_take_cells hw hpart (Nat.le_refl bytes.length), List.take_of_length_le]
    rw [Store.length_cells]
    exact Nat.le_refl bytes.length
  have hslice := h.slice ho hofits hcuto
  refine ⟨?_, ?_, id, a, a₃, objs, hid, ha, by rw [List.set_set], ?_⟩
  rotate_left
  · rw [hlen, hslice, Store.length_cells]
    rfl
  · rw [hlen, hslice, ← htargets, hrefs]
  rw [List.set_set, ← List.set_append_left _ _ hlt, RefMemory.copy, hlen, hslice, hid, ← h.length]
  have hadopt := h.append hrefs hsounds
  have hat : (mem ++ objs)[id]? = some (.allocation a) := by
    rw [List.getElem?_append_left hlt, ha]
  have hfin := hadopt.set hw hat hshape₃ hover₃ (sound_imported _ hpart)
    (hdst _ (Memory.asValue_some.mpr ⟨id, hid, ha⟩))
  rw [cells_imported hw hpart, List.length_set] at hfin
  rw [htargets] at hfin
  exact hfin

/-- **`copyFrom` copies cells**, wherever the two storages are kept. -/
theorem Stands.copyFrom {R : RefMemory Path} (h : Stands w mem R) (hw : 0 < w)
    (hstep : v.copyFrom mem other = some mem')
    (hsrc : mem.Uncut w other.storage other.ofs (min v.len other.len))
    (hdst : mem.Uncut w v.storage v.ofs (min v.len other.len)) :
    Stands w mem' (R.copy v other) ∧ Copying w mem mem' R v other := by
  generalize hlen : min v.len other.len = len at hsrc hdst
  rw [ValueRef.copyFrom, hlen] at hstep
  split at hstep
  · dsimp only at hstep
    split at hstep
    · next hapart =>
      simp only [Option.bind_eq_bind, Option.bind_eq_some_iff] at hstep
      obtain ⟨o, ho, bytes, hbytes, mem₁, hmem₁, mem₂, hmem₂, hloop⟩ := hstep
      obtain ⟨id, a, a₁, hid, ha, ha₁, rfl⟩ := Memory.update_some hmem₁
      obtain ⟨ido, hido, hoat⟩ := Memory.asValue_some.mp ho
      have hosound := h.sound_at hoat
      obtain ⟨-, rfl, -⟩ := Obj.getBytes_some hosound hbytes
      have hdisj : other.storage = some id →
          v.ofs + bytes.length ≤ other.ofs ∨ other.ofs + bytes.length ≤ v.ofs := fun heq =>
        apart_of_storage hapart (hid.trans heq.symm)
      rw [hid] at hmem₂
      obtain ⟨a₂, rfl, hfill⟩ := filled (h.sound_at ha) ha ho hbytes hdisj ha₁ hmem₂
      exact hfill.copy h hw hid ha ho hosound hbytes hlen hdisj hsrc hdst hloop
    · cases hstep
  · cases hstep

end Copies

end Trustme.Eval
