/-
  Subject:   The evaluator's memory against the reference memory, over whole runs.

  * `Meets`: the operation cuts no stored pointer and makes no object of 4 GiB or more;
  * `step_stands`: a step that meets it does what the reference step does;
  * `run_refines`: so does every run, and the reads agree after it;
  * `memory_not_refined`: what happens to a pointer that is cut.
-/
import Trustme.Eval.CellCopies

namespace Trustme.Eval

open Trustme.Lib

variable {Path : Type} {w : Nat}

/-! ## 1. When a step does what the reference step does -/

/-- The range written cuts no pointer of its object, the range read by a copy none of its own; an
    integer has 128 bits at most, the pointers of a static lie apart; and an object made has less
    than 4 GiB, its length being an `unsigned`. -/
def Meets (arch : TargetArch) (mem : Memory Path) : Op Path → Prop
  | .allocate size | .allocateHeap size => size < 2 ^ 32
  | .allocateRo _ => True
  | .constant data => data.length < 2 ^ 32
  | .staticRef s => (Obj.staticRef s).Sound arch.ptrSize
  | .makeGlobal _ | .deallocate _ => True
  | .writeBytes dst data => mem.Uncut arch.ptrSize dst.storage dst.ofs data.length
  | .writeFloat dst bits _ => mem.Uncut arch.ptrSize dst.storage dst.ofs (bits / 8)
  | .writeUint dst bits _ | .writeSint dst bits _ =>
    bits ≤ 128 ∧ mem.Uncut arch.ptrSize dst.storage dst.ofs ((bits + 7) / 8)
  | .writePtr dst _ _ => mem.Uncut arch.ptrSize dst.storage dst.ofs arch.ptrSize
  | .copyFrom dst src =>
    mem.Uncut arch.ptrSize src.storage src.ofs (min dst.len src.len) ∧
      mem.Uncut arch.ptrSize dst.storage dst.ofs (min dst.len src.len)
  | .copyFromOverlapping dst src =>
    (dst.storage = src.storage ∧ dst.ofs = src.ofs) ∨
      mem.Uncut arch.ptrSize src.storage src.ofs (min dst.len src.len) ∧
        mem.Uncut arch.ptrSize dst.storage dst.ofs (min dst.len src.len)
  | .readPtr _ => True


section Overlapping

variable {mem mem' : Memory Path} {R : RefMemory Path} {v other : ValueRef}

/-! ## 2. Overlapping copies -/

theorem importCells_none {cs : List (Cell (Prov Path))} (h : ∀ c ∈ cs, newTarget c = none)
    (n : Nat) : importCells n none cs = cs := by
  induction cs with
  | nil => rfl
  | cons c cs ih =>
    rw [importCells, h c List.mem_cons_self, ih fun c' hc' => h c' (List.mem_cons_of_mem c hc')]
    rfl

/-- A copy of cells whose pointers all point into objects. -/
theorem RefMemory.copy_eq (h : ∀ c ∈ R.slice other.storage other.ofs (min v.len other.len),
      newTarget c = none) :
    R.copy v other =
      R.store v.storage v.ofs (R.slice other.storage other.ofs (min v.len other.len)) := by
  have hnil : (R.slice other.storage other.ofs (min v.len other.len)).filterMap newTarget = [] :=
    List.filterMap_eq_nil_iff.mpr h
  rw [RefMemory.copy, importCells_none h, RefMemory.adopt, hnil, List.append_nil]

variable {id : RelocPtr}

/-- The pointers of an allocation point into objects. -/
theorem Stands.newTarget_slice (h : Stands w mem R) (hw : 0 < w) {a : Allocation}
    (hid : mem[id]? = some (.allocation a)) (ofs len : Nat) :
    ∀ c ∈ R.slice (some id) ofs len, newTarget c = none := by
  intro c hc
  rw [RefMemory.slice, Option.bind_some, h.getElem?, hid] at hc
  have hmem := List.mem_of_mem_drop (List.mem_of_mem_take hc)
  have hmem' : c ∈ (Obj.allocation a : Obj Path).store.cells w := hmem
  rw [Store.cells, List.mem_map] at hmem'
  obtain ⟨j, -, rfl⟩ := hmem'
  rw [newTarget_cell hw (h.sound_at hid).store]
  show ((a.getReloc j).map Prov.object).bind Prov.target = none
  cases a.getReloc j <;> rfl

theorem Stands.take (h : Stands w mem R) (n : Nat) : Stands w (mem.take n) (R.take n) where
  sound o ho := h.sound o (List.mem_of_mem_take ho)
  ref := by rw [← h.ref, Memory.ref, Memory.ref, List.map_take]

theorem slice_zero {n : Nat} {v' : ValueRef} (h : v.slice 0 n = some v') :
    n ≤ v.len ∧ v'.storage = v.storage ∧ v'.ofs = v.ofs ∧ v'.len = n := by
  have hofs := v.ofs_lt
  have hlen := v.len_lt
  rw [ValueRef.slice] at h
  split at h
  · next hin =>
    cases h
    exact ⟨by omega, rfl, Nat.mod_eq_of_lt (by omega), Nat.mod_eq_of_lt (by omega)⟩
  · cases h

theorem ensureLive_lt (h : v.ensureLive mem = true) (hid : v.storage = some id) :
    id < mem.length := by
  rw [ValueRef.ensureLive, hid] at h
  dsimp only at h
  by_cases hlt : id < mem.length
  · exact hlt
  · rw [List.getElem?_eq_none (Nat.le_of_not_lt hlt)] at h
    cases h

/-- Only an allocation is copied into. -/
theorem copyFrom_allocation (h : v.copyFrom mem other = some mem') :
    ∃ id a, v.storage = some id ∧ mem[id]? = some (.allocation a) := by
  rw [ValueRef.copyFrom] at h
  split at h
  · dsimp only at h
    split at h
    · simp only [Option.bind_eq_bind, Option.bind_eq_some_iff] at h
      obtain ⟨o, -, bytes, -, mem₁, hmem₁, -⟩ := h
      obtain ⟨id, a, -, hid, ha, -, -⟩ := Memory.update_some hmem₁
      exact ⟨id, a, hid, ha⟩
    · cases h
  · cases h

theorem RefMemory.slice_append {T : RefMemory Path} (hlt : id < R.length)
    (ofs len : Nat) : RefMemory.slice (R ++ T) (some id) ofs len = R.slice (some id) ofs len := by
  rw [RefMemory.slice, RefMemory.slice, Option.bind_some, Option.bind_some,
    List.getElem?_append_left hlt]

theorem RefMemory.store_append {T : RefMemory Path} (hlt : id < R.length) (ofs : Nat)
    (cells : List (Cell (Prov Path))) :
    RefMemory.store (R ++ T) (some id) ofs cells = R.store (some id) ofs cells ++ T := by
  refine List.ext_getElem? fun k => ?_
  rw [RefMemory.store, RefMemory.store, List.getElem?_modify]
  rcases Nat.lt_or_ge k R.length with hk | hk
  · rw [List.getElem?_append_left hk, List.getElem?_append_left (by simpa using hk),
      List.getElem?_modify]
  · have hne : id ≠ k := fun h => absurd (h ▸ hlt) (Nat.not_lt.mpr hk)
    rw [List.getElem?_append_right hk, List.getElem?_append_right (by simpa using hk),
      List.length_modify]
    simp [hne]

@[simp] theorem RefMemory.length_store (R : RefMemory Path) (id : RelocPtr) (ofs : Nat)
    (cells : List (Cell (Prov Path))) : (R.store (some id) ofs cells).length = R.length := by
  rw [RefMemory.store, List.length_modify]

/-- The last object read as a whole. -/
theorem RefMemory.slice_last {id n : Nat} (hid : id = R.length) (o : RefObject Path)
    (hn : o.cells.length = n) : RefMemory.slice (R ++ [o]) (some id) 0 n = o.cells := by
  subst hid hn
  rw [RefMemory.slice, Option.bind_some, List.getElem?_concat_length]
  simp

/-- The last object overwritten as a whole. -/
theorem RefMemory.store_last (hid : id = R.length) {o : RefObject Path}
    {cells : List (Cell (Prov Path))} (hcells : cells.length = o.cells.length) :
    RefMemory.store (R ++ [o]) (some id) 0 cells = R ++ [⟨o.name, cells⟩] := by
  subst hid
  refine List.ext_getElem? fun k => ?_
  rw [RefMemory.store, List.getElem?_modify]
  rcases Nat.lt_or_ge k R.length with hk | hk
  · have hne : R.length ≠ k := by omega
    rw [List.getElem?_append_left hk, List.getElem?_append_left hk]
    simp [hne]
  · rw [List.getElem?_append_right hk, List.getElem?_append_right hk]
    by_cases heq : R.length = k
    · subst heq
      simp [splice_all hcells]
    · have hpos : k - R.length ≠ 0 := by omega
      obtain ⟨j, hj⟩ := Nat.exists_eq_succ_of_ne_zero hpos
      simp [hj]

/-- A copy over the scratch allocation. -/
theorem Stands.copyScratch (h : Stands w mem R) (hw : 0 < w) {n : Nat} {source target : ValueRef}
    {mem₁ mem₂ : Memory Path} (hn : n < 2 ^ 32) (hlt : id < mem.length)
    (hs : source.storage = some id) (hsl : source.len = n) (ht : target.storage = some id)
    (htl : target.len = n)
    (hstep₁ : (ValueRef.whole mem.length n).copyFrom (mem ++ [.allocation (.new n)]) source =
      some mem₁) (hstep₂ : target.copyFrom mem₁ (ValueRef.whole mem.length n) = some mem₂)
    (hsrc : mem.Uncut w (some id) source.ofs n) (hdst : mem.Uncut w (some id) target.ofs n) :
    Stands w (mem₂.take mem.length)
      (R.store (some id) target.ofs (R.slice (some id) source.ofs n)) ∧
      ∀ c ∈ R.slice (some id) source.ofs n, newTarget c = none := by
  have hlen := h.length
  have hltR : id < R.length := hlen ▸ hlt
  have hwhole : (ValueRef.whole mem.length n).len = n := Nat.mod_eq_of_lt hn
  have hmin₁ : min (ValueRef.whole mem.length n).len source.len = n := by omega
  have hmin₂ : min target.len (ValueRef.whole mem.length n).len = n := by omega
  have h₀ : Stands w (mem ++ [.allocation (.new n)])
      (R ++ [⟨none, List.replicate n .uninit⟩]) :=
    h.append_one (ref_new hn) (sound_new n)
  -- the part is copied to the scratch allocation
  obtain ⟨h₁, hc₁⟩ := h₀.copyFrom hw hstep₁
    (by
      rw [hmin₁, hs]
      intro o ho
      rw [Memory.asValue, Option.bind_some, List.getElem?_append_left hlt] at ho
      exact hsrc o ho)
    (by
      intro o ho
      rw [ValueRef.whole, Memory.asValue, Option.bind_some, List.getElem?_concat_length] at ho
      cases ho
      intro x p h
      have h : none = some p := h
      cases h)
  obtain ⟨id₁, a₀, a, objs, hid₁, -, rfl, -⟩ := hc₁.pool
  cases hid₁
  have hkept : (List.set (mem ++ [.allocation (.new n)]) mem.length (.allocation a) ++ objs)[id]? =
      mem[id]? := by
    have hlt' :
      id < (List.set (mem ++ [.allocation (.new n)]) mem.length (.allocation a)).length := by
      rw [List.length_set, List.length_append]
      exact Nat.lt_add_right _ hlt
    rw [List.getElem?_append_left hlt', List.getElem?_set_ne (Nat.ne_of_gt hlt),
      List.getElem?_append_left hlt]
  obtain ⟨id₂, b, hid₂, hb⟩ := copyFrom_allocation hstep₂
  rw [ht] at hid₂
  cases hid₂
  rw [hkept] at hb
  have hplain := h.newTarget_slice hw hb source.ofs n
  have hcells := hc₁.length
  rw [hmin₁, hs, RefMemory.slice_append hltR] at hcells
  have hR₁ : RefMemory.copy (R ++ [⟨none, List.replicate n .uninit⟩])
      (ValueRef.whole mem.length n) source =
        R ++ [⟨none, R.slice (some id) source.ofs n⟩] := by
    rw [RefMemory.copy_eq (by rw [hmin₁, hs, RefMemory.slice_append hltR]; exact hplain), hmin₁, hs,
      RefMemory.slice_append hltR]
    exact RefMemory.store_last hlen (by simpa using hcells)
  rw [hR₁] at h₁
  -- and back
  have hlast : (List.set (mem ++ [.allocation (.new n)]) mem.length (.allocation a) ++
      objs)[mem.length]? = some (.allocation a) := by
    rw [List.getElem?_append_left (by simp), List.getElem?_set_self (by simp)]
  have hsize : a.length = n := by
    have href := h₁.getElem? mem.length
    rw [hlast, hlen, List.getElem?_concat_length, Option.map_some] at href
    have hlens := congrArg (fun o : RefObject Path => o.cells.length) (Option.some.inj href)
    dsimp only [Obj.ref] at hlens
    rw [hcells, Store.length_cells] at hlens
    exact hlens.symm
  obtain ⟨h₂, -⟩ := h₁.copyFrom hw hstep₂
    (by
      rw [hmin₂]
      intro o ho
      rw [ValueRef.whole, Memory.asValue, Option.bind_some, hlast] at ho
      cases ho
      intro x p hx
      have hin := (h₁.sound_at hlast).store.inside hx
      have hin' : x + w ≤ a.length := hin
      exact .inr (.inr (.inl ⟨Nat.zero_le x, by rw [ValueRef.whole]; omega⟩)))
    (by
      rw [hmin₂, ht]
      intro o ho
      rw [Memory.asValue, Option.bind_some, hkept] at ho
      exact hdst o ho)
  have hback := RefMemory.slice_last hlen ⟨none, R.slice (some id) source.ofs n⟩ hcells
  have hR₂ : RefMemory.copy (R ++ [⟨none, R.slice (some id) source.ofs n⟩]) target
      (ValueRef.whole mem.length n) =
        R.store (some id) target.ofs (R.slice (some id) source.ofs n) ++
          [⟨none, R.slice (some id) source.ofs n⟩] := by
    have hback' : RefMemory.slice (R ++ [⟨none, R.slice (some id) source.ofs n⟩])
        (ValueRef.whole mem.length n).storage (ValueRef.whole mem.length n).ofs n =
          R.slice (some id) source.ofs n := hback
    rw [RefMemory.copy_eq (by rw [hmin₂, hback']; exact hplain), hmin₂, hback', ht]
    exact RefMemory.store_append hltR _ _
  have h₃ := h₂.take mem.length
  have hlen' : mem.length =
      (R.store (some id) target.ofs (R.slice (some id) source.ofs n)).length :=
    hlen.trans (RefMemory.length_store R id _ _).symm
  rw [hR₂, List.take_left' hlen'.symm] at h₃
  exact ⟨h₃, hplain⟩

/-- **`copyFromOverlapping` copies cells**, by way of the scratch allocation where it has to. -/
theorem Stands.copyFromOverlapping (h : Stands w mem R) (hw : 0 < w)
    (hstep : v.copyFromOverlapping mem other = some mem')
    (hcut : (v.storage = other.storage ∧ v.ofs = other.ofs) ∨
      mem.Uncut w other.storage other.ofs (min v.len other.len) ∧
        mem.Uncut w v.storage v.ofs (min v.len other.len)) :
    Stands w mem' (if v.storage = other.storage ∧
      v.ofs = other.ofs then R else R.copy v other) := by
  rw [ValueRef.copyFromOverlapping] at hstep
  split at hstep
  · next hlive =>
    rw [Bool.and_eq_true] at hlive
    dsimp only at hstep
    split at hstep
    · next hnone =>
      cases hstep
      split
      · exact h
      · next hne =>
        have hzero : min v.len other.len = 0 := by tauto
        have hnil : R.slice other.storage other.ofs 0 = [] := by
          rw [RefMemory.slice]
          split <;> simp
        rw [RefMemory.copy_eq (by rw [hzero, hnil]; exact List.forall_mem_nil _), hzero, hnil,
          RefMemory.store_nil]
        exact h
    · next hsome =>
      obtain ⟨hsrc, hdst⟩ := hcut.resolve_left fun hsame => hsome (.inr hsame)
      rw [if_neg fun hsame => hsome (.inr hsame)]
      split at hstep
      · exact (h.copyFrom hw hstep hsrc hdst).1
      · next hover =>
        push Not at hover
        simp only [Option.bind_eq_bind, Option.bind_eq_some_iff] at hstep
        obtain ⟨source, hsource, target, htarget, mem₁, hstep₁, mem₂, hstep₂, hend⟩ := hstep
        cases hend
        obtain ⟨hle₁, hs, hso, hsl⟩ := slice_zero hsource
        obtain ⟨hle₂, ht, hto, htl⟩ := slice_zero htarget
        obtain ⟨id, b, hid, hb⟩ := copyFrom_allocation hstep₂
        rw [ht] at hid
        have hido : other.storage = some id := hover.1.symm.trans hid
        have hlt := ensureLive_lt hlive.1 hid
        have hlen := v.len_lt
        obtain ⟨hscratch, hplain⟩ := h.copyScratch hw (by omega) hlt (hs.trans hido) hsl
          (ht.trans hid) htl
          hstep₁ hstep₂ (by rw [hso, ← hido]; exact hsrc) (by rw [hto, ← hid]; exact hdst)
        rw [hso] at hplain hscratch
        rw [RefMemory.copy_eq (by rw [hido]; exact hplain), hid, hido, ← hto]
        exact hscratch
  · cases hstep

end Overlapping

/-! ## 3. Reads -/

section Reads

variable {mem mem' : Memory Path} {R : RefMemory Path} {v : ValueRef}

/-- The cells of a range, whether or not it cuts a pointer. -/
theorem Stands.slice_eq (h : Stands w mem R) {storage : Option RelocPtr} {o : Obj Path}
    (ho : mem.asValue storage = some o) (ofs len : Nat) :
    R.slice storage ofs len = ((o.store.cells w).drop ofs).take len := by
  obtain ⟨id, rfl, hid⟩ := Memory.asValue_some.mp ho
  rw [RefMemory.slice, Option.bind_some, h.getElem?, hid]
  rfl

theorem value_cell (s : Store (Prov Path)) (j : Nat) :
    (s.cell w j).value = if s.init j then some (s.val j) else none := by
  rw [Store.cell]
  split
  · split <;> rfl
  · rfl

theorem mapM_ite {f : Nat → Byte} {p : Nat → Bool} : ∀ l : List Nat,
    l.mapM (fun i => if p i then some (f i) else none) =
      if ∀ i ∈ l, p i = true then some (l.map f) else none
  | [] => rfl
  | i :: l => by
    rw [List.mapM_cons, mapM_ite l]
    cases hp : p i with
    | false => simp [hp]
    | true =>
      have hiff : (∀ j ∈ i :: l, p j = true) ↔ ∀ j ∈ l, p j = true := by simp [hp]
      simp only [hiff, if_true]
      split <;> rfl

/-- The values of a range that lies inside and is initialised. -/
theorem RefMemory.read_eq (h : Stands w mem R) {storage : Option RelocPtr} {o : Obj Path}
    (ho : mem.asValue storage = some o) {ofs len : Nat} (hlen : 1 ≤ len) :
    R.read storage ofs len = if ofs + len ≤ o.store.size ∧ ∀ i < len, o.store.init (ofs + i) = true
      then some ((List.range len).map fun i => o.store.val (ofs + i)) else none := by
  rw [RefMemory.read, h.slice_eq ho, List.length_take, List.length_drop, Store.length_cells]
  by_cases hfits : ofs + len ≤ o.store.size
  · have hcells : ((o.store.cells w).drop ofs).take len =
        (List.range len).map fun i => o.store.cell w (ofs + i) := by
      refine List.ext_getElem? fun j => ?_
      rw [List.getElem?_take, List.getElem?_drop, Store.getElem?_cells, List.getElem?_map]
      split
      · next hj => rw [if_pos (by omega), List.getElem?_range hj, Option.map_some]
      · next hj => rw [List.getElem?_eq_none (by simpa using hj), Option.map_none]
    have hvalue : Cell.value ∘ (fun i => o.store.cell w (ofs + i)) =
        fun i => if o.store.init (ofs + i) then some (o.store.val (ofs + i)) else none :=
      funext fun i => value_cell o.store (ofs + i)
    rw [if_pos (by omega), hcells, List.mapM_map, hvalue, mapM_ite]
    simp only [List.mem_range, hfits, true_and]
  · rw [if_neg (by omega), if_neg fun hin => hfits hin.1]

/-- `getBytes` with the check. -/
theorem getBytes_check {o : Obj Path} (ho : o.Sound w) {ofs len : Nat} (hlen : 1 ≤ len) :
    o.getBytes ofs len true = if ofs + len ≤ o.store.size ∧
      ∀ i < len, o.store.init (ofs + i) = true
      then some ((List.range len).map fun i => o.store.val (ofs + i)) else none := by
  -- whatever passes the check has the values that are read without it
  have key : ∀ bytes, o.getBytes ofs len false = some bytes →
      bytes = (List.range len).map fun i => o.store.val (ofs + i) := by
    intro bytes hb
    obtain ⟨-, hblen, hval⟩ := Obj.getBytes_some ho hb
    refine List.ext_getElem? fun j => ?_
    rw [List.getElem?_map]
    rcases Nat.lt_or_ge j len with hj | hj
    · have hv := hval j hj
      rw [List.getD_eq_getElem _ _ (hblen ▸ hj)] at hv
      rw [List.getElem?_range hj, List.getElem?_eq_getElem (hblen ▸ hj), Option.map_some, hv]
    · rw [List.getElem?_eq_none (hblen.symm ▸ hj), List.getElem?_eq_none (by simpa using hj),
        Option.map_none]
  cases o with
  | allocation a =>
    have hinside : a.inside ofs len = true ↔ ofs + len ≤ a.length := by
      simp only [Allocation.inside, Bool.and_eq_true, decide_eq_true_eq]
      omega
    have hunchecked := key ((a.data.drop ofs).take len)
    simp only [Obj.getBytes, Allocation.getBytes] at hunchecked ⊢
    show _ = if ofs + len ≤ a.length ∧ ∀ i < len, a.mask.test (ofs + i) = true then _ else none
    by_cases hin : ofs + len ≤ a.length
    · rw [hinside.mpr hin] at hunchecked ⊢
      have hmask : (∀ i < len, a.mask.test (ofs + i) = true) ↔
          (checkMask a.mask ofs len).isSome = true := by
        rw [checkMask_isSome]
        refine ⟨fun h j h1 h2 => ?_, fun h i hi => h _ (by omega) (by omega)⟩
        have hj := h (j - ofs) (by omega)
        rwa [show ofs + (j - ofs) = j by omega] at hj
      simp only [hmask]
      cases hc : checkMask a.mask ofs len with
      | none => simp
      | some u =>
        simp only [Option.isNone_some, Option.isSome_some, Bool.and_false, Bool.not_true,
          Bool.false_eq_true, if_false, and_true, if_pos hin]
        exact congrArg some (hunchecked rfl)
    · have hout : a.inside ofs len = false := by
        rw [← Bool.not_eq_true, hinside]
        exact hin
      rw [hout, if_pos (by decide)]
      exact (if_neg fun h => hin h.1).symm
  | constant c =>
    have hunchecked := key ((c.data.drop ofs).take len)
    simp only [Obj.getBytes, Constant.getBytes] at hunchecked ⊢
    show _ = if ofs + len ≤ c.length ∧ ∀ i < len, true = true then _ else none
    by_cases hin : ofs + len ≤ c.length
    · have hin' : ofs ≤ c.length ∧ len ≤ c.length ∧ ofs + len ≤ c.length := by omega
      rw [if_pos hin'] at hunchecked ⊢
      rw [if_pos ⟨hin, fun _ _ => rfl⟩]
      exact congrArg some (hunchecked rfl)
    · rw [if_neg fun h => hin h.2.2, if_neg fun h => hin h.1]
  | staticRef s =>
    show _ = if ofs + len ≤ s.length ∧ ∀ i < len, s.encoded.isSome = true then _ else none
    cases hs : s.encoded with
    | none =>
      simp only [Obj.getBytes, StaticRef.getBytes, hs]
      rw [if_neg fun h => by omega, if_neg fun h => by simpa using h.2 0 (by omega)]
    | some lit =>
      have hlen := s.length_eq lit hs
      have hunchecked := key ((lit.bytes.drop ofs).take len)
      simp only [Obj.getBytes, StaticRef.getBytes, hs] at hunchecked ⊢
      by_cases hin : ofs + len ≤ s.length
      · have hin' : ofs ≤ lit.bytes.length ∧ len ≤ lit.bytes.length ∧
            ofs + len ≤ lit.bytes.length := by omega
        rw [if_pos hin'] at hunchecked ⊢
        rw [if_pos ⟨hin, fun _ _ => rfl⟩]
        exact congrArg some (hunchecked rfl)
      · rw [if_neg fun h => hin (by omega), if_neg fun h => hin h.1]

/-- **A read gives the values of the cells**, and nothing if one of them is not initialised. -/
theorem Stands.extReadBytes (h : Stands w mem R) (hlive : v.ensureLive mem = true) {len : Nat}
    (hlen : 1 ≤ len) : v.extReadBytes mem len = R.read v.storage v.ofs len := by
  rw [ValueRef.extReadBytes, if_pos (by simp [hlive, hlen])]
  cases ho : mem.asValue v.storage with
  | none =>
    have hslice : R.slice v.storage v.ofs len = [] := by
      rw [RefMemory.slice]
      split
      · next o hsome =>
        obtain ⟨id, hid, hat⟩ := Option.bind_eq_some_iff.mp hsome
        rw [h.getElem?, Option.map_eq_some_iff] at hat
        obtain ⟨obj, hobj, -⟩ := hat
        rw [Memory.asValue_some.mpr ⟨id, hid, hobj⟩] at ho
        cases ho
      · rfl
    rw [RefMemory.read, hslice]
    rw [if_neg (by simp; omega)]
    rfl
  | some o =>
    obtain ⟨id, hid, hat⟩ := Memory.asValue_some.mp ho
    rw [RefMemory.read_eq h ho hlen]
    exact getBytes_check (h.sound_at hat) hlen

/-- The pointer that starts at a position is the one whose bytes are all there. -/
theorem isPointer_iff {s : Store (Prov Path)} (hw : 0 < w) (hs : s.Sound w) {ofs : Nat}
    {p : Prov Path} :
    IsPointer w (((s.cells w).drop ofs).take w) p ↔ s.start ofs = some p := by
  constructor
  · rintro ⟨-, hcells⟩
    obtain ⟨v, hv⟩ := hcells 0 hw
    rw [List.getElem?_take, if_pos hw, List.getElem?_drop, Store.getElem?_cells] at hv
    split at hv
    · rw [Option.some.injEq, Store.cell] at hv
      split at hv
      · split at hv
        · next k q hf =>
          cases hv
          exact (fragAt_some hf).2.2
        · cases hv
      · cases hv
    · cases hv
  · intro hp
    have hfits := hs.inside hp
    refine ⟨by rw [List.length_take, List.length_drop, Store.length_cells]; omega, fun k hk => ?_⟩
    have hf : fragAt w s.start (ofs + k) = some (k, p) :=
      fragAt_eq_some hs.apart hk (Nat.le_add_left k ofs) (by rw [Nat.add_sub_cancel]; exact hp)
    rw [List.getElem?_take, if_pos hk, List.getElem?_drop, Store.getElem?_cells,
      if_pos (by omega), Store.cell, hf, if_pos (hs.init hp k hk)]
    exact ⟨_, rfl⟩

/-- **`readPtr` finds the pointer whose bytes are all there**, and makes an object for it where it
    is one of a static. -/
theorem Stands.readPtr {arch : TargetArch} (h : Stands arch.ptrSize mem R) {address : Nat}
    {r : Option RelocPtr} (hstep : v.readPtr arch mem = some ((address, r), mem')) :
    Stands arch.ptrSize mem' (R.adopt (R.slice v.storage v.ofs 1)) ∧
      ∀ id, r = some id ↔ ∃ p, IsPointer arch.ptrSize (R.slice v.storage v.ofs arch.ptrSize) p ∧
        id = p.resolve R.length := by
  have hw := arch.ptrSize_pos
  rw [ValueRef.readPtr] at hstep
  simp only [Option.bind_eq_bind, Option.bind_eq_some_iff] at hstep
  obtain ⟨address', -, o, ho, ⟨r', mem₁⟩, hget, heq⟩ := hstep
  cases heq
  obtain ⟨id, hid, hat⟩ := Memory.asValue_some.mp ho
  have hsound := (h.sound_at hat).store
  obtain ⟨hr, objs, rfl, hrefs, hsounds⟩ := getReloc_step hw hget
  refine ⟨?_, fun id => ?_⟩
  · refine h.append ?_ hsounds
    have hcell : ((o.store.cells arch.ptrSize).drop v.ofs).take 1 =
        ((o.store.cells arch.ptrSize)[v.ofs]?).toList := by
      refine List.ext_getElem? fun j => ?_
      rw [List.getElem?_take, List.getElem?_drop]
      cases j with
      | zero => cases (o.store.cells arch.ptrSize)[v.ofs]? <;> simp
      | succ j => cases (o.store.cells arch.ptrSize)[v.ofs]? <;> simp
    rw [hrefs, h.slice_eq ho, hcell, Store.getElem?_cells]
    split
    · rw [Option.toList_some, List.filterMap_cons, newTarget_cell hw hsound]
      cases (o.store.start v.ofs).bind Prov.target <;> rfl
    · next hout =>
      cases hp : o.store.start v.ofs with
      | none => rfl
      | some p =>
        have := hsound.inside hp
        omega
  · rw [hr, h.slice_eq ho, Option.map_eq_some_iff, ← h.length]
    refine ⟨fun ⟨p, hp, heq⟩ => ⟨p, (isPointer_iff hw hsound).mpr hp, heq.symm⟩,
      fun ⟨p, hp, heq⟩ => ⟨p, (isPointer_iff hw hsound).mp hp, heq.symm⟩⟩

end Reads

/-! ## 4. Runs -/

section Runs

variable {arch : TargetArch} {mem mem' : Memory Path} {R : RefMemory Path}

/-- A change of the flags of an allocation. -/
theorem Stands.flags (h : Stands w mem R) {storage : Option RelocPtr}
    {f : Allocation → Option Allocation} (hstep : mem.update storage f = some mem')
    (hf : ∀ a a', f a = some a' →
      a'.length = a.length ∧ a'.relocations = a.relocations ∧ a'.data = a.data ∧ a'.mask = a.mask) :
    Stands w mem' R := by
  obtain ⟨id, a, a', -, ha, ha', rfl⟩ := Memory.update_some hstep
  have hstore : (Obj.allocation a' : Obj Path).store = (Obj.allocation a).store := by
    obtain ⟨h1, h2, h3, h4⟩ := hf a a' ha'
    simp only [Obj.store, Allocation.getReloc, h1, h2, h3, h4]
  have hlt : id < mem.length := (List.getElem?_eq_some_iff.mp ha).1
  refine ⟨fun o ho => ?_, List.ext_getElem? fun k => ?_⟩
  · rcases List.mem_or_eq_of_mem_set ho with hm | rfl
    · exact h.sound o hm
    · obtain ⟨h1, h2, h3, h4⟩ := hf a a' ha'
      obtain ⟨g1, g2, g3⟩ := h.sound_at ha
      refine ⟨?_, ?_, by rw [hstore]; exact g3⟩
      · rw [h1, h3, g1]
      · rw [h1, h4, g2]
  · rw [Memory.ref, List.getElem?_map, h.getElem?, List.getElem?_set]
    split
    · next hk =>
      subst hk
      rw [ha, Option.map_some, Option.map_some, Obj.ref, hstore]
      rfl
    · rfl

theorem makeGlobal_flags {a a' : Allocation} (h : a.makeGlobal = some a') :
    a'.length = a.length ∧ a'.relocations = a.relocations ∧ a'.data = a.data ∧
      a'.mask = a.mask := by
  rw [Allocation.makeGlobal] at h
  split at h
  · cases h
    exact ⟨rfl, rfl, rfl, rfl⟩
  · cases h

theorem deallocate_flags {a a' : Allocation} (h : a.deallocate = some a') :
    a'.length = a.length ∧ a'.relocations = a.relocations ∧ a'.data = a.data ∧
      a'.mask = a.mask := by
  rw [Allocation.deallocate] at h
  split at h
  · cases h
    exact ⟨rfl, rfl, rfl, rfl⟩
  · cases h

theorem ref_constant {data : List Byte} (h : data.length < 2 ^ 32) :
    (Obj.constant (.new data) : Obj Path).ref w = ⟨none, plain data⟩ := by
  have hlen : data.length % 2 ^ 32 = data.length := Nat.mod_eq_of_lt h
  have hstore : (Obj.constant (.new data) : Obj Path).store = plainStore data := by
    simp only [Obj.store, Constant.new, hlen, plainStore]
  rw [Obj.ref, hstore, cells_plainStore]
  rfl

/-- **One step**: what it does to the pool is what the reference step does to the cells. -/
theorem step_stands {op : Op Path} (h : Stands arch.ptrSize mem R) (hm : Meets arch mem op)
    (hstep : step arch mem op = some mem') : Stands arch.ptrSize mem' (refStep arch R op) := by
  have hw := arch.ptrSize_pos
  cases op with
  | allocate size =>
    cases hstep
    exact h.append_one (ref_new hm) (sound_new size)
  | allocateHeap size =>
    cases hstep
    exact h.append_one (ref_new hm) (sound_new size)
  | allocateRo data =>
    rw [step, Option.map_eq_some_iff] at hstep
    obtain ⟨a, ha, rfl⟩ := hstep
    obtain ⟨href, hsound⟩ := allocateRo_ref Path hw ha
    exact h.append_one href hsound
  | constant data =>
    cases hstep
    exact h.append_one (ref_constant hm) (Nat.mod_le data.length (2 ^ 32))
  | staticRef s =>
    cases hstep
    exact h.append_one rfl hm
  | makeGlobal id => exact h.flags hstep fun a a' ha => makeGlobal_flags ha
  | deallocate id => exact h.flags hstep fun a a' ha => deallocate_flags ha
  | writeBytes dst data => exact h.writeBytes hw hstep hm
  | writeFloat dst bits value => exact h.writeFloat hw hstep hm
  | writeUint dst bits value => exact h.writeUint hw hstep hm.1 hm.2
  | writeSint dst bits value => exact h.writeUint hw hstep hm.1 hm.2
  | writePtr dst value reloc => exact h.writePtr hstep hm
  | copyFrom dst src => exact (h.copyFrom hw hstep hm.1 hm.2).1
  | copyFromOverlapping dst src => exact h.copyFromOverlapping hw hstep hm
  | readPtr src =>
    rw [step, Option.map_eq_some_iff] at hstep
    obtain ⟨⟨⟨address, r⟩, mem₁⟩, hread, rfl⟩ := hstep
    exact (h.readPtr hread).1

/-- The pool after a list of operations, each of which meets the condition where it is done. -/
inductive Run (arch : TargetArch) : List (Op Path) → Memory Path → Prop where
  | nil : Run arch [] []
  | snoc {ops : List (Op Path)} {op : Op Path} {mem mem' : Memory Path} (before : Run arch ops mem)
      (meets : Meets arch mem op) (step : step arch mem op = some mem') :
        Run arch (ops ++ [op]) mem'

/-- The reference memory after the operations, from one without objects. -/
def refRun (arch : TargetArch) (ops : List (Op Path)) : RefMemory Path :=
  ops.foldl (refStep arch) []

theorem run_stands {ops : List (Op Path)} (h : Run arch ops mem) :
    Stands arch.ptrSize mem (refRun arch ops) := by
  induction h with
  | nil => exact ⟨nofun, rfl⟩
  | snoc before meets hstep ih =>
    rw [refRun, List.foldl_append]
    exact step_stands ih meets hstep

/-- **The memory refines the reference memory** in every run whose steps cut no stored pointer:
    cell by cell, and so do the reads of bytes and pointers. -/
theorem run_refines {ops : List (Op Path)} (h : Run arch ops mem) :
    mem.ref arch.ptrSize = refRun arch ops ∧
      (∀ (v : ValueRef) (len : Nat), v.ensureLive mem = true → 1 ≤ len →
        v.extReadBytes mem len = (refRun arch ops).read v.storage v.ofs len) ∧
      ∀ (v : ValueRef) (address : Nat) (r : Option RelocPtr) (mem' : Memory Path),
        v.readPtr arch mem = some ((address, r), mem') → ∀ id, r = some id ↔
          ∃ p, IsPointer arch.ptrSize ((refRun arch ops).slice v.storage v.ofs arch.ptrSize) p ∧
            id = p.resolve (refRun arch ops).length := by
  have hs := run_stands h
  exact ⟨hs.ref, fun v len hlive hlen => hs.extReadBytes hlive hlen,
    fun v address r mem' hread => (hs.readPtr hread).2⟩

end Runs

/-! ## 5. Runs that keep pointers whole, and one that does not -/

theorem uncut_allocation {a : Allocation} {ofs len : Nat}
    (h : ∀ r ∈ a.relocations, r.offset + w ≤ ofs ∨ ofs + len ≤ r.offset ∨
      (ofs ≤ r.offset ∧ r.offset + w ≤ ofs + len) ∨ len = 0) :
    Lib.Uncut w (Obj.allocation a : Obj Path).store.start ofs len := by
  intro x p hx
  have hx' : (a.getReloc x).map Prov.object = some p := hx
  rw [Allocation.getReloc, Option.map_map, Option.map_eq_some_iff] at hx'
  obtain ⟨r, hr, -⟩ := hx'
  have hoff : r.offset = x := by simpa using List.find?_some hr
  exact hoff ▸ h r (List.mem_of_find?_eq_some hr)

theorem Memory.uncut_allocation {mem : Memory Path} {id : RelocPtr} {a : Allocation}
    (hid : mem[id]? = some (.allocation a)) {ofs len : Nat}
    (h : ∀ r ∈ a.relocations, r.offset + w ≤ ofs ∨ ofs + len ≤ r.offset ∨
      (ofs ≤ r.offset ∧ r.offset + w ≤ ofs + len) ∨ len = 0) :
    mem.Uncut w (some id) ofs len := by
  intro o ho
  rw [Memory.asValue, Option.bind_some, hid] at ho
  cases ho
  exact Eval.uncut_allocation h

/-- A pointer is stored, and copied to an offset that is not a multiple of 8. -/
def copiedPointer : List (Op Unit) :=
  [.allocate 16, .writePtr ⟨some 0, 0, 16, ValueRef.zero_lt_u32, by decide⟩ 0x1000 (some 0),
  .allocate 16,
    .copyFrom ⟨some 1, 3, 8, by decide, by decide⟩ ⟨some 0, 0, 8, ValueRef.zero_lt_u32, by decide⟩]

theorem run_refines_copied_pointer : ∃ mem, Run wide copiedPointer mem ∧
    mem.ref wide.ptrSize = refRun wide copiedPointer := by
  have h1 : Run wide (copiedPointer.take 1) _ := .snoc .nil (show 16 < 2 ^ 32 by decide) rfl
  have h2 : Run wide (copiedPointer.take 2) _ :=
    h1.snoc (Memory.uncut_allocation rfl (by decide)) rfl
  have h3 : Run wide (copiedPointer.take 3) _ := h2.snoc (show 16 < 2 ^ 32 by decide) rfl
  have h4 : Run wide copiedPointer _ :=
    h3.snoc ⟨Memory.uncut_allocation rfl (by decide), Memory.uncut_allocation rfl (by decide)⟩ rfl
  exact ⟨_, h4, (run_refines h4).1⟩

/-- A byte is written over the middle of a stored pointer. -/
def brokenPointer : List (Op Unit) :=
  [.allocate 16, .writePtr ⟨some 0, 0, 16, ValueRef.zero_lt_u32, by decide⟩ 0x1000 (some 0),
    .writeUint ⟨some 0, 4, 1, by decide, by decide⟩ 8 7]

/-- The pointer is still there: its relocation is not at the byte written. -/
theorem memory_not_refined : ¬∀ (ops : List (Op Unit)) (mem : Memory Unit),
    ops.foldlM (step wide) [] = some mem → mem.ref wide.ptrSize = refRun wide ops := by
  intro h
  have href := h brokenPointer _ rfl
  have hcell := congrArg (fun R : RefMemory Unit => R.slice (some 0) 4 1) href
  revert hcell
  decide

end Trustme.Eval
