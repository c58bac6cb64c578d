/-
  Subject:   When the literal of a constant and its lifted statics stand for the evaluator's graph.

  * `walk`, `mem_walk`: the chains of pointers behind an allocation, in the order of the
    conversion, one static being made for each;
  * `Linked`: a literal and the statics made with it, seen from outside;
  * `allocationToEncoded_linked`, `exists_encoded`: what a conversion gives, and when it ends;
  * `allocationToEncoded_exact`: the graph is kept exactly where no allocation that is lifted is
    reached over two chains.
-/
import Trustme.Eval.Encoding
import Mathlib.Data.Finset.Card
import Mathlib.Data.List.Nodup

namespace Trustme.Eval

open Trustme.Lib

variable {Ty Path : Type}

/-! ## 1. The chains behind an allocation -/

/-- The chains that begin with the relocation at place `i`. -/
def walkReloc (mem : Memory Path) (walk : Allocation → List (List Nat × RelocPtr)) (i : Nat)
    (r : Reloc) : List (List Nat × RelocPtr) :=
  match mem[r.ptr]? with
  | some (.allocation b) =>
    if b.isLifted then (walk b).map (fun p => (i :: p.1, p.2)) ++ [([i], r.ptr)] else []
  | _ => []

def walkRelocs (mem : Memory Path) (walk : Allocation → List (List Nat × RelocPtr)) :
    Nat → List Reloc → List (List Nat × RelocPtr)
  | _, [] => []
  | i, r :: rs => walkReloc mem walk i r ++ walkRelocs mem walk (i + 1) rs

/-- The chains of at most `n` pointers, in the order in which the conversion comes back from
    them. -/
def walk (mem : Memory Path) : Nat → Allocation → List (List Nat × RelocPtr)
  | 0, _ => []
  | n + 1, a => walkRelocs mem (walk mem n) 0 a.relocations

section Walk

variable {mem : Memory Path} {w : Allocation → List (List Nat × RelocPtr)}

theorem mem_walkReloc {i : Nat} {r : Reloc} {p : List Nat × RelocPtr} :
    p ∈ walkReloc mem w i r ↔ ∃ b c, mem[r.ptr]? = some (.allocation b) ∧ b.isLifted = true ∧
      p.1 = i :: c ∧ (c = [] ∧ p.2 = r.ptr ∨ (c, p.2) ∈ w b) := by
  unfold walkReloc
  cases hm : mem[r.ptr]? with
  | none => simp
  | some o =>
    cases o with
    | constant c => simp
    | staticRef s => simp
    | allocation b =>
      cases hl : b.isLifted with
      | false => simp [hl]
      | true =>
        obtain ⟨c, id⟩ := p
        simp only [hl, if_true, List.mem_append, List.mem_map, List.mem_singleton, Prod.mk.injEq,
          Option.some.injEq, Obj.allocation.injEq]
        constructor
        · rintro (⟨q, hq, rfl, rfl⟩ | ⟨rfl, rfl⟩)
          · exact ⟨b, q.1, rfl, hl, rfl, .inr hq⟩
          · exact ⟨b, [], rfl, hl, rfl, .inl ⟨rfl, rfl⟩⟩
        · rintro ⟨b', c', rfl, -, rfl, ⟨rfl, rfl⟩ | hq⟩
          · exact .inr ⟨rfl, rfl⟩
          · exact .inl ⟨(c', id), hq, rfl, rfl⟩

theorem mem_walkRelocs {p : List Nat × RelocPtr} : ∀ {rs : List Reloc} {i : Nat},
    p ∈ walkRelocs mem w i rs ↔ ∃ k r, rs[k]? = some r ∧ p ∈ walkReloc mem w (i + k) r
  | [], i => by simp [walkRelocs]
  | r :: rs, i => by
    rw [walkRelocs, List.mem_append, mem_walkRelocs]
    constructor
    · rintro (h | ⟨k, r', hr, h⟩)
      · exact ⟨0, r, rfl, h⟩
      · exact ⟨k + 1, r', hr, by rwa [show i + (k + 1) = i + 1 + k by omega]⟩
    · intro ⟨k, r', hr, h⟩
      cases k with
      | zero =>
        cases hr
        exact .inl h
      | succ k => exact .inr ⟨k, r', hr, by rwa [show i + 1 + k = i + (k + 1) by omega]⟩

/-- The walk finds exactly the chains up to its depth. -/
theorem mem_walk : ∀ {n : Nat} {a : Allocation} {c : List Nat} {id : RelocPtr},
    (c, id) ∈ walk mem n a ↔ Chain mem a c id ∧ c.length ≤ n
  | 0, a, c, id => by
    simp only [walk, List.not_mem_nil, Nat.le_zero, List.length_eq_zero_iff, false_iff, not_and]
    intro h hc
    rw [hc] at h
    exact h
  | n + 1, a, c, id => by
    rw [walk, mem_walkRelocs]
    constructor
    · intro ⟨i, r, hr, hmem⟩
      rw [Nat.zero_add] at hmem
      obtain ⟨b, c', hb, hl, hc, hrest⟩ := mem_walkReloc.1 hmem
      cases hc
      rcases hrest with ⟨rfl, hid⟩ | hrest
      · exact ⟨⟨r, b, hr, hb, hl, .inl ⟨rfl, hid⟩⟩, by simp⟩
      · obtain ⟨hch, hlen⟩ := mem_walk.1 hrest
        exact ⟨⟨r, b, hr, hb, hl, .inr hch⟩, by simpa using hlen⟩
    · intro ⟨h, hlen⟩
      cases c with
      | nil => exact False.elim h
      | cons i c =>
        obtain ⟨r, b, hr, hb, hl, hrest⟩ := h
        refine ⟨i, r, hr, mem_walkReloc.2 ⟨b, c, hb, hl, by rw [Nat.zero_add], ?_⟩⟩
        rcases hrest with h | h
        · exact .inl h
        · exact .inr (mem_walk.2 ⟨h, by simpa using hlen⟩)

theorem walkReloc_nodup {i : Nat} {r : Reloc} (hw : ∀ b, ((w b).map Prod.fst).Nodup)
    (hne : ∀ b, ∀ p ∈ w b, p.1 ≠ []) : ((walkReloc mem w i r).map Prod.fst).Nodup := by
  unfold walkReloc
  split
  · next b _ =>
    split
    · rw [List.map_append, List.map_map]
      have hcons : (w b).map (Prod.fst ∘ fun p => (i :: p.1, p.2)) =
          ((w b).map Prod.fst).map (i :: ·) := by rw [List.map_map]; rfl
      rw [hcons]
      refine ((hw b).map fun _ _ h => (List.cons.inj h).2).append (List.nodup_singleton _) ?_
      intro c hc hc'
      obtain ⟨c', hc'', rfl⟩ := List.mem_map.1 hc
      obtain ⟨p, hp, rfl⟩ := List.mem_map.1 hc''
      exact hne b p hp (by simpa using hc')
    · exact List.nodup_nil
  · exact List.nodup_nil

theorem walkRelocs_nodup (hw : ∀ b, ((w b).map Prod.fst).Nodup)
    (hne : ∀ b, ∀ p ∈ w b, p.1 ≠ []) : ∀ {rs : List Reloc} {i : Nat},
    ((walkRelocs mem w i rs).map Prod.fst).Nodup
  | [], _ => List.nodup_nil
  | r :: rs, i => by
    rw [walkRelocs, List.map_append]
    refine (walkReloc_nodup hw hne).append (walkRelocs_nodup hw hne) ?_
    -- the heads of the two parts are different places
    intro c hc hc'
    obtain ⟨p, hp, rfl⟩ := List.mem_map.1 hc
    obtain ⟨q, hq, he⟩ := List.mem_map.1 hc'
    obtain ⟨_, c₁, _, _, h₁, _⟩ := mem_walkReloc.1 hp
    obtain ⟨k, _, _, hq⟩ := mem_walkRelocs.1 hq
    obtain ⟨_, c₂, _, _, h₂, _⟩ := mem_walkReloc.1 hq
    rw [he, h₁] at h₂
    have := (List.cons.inj h₂).1
    omega

theorem walk_ne_nil {n : Nat} {a : Allocation} : ∀ p ∈ walk mem n a, p.1 ≠ [] := by
  intro p hp hnil
  obtain ⟨h, -⟩ := mem_walk.1 (show (p.1, p.2) ∈ walk mem n a from hp)
  rw [hnil] at h
  exact h

theorem walk_nodup : ∀ {n : Nat} {a : Allocation}, ((walk mem n a).map Prod.fst).Nodup
  | 0, _ => List.nodup_nil
  | _ + 1, _ => walkRelocs_nodup (fun _ => walk_nodup) fun _ => walk_ne_nil

/-- The ends of the chains are told apart by the chains. -/
theorem walk_ends_nodup {n : Nat} {a : Allocation}
    (h : ∀ c c' id, Chain mem a c id → Chain mem a c' id → c = c') :
    ((walk mem n a).map Prod.snd).Nodup := by
  have hchains : ((walk mem n a).map Prod.fst).Nodup := walk_nodup
  refine List.Nodup.map_on ?_ hchains.of_map
  intro p hp q hq he
  obtain ⟨hp', -⟩ := mem_walk.1 (show (p.1, p.2) ∈ walk mem n a from hp)
  obtain ⟨hq', -⟩ := mem_walk.1 (show (q.1, q.2) ∈ walk mem n a from hq)
  rw [← he] at hq'
  exact Prod.ext (h _ _ _ hp' hq') he

end Walk

/-! ## 2. The names of the statics -/

section Names

variable {ev : Evaluated Ty Path}

theorem toDigits_underscore_inj {m n : Nat} {r r' : Text}
    (h : Nat.toDigits 10 m ++ '_' :: r = Nat.toDigits 10 n ++ '_' :: r') : m = n ∧ r = r' := by
  obtain ⟨hmn, hr⟩ := Printer.toDigits_append_inj (fun _ => .cons rfl) (fun _ => .cons rfl) h
  exact ⟨hmn, (List.cons.inj hr).2⟩

/-- The name of a static tells its index and serial. -/
theorem staticName_inj {idx idx' serial serial' : BitVec 32}
    (h : ev.staticName idx serial = ev.staticName idx' serial') : idx = idx' ∧
      serial = serial' := by
  obtain ⟨hi, hs⟩ := toDigits_underscore_inj (List.append_cancel_left h)
  exact ⟨BitVec.eq_of_toNat_eq hi, BitVec.eq_of_toNat_eq (Printer.toDigits_injective hs)⟩

/-- Names come back after 2^32 statics and not before. -/
theorem nameAt_eq_iff (st : NewvalState Ty Path) {k k' : Nat} :
    ev.nameAt st k = ev.nameAt st k' ↔ k % 2 ^ 32 = k' % 2 ^ 32 := by
  constructor
  · intro h
    have hidx := (staticName_inj h).1
    have hk := (BitVec.add_right_inj st.nextItemIdx).1 hidx
    simpa using congrArg BitVec.toNat hk
  · intro h
    have h₁ : BitVec.ofNat 32 k = BitVec.ofNat 32 k' := BitVec.eq_of_toNat_eq (by simpa using h)
    have h₂ : BitVec.ofNat 32 (k + 1) = BitVec.ofNat 32 (k' + 1) := by
      rw [BitVec.ofNat_add, BitVec.ofNat_add, h₁]
    rw [Evaluated.nameAt, Evaluated.nameAt, h₁, h₂]

/-- From `st` to `st'` the statics `ns` have been made, one after the other. -/
structure Makes (ev : Evaluated Ty Path) (st : NewvalState Ty Path)
    (ns : List (LiftedStatic Ty Path)) (st' : NewvalState Ty Path) : Prop where
  statics : st'.inlineStatics = st.inlineStatics ++ ns
  idx : st'.nextItemIdx = st.nextItemIdx + BitVec.ofNat 32 ns.length
  serial : st'.serial = st.serial + BitVec.ofNat 32 ns.length
  names : ∀ k s, ns[k]? = some s → s.name = ev.nameAt st k

theorem Makes.refl (st : NewvalState Ty Path) : Makes ev st [] st where
  statics := by rw [List.append_nil]
  idx := by simp
  serial := by simp
  names := by simp

theorem Makes.nameAt {st st' : NewvalState Ty Path} {ns : List (LiftedStatic Ty Path)}
    (h : Makes ev st ns st') (k : Nat) : ev.nameAt st' k = ev.nameAt st (ns.length + k) := by
  rw [Evaluated.nameAt, Evaluated.nameAt, h.idx, h.serial, BitVec.add_assoc, BitVec.add_assoc,
    ← BitVec.ofNat_add, ← BitVec.ofNat_add, Nat.add_assoc]

theorem Makes.trans {st st' st'' : NewvalState Ty Path} {ns ns' : List (LiftedStatic Ty Path)}
    (h : Makes ev st ns st') (h' : Makes ev st' ns' st'') : Makes ev st (ns ++ ns') st'' where
  statics := by rw [h'.statics, h.statics, List.append_assoc]
  idx := by rw [h'.idx, h.idx, BitVec.add_assoc, ← BitVec.ofNat_add, List.length_append]
  serial := by rw [h'.serial, h.serial, BitVec.add_assoc, ← BitVec.ofNat_add, List.length_append]
  names k s hk := by
    rcases Nat.lt_or_ge k ns.length with hlt | hge
    · rw [List.getElem?_append_left hlt] at hk
      exact h.names k s hk
    · rw [List.getElem?_append_right hge] at hk
      rw [h'.names _ s hk, h.nameAt, show ns.length + (k - ns.length) = k by omega]

variable (ev) in
theorem makes_newStatic (st : NewvalState Ty Path) (type : Ty) (value : EncodedLiteral Path)
    (alignment : Nat) :
    ∃ s : LiftedStatic Ty Path, s.type = type ∧ s.explicitAlignment = alignment ∧
      s.valueRes = value ∧ (newStatic ev st type value alignment).1 = ev.itemPath s.name ∧
      Makes ev st [s] (newStatic ev st type value alignment).2 := by
  refine ⟨⟨ev.staticName st.nextItemIdx (st.serial + 1), type, alignment, value⟩, rfl, rfl, rfl,
    rfl, rfl, rfl, rfl, fun k s hk => ?_⟩
  obtain rfl : k = 0 := by
    have := (List.getElem?_eq_some_iff.1 hk).1
    simp at this
    exact this
  cases hk
  simp [Evaluated.nameAt]

end Names

/-! ## 3. A literal and the statics made with it -/

theorem forall₂_append_inv {α β : Type} {R : α → β → Prop} : ∀ {l₁ l₂ : List α} {m₁ m₂ : List β},
    l₁.length = m₁.length → List.Forall₂ R (l₁ ++ l₂) (m₁ ++ m₂) →
    List.Forall₂ R l₁ m₁ ∧ List.Forall₂ R l₂ m₂
  | [], _, [], _, _, h => ⟨.nil, h⟩
  | [], _, _ :: _, _, hlen, _ => by cases hlen
  | _ :: _, _, [], _, hlen, _ => by cases hlen
  | _ :: l₁, _, _ :: m₁, _, hlen, .cons hr h => by
    obtain ⟨h₁, h₂⟩ := forall₂_append_inv (Nat.succ.inj hlen) h
    exact ⟨.cons hr h₁, h₂⟩

/-- `φ` gives the static its name. -/
def Named (ev : Evaluated Ty Path) (φ : RelocPtr → Path) (p : List Nat × RelocPtr)
    (s : LiftedStatic Ty Path) : Prop := φ p.2 = ev.itemPath s.name

/-- The statics `ns`, one for each chain, and what was made of the pointers that begin the chains:
    `E φ` says that the pointers lead where `φ` says. If `φ` names the statics, everything is where
    it belongs; and if everything is where it belongs, `φ` names the statics. -/
structure Linked (ev : Evaluated Ty Path) (chains : List (List Nat × RelocPtr))
    (ns : List (LiftedStatic Ty Path)) (E : (RelocPtr → Path) → Prop) : Prop where
  length : chains.length = ns.length
  forth : ∀ φ, List.Forall₂ (Named ev φ) chains ns →
    E φ ∧ List.Forall₂ (fun p s => Holds ev φ p.2 s) chains ns
  back : ∀ φ, E φ → List.Forall₂ (fun p s => Named ev φ p s → Holds ev φ p.2 s) chains ns →
    List.Forall₂ (Named ev φ) chains ns

section Linked

variable {ev : Evaluated Ty Path} {chains chains' : List (List Nat × RelocPtr)}
  {ns ns' : List (LiftedStatic Ty Path)} {E E' : (RelocPtr → Path) → Prop}

theorem Linked.nil (h : ∀ φ, E φ) : Linked ev [] [] E :=
  ⟨rfl, fun φ _ => ⟨h φ, .nil⟩, fun _ _ _ => .nil⟩

theorem Linked.congr (h : Linked ev chains ns E) (he : ∀ φ, E φ ↔ E' φ) :
    Linked ev chains ns E' where
  length := h.length
  forth φ hn := ⟨(he φ).1 (h.forth φ hn).1, (h.forth φ hn).2⟩
  back φ hE hh := h.back φ ((he φ).2 hE) hh

theorem Linked.append (h : Linked ev chains ns E) (h' : Linked ev chains' ns' E') :
    Linked ev (chains ++ chains') (ns ++ ns') (fun φ => E φ ∧ E' φ) where
  length := by rw [List.length_append, List.length_append, h.length, h'.length]
  forth φ hn := by
    obtain ⟨hn₁, hn₂⟩ := forall₂_append_inv h.length hn
    obtain ⟨he₁, hh₁⟩ := h.forth φ hn₁
    obtain ⟨he₂, hh₂⟩ := h'.forth φ hn₂
    exact ⟨⟨he₁, he₂⟩, List.rel_append hh₁ hh₂⟩
  back φ hE hh := by
    obtain ⟨hh₁, hh₂⟩ := forall₂_append_inv h.length hh
    exact List.rel_append (h.back φ hE.1 hh₁) (h'.back φ hE.2 hh₂)

/-- A pointer to an allocation that has been lifted. -/
theorem Linked.lift {r : Reloc} {b : Allocation} {value : EncodedLiteral Path}
    {s : LiftedStatic Ty Path} (i : Nat)
    (h : Linked ev chains ns (fun φ => Encodes ev φ b value))
    (hb : ev.mem[r.ptr]? = some (.allocation b)) (hl : b.isLifted = true)
    (hv : s.valueRes = value)
    (ht : if b.isConstHeap then
        s.type = ev.bytesType b.length ∧ s.explicitAlignment = ev.heapAlignment r.ptr
      else ev.typeOf r.ptr = some s.type ∧ s.explicitAlignment = 0) :
    Linked ev (chains.map (fun p => (i :: p.1, p.2)) ++ [([i], r.ptr)]) (ns ++ [s])
      (fun φ => EncodesReloc ev φ r (relocTo ev r (ev.itemPath s.name))) := by
  have hlen : (chains.map fun p => (i :: p.1, p.2)).length = ns.length := by
    rw [List.length_map, h.length]
  constructor
  · rw [List.length_append, List.length_append, hlen]
    rfl
  · intro φ hn
    obtain ⟨hn₁, hn₂⟩ := forall₂_append_inv hlen hn
    rw [List.forall₂_map_left_iff] at hn₁
    obtain ⟨henc, hh⟩ := h.forth φ hn₁
    cases hn₂ with
    | cons hname _ =>
      refine ⟨⟨rfl, rfl, ?_⟩, List.rel_append ?_ (.cons ⟨b, hb, by rw [hv]; exact henc, ht⟩ .nil)⟩
      · simp only [hb, hl, if_true]
        exact congrArg some hname.symm
      · rw [List.forall₂_map_left_iff]
        exact hh
  · intro φ henc hh
    obtain ⟨hh₁, hh₂⟩ := forall₂_append_inv hlen hh
    rw [List.forall₂_map_left_iff] at hh₁
    have hname : φ r.ptr = ev.itemPath s.name := by
      have := henc.target
      simp only [hb, hl, if_true] at this
      exact (Option.some.inj this).symm
    cases hh₂ with
    | cons hholds _ =>
      obtain ⟨b', hb', hval, -⟩ := hholds hname
      rw [hb] at hb'
      cases hb'
      rw [hv] at hval
      refine List.rel_append ?_ (.cons hname .nil)
      rw [List.forall₂_map_left_iff]
      exact h.back φ hval hh₁

end Linked

/-! ## 4. What a conversion gives -/

section Convert

variable {ev : Evaluated Ty Path}

/-- What is known of a conversion of allocations: `w` lists the chains behind one. -/
def Converts (ev : Evaluated Ty Path) (w : Allocation → List (List Nat × RelocPtr))
    (encode : NewvalState Ty Path → Allocation →
      Except Stop (EncodedLiteral Path × NewvalState Ty Path)) : Prop :=
  ∀ st a lit st', ev.Kept a →
    (∀ c id b, Chain ev.mem a c id → ev.mem[id]? = some (.allocation b) → ev.Kept b) →
    encode st a = .ok (lit, st') → ∃ ns, Makes ev st ns st' ∧
      Linked ev (w a) ns (fun φ => Encodes ev φ a lit)

/-- The allocations behind a pointer are kept. -/
def KeptFrom (ev : Evaluated Ty Path) (r : Reloc) : Prop :=
  ∀ b, ev.mem[r.ptr]? = some (.allocation b) → b.isLifted = true → ev.Kept b ∧
    ∀ c id b', Chain ev.mem b c id → ev.mem[id]? = some (.allocation b') → ev.Kept b'

theorem keptFrom_of_mem {a : Allocation}
    (h : ∀ c id b, Chain ev.mem a c id → ev.mem[id]? = some (.allocation b) → ev.Kept b)
    {r : Reloc} (hr : r ∈ a.relocations) : KeptFrom ev r := by
  intro b hb hl
  obtain ⟨i, hi⟩ := List.mem_iff_getElem?.1 hr
  refine ⟨h [i] r.ptr b ⟨r, b, hi, hb, hl, .inl ⟨rfl, rfl⟩⟩ hb, fun c id b' hc hb' => ?_⟩
  exact h (i :: c) id b' ⟨r, b, hi, hb, hl, .inr hc⟩ hb'

variable {w : Allocation → List (List Nat × RelocPtr)}
  {encode : NewvalState Ty Path → Allocation →
    Except Stop (EncodedLiteral Path × NewvalState Ty Path)}

/-- A lifted allocation gives its statics and one more. -/
theorem liftAllocation_linked (hc : Converts ev w encode) {st st' : NewvalState Ty Path}
    {r : Reloc} {b : Allocation} {p : Path} (hk : KeptFrom ev r)
    (hb : ev.mem[r.ptr]? = some (.allocation b)) (hl : b.isLifted = true)
    (h : liftAllocation ev encode st r.ptr b = .ok (p, st')) (i : Nat) :
    ∃ ns, Makes ev st ns st' ∧ Linked ev ((w b).map (fun q => (i :: q.1, q.2)) ++ [([i], r.ptr)]) ns
      (fun φ => EncodesReloc ev φ r (relocTo ev r p)) := by
  unfold liftAllocation at h
  split at h
  · cases h
  · cases he : encode st b with
    | error e =>
      rw [he] at h
      cases h
    | ok res =>
      obtain ⟨innerVal, st₁⟩ := res
      obtain ⟨ns, hm, hlink⟩ := hc st b innerVal st₁ (hk b hb hl).1 (hk b hb hl).2 he
      rw [he] at h
      simp only at h
      -- the two kinds of static differ in type and alignment
      have hfin : ∀ ty al, newStatic ev st₁ ty innerVal al = (p, st') →
          (if b.isConstHeap then ty = ev.bytesType b.length ∧ al = ev.heapAlignment r.ptr
            else ev.typeOf r.ptr = some ty ∧ al = 0) →
          ∃ ns, Makes ev st ns st' ∧
            Linked ev ((w b).map (fun q => (i :: q.1, q.2)) ++ [([i], r.ptr)]) ns
              (fun φ => EncodesReloc ev φ r (relocTo ev r p)) := by
        intro ty al hnew hty
        obtain ⟨s, hst, hsa, hsv, hsp, hsm⟩ := makes_newStatic ev st₁ ty innerVal al
        rw [hnew] at hsp hsm
        simp only at hsp hsm
        rw [hsp]
        exact ⟨ns ++ [s], hm.trans hsm, hlink.lift i hb hl hsv (by rw [hst, hsa]; exact hty)⟩
      split at h
      · next hheap =>
        split at h
        · cases h
        · exact hfin _ _ (Except.ok.inj h) (by rw [if_pos hheap]; exact ⟨rfl, rfl⟩)
      · next hheap =>
        cases hty : ev.typeOf r.ptr with
        | none =>
          rw [hty] at h
          cases h
        | some ty =>
          rw [hty] at h
          exact hfin _ _ (Except.ok.inj h) (by rw [if_neg hheap]; exact ⟨hty, rfl⟩)

theorem encodeReloc_linked (hc : Converts ev w encode) {st st' : NewvalState Ty Path}
    {r : Reloc} {e : EncodedReloc Path} (hk : KeptFrom ev r) (hu : ev.Usable r.ptr)
    (h : encodeReloc ev encode st r = .ok (e, st')) (i : Nat) :
    ∃ ns, Makes ev st ns st' ∧ Linked ev (walkReloc ev.mem w i r) ns
      (fun φ => EncodesReloc ev φ r e) := by
  unfold encodeReloc at h
  unfold walkReloc
  unfold Evaluated.Usable at hu
  cases hm : ev.mem[r.ptr]? with
  | none =>
    rw [hm] at h
    cases h
  | some o =>
    cases o with
    | constant c =>
      simp only [hm] at h hu ⊢
      have hget : c.getBytes 0 c.length = some c.data := by
        rw [Constant.getBytes, if_pos (by omega), List.drop_zero, ← hu.1, List.take_length]
      rw [hget] at h
      cases h
      exact ⟨[], .refl st, .nil fun φ => ⟨rfl, rfl, by simp [hm]⟩⟩
    | staticRef s =>
      simp only [hm] at h ⊢
      cases h
      exact ⟨[], .refl st, .nil fun φ => ⟨rfl, rfl, by simp only [hm]; rfl⟩⟩
    | allocation b =>
      simp only [hm] at h hu ⊢
      cases hl : b.isLifted with
      | true =>
        simp only [hl, if_true] at h ⊢
        cases hla : liftAllocation ev encode st r.ptr b with
        | error x =>
          rw [hla] at h
          cases h
        | ok res =>
          obtain ⟨p, st₁⟩ := res
          rw [hla] at h
          cases h
          exact liftAllocation_linked hc hk hm hl hla i
      | false =>
        simp only [hl, Bool.false_eq_true, if_false] at h hu ⊢
        obtain ⟨data, hro⟩ := hu
        obtain ⟨-, hdata, -, hget⟩ := allocateRo_spec hro
        rw [hget] at h
        cases h
        refine ⟨[], .refl st, .nil fun φ => ⟨rfl, rfl, ?_⟩⟩
        simp [hm, hl, hdata]

theorem encodeRelocs_linked (hc : Converts ev w encode) : ∀ {rs : List Reloc} {i : Nat}
    {st st' : NewvalState Ty Path} {es : List (EncodedReloc Path)},
    (∀ r ∈ rs, KeptFrom ev r ∧ ev.Usable r.ptr) → encodeRelocs ev encode st rs = .ok (es, st') →
    ∃ ns, Makes ev st ns st' ∧ Linked ev (walkRelocs ev.mem w i rs) ns
      (fun φ => List.Forall₂ (EncodesReloc ev φ) rs es)
  | [], i, st, st', es, _, h => by
    cases h
    exact ⟨[], .refl st, .nil fun φ => .nil⟩
  | r :: rs, i, st, st', es, hr, h => by
    rw [encodeRelocs] at h
    cases he : encodeReloc ev encode st r with
    | error x =>
      rw [he] at h
      cases h
    | ok res =>
      obtain ⟨e, st₁⟩ := res
      rw [he] at h
      simp only at h
      cases hes : encodeRelocs ev encode st₁ rs with
      | error x =>
        rw [hes] at h
        cases h
      | ok res =>
        obtain ⟨es', st₂⟩ := res
        rw [hes] at h
        cases h
        obtain ⟨hk, hu⟩ := hr r List.mem_cons_self
        obtain ⟨ns₁, hm₁, hl₁⟩ := encodeReloc_linked hc hk hu he i
        obtain ⟨ns₂, hm₂, hl₂⟩ := encodeRelocs_linked hc (i := i + 1)
          (fun r' hr' => hr r' (List.mem_cons_of_mem _ hr')) hes
        exact ⟨ns₁ ++ ns₂, hm₁.trans hm₂, (hl₁.append hl₂).congr fun φ =>
          List.forall₂_cons.symm⟩

/-- **What a conversion gives**, at any depth. -/
theorem allocationToEncoded_linked : ∀ n : Nat,
    Converts ev (walk ev.mem n) (allocationToEncoded ev n)
  | 0 => by
    intro st a lit st' _ _ h
    cases h
  | n + 1 => by
    intro st a lit st' hk hb h
    rw [allocationToEncoded] at h
    have hget : a.getBytes 0 a.length false = some a.data := by
      rw [Allocation.getBytes, inside_all rfl]
      simp only [Bool.not_true, Bool.false_eq_true, if_false, Bool.false_and, List.drop_zero]
      rw [← hk.size, List.take_length]
    rw [hget] at h
    simp only at h
    cases he : encodeRelocs ev (allocationToEncoded ev n) st a.relocations with
    | error x =>
      rw [he] at h
      cases h
    | ok res =>
      obtain ⟨es, st₁⟩ := res
      rw [he] at h
      cases h
      obtain ⟨ns, hm, hl⟩ := encodeRelocs_linked (allocationToEncoded_linked n) (i := 0)
        (fun r hr => ⟨keptFrom_of_mem hb hr, hk.usable r hr⟩) he
      exact ⟨ns, hm, hl.congr fun φ => ⟨fun hr => ⟨rfl, hr⟩, fun h => h.relocations⟩⟩

end Convert

/-! ## 5. When a conversion ends -/

section Ends

variable {ev : Evaluated Ty Path}
  {encode : NewvalState Ty Path → Allocation →
    Except Stop (EncodedLiteral Path × NewvalState Ty Path)}

/-- A conversion that has come through its relocations has converted what they lift. -/
theorem encode_of_encodeRelocs {r : Reloc} {b : Allocation}
    (hb : ev.mem[r.ptr]? = some (.allocation b)) (hl : b.isLifted = true) : ∀ {rs : List Reloc}
    {st : NewvalState Ty Path} {res}, r ∈ rs → encodeRelocs ev encode st rs = .ok res →
    ∃ st₁ res₁, encode st₁ b = .ok res₁
  | r' :: rs, st, res, hr, h => by
    rw [encodeRelocs] at h
    cases he : encodeReloc ev encode st r' with
    | error x =>
      rw [he] at h
      cases h
    | ok res₁ =>
      rw [he] at h
      simp only at h
      rcases List.mem_cons.1 hr with rfl | hr
      · unfold encodeReloc liftAllocation at he
        simp only [hb, hl, if_true] at he
        cases hen : encode st b with
        | ok res₂ => exact ⟨st, res₂, hen⟩
        | error x =>
          rw [hen] at he
          split at he
          · cases he
          · next h' =>
            split at h'
            · cases h'
            · cases h'
      · cases hes : encodeRelocs ev encode res₁.2 rs with
        | error x =>
          rw [hes] at h
          cases h
        | ok res₂ => exact encode_of_encodeRelocs hb hl hr hes

/-- A conversion that ends is deeper than all chains. -/
theorem chain_lt_of_encoded : ∀ {n : Nat} {st : NewvalState Ty Path} {a : Allocation} {res},
    allocationToEncoded ev n st a = .ok res → ∀ c id, Chain ev.mem a c id → c.length < n
  | 0, st, a, res, h, _, _, _ => by cases h
  | n + 1, st, a, res, h, [], id, hch => False.elim hch
  | n + 1, st, a, res, h, i :: c, id, ⟨r, b, hr, hb, hl, hrest⟩ => by
    rw [allocationToEncoded] at h
    cases hget : a.getBytes 0 a.length false with
    | none =>
      rw [hget] at h
      cases h
    | some bytes =>
      rw [hget] at h
      simp only at h
      cases he : encodeRelocs ev (allocationToEncoded ev n) st a.relocations with
      | error x =>
        rw [he] at h
        cases h
      | ok res₁ =>
        obtain ⟨st₁, res₂, hin⟩ :=
          encode_of_encodeRelocs hb hl (List.mem_of_getElem? hr) he
        rw [List.length_cons]
        rcases hrest with ⟨rfl, -⟩ | hrest
        · cases n with
          | zero => cases hin
          | succ n => simp
        · have := chain_lt_of_encoded hin c id hrest
          omega

/-- What can be pointed to can be converted, if what is lifted can. -/
theorem exists_encodeReloc {r : Reloc} (hu : ev.Usable r.ptr)
    (hin : ∀ b, ev.mem[r.ptr]? = some (.allocation b) → b.isLifted = true →
      ∀ st, ∃ res, encode st b = .ok res) (st : NewvalState Ty Path) :
    ∃ res, encodeReloc ev encode st r = .ok res := by
  unfold Evaluated.Usable at hu
  unfold encodeReloc
  cases hm : ev.mem[r.ptr]? with
  | none =>
    rw [hm] at hu
    exact hu.elim
  | some o =>
    cases o with
    | constant c =>
      simp only [hm] at hu ⊢
      have hget : c.getBytes 0 c.length = some ((c.data.drop 0).take c.length) := by
        rw [Constant.getBytes, if_pos (by omega)]
      rw [hget]
      exact ⟨_, rfl⟩
    | staticRef s =>
      simp only
      exact ⟨_, rfl⟩
    | allocation b =>
      simp only [hm] at hu ⊢
      cases hl : b.isLifted with
      | false =>
        simp only [hl, Bool.false_eq_true, if_false] at hu ⊢
        obtain ⟨data, hro⟩ := hu
        rw [(allocateRo_spec hro).2.2.2]
        exact ⟨_, rfl⟩
      | true =>
        simp only [hl, if_true] at hu ⊢
        obtain ⟨⟨innerVal, st₁⟩, he⟩ := hin b hm hl st
        obtain ⟨hlive, hkind⟩ := hu
        unfold liftAllocation
        rw [hlive, he]
        cases hheap : b.isConstHeap with
        | true =>
          simp only [hheap, if_true] at hkind
          simp only [hkind, Bool.not_true, Bool.false_eq_true, if_false, if_true]
          exact ⟨_, rfl⟩
        | false =>
          simp only [hheap, Bool.false_eq_true, if_false] at hkind
          obtain ⟨ty, hty⟩ := Option.isSome_iff_exists.1 hkind
          simp only [hty, Bool.not_true, Bool.false_eq_true, if_false]
          exact ⟨_, rfl⟩

variable (encode) in
theorem exists_encodeRelocs : ∀ {rs : List Reloc},
    (∀ r ∈ rs, ∀ st, ∃ res, encodeReloc ev encode st r = .ok res) → ∀ st,
      ∃ res, encodeRelocs ev encode st rs = .ok res
  | [], _, _ => ⟨_, rfl⟩
  | r :: rs, h, st => by
    obtain ⟨⟨e, st₁⟩, he⟩ := h r List.mem_cons_self st
    obtain ⟨⟨es, st₂⟩, hes⟩ :=
      exists_encodeRelocs (fun r' hr' => h r' (List.mem_cons_of_mem _ hr')) st₁
    rw [encodeRelocs, he]
    simp only [hes]
    exact ⟨_, rfl⟩

/-- With chains that end, the conversion ends. -/
theorem exists_encoded : ∀ {n : Nat} {a : Allocation}, ev.Kept a →
    (∀ c id b, Chain ev.mem a c id → ev.mem[id]? = some (.allocation b) → ev.Kept b) →
    (∀ c id, Chain ev.mem a c id → c.length ≤ n) → ∀ st,
      ∃ res, allocationToEncoded ev (n + 1) st a = .ok res := by
  intro n
  induction n with
  | zero =>
    intro a hk hb hlen st
    obtain ⟨⟨es, st₁⟩, he⟩ := exists_encodeRelocs (allocationToEncoded ev 0)
      (fun r hr => exists_encodeReloc (hk.usable r hr) fun b hbm hl => by
        obtain ⟨i, hi⟩ := List.mem_iff_getElem?.1 hr
        have := hlen [i] r.ptr ⟨r, b, hi, hbm, hl, .inl ⟨rfl, rfl⟩⟩
        simp at this) st
    rw [allocationToEncoded, Allocation.getBytes, inside_all rfl]
    simp only [Bool.not_true, Bool.false_eq_true, if_false, Bool.false_and, he]
    exact ⟨_, rfl⟩
  | succ n ih =>
    intro a hk hb hlen st
    obtain ⟨⟨es, st₁⟩, he⟩ := exists_encodeRelocs (allocationToEncoded ev (n + 1))
      (fun r hr => exists_encodeReloc (hk.usable r hr) fun b hbm hl => by
        obtain ⟨hkb, hbehind⟩ := keptFrom_of_mem hb hr b hbm hl
        obtain ⟨i, hi⟩ := List.mem_iff_getElem?.1 hr
        refine ih hkb hbehind fun c id hc => ?_
        have := hlen (i :: c) id ⟨r, b, hi, hbm, hl, .inr hc⟩
        simpa using this) st
    rw [allocationToEncoded, Allocation.getBytes, inside_all rfl]
    simp only [Bool.not_true, Bool.false_eq_true, if_false, Bool.false_and, he]
    exact ⟨_, rfl⟩

theorem Chain.lt {mem : Memory Path} : ∀ {c : List Nat} {a : Allocation} {id : RelocPtr},
    Chain mem a c id → id < mem.length
  | _ :: _, _, _, ⟨_, _, _, hb, _, .inl ⟨_, hid⟩⟩ => by
    rw [hid]
    exact (List.getElem?_eq_some_iff.1 hb).1
  | _ :: _, _, _, ⟨_, _, _, _, _, .inr h⟩ => h.lt

/-- The first part of a chain is a chain. -/
theorem Chain.take {mem : Memory Path} : ∀ {c : List Nat} {a : Allocation} {id : RelocPtr},
    Chain mem a c id → ∀ k < c.length, ∃ id', Chain mem a (c.take (k + 1)) id'
  | i :: c, a, id, ⟨r, b, hr, hb, hl, hrest⟩, k, hk => by
    cases k with
    | zero => exact ⟨r.ptr, r, b, hr, hb, hl, .inl ⟨rfl, rfl⟩⟩
    | succ k =>
      rcases hrest with ⟨rfl, -⟩ | hrest
      · simp at hk
      · obtain ⟨id', h'⟩ := Chain.take hrest k (by simpa using hk)
        exact ⟨id', r, b, hr, hb, hl, .inr h'⟩

/-- A chain whose parts end at different objects is no longer than the pool. -/
theorem chain_le_pool {mem : Memory Path} {a : Allocation}
    (hone : ∀ c c' id, Chain mem a c id → Chain mem a c' id → c = c') {c : List Nat}
    {id : RelocPtr} (h : Chain mem a c id) : c.length ≤ mem.length := by
  choose! f hf using h.take
  have hinj : Set.InjOn f (Finset.range c.length : Set Nat) := by
    intro k hk k' hk' he
    have hk := Finset.mem_range.1 hk
    have hk' := Finset.mem_range.1 hk'
    have htake := hone _ _ _ (hf k hk) (he ▸ hf k' hk')
    have hlen := congrArg List.length htake
    simp only [List.length_take] at hlen
    omega
  have hmaps : ∀ k ∈ Finset.range c.length, f k ∈ Finset.range mem.length := fun k hk =>
    Finset.mem_range.2 (hf k (Finset.mem_range.1 hk)).lt
  simpa using Finset.card_le_card_of_injOn f hmaps hinj

end Ends

/-! ## 6. When the graph is kept -/

/-- The literal of a result and the statics lifted for it stand for the graph behind it, and each
    literal can be loaded again. -/
def Preserved (getStaticref : Path → StaticRef Path) (ev : Evaluated Ty Path)
    (st : NewvalState Ty Path) (a : Allocation) : Prop :=
  ∃ n lit st' ns φ, allocationToEncoded ev n st a = .ok (lit, st') ∧
    st'.inlineStatics = st.inlineStatics ++ ns ∧ Denotes ev a lit ns φ ∧
    Loads getStaticref lit ∧ ∀ s ∈ ns, Loads getStaticref s.valueRes

/-- What is lifted is a tree: no allocation is reached over two chains of pointers, so none over a
    cycle, and they are no more than there are serials. -/
structure Tree (mem : Memory Path) (a : Allocation) : Prop where
  single : ∀ c c' id, Chain mem a c id → Chain mem a c' id → c = c'
  few : ∀ l : List RelocPtr, l.Nodup → (∀ id ∈ l, ∃ c, Chain mem a c id) → l.length ≤ 2 ^ 32

section Exact

variable {ev : Evaluated Ty Path} {getStaticref : Path → StaticRef Path}
  {st : NewvalState Ty Path} {a : Allocation}

/-- The literal of a kept allocation can be loaded. -/
theorem Encodes.loadable {φ : RelocPtr → Path} {lit : EncodedLiteral Path} (h : Encodes ev φ a lit)
    (hk : ev.Kept a) : Loadable lit := by
  have hmem : ∀ e ∈ lit.relocations, ∃ r ∈ a.relocations, EncodesReloc ev φ r e := by
    intro e he
    exact forall₂_mem_left h.relocations.flip he
  constructor
  · rw [h.bytes, hk.size]
    exact hk.small
  · have hall : List.Forall₂ Eq (a.relocations.map (·.offset)) (lit.relocations.map (·.ofs)) := by
      rw [List.forall₂_map_left_iff, List.forall₂_map_right_iff]
      exact h.relocations.imp fun _ _ hr => hr.ofs.symm
    have hofs : a.relocations.map (·.offset) = lit.relocations.map (·.ofs) := by
      rwa [List.forall₂_eq_eq_eq] at hall
    rw [← List.pairwise_map, ← hofs, List.pairwise_map]
    exact hk.sorted
  · intro e he
    obtain ⟨r, hr, hre⟩ := hmem e he
    rw [hre.ofs, hre.len, h.bytes, hk.size]
    exact hk.fits r hr
  · intro e he hp
    obtain ⟨r, hr, hre⟩ := hmem e he
    have hu := hk.usable r hr
    have ht := hre.target
    unfold Evaluated.Usable at hu
    cases hm : ev.mem[r.ptr]? with
    | none =>
      rw [hm] at ht
      exact ht.elim
    | some o =>
      cases o with
      | staticRef s =>
        simp only [hm, hp] at ht
        cases ht
      | constant c =>
        simp only [hm] at ht hu
        rw [ht.2, hu.1]
        exact hu.2
      | allocation b =>
        simp only [hm] at ht hu
        cases hl : b.isLifted with
        | true =>
          simp only [hl, if_true, hp] at ht
          cases ht
        | false =>
          simp only [hl, Bool.false_eq_true, if_false] at ht hu
          obtain ⟨data, hro⟩ := hu
          obtain ⟨hsmall, hdata, -, -⟩ := allocateRo_spec hro
          rw [ht.2, hdata]
          exact hsmall

/-- From a literal that stands for the graph: every static made is the one of the end of its
    chain. -/
theorem named_of_denotes {n : Nat} {lit : EncodedLiteral Path} {ns : List (LiftedStatic Ty Path)}
    {φ : RelocPtr → Path} (hl : Linked ev (walk ev.mem n a) ns (fun φ => Encodes ev φ a lit))
    (hd : Denotes ev a lit ns φ) : List.Forall₂ (Named ev φ) (walk ev.mem n a) ns := by
  refine hl.back φ hd.value (List.forall₂_iff_zip.2 ⟨hl.length, fun {p s} hz hname => ?_⟩)
  obtain ⟨hp, hs⟩ := List.of_mem_zip hz
  obtain ⟨hch, -⟩ := mem_walk.1 (show (p.1, p.2) ∈ walk ev.mem n a from hp)
  obtain ⟨s', hs', hname', hholds⟩ := hd.lifted p.1 p.2 hch
  have he : s'.name = s.name := ev.itemPath_injective (hname'.trans hname)
  rwa [List.inj_on_of_nodup_map hd.names hs' hs he] at hholds

theorem tree_of_preserved (h : Finished ev st a) (hp : Preserved getStaticref ev st a) :
    Tree ev.mem a := by
  obtain ⟨n, lit, st', ns, φ, hok, hns, hd, -, -⟩ := hp
  obtain ⟨ns', hm, hl⟩ := allocationToEncoded_linked n st a lit st' h.kept h.behind hok
  obtain rfl : ns = ns' := List.append_cancel_left (hns.symm.trans hm.statics)
  have hnamed := named_of_denotes hl hd
  have hall : ∀ c id, Chain ev.mem a c id → (c, id) ∈ walk ev.mem n a := fun c id hc =>
    mem_walk.2 ⟨hc, Nat.le_of_lt (chain_lt_of_encoded hok c id hc)⟩
  constructor
  · intro c c' id hc hc'
    obtain ⟨k, hk, hget⟩ := List.getElem_of_mem (hall c id hc)
    obtain ⟨k', hk', hget'⟩ := List.getElem_of_mem (hall c' id hc')
    have hkn : k < ns.length := by rwa [← hl.length]
    have hkn' : k' < ns.length := by rwa [← hl.length]
    have h₁ : φ id = ev.itemPath ns[k].name := by
      have := hnamed.get hk hkn
      rw [List.get_eq_getElem, List.get_eq_getElem] at this
      simpa [Named, hget] using this
    have h₂ : φ id = ev.itemPath ns[k'].name := by
      have := hnamed.get hk' hkn'
      rw [List.get_eq_getElem, List.get_eq_getElem] at this
      simpa [Named, hget'] using this
    have hsame : (ns.map (·.name))[k]? = (ns.map (·.name))[k']? := by
      rw [List.getElem?_map, List.getElem?_map, List.getElem?_eq_getElem hkn,
        List.getElem?_eq_getElem hkn', Option.map_some, Option.map_some]
      exact congrArg some (ev.itemPath_injective (h₁.symm.trans h₂))
    obtain rfl := (List.getElem?_inj (by rwa [List.length_map]) hd.names).1 hsame
    exact congrArg Prod.fst (hget.symm.trans hget')
  · intro l hnd hreach
    have hsub : l ⊆ (walk ev.mem n a).map Prod.snd := fun id hid => by
      obtain ⟨c, hc⟩ := hreach id hid
      exact List.mem_map.2 ⟨(c, id), hall c id hc, rfl⟩
    have hlen := (hnd.subperm hsub).length_le
    rw [List.length_map, hl.length] at hlen
    refine Nat.le_trans hlen ?_
    -- with one static more, the last has the name of the first
    by_contra hbig
    have hlt : 2 ^ 32 < ns.length := Nat.lt_of_not_le hbig
    have hlt0 : 0 < ns.length := Nat.lt_of_le_of_lt (Nat.zero_le _) hlt
    have hsame : (ns.map (·.name))[0]? = (ns.map (·.name))[2 ^ 32]? := by
      rw [List.getElem?_map, List.getElem?_map, List.getElem?_eq_getElem hlt0,
        List.getElem?_eq_getElem hlt, Option.map_some, Option.map_some,
        hm.names 0 _ (List.getElem?_eq_getElem hlt0),
        hm.names (2 ^ 32) _ (List.getElem?_eq_getElem hlt)]
      exact congrArg some ((nameAt_eq_iff st).2 (by rw [Nat.mod_self, Nat.zero_mod]))
    have := (List.getElem?_inj (by rwa [List.length_map]) hd.names).1 hsame
    omega

theorem preserved_of_tree (hst : ∀ p, (getStaticref p).path = p) (h : Finished ev st a)
    (ht : Tree ev.mem a) : Preserved getStaticref ev st a := by
  obtain ⟨⟨lit, st'⟩, hok⟩ := exists_encoded h.kept h.behind
    (fun c id hc => chain_le_pool ht.single hc) st
  obtain ⟨ns, hm, hl⟩ := allocationToEncoded_linked _ st a lit st' h.kept h.behind hok
  have hends := walk_ends_nodup (n := ev.mem.length + 1) ht.single
  have hchain : ∀ p ∈ walk ev.mem (ev.mem.length + 1) a, Chain ev.mem a p.1 p.2 := fun p hp =>
    (mem_walk.1 (show (p.1, p.2) ∈ _ from hp)).1
  have hall : ∀ c id, Chain ev.mem a c id →
      id ∈ (walk ev.mem (ev.mem.length + 1) a).map Prod.snd := fun c id hc =>
    List.mem_map.2 ⟨(c, id), mem_walk.2 ⟨hc, Nat.le_of_lt (chain_lt_of_encoded hok c id hc)⟩, rfl⟩
  generalize hch : walk ev.mem (ev.mem.length + 1) a = chains at *
  -- every allocation is called like the static made at its place in the walk
  let φ : RelocPtr → Path := fun id => ev.itemPath (ev.nameAt st ((chains.map Prod.snd).idxOf id))
  have hsmall : chains.length ≤ 2 ^ 32 := by
    have := ht.few (chains.map Prod.snd) hends fun id hid => by
      obtain ⟨p, hp, rfl⟩ := List.mem_map.1 hid
      exact ⟨p.1, hchain p hp⟩
    rwa [List.length_map] at this
  have hpool : chains.length ≤ ev.mem.length := by
    have hsub : chains.map Prod.snd ⊆ List.range ev.mem.length := fun id hid => by
      obtain ⟨p, hp, rfl⟩ := List.mem_map.1 hid
      exact List.mem_range.2 (hchain p hp).lt
    have := (hends.subperm hsub).length_le
    rwa [List.length_map, List.length_range] at this
  have hnamed : List.Forall₂ (Named ev φ) chains ns := by
    refine List.forall₂_of_length_eq_of_get hl.length fun k hk hkn => ?_
    have hidx : (chains.map Prod.snd).idxOf chains[k].2 = k := by
      have := List.Nodup.idxOf_getElem hends k (by rwa [List.length_map])
      rwa [List.getElem_map] at this
    show ev.itemPath (ev.nameAt st ((chains.map Prod.snd).idxOf chains[k].2)) = _
    rw [hidx, List.get_eq_getElem, hm.names k _ (List.getElem?_eq_getElem hkn)]
  obtain ⟨henc, hholds⟩ := hl.forth φ hnamed
  have hidx : ∀ c id, Chain ev.mem a c id → (chains.map Prod.snd).idxOf id < chains.length := by
    intro c id hc
    have := List.idxOf_lt_length_of_mem (hall c id hc)
    rwa [List.length_map] at this
  have hkept : ∀ c id s, Chain ev.mem a c id → Holds ev φ id s → Loads getStaticref s.valueRes := by
    intro c id s hc ⟨b, hb, hv, _⟩
    exact (hv.loadable (h.behind c id b hc hb)).loads hst
  refine ⟨_, lit, st', ns, φ, hok, hm.statics, ⟨?_, ?_, ?_, henc, ?_⟩,
    (henc.loadable h.kept).loads hst, ?_⟩
  · refine List.nodup_iff_getElem?_ne_getElem?.2 fun i j hij hj he => ?_
    rw [List.length_map] at hj
    rw [List.getElem?_map, List.getElem?_map, List.getElem?_eq_getElem (Nat.lt_trans hij hj),
      List.getElem?_eq_getElem hj, Option.map_some, Option.map_some, Option.some.injEq,
      hm.names i _ (List.getElem?_eq_getElem (Nat.lt_trans hij hj)),
      hm.names j _ (List.getElem?_eq_getElem hj), nameAt_eq_iff] at he
    rw [← hl.length] at hj
    rw [Nat.mod_eq_of_lt (by omega), Nat.mod_eq_of_lt (by omega)] at he
    omega
  · intro c c' id id' hc hc' he
    have hi := hidx c id hc
    have hi' := hidx c' id' hc'
    have hmod := (nameAt_eq_iff st).1 (ev.itemPath_injective he)
    rw [Nat.mod_eq_of_lt (by omega), Nat.mod_eq_of_lt (by omega)] at hmod
    have hget := List.getElem_idxOf (by rwa [List.length_map] : _ < (chains.map Prod.snd).length)
      (x := id)
    have hget' := List.getElem_idxOf (by rwa [List.length_map] : _ < (chains.map Prod.snd).length)
      (x := id')
    rw [← hget, ← hget']
    simp only [hmod]
  · intro c id hc id' s hs
    exact h.fresh id' s hs _ (Nat.lt_of_lt_of_le (hidx c id hc) hpool)
  · intro c id hc
    obtain ⟨p, hp, rfl⟩ := List.mem_map.1 (hall c id hc)
    obtain ⟨k, hk, rfl⟩ := List.getElem_of_mem hp
    have hkn : k < ns.length := by rwa [← hl.length]
    have h₁ := hnamed.get hk hkn
    have h₂ := hholds.get hk hkn
    exact ⟨ns[k], List.getElem_mem hkn, h₁.symm, h₂⟩
  · intro s hs
    obtain ⟨p, hp, hholds'⟩ := forall₂_mem_left hholds.flip hs
    exact hkept p.1 p.2 s (hchain p hp) hholds'

/-- The conversion keeps the graph of a result exactly where what it lifts is a tree: it has no
    table of the allocations that have a static, so every chain of pointers to one makes its own,
    and chains on a cycle have no end. -/
theorem allocationToEncoded_exact (hst : ∀ p, (getStaticref p).path = p)
    (h : Finished ev st a) : Preserved getStaticref ev st a ↔ Tree ev.mem a :=
  ⟨tree_of_preserved h, preserved_of_tree hst h⟩

end Exact

/-- A pool with one byte that can be written. -/
def onePool : Evaluated Unit Text where
  arch := wide
  mem := [.allocation (.new 1)]
  typeOf := fun _ => some ()
  heapAlignment := fun _ => 0
  bytesType := fun _ => ()
  namePrefix := "C_".toList
  itemPath := id
  itemPath_injective := id

/-- Sixteen bytes with pointers to that byte. -/
def pointing (offsets : List Nat) : Allocation :=
  { Allocation.new 16 with relocations := offsets.map fun ofs => ⟨ofs, 0⟩ }

theorem finished_pointing {offsets : List Nat} (hs : offsets.Pairwise (· < ·))
    (hf : ∀ ofs ∈ offsets, ofs + 8 ≤ 16) :
    Finished onePool ⟨0, 0, []⟩ (pointing offsets) where
  kept :=
    { size := show (Allocation.new 16).data.length = (Allocation.new 16).length by decide
      small := show (Allocation.new 16).length < 2 ^ 32 by decide
      sorted := by
        show (offsets.map fun ofs => (⟨ofs, 0⟩ : Reloc)).Pairwise _
        rw [List.pairwise_map]
        exact hs
      fits := fun r hr => by
        obtain ⟨ofs, ho, rfl⟩ := List.mem_map.1 hr
        exact hf ofs ho
      usable := fun r hr => by
        obtain ⟨ofs, _, rfl⟩ := List.mem_map.1 hr
        exact ⟨rfl, rfl⟩ }
  behind := fun c id b hc hb => by
    obtain rfl : id = 0 := Nat.lt_one_iff.1 hc.lt
    cases hb
    exact ⟨by decide, by decide, .nil, nofun, nofun⟩
  fresh := fun id s hs => by
    match id with
    | 0 => cases hs
    | id + 1 => cases hs

theorem allocationToEncoded_exact_single :
    Preserved StaticRef.unread onePool ⟨0, 0, []⟩ (pointing [8]) := by
  have hone : ∀ c id, Chain onePool.mem (pointing [8]) c id → c = [0] ∧ id = 0 := by
    intro c id hc
    have hid : id = 0 := Nat.lt_one_iff.1 hc.lt
    match c, hc with
    | i :: c, ⟨r, b, hr, hb, _, hrest⟩ =>
      obtain rfl : i = 0 := Nat.lt_one_iff.1 (List.getElem?_eq_some_iff.1 hr).1
      cases hr
      cases hb
      rcases hrest with ⟨rfl, _⟩ | hrest
      · exact ⟨rfl, hid⟩
      · match c, hrest with
        | _ :: _, ⟨_, _, hr, _⟩ => cases hr
  refine (allocationToEncoded_exact (fun _ => rfl)
    (finished_pointing (by decide) (by decide))).2 ⟨?_, ?_⟩
  · intro c c' id hc hc'
    exact (hone c id hc).1.trans (hone c' id hc').1.symm
  · intro l hnd hl
    have hsub : l ⊆ [0] := fun id hid => by
      obtain ⟨c, hc⟩ := hl id hid
      exact List.mem_singleton.2 (hone c id hc).2
    exact Nat.le_trans (hnd.subperm hsub).length_le (by decide)

/-- Two pointers to the byte become pointers to two statics. -/
theorem allocationToEncoded_splits :
    Finished onePool ⟨0, 0, []⟩ (pointing [0, 8]) ∧
      ¬ Preserved StaticRef.unread onePool ⟨0, 0, []⟩ (pointing [0, 8]) := by
  have hfin : Finished onePool ⟨0, 0, []⟩ (pointing [0, 8]) :=
    finished_pointing (by decide) (by decide)
  refine ⟨hfin, fun hp => ?_⟩
  have hchain : ∀ i < 2, Chain onePool.mem (pointing [0, 8]) [i] 0 := by
    intro i hi
    match i, hi with
    | 0, _ => exact ⟨_, _, rfl, rfl, rfl, .inl ⟨rfl, rfl⟩⟩
    | 1, _ => exact ⟨_, _, rfl, rfl, rfl, .inl ⟨rfl, rfl⟩⟩
  have := (tree_of_preserved hfin hp).single _ _ _ (hchain 0 (by decide)) (hchain 1 (by decide))
  exact absurd this (by decide)

end Trustme.Eval
