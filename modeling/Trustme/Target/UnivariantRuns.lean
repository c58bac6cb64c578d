/-
  Subject:   Which lists of fields `univariant` lays out as it should.

  * `exactLayout`: the same layout in numbers without a bound;
  * `Run`: what the loop over the order keeps: `placeField_run`, `placeAll_run`;
  * `Sound`: what is asked of a layout, `Unwrapped` of the computation;
  * `Fits`: the total, with all padding, is at most `SIZE_MAX`;
  * `univariant_right`, `fourQuarters_wrap`: it is right just where all totals fit, and four
    arrays of a quarter of the address space each are given the size 0.
-/
import Mathlib.Data.List.TakeDrop
import Trustme.Target.Univariant

namespace Trustme.Target

open Trustme.Lib

variable {n : Nat}

namespace Fields

/-! ## 1. What is asked -/

def Sized (q : Fields n) (i : Fin n) : Prop := (q.ents i).size ≠ sizeMax

instance (q : Fields n) (i : Fin n) : Decidable (q.Sized i) := inferInstanceAs (Decidable (_ ≠ _))

/-- An alignment is a power of two that a `size_t` takes. -/
def IsAlignment (a : Nat) : Prop := ∃ k, k < 64 ∧ a = 2 ^ k

/-- The arguments `univariant` is called with: alignments are powers of two, one field at most has
    no size, which is the last one and stays it, and niches lie inside their fields. -/
structure Admissible (q : Fields n) : Prop where
  align : ∀ i, IsAlignment (q.ents i).align
  size_le : ∀ i, (q.ents i).size ≤ sizeMax
  tail : ∀ i, ¬ q.Sized i → i.val + 1 = n ∧ (q.kind = .maybeUnsized ∨ q.optimize = false)
  niche_le : ∀ i niche, (q.ents i).niche = some niche → niche.offset ≤ (q.ents i).size
  prefixSize_le : q.prefixSize ≤ sizeMax
  prefixAlign : IsAlignment q.prefixAlign
  pack : q.pack = 0 ∨ IsAlignment q.pack
  forcedAlignment : q.forcedAlignment = 0 ∨ IsAlignment q.forcedAlignment

/-- Every field that has a size lies at a multiple of its alignment, or of `pack` if that is less,
    apart from the others, behind the prefix and inside the size; the field without a size lies
    behind all others; the size is a multiple of the alignment, and the niche is that of a field
    where it lies. -/
structure Sound (q : Fields n) (layout : UnivariantLayout n) : Prop where
  aligned : ∀ i, q.fieldAlign i ∣ layout.offsets i
  apart : ∀ i j, i ≠ j → q.Sized i → q.Sized j →
    layout.offsets i + (q.ents i).size ≤ layout.offsets j ∨ layout.offsets j + (q.ents j).size ≤
      layout.offsets i
  prefixed : q.kind = .prefixed → q.prefixSize ≤ layout.size ∧ ∀ i, q.prefixSize ≤ layout.offsets i
  inside : ∀ i, q.Sized i → layout.offsets i + (q.ents i).size ≤ layout.size
  tail : ∀ i, ¬ q.Sized i → ∀ j, j ≠ i → layout.offsets j + (q.ents j).size ≤ layout.offsets i
  whole : (∀ i, q.Sized i) → layout.align ∣ layout.size
  niche : ∀ niche, layout.niche = some niche → ∃ i inner, (q.ents i).niche = some inner ∧
    niche = nicheWithin unbounded inner (q.ents i).field (layout.offsets i)

/-- The layout with the fields in an order, in numbers without a bound. -/
def exactLayout (q : Fields n) (bias : NicheBias) (order : List (Fin n)) : UnivariantLayout n :=
  let s := placeAll unbounded q bias order
  { offsets := s.offsets
    size := if ∀ i, q.Sized i then roundUp s.offset (q.finalAlign s.align) else sizeMax
    align := q.finalAlign s.align
    niche := s.niche }

/-- No number of a layout that is made is other than in numbers without a bound. -/
structure Unwrapped (q : Fields n) : Prop where
  start : q.univariantBiased .start = q.exactLayout .start (q.fieldOrder .start)
  stop : q.triesStop (q.univariantBiased .start) = true →
    q.univariantBiased .stop = q.exactLayout .stop (q.fieldOrder .stop)

/-! ## 2. The total -/

/-- The niche size of what counts for the niche of the whole. -/
def fieldNiche (e : Ent) : BitVec 128 := if e.field ≠ noField then entNicheSize e else 0#128

/-- The niche of the field is larger than that of any other. -/
def LargestNiche (q : Fields n) (i : Fin n) : Prop :=
  0#128 < fieldNiche (q.ents i) ∧ ∀ j, j ≠ i → fieldNiche (q.ents j) < fieldNiche (q.ents i)

instance (q : Fields n) (i : Fin n) :
    Decidable (q.LargestNiche i) := inferInstanceAs (Decidable (_ ∧ _))

/-- How far a field reaches: a field without a size up to its niche if that is the largest. -/
def reach (q : Fields n) (i : Fin n) : Nat :=
  if q.Sized i then (q.ents i).size
  else match (q.ents i).niche with
    | some niche => if q.LargestNiche i then niche.offset else 0
    | none => 0

/-- Where the fields begin. -/
def first (q : Fields n) : Nat :=
  if q.kind = .prefixed then roundUp q.prefixSize (q.packed q.prefixAlign) else 0

/-- The prefix, the fields in an order, and the padding in front of each. -/
def total (q : Fields n) (order : List (Fin n)) : Nat := cursor q.reach q.fieldAlign q.first order

/-- The largest alignment of the fields, of the prefix and of what is forced. -/
def wholeAlign (q : Fields n) (order : List (Fin n)) : Nat :=
  q.finalAlign (order.foldl (fun a i => max a (q.fieldAlign i)) (placeStart unbounded q).align)

/-- The total and its padding are numbers that a `size_t` takes. -/
def Fits (q : Fields n) (order : List (Fin n)) : Prop :=
  if ∀ i, q.Sized i then roundUp (q.total order) (q.wholeAlign order) ≤
    sizeMax else q.total order ≤ sizeMax

instance (q : Fields n) (order : List (Fin n)) : Decidable (q.Fits order) :=
  inferInstanceAs (Decidable (ite _ _ _))

/-- The total fits in the order of the first bias, and, if the other bias is tried, in its order. -/
def AllFit (q : Fields n) : Prop :=
  ∀ order, q.Arranged .start order → q.Fits order ∧
    (q.triesStop (q.exactLayout .start order) = true →
    ∀ order', q.Arranged .stop order' → q.Fits order')

/-! ## 3. Alignments -/

variable {a : Nat}

theorem IsAlignment.pos (h : IsAlignment a) : 0 < a := by
  obtain ⟨k, _, rfl⟩ := h
  exact Nat.two_pow_pos k

theorem IsAlignment.dvd (h : IsAlignment a) : a ∣ 2 ^ 64 := by
  obtain ⟨k, hk, rfl⟩ := h
  exact Nat.pow_dvd_pow 2 (Nat.le_of_lt hk)

/-- There is room for one more alignment behind a multiple that a `size_t` takes. -/
theorem IsAlignment.add_le {m : Nat} (h : IsAlignment a) (hm : a ∣ m) (hle : m ≤ sizeMax) :
    m + a ≤ 2 ^ 64 := by
  obtain ⟨k, hk⟩ := h.dvd
  obtain ⟨j, rfl⟩ := hm
  have hlt : a * j < a * k := by
    unfold sizeMax at hle
    omega
  have hjk : j < k := Nat.lt_of_mul_lt_mul_left hlt
  calc
    a * j + a = a * (j + 1) := by rw [Nat.mul_add, Nat.mul_one]
    _ ≤ a * k := Nat.mul_le_mul_left a hjk
    _ = 2 ^ 64 := hk.symm

theorem alignTo_eq {offset : Nat} (h : IsAlignment a) (hle : roundUp offset a ≤ sizeMax) :
    sizeT.alignTo offset a = roundUp offset a := by
  have hroom := h.add_le (dvd_roundUp offset a) hle
  have hup := le_roundUp h.pos offset
  have hpos := h.pos
  have hmod : (offset + a - 1) % 2 ^ 64 = offset + a - 1 := Nat.mod_eq_of_lt (by omega)
  simp only [sizeT, roundUp, hmod]

theorem alignTo_le {offset : Nat} : sizeT.alignTo offset a ≤ sizeMax := by
  have hdiv : (offset + a - 1) % 2 ^ 64 / a * a ≤ (offset + a - 1) % 2 ^ 64 :=
    Nat.div_mul_le_self _ _
  have hmod := Nat.mod_lt (offset + a - 1) (Nat.two_pow_pos 64)
  simp only [sizeT, sizeMax]
  omega

theorem add_eq {b : Nat} (h : a + b ≤ sizeMax) : sizeT.add a b = unbounded.add a b :=
  Nat.mod_eq_of_lt (by unfold sizeMax at h; omega)

theorem add_le (a b : Nat) : sizeT.add a b ≤ sizeMax := by
  have hmod := Nat.mod_lt (a + b) (Nat.two_pow_pos 64)
  simp only [sizeT, sizeMax]
  omega

section Admissible

variable {q : Fields n} (h : Admissible q)
include h

theorem Admissible.packed {a : Nat} (ha : IsAlignment a) : IsAlignment (q.packed a) := by
  unfold Fields.packed
  split
  · rename_i hp
    exact h.pack.resolve_left (by omega)
  · exact ha

theorem Admissible.fieldAlign (i : Fin n) : IsAlignment (q.fieldAlign i) := h.packed (h.align i)

theorem Admissible.finalAlign {a : Nat} (ha : IsAlignment a) : IsAlignment (q.finalAlign a) := by
  unfold Fields.finalAlign
  split
  · rename_i hf
    exact h.forcedAlignment.resolve_left (by omega)
  · exact ha

theorem Admissible.prefix_le_first (hk : q.kind = .prefixed) : q.prefixSize ≤ q.first := by
  rw [first, if_pos hk]
  exact le_roundUp (h.packed h.prefixAlign).pos _

omit h in
theorem IsAlignment.max {a b : Nat} (ha : IsAlignment a) (hb : IsAlignment b) :
    IsAlignment (max a b) := by
  rcases Nat.le_total a b with hab | hab
  · rwa [Nat.max_eq_right hab]
  · rwa [Nat.max_eq_left hab]

theorem Admissible.wholeAlign (order : List (Fin n)) : IsAlignment (q.wholeAlign order) := by
  have hstart : IsAlignment (placeStart unbounded q).align := by
    simp only [placeStart]
    split
    · exact h.packed h.prefixAlign
    · exact ⟨0, by decide, rfl⟩
  unfold Fields.wholeAlign
  refine h.finalAlign ?_
  generalize (placeStart unbounded q).align = a at hstart
  induction order generalizing a with
  | nil => exact hstart
  | cons i order ih => exact ih _ (hstart.max (h.fieldAlign i))

end Admissible

/-! ## 4. Niches -/

theorem available_lt {a b c : BitVec 128} (hab : a ≤ b) (hbc : b < c) : a < c :=
  BitVec.lt_def.2 (Nat.lt_of_le_of_lt (BitVec.le_def.1 hab) (BitVec.lt_def.1 hbc))

theorem takenNiche_some {e : Ent} {bias : NicheBias} {m : BitVec 128} {niche : TypeReprNiche}
    (h : takenNiche e bias m = some niche) : e.niche = some niche ∧
      fieldNiche e = nicheAvailable niche ∧
      m ≤ fieldNiche e ∧ (bias = .start → m < fieldNiche e) := by
  obtain ⟨hniche, htaken⟩ := Option.filter_eq_some_iff.1 h
  rw [Bool.and_eq_true, decide_eq_true_eq] at htaken
  have hfield : fieldNiche e = nicheAvailable niche := by
    rw [fieldNiche, if_pos htaken.1, entNicheSize, hniche]
  have hprefer := htaken.2
  rw [hfield]
  unfold prefer at hprefer
  split at hprefer
  · exact ⟨hniche, rfl, BitVec.le_of_lt (of_decide_eq_true hprefer), fun _ =>
      of_decide_eq_true hprefer⟩
  · rename_i hbias
    exact ⟨hniche, rfl, of_decide_eq_true hprefer, fun hb => absurd hb hbias⟩

theorem takenNiche_none {e : Ent} {bias : NicheBias} {m : BitVec 128}
    (h : takenNiche e bias m = none) :
    fieldNiche e ≤ m := by
  unfold fieldNiche entNicheSize
  split
  · rename_i hfield
    split
    · rename_i niche hniche
      have htaken := Option.filter_eq_none_iff.1 h niche hniche
      rw [Bool.and_eq_true, decide_eq_true_eq, not_and] at htaken
      have hprefer := htaken hfield
      unfold prefer at hprefer
      split at hprefer
      · exact BitVec.not_lt.1 (by simpa using hprefer)
      · exact BitVec.le_of_lt (BitVec.not_le.1 (by simpa using hprefer))
    · exact BitVec.le_def.2 (by simp)
  · exact BitVec.le_def.2 (by simp)

/-! ## 5. The loop in numbers without a bound -/

/-- The size of a field that has one. -/
def fixedSize (q : Fields n) (i : Fin n) : Nat := if q.Sized i then (q.ents i).size else 0

/-- What the loop has made of the fields it has gone through. -/
structure Run (q : Fields n) (bias : NicheBias) (done : List (Fin n)) (s : PlaceState n) :
    Prop where
  placed : Placed q.fixedSize q.fieldAlign q.first s.offsets done
    (cursor q.fixedSize q.fieldAlign q.first done)
  offset : (∀ i ∈ done, q.Sized i) → s.offset = cursor q.fixedSize q.fieldAlign q.first done
  align : s.align = done.foldl (fun a i => max a (q.fieldAlign i)) (placeStart unbounded q).align
  largest : ∀ i ∈ done, fieldNiche (q.ents i) ≤ s.largestAvailable
  attained : s.largestAvailable = 0#128 ∨ ∃ i ∈ done, s.largestAvailable = fieldNiche (q.ents i)
  niche : ∀ niche, s.niche = some niche → ∃ i ∈ done, ∃ inner, (q.ents i).niche = some inner ∧
    niche = nicheWithin unbounded inner (q.ents i).field (s.offsets i)

theorem placeStart_run (q : Fields n) (bias : NicheBias) :
    Run q bias [] (placeStart unbounded q) where
  placed := Placed.nil _ _
  offset _ := rfl
  align := rfl
  largest := by simp
  attained := Or.inl rfl
  niche _ hn := by cases hn

section Step

variable {q : Fields n} (h : Admissible q)
include h

/-- One more field keeps it, if all before it have a size. -/
theorem placeField_run {bias : NicheBias} {done : List (Fin n)} {s : PlaceState n} {i : Fin n}
    (hr : Run q bias done s) (hs : ∀ j ∈ done, q.Sized j) (hi : i ∉ done) :
    Run q bias (done ++ [i]) (placeField unbounded q bias s i) := by
  have hpos := (h.fieldAlign i).pos
  have hoffset := hr.offset hs
  have hcursor : cursor q.fixedSize q.fieldAlign q.first (done ++ [i]) =
      roundUp (cursor q.fixedSize q.fieldAlign q.first done) (q.fieldAlign i) + q.fixedSize i :=
    cursor_append _ _ _ _ _
  have hplace :
    (if 0 < q.fieldAlign i then unbounded.alignTo s.offset (q.fieldAlign i) else s.offset) =
      roundUp (cursor q.fixedSize q.fieldAlign q.first done) (q.fieldAlign i) := by
    rw [if_pos hpos, hoffset]
    rfl
  have hold : ∀ j ∈ done, (placeField unbounded q bias s i).offsets j = s.offsets j := fun j hj =>
    Function.update_of_ne (ne_of_mem_of_not_mem hj hi) _ _
  refine ⟨?_, fun hall => ?_, ?_, fun j hj => ?_, ?_, fun niche hn => ?_⟩
  · rw [hcursor]
    simp only [placeField, hplace]
    exact hr.placed.append hpos hi
  · have hsized : q.Sized i := hall i (by simp)
    rw [hcursor]
    simp only [placeField, hplace, fixedSize, if_pos hsized, if_neg hsized]
    rfl
  · rw [List.foldl_append, List.foldl_cons, List.foldl_nil, ← hr.align]
    simp only [placeField]
    split
    · rw [Nat.max_eq_right (by omega)]
    · rw [Nat.max_eq_left (by omega)]
  · simp only [placeField]
    split
    · rename_i niche htaken
      obtain ⟨_, hfield, hle, _⟩ := takenNiche_some htaken
      rw [← hfield]
      rcases List.mem_append.1 hj with hj | hj
      · exact BitVec.le_trans (hr.largest j hj) hle
      · rw [List.mem_singleton.1 hj]
        exact BitVec.le_refl _
    · rename_i htaken
      rcases List.mem_append.1 hj with hj | hj
      · exact hr.largest j hj
      · rw [List.mem_singleton.1 hj]
        exact takenNiche_none htaken
  · simp only [placeField]
    split
    · rename_i niche htaken
      exact Or.inr ⟨i, by simp, (takenNiche_some htaken).2.1.symm⟩
    · refine hr.attained.imp_right ?_
      rintro ⟨j, hj, heq⟩
      exact ⟨j, List.mem_append_left _ hj, heq⟩
  · have hself : (placeField unbounded q bias s i).offsets i =
        if 0 < q.fieldAlign i then unbounded.alignTo s.offset (q.fieldAlign i) else s.offset :=
      Function.update_self _ _ _
    simp only [placeField] at hn
    split at hn
    · rename_i inner htaken
      exact ⟨i, by
        simp, inner, (takenNiche_some htaken).1, by rw [hself]; exact (Option.some.inj hn).symm⟩
    · obtain ⟨j, hj, inner, hinner, heq⟩ := hr.niche niche hn
      exact ⟨j, List.mem_append_left _ hj, inner, hinner, by rw [hold j hj]; exact heq⟩

/-- The whole loop, if all but the last field have a size. -/
theorem placeAll_run (bias : NicheBias) (order : List (Fin n)) (hd : order.Nodup)
    (hs : ∀ i ∈ order.dropLast, q.Sized i) : Run q bias order
      (placeAll unbounded q bias order) := by
  induction order using List.reverseRecOn with
  | nil => exact placeStart_run q bias
  | append_singleton order i ih =>
    obtain ⟨hd', _, hdisj⟩ := List.nodup_append.1 hd
    rw [List.dropLast_concat] at hs
    rw [placeAll_concat]
    refine placeField_run h (ih hd' fun j hj => hs j (List.dropLast_subset _ hj)) hs fun hi => ?_
    exact hdisj i hi i (List.mem_singleton.2 rfl) rfl

end Step

/-! ## 6. The layout in numbers without a bound -/

theorem val_lt_of_mem_take {k : Nat} {i : Fin n} (hi : i ∈ (List.finRange n).take k) :
    i.val < k := by
  obtain ⟨j, hj, rfl⟩ := List.mem_take_iff_getElem.1 hi
  simp only [List.getElem_finRange, Fin.val_cast]
  omega

section Order

variable {q : Fields n} (h : Admissible q) {bias : NicheBias} {order : List (Fin n)}
  (ha : q.Arranged bias order)

include ha in
theorem Arranged.nodup : order.Nodup := ha.perm.nodup_iff.2 (List.nodup_finRange n)

include ha in
theorem Arranged.mem (i : Fin n) : i ∈ order := ha.perm.mem_iff.2 (List.mem_finRange i)

include h ha

/-- What has no size is last in every order. -/
theorem Arranged.sized_dropLast : ∀ i ∈ order.dropLast, q.Sized i := by
  intro i hi
  by_contra hs
  obtain ⟨hlast, hkind⟩ := h.tail i hs
  obtain ⟨front, rfl, hp, _⟩ := ha
  have hcount : q.sortedCount < n := by
    unfold sortedCount stop
    rcases hkind with hkind | hkind
    · rw [if_pos (show q.kind = .maybeUnsized ∧ 0 < n from ⟨hkind, by omega⟩)]
      split <;> omega
    · rw [hkind, Bool.false_and, if_neg Bool.false_ne_true]
      omega
  have hdrop : (List.finRange n).drop q.sortedCount ≠ [] := by
    rw [Ne, List.drop_eq_nil_iff, List.length_finRange]
    omega
  rw [List.dropLast_append_of_ne_nil hdrop] at hi
  rcases List.mem_append.1 hi with hi | hi
  · have hval := val_lt_of_mem_take (hp.mem_iff.1 hi)
    omega
  · rw [List.dropLast_drop_eq_drop_dropLast, List.dropLast_eq_take, List.length_finRange] at hi
    have hval := val_lt_of_mem_take (List.mem_of_mem_drop hi)
    omega

/-- A field without a size is the last of the order, and all others have one. -/
theorem Arranged.eq_append {i : Fin n} (hs : ¬ q.Sized i) : ∃ front, order = front ++ [i] ∧
    (∀ j ∈ front, q.Sized j) ∧ i ∉ front ∧ ∀ j, j ≠ i → j ∈ front := by
  have hd := ha.nodup
  have hmem := ha.mem
  have hsized := ha.sized_dropLast h
  obtain ⟨front, k, rfl⟩ := (List.eq_nil_or_concat' order).resolve_left
    (List.ne_nil_of_mem (hmem i))
  rw [List.dropLast_concat] at hsized
  have hk : i = k := by
    rcases List.mem_append.1 (hmem i) with hi | hi
    · exact absurd (hsized i hi) hs
    · exact List.mem_singleton.1 hi
  subst hk
  obtain ⟨_, _, hdisj⟩ := List.nodup_append.1 hd
  refine ⟨front, rfl, hsized, fun hi => hdisj i hi i (List.mem_singleton.2 rfl) rfl, fun j hj => ?_⟩
  rcases List.mem_append.1 (hmem j) with hm | hm
  · exact hm
  · exact absurd (List.mem_singleton.1 hm) hj

theorem Arranged.run : Run q bias order (placeAll unbounded q bias order) :=
  placeAll_run h bias order ha.nodup (ha.sized_dropLast h)

omit h ha in
theorem total_eq {l : List (Fin n)} (hs : ∀ i ∈ l, q.Sized i) :
    q.total l = cursor q.fixedSize q.fieldAlign q.first l :=
  cursor_congr _ (fun i hi => by rw [reach, fixedSize, if_pos (hs i hi), if_pos (hs i hi)]) _

omit h ha in
theorem total_append (l : List (Fin n)) (i : Fin n) :
    q.total (l ++ [i]) = roundUp (q.total l) (q.fieldAlign i) + q.reach i := cursor_append _ _ _ _ _

/-- Where all fields have a size, the total is where the loop ends. -/
theorem Arranged.offset_eq (hs : ∀ i, q.Sized i) :
    (placeAll unbounded q bias order).offset = q.total order := by
  rw [(ha.run h).offset fun i _ => hs i, total_eq fun i _ => hs i]

theorem Arranged.align_eq :
    q.finalAlign (placeAll unbounded q bias order).align = q.wholeAlign order := by
  rw [(ha.run h).align, Fields.wholeAlign]

/-- Where the last field lies, and where the others do. -/
theorem Arranged.tail_offset {i : Fin n} {front : List (Fin n)} (heq : order = front ++ [i])
    (hs : ∀ j ∈ front, q.Sized j) (hi : i ∉ front) :
    (placeAll unbounded q bias order).offsets i = roundUp (q.total front) (q.fieldAlign i) ∧
      ∀ j ∈ front, (placeAll unbounded q bias order).offsets j + (q.ents j).size ≤
        q.total front := by
  subst heq
  have hd := (List.nodup_append.1 ha.nodup).1
  have hr := placeAll_run h bias front hd fun j hj => hs j (List.dropLast_subset _ hj)
  rw [placeAll_concat]
  simp only [placeField]
  refine ⟨?_, fun j hj => ?_⟩
  · rw [Function.update_self, if_pos (h.fieldAlign i).pos, total_eq hs, ← hr.offset hs]
    rfl
  · have hle := hr.placed.before_stop j hj
    rw [fixedSize, if_pos (hs j hj), ← total_eq hs] at hle
    rw [Function.update_of_ne (ne_of_mem_of_not_mem hj hi)]
    exact hle

theorem exactLayout_sound (hf : q.Fits order) : Sound q (q.exactLayout bias order) := by
  have hr := ha.run h
  have hinside : ∀ i, q.Sized i → (q.exactLayout bias order).offsets i + (q.ents i).size ≤
      (q.exactLayout bias order).size := by
    intro i hi
    by_cases hall : ∀ j, q.Sized j
    · have hle := hr.placed.before_stop i (ha.mem i)
      rw [fixedSize, if_pos hi, ← hr.offset fun j _ => hall j] at hle
      simp only [exactLayout, if_pos hall, ha.align_eq h]
      exact Nat.le_trans hle (le_roundUp (h.wholeAlign order).pos _)
    · obtain ⟨t, ht⟩ := not_forall.1 hall
      obtain ⟨front, heq, hsf, htf, hmem⟩ := ha.eq_append h ht
      have hle := (ha.tail_offset h heq hsf htf).2 i (hmem i fun hit => ht (hit ▸ hi))
      have hup := le_roundUp (h.fieldAlign t).pos (q.total front)
      rw [Fits, if_neg hall, heq, total_append] at hf
      simp only [exactLayout, if_neg hall]
      omega
  refine ⟨fun i => hr.placed.aligned i (ha.mem i), fun i j hij hi hj => ?_, fun hk =>
    ⟨?_, fun i => ?_⟩, hinside,
    fun i hi j hji => ?_, fun hall => ?_, fun niche hn => ?_⟩
  · have hapart := hr.placed.apart i (ha.mem i) j (ha.mem j) hij
    rwa [fixedSize, fixedSize, if_pos hi, if_pos hj] at hapart
  · have hfirst := h.prefix_le_first hk
    by_cases hall : ∀ j, q.Sized j
    · have hle := hr.placed.start_le
      rw [← hr.offset fun j _ => hall j] at hle
      simp only [exactLayout, if_pos hall, ha.align_eq h]
      exact hfirst.trans (hle.trans (le_roundUp (h.wholeAlign order).pos _))
    · simp only [exactLayout, if_neg hall]
      exact h.prefixSize_le
  · exact (h.prefix_le_first hk).trans (hr.placed.from_start i (ha.mem i))
  · obtain ⟨front, heq, hsf, hif, hmem⟩ := ha.eq_append h hi
    obtain ⟨hoff, hle⟩ := ha.tail_offset h heq hsf hif
    have hup := le_roundUp (h.fieldAlign i).pos (q.total front)
    simp only [exactLayout, hoff]
    exact (hle j (hmem j hji)).trans hup
  · simp only [exactLayout, if_pos hall]
    exact dvd_roundUp _ _
  · obtain ⟨i, _, hfound⟩ := hr.niche niche hn
    exact ⟨i, hfound⟩

end Order

/-! ## 7. The arithmetic of the source -/

section Machine

variable {q : Fields n} (h : Admissible q) {bias : NicheBias}
include h

theorem placeStart_eq (hf : q.first ≤ sizeMax) : placeStart sizeT q = placeStart unbounded q := by
  have hoffset : (placeStart sizeT q).offset = (placeStart unbounded q).offset := by
    unfold first at hf
    simp only [placeStart]
    split
    · rename_i hk
      rw [if_pos hk] at hf
      exact alignTo_eq (h.packed h.prefixAlign) hf
    · rfl
  exact PlaceState.ext hoffset rfl rfl rfl rfl

/-- One round is the same where the end of the field and its niche are numbers that a `size_t`
    takes. -/
theorem placeField_eq {s : PlaceState n} {i : Fin n}
    (hsize : roundUp s.offset (q.fieldAlign i) + q.fixedSize i ≤ sizeMax)
    (hniche : ∀ niche, takenNiche (q.ents i) bias s.largestAvailable = some niche →
      roundUp s.offset (q.fieldAlign i) + niche.offset ≤ sizeMax) :
    placeField sizeT q bias s i = placeField unbounded q bias s i := by
  have halign : sizeT.alignTo s.offset (q.fieldAlign i) =
    unbounded.alignTo s.offset (q.fieldAlign i) :=
    alignTo_eq (h.fieldAlign i) (Nat.le_of_add_right_le hsize)
  have hadd : ¬ (q.ents i).size = sizeMax → sizeT.add (roundUp s.offset (q.fieldAlign i))
    (q.ents i).size =
      unbounded.add (roundUp s.offset (q.fieldAlign i)) (q.ents i).size := by
    intro hs
    have hsized : q.Sized i := hs
    rw [fixedSize, if_pos hsized] at hsize
    exact add_eq hsize
  have hwithin : ∀ niche, takenNiche (q.ents i) bias s.largestAvailable = some niche →
      nicheWithin sizeT niche (q.ents i).field (roundUp s.offset (q.fieldAlign i)) =
        nicheWithin unbounded niche (q.ents i).field (roundUp s.offset (q.fieldAlign i)) := by
    intro niche ht
    rw [nicheWithin, nicheWithin, add_eq (hniche niche ht)]
  unfold placeField
  simp only [if_pos (h.fieldAlign i).pos, halign]
  refine PlaceState.ext ?_ rfl rfl rfl ?_
  · split
    · rfl
    · rename_i hs
      exact hadd hs
  · dsimp only
    split
    · rename_i niche ht
      exact congrArg some (hwithin niche ht)
    · rfl

/-- The loop is the same where all the fields have sizes and the total is a number that a `size_t`
    takes. -/
theorem placeAll_eq (bias : NicheBias) {order : List (Fin n)} (hd : order.Nodup)
    (hs : ∀ i ∈ order, q.Sized i)
    (hf : q.total order ≤ sizeMax) : placeAll sizeT q bias order =
      placeAll unbounded q bias order := by
  induction order using List.reverseRecOn with
  | nil => exact placeStart_eq h hf
  | append_singleton order i ih =>
    have hso : ∀ j ∈ order, q.Sized j := fun j hj => hs j (List.mem_append_left _ hj)
    have hsi : q.Sized i := hs i (by simp)
    have hdo := (List.nodup_append.1 hd).1
    rw [total_append, reach, if_pos hsi] at hf
    have hup := le_roundUp (h.fieldAlign i).pos (q.total order)
    have hoffset : (placeAll unbounded q bias order).offset = q.total order := by
      rw [(placeAll_run h bias order hdo fun j hj => hso j (List.dropLast_subset _ hj)).offset hso,
        total_eq hso]
    have hprev := ih hdo hso (by omega)
    rw [placeAll_concat, placeAll_concat, hprev]
    refine placeField_eq h ?_ fun niche ht => ?_
    · rw [hoffset, fixedSize, if_pos hsi]
      exact hf
    · have hle := h.niche_le i niche (takenNiche_some ht).1
      rw [hoffset]
      omega

/-- Whatever the loop computes, a `size_t` takes it. -/
theorem placeAll_le (bias : NicheBias) (order : List (Fin n)) :
    (∀ i, (placeAll sizeT q bias order).offsets i ≤ sizeMax) ∧
    ∀ niche, (placeAll sizeT q bias order).niche = some niche → niche.offset ≤ sizeMax := by
  induction order using List.reverseRecOn with
  | nil => exact ⟨fun _ => Nat.zero_le _, fun _ hn => by cases hn⟩
  | append_singleton order i ih =>
    rw [placeAll_concat]
    simp only [placeField]
    refine ⟨fun j => ?_, fun niche hn => ?_⟩
    · by_cases hji : j = i
      · rw [hji, Function.update_self, if_pos (h.fieldAlign i).pos]
        exact alignTo_le
      · rw [Function.update_of_ne hji]
        exact ih.1 j
    · split at hn
      · rw [← Option.some.inj hn]
        exact add_le _ _
      · exact ih.2 niche hn

variable {order : List (Fin n)} (ha : q.Arranged bias order)
include ha

/-- In front of a field without a size, the largest niche is of a field that is before it. -/
theorem Arranged.taken_of_largest {i : Fin n} {front : List (Fin n)} {inner : TypeReprNiche}
    (heq : order = front ++ [i]) (hs : ∀ j ∈ front, q.Sized j) (hif : i ∉ front)
    (hinner : (q.ents i).niche = some inner) (hl : q.LargestNiche i) :
    takenNiche (q.ents i) bias (placeAll unbounded q bias front).largestAvailable = some inner := by
  subst heq
  have hr := placeAll_run h bias front (List.nodup_append.1 ha.nodup).1
    fun j hj => hs j (List.dropLast_subset _ hj)
  have hlt : (placeAll unbounded q bias front).largestAvailable < fieldNiche (q.ents i) := by
    rcases hr.attained with hz | ⟨j, hj, hj'⟩
    · rw [hz]
      exact hl.1
    · rw [hj']
      exact hl.2 j fun hji => hif (hji ▸ hj)
  cases ht : takenNiche (q.ents i) bias (placeAll unbounded q bias front).largestAvailable with
  | some niche =>
    have hniche := (takenNiche_some ht).1
    rw [hinner] at hniche
    rw [hniche]
  | none => exact absurd hlt (BitVec.not_lt.2 (takenNiche_none ht))

/-- If the niche of a field without a size is taken, then it is the largest, in the layout that is
    made first. -/
theorem Arranged.largest_of_taken {i : Fin n} {front : List (Fin n)} {inner : TypeReprNiche}
    (hbias : bias = .start) (heq : order = front ++ [i]) (hs : ∀ j ∈ front, q.Sized j)
    (hmem : ∀ j, j ≠ i → j ∈ front)
    (ht : takenNiche (q.ents i) bias (placeAll unbounded q bias front).largestAvailable =
      some inner) :
    q.LargestNiche i := by
  subst heq
  have hr := placeAll_run h bias front (List.nodup_append.1 ha.nodup).1
    fun j hj => hs j (List.dropLast_subset _ hj)
  have hlt := (takenNiche_some ht).2.2.2 hbias
  refine ⟨?_, fun j hj => ?_⟩
  · exact available_lt (BitVec.le_def.2 (by simp)) hlt
  · exact available_lt (hr.largest j (hmem j hj)) hlt

/-- Where the total fits, the layout is the one in numbers without a bound. -/
theorem Arranged.layOut_eq (hb : bias = .start ∨ ∀ i, q.Sized i) (hf : q.Fits order) :
    q.layOut bias order = q.exactLayout bias order := by
  by_cases hall : ∀ i, q.Sized i
  · have hround : roundUp (q.total order) (q.wholeAlign order) ≤ sizeMax := by
      rwa [Fits, if_pos hall] at hf
    have hup := le_roundUp (h.wholeAlign order).pos (q.total order)
    have hplace := placeAll_eq h bias ha.nodup (fun i _ => hall i) (hup.trans hround)
    refine UnivariantLayout.ext ?_ ?_ ?_ ?_ <;> simp only [layOut, exactLayout, hplace]
    rw [ha.align_eq h, ha.offset_eq h hall, if_pos hall]
    split
    · rename_i hmax
      omega
    · exact alignTo_eq (h.wholeAlign order) hround
  · obtain ⟨t, ht⟩ := not_forall.1 hall
    obtain ⟨front, heq, hsf, htf, hmem⟩ := ha.eq_append h ht
    have hstart : bias = .start := hb.resolve_right hall
    rw [Fits, if_neg hall, heq, total_append] at hf
    have hup := le_roundUp (h.fieldAlign t).pos (q.total front)
    have hdf : front.Nodup := (List.nodup_append.1 (heq ▸ ha.nodup)).1
    have hfront := placeAll_eq h bias hdf hsf (by omega)
    have hoffset : (placeAll unbounded q bias front).offset = q.total front := by
      rw [(placeAll_run h bias front hdf fun j hj => hsf j (List.dropLast_subset _ hj)).offset hsf,
        total_eq hsf]
    have hplace : placeAll sizeT q bias order = placeAll unbounded q bias order := by
      rw [heq, placeAll_concat, placeAll_concat, hfront]
      refine placeField_eq h ?_ fun niche hn => ?_
      · rw [hoffset, fixedSize, if_neg ht]
        omega
      · have hlargest := ha.largest_of_taken h hstart heq hsf hmem hn
        rw [reach, if_neg ht, (takenNiche_some hn).1] at hf
        simp only [if_pos hlargest] at hf
        rw [hoffset]
        exact hf
    have hsize : (placeAll unbounded q bias order).offset = sizeMax := by
      have htail : (q.ents t).size = sizeMax := not_not.1 ht
      rw [heq, placeAll_concat]
      simp only [placeField, if_pos htail]
    refine UnivariantLayout.ext ?_ ?_ ?_ ?_ <;> simp only [layOut, exactLayout, hplace]
    rw [if_pos hsize, if_neg hall]

/-- Where the layout is the one in numbers without a bound, the total fits. -/
theorem Arranged.fits_of_eq (heq : q.layOut bias order = q.exactLayout bias order) :
    q.Fits order := by
  obtain ⟨hoffsets, hniches⟩ := placeAll_le h bias order
  rw [Fits]
  split
  · rename_i hall
    have hsize := congrArg UnivariantLayout.size heq
    simp only [layOut, exactLayout, if_pos hall] at hsize
    rw [ha.offset_eq h hall, ha.align_eq h] at hsize
    rw [← hsize]
    split
    · exact Nat.le_refl _
    · exact alignTo_le
  · rename_i hall
    obtain ⟨t, ht⟩ := not_forall.1 hall
    obtain ⟨front, horder, hsf, htf, hmem⟩ := ha.eq_append h ht
    have hoffset : (placeAll sizeT q bias order).offsets t = roundUp (q.total front)
      (q.fieldAlign t) := by
      have hofs := congrFun (congrArg UnivariantLayout.offsets heq) t
      exact hofs.trans (ha.tail_offset h horder hsf htf).1
    have hle := hoffsets t
    rw [hoffset] at hle
    rw [horder, total_append, reach, if_neg ht]
    split
    · rename_i inner hinner
      split
      · rename_i hlargest
        have htaken := ha.taken_of_largest h horder hsf htf hinner hlargest
        have hniche : (placeAll sizeT q bias order).niche =
          some (nicheWithin unbounded inner (q.ents t).field
            (roundUp (q.total front) (q.fieldAlign t))) := by
          have hn := congrArg UnivariantLayout.niche heq
          simp only [layOut, exactLayout] at hn
          have hfront : (placeAll unbounded q bias order).offsets t = roundUp (q.total front)
            (q.fieldAlign t) :=
            (ha.tail_offset h horder hsf htf).1
          rw [hn, ← hfront, horder, placeAll_concat]
          simp only [placeField, htaken, Function.update_self]
        exact hniches _ hniche
      · exact hle
    · exact hle

end Machine

/-! ## 8. All lists of fields -/

theorem univariant_cases (q : Fields n) : q.univariant = q.univariantBiased .start ∨
    q.triesStop (q.univariantBiased .start) = true ∧ q.univariant = q.univariantBiased .stop := by
  simp only [univariant]
  split
  · rename_i htries
    split
    · exact Or.inr ⟨htries, rfl⟩
    · exact Or.inl rfl
  · exact Or.inl rfl

/-- Where the other bias is tried, all fields have a size. -/
theorem sized_of_triesStop {q : Fields n} {order : List (Fin n)}
    (ht : q.triesStop (q.exactLayout .start order) = true) : ∀ i, q.Sized i := by
  by_contra hall
  unfold triesStop at ht
  split at ht
  · cases ht
  · simp [exactLayout, if_neg hall] at ht

/-- **What `univariant` returns is right, and no number of it wraps, just where all totals fit.** -/
theorem univariant_right {q : Fields n} (h : Admissible q) :
    (Sound q q.univariant ∧ Unwrapped q) ↔ AllFit q := by
  have hstart := q.fieldOrder_arranged .start
  have hstop := q.fieldOrder_arranged .stop
  constructor
  · rintro ⟨_, hu⟩ order ha
    rw [(q.arranged_iff .start order).1 ha]
    refine ⟨hstart.fits_of_eq h hu.start, fun ht order' ha' => ?_⟩
    rw [(q.arranged_iff .stop order').1 ha']
    exact hstop.fits_of_eq h (hu.stop (hu.start ▸ ht))
  · intro hf
    obtain ⟨hfirst, hother⟩ := hf _ hstart
    have hu : Unwrapped q := by
      have heq := hstart.layOut_eq h (Or.inl rfl) hfirst
      refine ⟨heq, fun ht => ?_⟩
      have ht' : q.triesStop (q.exactLayout .start (q.fieldOrder .start)) = true := heq ▸ ht
      exact hstop.layOut_eq h (Or.inr (sized_of_triesStop ht')) (hother ht' _ hstop)
    refine ⟨?_, hu⟩
    rcases q.univariant_cases with heq | ⟨ht, heq⟩
    · rw [heq, hu.start]
      exact exactLayout_sound h hstart hfirst
    · rw [heq, hu.stop ht]
      exact exactLayout_sound h hstop (hother (hu.start ▸ ht) _ hstop)

end Fields

/-- `struct { u8, u32, u16 }`. -/
def threeInts : Fields 3 where
  ents
    | 0 => ⟨0, 1, 1, none⟩
    | 1 => ⟨1, 4, 4, none⟩
    | 2 => ⟨2, 2, 2, none⟩
  kind := .alwaysSized
  prefixSize := 0
  prefixAlign := 1
  optimize := true
  pack := 0
  forcedAlignment := 0

theorem threeInts_admissible : threeInts.Admissible where
  align i := match i with
    | 0 => ⟨0, by decide, rfl⟩
    | 1 => ⟨2, by decide, rfl⟩
    | 2 => ⟨1, by decide, rfl⟩
  size_le := by decide
  tail := by decide
  niche_le i niche hn := by
    match i with
    | 0 => cases hn
    | 1 => cases hn
    | 2 => cases hn
  prefixSize_le := by decide
  prefixAlign := ⟨0, by decide, rfl⟩
  pack := Or.inl rfl
  forcedAlignment := Or.inl rfl

theorem threeInts_right : threeInts.Sound threeInts.univariant ∧ threeInts.Unwrapped := by
  refine (Fields.univariant_right threeInts_admissible).2 fun order ha => ?_
  rw [(threeInts.arranged_iff .start order).1 ha]
  exact ⟨by decide, fun ht => absurd ht (by decide)⟩

example : threeInts.fieldOrder .start = [1, 2, 0] := by decide

/-- Four times `[u8; 1 << 62]`. -/
def fourQuarters : Fields 4 where
  ents _ := ⟨0, 2 ^ 62, 1, none⟩
  kind := .alwaysSized
  prefixSize := 0
  prefixAlign := 1
  optimize := true
  pack := 0
  forcedAlignment := 0

/-- Each of the four arrays is given its size; all four together are given the size 0. -/
theorem fourQuarters_wrap : fourQuarters.Admissible ∧ arraySize 1 (2 ^ 62) = some (2 ^ 62) ∧
    fourQuarters.univariant.size = 0 ∧ ¬ fourQuarters.Sound fourQuarters.univariant := by
  have hsize : fourQuarters.univariant.size = 0 := by decide
  refine ⟨?_, by decide, hsize, fun hs => ?_⟩
  · exact {
      align := fun _ => ⟨0, by decide, rfl⟩
      size_le := by decide
      tail := by decide
      niche_le := fun _ _ hn => by cases hn
      prefixSize_le := by decide
      prefixAlign := ⟨0, by decide, rfl⟩
      pack := Or.inl rfl
      forcedAlignment := Or.inl rfl }
  · have hinside := hs.inside 0 (by decide)
    rw [hsize] at hinside
    exact absurd hinside (by decide)

end Trustme.Target
