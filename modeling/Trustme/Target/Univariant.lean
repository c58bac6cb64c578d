/-
  Subject:   The layout of one list of fields: `alignTo`, `univariantBiased` and `univariant` of
             src/bin/rustc/trans_target.cpp.

  * `SizeArith`: what sizes and offsets are computed in: `sizeT` is the arithmetic of the source,
    `unbounded` the same sums as numbers without a bound;
  * `before`, `fieldOrder`: the comparison of the source, and the order its insertion sort makes;
  * `placeField`: one field at the next multiple of its alignment;
  * `univariant`: one layout with the niches to the front, and one with them to the end where that
    may help;
  * `Arranged`: the order told by the comparison alone: `arranged_iff`.
-/
import Mathlib.Data.List.FinRange
import Trustme.Lib.Insertion
import Trustme.Lib.Placement

namespace Trustme.Target

open Trustme.Lib

/-! ## 1. Sizes -/

/-- `SIZE_MAX`, which as a size means that there is none. -/
def sizeMax : Nat := 2 ^ 64 - 1

/-- What sizes and offsets are computed in. -/
structure SizeArith where
  add : Nat → Nat → Nat
  alignTo : Nat → Nat → Nat

/-- `size_t`, and `alignTo` in it. -/
def sizeT : SizeArith where
  add a b := (a + b) % 2 ^ 64
  alignTo offset align := (offset + align - 1) % 2 ^ 64 / align * align

/-- Numbers without a bound. -/
def unbounded : SizeArith where
  add a b := a + b
  alignTo := roundUp

/-- `-` of `size_t`. -/
def subSize (a b : Nat) : Nat := (a + (2 ^ 64 - b % 2 ^ 64)) % 2 ^ 64

/-- `TargetGetSizeAndAlignOf` at an array: no size where the product may be too large, which is
    an error. -/
def arraySize (inner count : Nat) : Option Nat :=
  if count = 0 ∨ inner = 0 then some 0
  else if sizeMax / count ≤ inner then none
  else some ((inner * count) % 2 ^ 64)

/-- One round of the loop each; a `size_t` takes 64 at most. -/
def countZeros : Nat → Nat → Nat
  | 0, _ => 0
  | n + 1, value => if value ≠ 0 ∧ value % 2 = 0 then countZeros n (value / 2) + 1 else 0

def trailingZeros (value : Nat) : Nat := countZeros 64 value

/-! ## 2. Fields and their niches -/

/-- `TypeReprNiche`; `stop` is its `end`. -/
structure TypeReprNiche where
  path : List Nat
  offset : Nat
  size : Nat
  start : BitVec 128
  stop : BitVec 128
  deriving DecidableEq

def nicheMask (size : Nat) : BitVec 128 :=
  if 16 ≤ size then BitVec.allOnes 128 else (1#128 <<< (size * 8)) - 1#128

def nicheAvailable (niche : TypeReprNiche) : BitVec 128 :=
  (niche.start - (niche.stop + 1#128)) &&& nicheMask niche.size

def nicheWithin (A : SizeArith) (inner : TypeReprNiche) (fieldIndex fieldOffset : Nat) :
    TypeReprNiche :=
  { inner with path := fieldIndex :: inner.path, offset := A.add fieldOffset inner.offset }

/-- `~0u`, the index of what is not a field. -/
def noField : Nat := 2 ^ 32 - 1

/-- `Ent`, as far as the layout reads it; `niche` stands for `hasNiche` and `niche`. -/
structure Ent where
  field : Nat
  size : Nat
  align : Nat
  niche : Option TypeReprNiche

def entNicheSize (e : Ent) : BitVec 128 :=
  match e.niche with
  | some niche => nicheAvailable niche
  | none => 0#128

inductive StructKind where
  | alwaysSized
  | maybeUnsized
  | prefixed
  deriving DecidableEq

inductive NicheBias where
  | start
  | stop
  deriving DecidableEq

/-- The arguments of `univariant`. -/
structure Fields (n : Nat) where
  ents : Fin n → Ent
  kind : StructKind
  prefixSize : Nat
  prefixAlign : Nat
  optimize : Bool
  pack : Nat
  forcedAlignment : Nat

/-- `UnivariantLayout`; `niche` stands for `hasNiche` and `niche`. -/
@[ext] structure UnivariantLayout (n : Nat) where
  offsets : Fin n → Nat
  size : Nat
  align : Nat
  niche : Option TypeReprNiche

variable {n : Nat}

/-! ## 3. The order of the fields -/

namespace Fields

/-- How many of the fields are sorted where any are. -/
def stop (q : Fields n) : Nat := if q.kind = .maybeUnsized ∧ 0 < n then n - 1 else n

def sortedFields (q : Fields n) : List (Fin n) := (List.finRange n).take q.stop

def maxFieldAlign (q : Fields n) : Nat :=
  q.sortedFields.foldl (fun m i => if m < (q.ents i).align then (q.ents i).align else m) 1

def largestNicheSize (q : Fields n) : BitVec 128 :=
  q.sortedFields.foldl (fun m i => if m < entNicheSize (q.ents i) then entNicheSize
    (q.ents i) else m) 0#128

def groupKey (q : Fields n) (bias : NicheBias) (e : Ent) : Nat :=
  if 0 < q.pack then if e.align < q.pack then e.align else q.pack
  else
    let sizeAsAlign := trailingZeros (if e.size < e.align then e.align else e.size)
    if q.largestNicheSize ≠ 0#128 then
      if bias = .start then
        let maxAlignKey := trailingZeros q.maxFieldAlign
        if maxAlignKey < sizeAsAlign then maxAlignKey else sizeAsAlign
      else if entNicheSize e = q.largestNicheSize then trailingZeros e.align
      else sizeAsAlign
    else sizeAsAlign

def innerKey (bias : NicheBias) (e : Ent) : Nat :=
  match e.niche with
  | none => 0
  | some niche =>
    if bias = .start then niche.offset
    else sizeMax - subSize (subSize e.size niche.size) niche.offset

/-- The comparison of the insertion sort. -/
def before (q : Fields n) (bias : NicheBias) (a b : Fin n) : Bool :=
  let groupA := q.groupKey bias (q.ents a)
  let groupB := q.groupKey bias (q.ents b)
  let nicheA := (entNicheSize (q.ents a)).toNat
  let nicheB := (entNicheSize (q.ents b)).toNat
  if q.kind = .prefixed then
    if groupA ≠ groupB then groupA < groupB else nicheA < nicheB
  else if groupA ≠ groupB then groupB < groupA
  else if nicheA ≠ nicheB then if bias = .start then nicheB < nicheA else nicheA < nicheB
  else innerKey bias (q.ents a) < innerKey bias (q.ents b)

def fieldOrder (q : Fields n) (bias : NicheBias) : List (Fin n) :=
  if q.optimize && 1 < n then
    insertionSort (q.before bias) q.sortedFields ++ (List.finRange n).drop q.stop
  else List.finRange n

/-! ## 4. Placing the fields -/

/-- The lesser of an alignment and `pack`, where that is given. -/
def packed (q : Fields n) (align : Nat) : Nat := if 0 < q.pack ∧
    q.pack < align then q.pack else align

def fieldAlign (q : Fields n) (i : Fin n) : Nat := q.packed (q.ents i).align

/-- What the loop over the order carries. -/
@[ext] structure PlaceState (n : Nat) where
  offset : Nat
  align : Nat
  offsets : Fin n → Nat
  largestAvailable : BitVec 128
  niche : Option TypeReprNiche

def prefer (bias : NicheBias) (available largest : BitVec 128) : Bool :=
  if bias = .start then largest < available else largest ≤ available

/-- The niche of a field where it is taken for that of the whole. -/
def takenNiche (e : Ent) (bias : NicheBias) (largest : BitVec 128) : Option TypeReprNiche :=
  e.niche.filter fun niche => e.field ≠ noField && prefer bias (nicheAvailable niche) largest

/-- One round of the loop. -/
def placeField (A : SizeArith) (q : Fields n) (bias : NicheBias) (s : PlaceState n) (i : Fin n) :
    PlaceState n :=
  let e := q.ents i
  let offset := if 0 < q.fieldAlign i then A.alignTo s.offset (q.fieldAlign i) else s.offset
  let taken := takenNiche e bias s.largestAvailable
  { offset := if e.size = sizeMax then sizeMax else A.add offset e.size
    align := if s.align < q.fieldAlign i then q.fieldAlign i else s.align
    offsets := Function.update s.offsets i offset
    largestAvailable := match taken with
      | some niche => nicheAvailable niche
      | none => s.largestAvailable
    niche := match taken with
      | some niche => some (nicheWithin A niche e.field offset)
      | none => s.niche }

/-- What the loop begins with. -/
def placeStart (A : SizeArith) (q : Fields n) : PlaceState n where
  offset := if q.kind = .prefixed then A.alignTo q.prefixSize (q.packed q.prefixAlign) else 0
  align := if q.kind = .prefixed ∧ 1 < q.packed q.prefixAlign then q.packed q.prefixAlign else 1
  offsets _ := 0
  largestAvailable := 0#128
  niche := none

def placeAll (A : SizeArith) (q : Fields n) (bias : NicheBias) (order : List (Fin n)) :
    PlaceState n :=
  order.foldl (placeField A q bias) (placeStart A q)

@[simp] theorem placeAll_nil (A : SizeArith) (q : Fields n) (bias : NicheBias) :
    placeAll A q bias [] = placeStart A q := rfl

@[simp] theorem placeAll_concat (A : SizeArith) (q : Fields n) (bias : NicheBias)
    (order : List (Fin n))
    (i : Fin n) : placeAll A q bias (order ++ [i]) =
      placeField A q bias (placeAll A q bias order) i := by
  rw [placeAll, List.foldl_append, List.foldl_cons, List.foldl_nil, placeAll]

def finalAlign (q : Fields n) (align : Nat) : Nat :=
  if 0 < q.forcedAlignment ∧ align < q.forcedAlignment then q.forcedAlignment else align

/-- The layout with the fields in an order. -/
def layOut (q : Fields n) (bias : NicheBias) (order : List (Fin n)) : UnivariantLayout n :=
  let s := placeAll sizeT q bias order
  { offsets := s.offsets
    size := if s.offset = sizeMax then sizeMax else sizeT.alignTo s.offset (q.finalAlign s.align)
    align := q.finalAlign s.align
    niche := s.niche }

def univariantBiased (q : Fields n) (bias : NicheBias) : UnivariantLayout n :=
  q.layOut bias (q.fieldOrder bias)

/-- Whether there is room before the niche and behind it, so that the other bias is tried. -/
def triesStop (q : Fields n) (layout : UnivariantLayout n) : Bool :=
  match layout.niche with
  | none => false
  | some niche =>
    q.kind ≠ .maybeUnsized && 1 < n && layout.size ≠ sizeMax && niche.offset ≠ 0 &&
      0 < subSize (subSize layout.size niche.offset) niche.size

/-- Whether the niche of the other layout lies further back than there is room in this one. -/
def takesStop (layout alternative : UnivariantLayout n) : Bool :=
  match layout.niche, alternative.niche with
  | some niche, some other =>
    niche.offset < other.offset && subSize (subSize layout.size niche.offset) niche.size <
      other.offset
  | _, _ => false

def univariant (q : Fields n) : UnivariantLayout n :=
  let layout := q.univariantBiased .start
  if q.triesStop layout then
    let alternative := q.univariantBiased .stop
    if takesStop layout alternative then alternative else layout
  else layout

/-! ## 5. The order by the comparison alone -/

theorem before_weakOrder (q : Fields n) (bias : NicheBias) : WeakOrder (q.before bias) where
  asymm a b := by
    unfold before
    generalize q.groupKey bias (q.ents a) = ga, q.groupKey bias (q.ents b) = gb
    generalize (entNicheSize (q.ents a)).toNat = na, (entNicheSize (q.ents b)).toNat = nb
    generalize innerKey bias (q.ents a) = ia, innerKey bias (q.ents b) = ib
    dsimp only
    split_ifs <;> simp only [decide_eq_true_eq, decide_eq_false_iff_not] <;> omega
  negTrans a b c := by
    unfold before
    generalize q.groupKey bias (q.ents a) = ga, q.groupKey bias (q.ents b) = gb
    generalize q.groupKey bias (q.ents c) = gc, (entNicheSize (q.ents c)).toNat = nc
    generalize (entNicheSize (q.ents a)).toNat = na, (entNicheSize (q.ents b)).toNat = nb
    generalize innerKey bias (q.ents a) = ia, innerKey bias (q.ents b) = ib
    generalize innerKey bias (q.ents c) = ic
    dsimp only
    split_ifs <;> simp only [decide_eq_false_iff_not] <;> omega

/-- How many of the fields the comparison orders. -/
def sortedCount (q : Fields n) : Nat := if q.optimize && 1 < n then q.stop else 0

/-- The first fields are in the order of the comparison, those it does not tell apart as they are
    declared, and so are the others. -/
def Arranged (q : Fields n) (bias : NicheBias) (order : List (Fin n)) : Prop :=
  ∃ front, order = front ++ (List.finRange n).drop q.sortedCount ∧
    front.Perm ((List.finRange n).take q.sortedCount) ∧
    front.Pairwise (Precedes (q.before bias) (· < ·))

theorem fieldOrder_arranged (q : Fields n) (bias : NicheBias) :
    q.Arranged bias (q.fieldOrder bias) := by
  unfold Arranged fieldOrder sortedCount
  split
  · refine ⟨_, rfl, insertionSort_perm _ _, insertionSort_pairwise (q.before_weakOrder bias) ?_⟩
    exact (List.pairwise_lt_finRange n).sublist (List.take_sublist _ _)
  · exact ⟨[], rfl, List.Perm.refl _, List.Pairwise.nil⟩

theorem arranged_iff (q : Fields n) (bias : NicheBias) (order : List (Fin n)) :
    q.Arranged bias order ↔ order = q.fieldOrder bias := by
  constructor
  · rintro ⟨front, rfl, hp, hs⟩
    obtain ⟨front', heq, hp', hs'⟩ := q.fieldOrder_arranged bias
    rw [heq, eq_of_precedes (q.before_weakOrder bias) (fun _ _ h => lt_asymm h)
      (hp.trans hp'.symm) hs hs']
  · rintro rfl
    exact q.fieldOrder_arranged bias

theorem Arranged.perm {q : Fields n} {bias : NicheBias} {order : List (Fin n)}
    (h : q.Arranged bias order) :
    order.Perm (List.finRange n) := by
  obtain ⟨front, rfl, hp, _⟩ := h
  have hall := hp.append_right ((List.finRange n).drop q.sortedCount)
  rwa [List.take_append_drop] at hall

end Fields

end Trustme.Target
