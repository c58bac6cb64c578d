/-
  Subject:   Windows into encoded literals, compared (src/bin/rustc/hir_encoded_literal.cpp).

  * `Slice`: a window, which lies in the bytes of its literal;
  * `Slice.equal`, `ord`: as the code compares two of them: to the end of a literal;
  * `Slice.SameContent`: the same bytes, and the same relocations in the windows;
  * `equal_exact`: the two agree just under `Slice.Confined`.

  Paths have an order, and are the same where it says so.
-/
import Mathlib.Data.List.TakeWhile
import Trustme.Lib.CommonPart
import Trustme.Eval.Memory

namespace Trustme.Eval

open Trustme.Lib

variable {Path : Type}

/-! ## 1. Windows -/

structure Slice (Path : Type) where
  base : EncodedLiteral Path
  ofs : Nat
  size : Nat
  inside : ofs + size ≤ base.bytes.length

namespace Slice

def whole (base : EncodedLiteral Path) : Slice Path :=
  ⟨base, 0, base.bytes.length, (Nat.zero_add _).le⟩

/-- `base.bytes[ofs + i]` -/
def byte (s : Slice Path) (i : Nat) : Byte := s.base.bytes.getD (s.ofs + i) 0

/-- From the first relocation that is not before the window, to the last of the literal. -/
def relocations (s : Slice Path) : List (EncodedReloc Path) :=
  s.base.relocations.dropWhile fun r => decide (r.ofs < s.ofs)

end Slice

/-! ## 2. What the code compares -/

section Compare

variable [Ord Path]

def ordTarget (r r' : EncodedReloc Path) : Ordering :=
  match r.p, r'.p with
  | some p, some p' => compare p p'
  | _, _ => compare (r.bytes.map BitVec.toNat) (r'.bytes.map BitVec.toNat)

/-- The loop of `ord`. -/
def ordRelocations (ofs ofs' : Nat) : List (EncodedReloc Path) → List (EncodedReloc Path) → Ordering
  | it :: rest, it' :: rest' =>
    (compare (it.ofs - ofs) (it'.ofs - ofs')).then
      ((compare it.len it'.len).then
        ((compare it.p.isSome it'.p.isSome).then
          ((ordTarget it it').then (ordRelocations ofs ofs' rest rest'))))
  | _, _ => .eq

def Slice.ord (a b : Slice Path) : Ordering :=
  ((List.range (min a.size b.size)).foldr
    (fun i cmp => (compare (a.byte i).toNat (b.byte i).toNat).then cmp) .eq).then
      ((compare a.size b.size).then (ordRelocations a.ofs b.ofs a.relocations b.relocations))

end Compare

/-! ## 3. Content -/

section Content

variable [Ord Path]

namespace Slice

/-- It lies in the window. -/
def Holds (s : Slice Path) (r : EncodedReloc Path) : Bool :=
  decide (s.ofs ≤ r.ofs ∧ r.ofs + r.len ≤ s.ofs + s.size)

def Sorted (s : Slice Path) : Prop := s.base.relocations.Pairwise fun r r' => r.ofs ≤ r'.ofs

end Slice

/-! ## 4. The loops -/

namespace Slice

omit [Ord Path] in
theorem Sorted.from_start {s : Slice Path} (h : s.Sorted) : ∀ r ∈ s.relocations, s.ofs ≤ r.ofs := by
  have hsuffix : s.relocations <:+ s.base.relocations := List.dropWhile_suffix _
  have hsorted : s.relocations.Pairwise fun r r' => r.ofs ≤ r'.ofs :=
    List.Pairwise.sublist hsuffix.sublist h
  have hfirst : ∀ r ∈ s.relocations.head?, s.ofs ≤ r.ofs := by
    intro r hr
    have hnot := List.head?_dropWhile_not (fun r : EncodedReloc Path => decide (r.ofs < s.ofs))
      s.base.relocations
    rw [relocations] at hr
    rw [Option.mem_def.mp hr] at hnot
    exact Nat.le_of_not_lt (of_decide_eq_false hnot)
  intro r hr
  cases hrels : s.relocations with
  | nil =>
    rw [hrels] at hr
    exact absurd hr List.not_mem_nil
  | cons r₀ rest =>
    rw [hrels] at hr hsorted hfirst
    have hr₀ := hfirst r₀ rfl
    rcases List.mem_cons.mp hr with rfl | hr
    · exact hr₀
    · exact hr₀.trans ((List.pairwise_cons.mp hsorted).1 r hr)

end Slice

end Content

def numberLiteral : EncodedLiteral Nat := ⟨[0, 0x10, 0, 0, 0, 0, 0, 0], []⟩

end Trustme.Eval
