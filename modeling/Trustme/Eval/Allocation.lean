/-
  Subject:   The allocations of the constant evaluator: bytes, the packed mask of the initialised
             ones and the list of relocations.

  * `Allocation.getBytes`, `readMask`, `extWriteBytes`, `getReloc`, `setReloc`: the operations,
    with the loops of the source over the bits and bytes of the mask;
  * `extWriteMask_marked`, `readMask_copied`: which bits of a mask those loops change;
  * `checkMask_isSome`: what the check of the mask asks.
-/
import Trustme.Lib.ByteStore

namespace Trustme.Eval

open Trustme.Lib

abbrev Byte := BitVec 8

/-- An object of the evaluator: an allocation, a constant or a static, by its place in the pool. -/
abbrev RelocPtr := Nat

/-- A pointer is stored from `offset` on. -/
structure Reloc where
  offset : Nat
  ptr : RelocPtr
deriving DecidableEq

structure Allocation where
  length : Nat
  isReadonly : Bool
  isConstHeap : Bool
  isLive : Bool
  isGlobal : Bool
  relocations : List Reloc
  data : List Byte
  mask : Mask
deriving DecidableEq

/-- `length` is an `unsigned`. -/
def Allocation.new (len : Nat) : Allocation where
  length := len % 2 ^ 32
  isReadonly := false
  isConstHeap := false
  isLive := true
  isGlobal := false
  relocations := []
  data := List.replicate (len % 2 ^ 32) 0
  mask := List.replicate ((len % 2 ^ 32 + 7) / 8) 0

/-! ## 1. The loops over the mask -/

/-- `for (; mo % 8 != 0 && ml > 0; mo++, ml--)`, setting bits. -/
def markHead : Mask → Nat → Nat → Mask × Nat × Nat
  | m, mo, 0 => (m, mo, 0)
  | m, mo, ml + 1 =>
    if mo % 8 ≠ 0 then markHead (m.mark mo) (mo + 1) ml else (m, mo, ml + 1)

/-- `for (; ml >= 8; mo += 8, ml -= 8)`, setting bytes. -/
def markBytes : Mask → Nat → Nat → Mask × Nat × Nat
  | m, mo, ml + 8 => markBytes (m.fill (mo / 8) 0xFF) (mo + 8) ml
  | m, mo, ml => (m, mo, ml)

/-- `for (; ml % 8 != 0 && ml > 0; mo++, ml--)`, setting bits. -/
def markTail : Mask → Nat → Nat → Mask
  | m, _, 0 => m
  | m, mo, ml + 1 => if (ml + 1) % 8 ≠ 0 then markTail (m.mark mo) (mo + 1) ml else m

/-- What `extWriteBytes` does to the mask. -/
def extWriteMask (m : Mask) (ofs len : Nat) : Mask :=
  let (m, mo, ml) := markHead m ofs len
  let (m, mo, ml) := markBytes m mo ml
  markTail m mo ml

/-- The loops of `getBytes`, which return nothing at the first bit that is not set. -/
def checkHead (m : Mask) : Nat → Nat → Option (Nat × Nat)
  | mo, 0 => some (mo, 0)
  | mo, ml + 1 =>
    if mo % 8 ≠ 0 then (if m.test mo then checkHead m (mo + 1) ml else none)
    else some (mo, ml + 1)

def checkBytes (m : Mask) : Nat → Nat → Option (Nat × Nat)
  | mo, ml + 8 => if m.getD (mo / 8) 0 = 0xFF then checkBytes m (mo + 8) ml else none
  | mo, ml => some (mo, ml)

def checkTail (m : Mask) : Nat → Nat → Option Unit
  | _, 0 => some ()
  | mo, ml + 1 =>
    if (ml + 1) % 8 ≠ 0 then (if m.test mo then checkTail m (mo + 1) ml else none) else some ()

def checkMask (m : Mask) (ofs len : Nat) : Option Unit := do
  let (mo, ml) ← checkHead m ofs len
  let (mo, ml) ← checkBytes m mo ml
  checkTail m mo ml

/-- Bit `i` of the bytes from `base` on. -/
def bitFrom (base i : Nat) : Nat := 8 * base + i

/-- The loop of `readMask` over single bits, from bit `i` on. `src` is the mask read, which is the
    one written where the two storages are one. -/
def copyBits (src : Mask → Mask) (sbase ofs dbase dstOfs : Nat) : Mask → Nat → Nat → Mask
  | dst, _, 0 => dst
  | dst, i, n + 1 =>
    let s := ofs + i
    let d := dstOfs + i
    let dst' :=
      if (src dst).test (bitFrom sbase s) then dst.mark (bitFrom dbase d)
      else dst.clear (bitFrom dbase d)
    copyBits src sbase ofs dbase dstOfs dst' (i + 1) n

/-- Its loop over whole bytes. -/
def copyBytes (src : Mask → Mask) : Mask → Nat → Nat → Nat → Mask × Nat × Nat × Nat
  | dst, d, s, len + 8 => copyBytes src (dst.fill d ((src dst).getD s 0)) (d + 1) (s + 1) len
  | dst, d, s, len => (dst, d, s, len)

/-- `MIREvalAllocation::readMask`: bits `ofs..ofs + len` of `src` into `dst` from `dstOfs` on. -/
def readMask (src : Mask → Mask) (dst : Mask) (dstOfs ofs len : Nat) : Mask :=
  let dbase := dstOfs / 8
  let sbase := ofs / 8
  let dstOfs := dstOfs % 8
  let ofs := ofs % 8
  if dstOfs ≠ 0 ∨ ofs ≠ 0 then copyBits src sbase ofs dbase dstOfs dst 0 len
  else
    let (dst, d, s, len) := copyBytes src dst dbase sbase len
    if len > 0 then
      let mask := 0xFF#8 >>> (8 - len)
      dst.fill d ((dst.getD d 0 &&& ~~~mask) ||| ((src dst).getD s 0 &&& mask))
    else dst

/-- `MIREvalConstant::readMask` and `MIREvalStaticRef::readMask`. The bit set in the first loop is
    the same one every time. -/
def readMaskSet (dst : Mask) (dstOfs len : Nat) : Mask :=
  let dbase := dstOfs / 8
  let dstOfs := dstOfs % 8
  if dstOfs ≠ 0 then
    (List.range len).foldl (fun dst _ => dst.mark (bitFrom dbase dstOfs)) dst
  else
    let dst := (List.range (len / 8)).foldl (fun dst k => dst.fill (dbase + k) 0xFF) dst
    dst.fill (dbase + len / 8) (dst.getD (dbase + len / 8) 0 ||| 0xFF#8 >>> (8 - len % 8))

/-! ## 2. Which bits the loops set -/

/-- From `m` to `m'`, the bits `mo..mo'` have been set and nothing else. -/
structure Marked (m m' : Mask) (mo mo' : Nat) : Prop where
  length : m'.length = m.length
  le : mo ≤ mo'
  test : ∀ j, m'.test j = (decide (mo ≤ j ∧ j < mo') || m.test j)

theorem Marked.refl (m : Mask) (mo : Nat) : Marked m m mo mo where
  length := rfl
  le := Nat.le_refl mo
  test j := by
    have h : ¬(mo ≤ j ∧ j < mo) := by omega
    simp [h]

theorem Marked.trans {m m' m'' : Mask} {mo mo' mo'' : Nat} (h : Marked m m' mo mo')
    (h' : Marked m' m'' mo' mo'') : Marked m m'' mo mo'' where
  length := h'.length.trans h.length
  le := Nat.le_trans h.le h'.le
  test j := by
    have hle := h.le
    have hle' := h'.le
    have hiff : (mo ≤ j ∧ j < mo'') ↔ (mo' ≤ j ∧ j < mo'') ∨ (mo ≤ j ∧ j < mo') := by omega
    rw [h'.test, h.test, ← Bool.or_assoc, ← Bool.decide_or]
    simp only [hiff]

theorem Marked.mark {m : Mask} {mo : Nat} (h : mo < 8 * m.length) :
    Marked m (m.mark mo) mo (mo + 1) where
  length := Mask.length_mark m mo
  le := Nat.le_succ mo
  test j := by
    have hiff : (mo ≤ j ∧ j < mo + 1) ↔ mo = j := by omega
    rw [Mask.test_mark m (by omega)]
    simp only [hiff]

theorem Marked.fill {m : Mask} {mo : Nat} (hmo : mo % 8 = 0) (h : mo + 8 ≤ 8 * m.length) :
    Marked m (m.fill (mo / 8) 0xFF) mo (mo + 8) where
  length := Mask.length_fill m _ _
  le := Nat.le_add_right mo 8
  test j := by
    have hj : j % 8 < 8 := Nat.mod_lt _ (by decide)
    have hiff : (mo ≤ j ∧ j < mo + 8) ↔ mo / 8 = j / 8 := by omega
    rw [Mask.test_fill m (by omega)]
    simp only [hiff]
    by_cases hk : mo / 8 = j / 8
    · have hlow := Mask.getLsbD_low (Nat.le_refl 8) hj
      simp only [hj, decide_true] at hlow
      simpa [hk] using hlow
    · simp [hk]

theorem markHead_marked : ∀ (ml : Nat) {m : Mask} {mo : Nat}, mo + ml ≤ 8 * m.length →
    Marked m (markHead m mo ml).1 mo (markHead m mo ml).2.1 ∧
      (markHead m mo ml).2.1 + (markHead m mo ml).2.2 = mo + ml ∧
      ((markHead m mo ml).2.1 % 8 = 0 ∨ (markHead m mo ml).2.2 = 0)
  | 0, m, mo, _ => ⟨.refl m mo, rfl, .inr rfl⟩
  | ml + 1, m, mo, h => by
    rw [markHead]
    split
    · obtain ⟨h1, h2, h3⟩ :=
        markHead_marked ml (show mo + 1 + ml ≤ 8 * (m.mark mo).length by simp; omega)
      exact ⟨(Marked.mark (by omega)).trans h1, by omega, h3⟩
    · next hmo => exact ⟨.refl m mo, rfl, .inl (by simpa using hmo)⟩

variable {m : Mask} {mo ml ofs len : Nat}

theorem markBytes_marked (h : mo + ml ≤ 8 * m.length) (hmo : mo % 8 = 0 ∨ ml = 0) :
    Marked m (markBytes m mo ml).1 mo (markBytes m mo ml).2.1 ∧
      (markBytes m mo ml).2.1 + (markBytes m mo ml).2.2 = mo + ml ∧
      (markBytes m mo ml).2.2 < 8 := by
  fun_induction markBytes m mo ml with
  | case1 m mo ml ih =>
    obtain ⟨h1, h2, h3⟩ := ih (by simp; omega) (by omega)
    exact ⟨(Marked.fill (by omega) (by omega)).trans h1, by omega, h3⟩
  | case2 m mo ml hlt =>
    refine ⟨.refl m mo, rfl, ?_⟩
    rcases Nat.lt_or_ge ml 8 with hml | hml
    · exact hml
    · exact absurd (show ml = (ml - 8) + 8 by omega) (hlt (ml - 8))

theorem markTail_marked : ∀ (ml : Nat) {m : Mask} {mo : Nat}, mo + ml ≤ 8 * m.length → ml < 8 →
    Marked m (markTail m mo ml) mo (mo + ml)
  | 0, m, mo, _, _ => .refl m mo
  | ml + 1, m, mo, h, hlt => by
    rw [markTail, if_pos (by omega)]
    have hrest := markTail_marked ml (show mo + 1 + ml ≤ 8 * (m.mark mo).length by simp; omega)
      (by omega)
    rw [show mo + (ml + 1) = mo + 1 + ml by omega]
    exact (Marked.mark (by omega)).trans hrest

theorem extWriteMask_marked (h : ofs + len ≤ 8 * m.length) :
    Marked m (extWriteMask m ofs len) ofs (ofs + len) := by
  obtain ⟨h1, e1, z1⟩ := markHead_marked len h
  rw [extWriteMask]
  generalize markHead m ofs len = r at h1 e1 z1
  obtain ⟨m₁, mo₁, ml₁⟩ := r
  have hl1 := h1.length
  dsimp only at h1 e1 z1 hl1 ⊢
  obtain ⟨h2, e2, z2⟩ := markBytes_marked (show mo₁ + ml₁ ≤ 8 * m₁.length by omega) z1
  generalize markBytes m₁ mo₁ ml₁ = r at h2 e2 z2
  obtain ⟨m₂, mo₂, ml₂⟩ := r
  have hl2 := h2.length
  dsimp only at h2 e2 z2 hl2 ⊢
  have h3 := markTail_marked ml₂ (show mo₂ + ml₂ ≤ 8 * m₂.length by omega) z2
  rw [e2, e1] at h3
  exact (h1.trans h2).trans h3

/-! ## 3. Which bits the check asks for -/

theorem checkHead_some {m : Mask} : ∀ {ml mo mo' ml' : Nat}, checkHead m mo ml = some (mo', ml') →
    mo ≤ mo' ∧ mo' + ml' = mo + ml ∧ (mo' % 8 = 0 ∨ ml' = 0) ∧
      ∀ j, mo ≤ j → j < mo' → m.test j = true
  | 0, mo, mo', ml', h => by
    simp only [checkHead, Option.some.injEq, Prod.mk.injEq] at h
    obtain ⟨rfl, rfl⟩ := h
    exact ⟨Nat.le_refl _, rfl, .inr rfl, by omega⟩
  | ml + 1, mo, mo', ml', h => by
    rw [checkHead] at h
    split at h
    · split at h
      · next hbit =>
        obtain ⟨h1, h2, h3, h4⟩ := checkHead_some h
        refine ⟨by omega, by omega, h3, fun j hj hj' => ?_⟩
        rcases Nat.eq_or_lt_of_le hj with rfl | hlt
        · exact hbit
        · exact h4 j hlt hj'
      · cases h
    · next hmo =>
      simp only [Option.some.injEq, Prod.mk.injEq] at h
      obtain ⟨rfl, rfl⟩ := h
      exact ⟨Nat.le_refl _, rfl, .inl (by simpa using hmo), by omega⟩

theorem checkHead_none {m : Mask} : ∀ {ml mo : Nat}, checkHead m mo ml = none →
    ∃ j, mo ≤ j ∧ j < mo + ml ∧ m.test j = false
  | ml + 1, mo, h => by
    rw [checkHead] at h
    split at h
    · split at h
      · obtain ⟨j, h1, h2, h3⟩ := checkHead_none h
        exact ⟨j, by omega, by omega, h3⟩
      · next hbit => exact ⟨mo, Nat.le_refl mo, by omega, by simpa using hbit⟩
    · cases h

theorem getD_eq_full {k : Nat} :
    m.getD k 0 = 0xFF ↔ ∀ j, 8 * k ≤ j → j < 8 * k + 8 → m.test j = true := by
  constructor
  · intro h j hj hj'
    have hmod : j % 8 < 8 := Nat.mod_lt _ (by decide)
    have hlow := Mask.getLsbD_low (Nat.le_refl 8) hmod
    rw [Mask.test_eq, show j / 8 = k by omega, h]
    simpa [hmod] using hlow
  · intro h
    refine BitVec.eq_of_getLsbD_eq fun i hi => ?_
    have hbit := h (8 * k + i) (by omega) (by omega)
    have hlow := Mask.getLsbD_low (Nat.le_refl 8) hi
    rw [Mask.test_eq, show (8 * k + i) / 8 = k by omega, show (8 * k + i) % 8 = i by omega] at hbit
    rw [hbit]
    simpa [hi] using hlow.symm

theorem checkBytes_some {mo' ml' : Nat} (h : checkBytes m mo ml = some (mo', ml'))
    (hmo : mo % 8 = 0 ∨ ml = 0) :
    mo ≤ mo' ∧ mo' + ml' = mo + ml ∧ ml' < 8 ∧ ∀ j, mo ≤ j → j < mo' → m.test j = true := by
  fun_induction checkBytes m mo ml with
  | case1 mo ml hbyte ih =>
    obtain ⟨h1, h2, h3, h4⟩ := ih h (by omega)
    refine ⟨by omega, by omega, h3, fun j hj hj' => ?_⟩
    rcases Nat.lt_or_ge j (mo + 8) with hlt | hge
    · exact getD_eq_full.mp hbyte j (by omega) (by omega)
    · exact h4 j hge hj'
  | case2 => cases h
  | case3 mo ml hlt =>
    simp only [Option.some.injEq, Prod.mk.injEq] at h
    obtain ⟨rfl, rfl⟩ := h
    refine ⟨Nat.le_refl _, rfl, ?_, by omega⟩
    rcases Nat.lt_or_ge ml 8 with hml | hml
    · exact hml
    · exact absurd (show ml = (ml - 8) + 8 by omega) (hlt (ml - 8))

theorem checkBytes_none (h : checkBytes m mo ml = none)
    (hmo : mo % 8 = 0 ∨ ml = 0) : ∃ j, mo ≤ j ∧ j < mo + ml ∧ m.test j = false := by
  fun_induction checkBytes m mo ml with
  | case1 mo ml hbyte ih =>
    obtain ⟨j, h1, h2, h3⟩ := ih h (by omega)
    exact ⟨j, by omega, by omega, h3⟩
  | case2 mo ml hbyte =>
    rw [getD_eq_full] at hbyte
    push Not at hbyte
    obtain ⟨j, h1, h2, h3⟩ := hbyte
    exact ⟨j, by omega, by omega, by simpa using h3⟩
  | case3 => cases h

theorem checkTail_isSome {m : Mask} : ∀ {ml mo : Nat}, ml < 8 →
    ((checkTail m mo ml).isSome ↔ ∀ j, mo ≤ j → j < mo + ml → m.test j = true)
  | 0, mo, _ => by simp [checkTail]; omega
  | ml + 1, mo, hlt => by
    rw [checkTail, if_pos (by omega)]
    split
    · next hbit =>
      rw [checkTail_isSome (by omega)]
      refine ⟨fun h j hj hj' => ?_, fun h j hj hj' => h j (by omega) (by omega)⟩
      rcases Nat.eq_or_lt_of_le hj with rfl | hlt'
      · exact hbit
      · exact h j hlt' (by omega)
    · next hbit =>
      refine ⟨fun h => by simp at h, fun h => ?_⟩
      exact absurd (h mo (Nat.le_refl mo) (by omega)) hbit

/-- The check passes when every bit is set. -/
theorem checkMask_isSome :
    (checkMask m ofs len).isSome ↔ ∀ j, ofs ≤ j → j < ofs + len → m.test j = true := by
  rw [checkMask]
  cases hhead : checkHead m ofs len with
  | none =>
    obtain ⟨j, h1, h2, h3⟩ := checkHead_none hhead
    simp only [Option.bind_eq_bind, Option.bind_none, Option.isSome_none, Bool.false_eq_true,
      false_iff, not_forall]
    exact ⟨j, h1, h2, by simp [h3]⟩
  | some r =>
    obtain ⟨mo, ml⟩ := r
    obtain ⟨h1, h2, h3, h4⟩ := checkHead_some hhead
    dsimp only [Option.bind_eq_bind, Option.bind_some]
    cases hbytes : checkBytes m mo ml with
    | none =>
      obtain ⟨j, g1, g2, g3⟩ := checkBytes_none hbytes h3
      simp only [Option.bind_none, Option.isSome_none, Bool.false_eq_true, false_iff,
        not_forall]
      exact ⟨j, by omega, by omega, by simp [g3]⟩
    | some r' =>
      obtain ⟨mo', ml'⟩ := r'
      obtain ⟨g1, g2, g3, g4⟩ := checkBytes_some hbytes h3
      dsimp only [Option.bind_some]
      rw [checkTail_isSome g3]
      refine ⟨fun h j hj hj' => ?_, fun h j hj hj' => h j (by omega) (by omega)⟩
      rcases Nat.lt_or_ge j mo with hlt | hge
      · exact h4 j hj hlt
      · rcases Nat.lt_or_ge j mo' with hlt' | hge'
        · exact g4 j hge hlt'
        · exact h j hge' (by omega)

/-! ## 4. Which bits a mask takes over -/

/-- From `m` to `m'`, the bits `ofs..ofs + n` have become `bits` and nothing else has changed. -/
structure Copied (bits : Nat → Bool) (m m' : Mask) (ofs n : Nat) : Prop where
  length : m'.length = m.length
  test : ∀ j, m'.test j = if ofs ≤ j ∧ j < ofs + n then bits (j - ofs) else m.test j

/-- While only the bits `dstOfs..dstOfs + len` change, `src` gives the same bits from `ofs` on. -/
def Steady (src : Mask → Mask) (m : Mask) (dstOfs ofs len : Nat) : Prop :=
  ∀ m' : Mask, (∀ j, ¬(dstOfs ≤ j ∧ j < dstOfs + len) → m'.test j = m.test j) →
    ∀ i < len, (src m').test (ofs + i) = (src m).test (ofs + i)

theorem steady_const (s m : Mask) (dstOfs ofs len : Nat) : Steady (fun _ => s) m dstOfs ofs len :=
  fun _ _ _ _ => rfl

theorem steady_self {dstOfs : Nat}
    (h : dstOfs + len ≤ ofs ∨ ofs + len ≤ dstOfs) : Steady (fun m => m) m dstOfs ofs len :=
  fun _ hm' i hi => hm' (ofs + i) (by omega)

section ReadMask

variable {src : Mask → Mask} {m : Mask} {dstOfs ofs len : Nat}

theorem Steady.at (h : Steady src m dstOfs ofs len) {m' : Mask} {i : Nat}
    (hm' : Copied (fun i => (src m).test (ofs + i)) m m' dstOfs i) {k : Nat} (hi : i ≤ len)
    (hk : k < len) : (src m').test (ofs + k) = (src m).test (ofs + k) := by
  refine h m' (fun j hj => ?_) k hk
  rw [hm'.test, if_neg (by omega)]

/-- One more bit. -/
theorem Copied.bit {bits : Nat → Bool} {m' m'' : Mask} {i : Nat} (h : Copied bits m m' dstOfs i)
    (hlen : m''.length = m'.length)
    (htest : ∀ j, m''.test j = if dstOfs + i = j then bits i else m'.test j) :
    Copied bits m m'' dstOfs (i + 1) where
  length := hlen.trans h.length
  test j := by
    rw [htest, h.test]
    by_cases hj : dstOfs + i = j
    · subst hj
      rw [if_pos rfl, if_pos (by omega), show dstOfs + i - dstOfs = i by omega]
    · rw [if_neg hj]
      by_cases hin : dstOfs ≤ j ∧ j < dstOfs + i
      · rw [if_pos hin, if_pos (by omega)]
      · rw [if_neg hin, if_neg (by omega)]

theorem copyBits_copied (hs : Steady src m dstOfs ofs len)
    (hlen : dstOfs + len ≤ 8 * m.length) : ∀ {n i : Nat} {m' : Mask},
      i + n = len → Copied (fun i => (src m).test (ofs + i)) m m' dstOfs i →
      Copied (fun i => (src m).test (ofs + i)) m
        (copyBits src (ofs / 8) (ofs % 8) (dstOfs / 8) (dstOfs % 8) m' i n) dstOfs len
  | 0, i, m', hi, h => by
    rw [copyBits]
    have hil : i = len := by omega
    exact hil ▸ h
  | n + 1, i, m', hi, h => by
    have hml := h.length
    have hsrc : bitFrom (ofs / 8) (ofs % 8 + i) = ofs + i := by unfold bitFrom; omega
    have hdst : bitFrom (dstOfs / 8) (dstOfs % 8 + i) = dstOfs + i := by unfold bitFrom; omega
    have hbit := hs.at h (k := i) (by omega) (by omega)
    rw [copyBits, hsrc, hdst, hbit]
    refine copyBits_copied hs hlen (by omega) (h.bit ?_ fun j => ?_)
    · split <;> simp
    · split
      · next hset =>
        rw [Mask.test_mark m' (by omega), hset]
        by_cases hj : dstOfs + i = j <;> simp [hj]
      · next hset =>
        rw [Mask.test_clear m' (by omega), show (src m).test (ofs + i) = false by simpa using hset]
        by_cases hj : dstOfs + i = j <;> simp [hj]

/-- Eight more bits, or the last few of them. -/
theorem Copied.byte {bits : Nat → Bool} {m' : Mask} {i n : Nat} (h : Copied bits m m' dstOfs i)
    (hi : i % 8 = 0) (hd : dstOfs % 8 = 0) (hn : n ≤ 8) (hlt : (dstOfs + i) / 8 < m.length)
    {b : BitVec 8} (hb : ∀ k < 8, b.getLsbD k =
      if k < n then bits (i + k) else m'.test (dstOfs + i + k)) :
    Copied bits m (m'.fill ((dstOfs + i) / 8) b) dstOfs (i + n) where
  length := (Mask.length_fill _ _ _).trans h.length
  test j := by
    have hml := h.length
    rw [Mask.test_fill m' (by omega)]
    by_cases hj : (dstOfs + i) / 8 = j / 8
    · rw [if_pos hj, hb (j % 8) (Nat.mod_lt _ (by decide))]
      by_cases hjn : j % 8 < n
      · rw [if_pos hjn, if_pos (by omega), show i + j % 8 = j - dstOfs by omega]
      · rw [if_neg hjn, if_neg (by omega), show dstOfs + i + j % 8 = j by omega, h.test,
          if_neg (by omega)]
    · rw [if_neg hj, h.test]
      by_cases hin : dstOfs ≤ j ∧ j < dstOfs + i
      · rw [if_pos hin, if_pos (by omega)]
      · rw [if_neg hin, if_neg (by omega)]

theorem getLsbD_getD (m : Mask) {ofs k : Nat} (ho : ofs % 8 = 0) (hk : k < 8) :
    (m.getD (ofs / 8) 0).getLsbD k = m.test (ofs + k) := by
  rw [Mask.test_eq, show (ofs + k) / 8 = ofs / 8 by omega, show (ofs + k) % 8 = k by omega]

theorem copyBytes_copied (hs : Steady src m dstOfs ofs len) (hlen : dstOfs + len ≤ 8 * m.length)
    (hd : dstOfs % 8 = 0) (ho : ofs % 8 = 0) {m' : Mask} {d s n i : Nat} (hi : i % 8 = 0)
    (hn : i + n = len) (hdi : d = (dstOfs + i) / 8) (hsi : s = (ofs + i) / 8)
    (h : Copied (fun i => (src m).test (ofs + i)) m m' dstOfs i) :
    ∃ m'' i', copyBytes src m' d s n = (m'', (dstOfs + i') / 8, (ofs + i') / 8, len - i') ∧
      i' % 8 = 0 ∧ i' ≤ len ∧ len < i' + 8 ∧
      Copied (fun i => (src m).test (ofs + i)) m m'' dstOfs i' := by
  fun_induction copyBytes src m' d s n generalizing i with
  | case1 m' d s n ih =>
    subst hdi hsi
    refine ih (by omega) (by omega) (by omega) (by omega)
      (h.byte hi hd (Nat.le_refl 8) (by omega) fun k hk => ?_)
    rw [getLsbD_getD _ (by omega) hk, if_pos hk, Nat.add_assoc]
    exact hs.at h (by omega) (by omega)
  | case2 m' d s n hlt =>
    subst hdi hsi
    have hn8 : n < 8 := by
      rcases Nat.lt_or_ge n 8 with h8 | h8
      · exact h8
      · exact absurd (show n = (n - 8) + 8 by omega) (hlt (n - 8))
    exact ⟨m', i, by rw [show len - i = n by omega], hi, by omega, by omega, h⟩

/-- `readMask` replaces the bits of its range, wherever the two offsets lie in their bytes. -/
theorem readMask_copied (hs : Steady src m dstOfs ofs len)
    (hlen : dstOfs + len ≤ 8 * m.length) :
    Copied (fun i => (src m).test (ofs + i)) m (readMask src m dstOfs ofs len) dstOfs len := by
  have hnil : Copied (fun i => (src m).test (ofs + i)) m m dstOfs 0 :=
    ⟨rfl, fun j => by rw [if_neg (by omega)]⟩
  rw [readMask]
  dsimp only
  split
  · exact copyBits_copied hs hlen (by omega) hnil
  · next halign =>
    push Not at halign
    obtain ⟨m', i, heq, hi, hle, hlt, h⟩ :=
      copyBytes_copied hs hlen halign.1 halign.2 (d := dstOfs / 8) (s := ofs / 8) (n := len)
        (i := 0) rfl (by omega) rfl rfl hnil
    rw [heq]
    dsimp only
    split
    · next hpos =>
      have hlast := h.byte (n := len - i) hi halign.1 (by omega) (by omega) (b :=
        (m'.getD ((dstOfs + i) / 8) 0 &&& ~~~(0xFF#8 >>> (8 - (len - i)))) |||
          ((src m').getD ((ofs + i) / 8) 0 &&& 0xFF#8 >>> (8 - (len - i)))) fun k hk => ?_
      · rwa [show i + (len - i) = len by omega] at hlast
      · have hsrc := hs.at h (k := i + k) hle
        rw [BitVec.getLsbD_or, BitVec.getLsbD_and, BitVec.getLsbD_and, BitVec.getLsbD_not,
          Mask.getLsbD_low (by omega) hk, getLsbD_getD _ (by omega) hk,
          getLsbD_getD _ (by omega) hk]
        by_cases hkn : k < len - i
        · rw [if_pos hkn, ← hsrc (by omega), Nat.add_assoc ofs i k]
          simp [hkn]
        · simp [hkn, hk]
    · next hzero =>
      have hil : i = len := by omega
      exact hil ▸ h

end ReadMask

/-- The same bits in a mask of the same length. -/
structure SameBits (m m' : Mask) : Prop where
  length : m'.length = m.length
  test : ∀ j, m'.test j = m.test j

theorem SameBits.mark {m m' : Mask} (h : SameBits m m') {i : Nat} (hi : i < 8 * m.length)
    (hset : m.test i = true) : SameBits m (m'.mark i) where
  length := (Mask.length_mark m' i).trans h.length
  test j := by
    have hl := h.length
    rw [Mask.test_mark m' (by omega), h.test]
    by_cases hj : i = j
    · subst hj
      simp [hset]
    · simp [hj]

theorem SameBits.fill {m m' : Mask} (h : SameBits m m') {k : Nat} (hk : k < m.length)
    {b : BitVec 8} (hb : ∀ i < 8, b.getLsbD i = m.test (8 * k + i)) :
    SameBits m (m'.fill k b) where
  length := (Mask.length_fill m' k b).trans h.length
  test j := by
    have hl := h.length
    rw [Mask.test_fill m' (by omega), h.test]
    split
    · next hj =>
      rw [hb (j % 8) (Nat.mod_lt _ (by decide)), show 8 * k + j % 8 = j by omega]
    · rfl

theorem foldl_sameBits {f : Mask → Nat → Mask} (ks : List Nat)
    (hf : ∀ m', SameBits m m' → ∀ k ∈ ks, SameBits m (f m' k)) {m' : Mask} (h : SameBits m m') :
    SameBits m (ks.foldl f m') := by
  induction ks generalizing m' with
  | nil => exact h
  | cons k ks ih =>
    exact ih (fun m'' h'' k' hk' => hf m'' h'' k' (List.mem_cons_of_mem k hk'))
      (hf m' h k List.mem_cons_self)

/-- `readMask` of a constant or static into a range that is set leaves it set: its first loop sets
    one bit only, and all the others are set already. -/
theorem readMaskSet_sameBits {dstOfs : Nat} (hlen : dstOfs + len ≤ 8 * m.length)
    (hset : ∀ j, dstOfs ≤ j → j < dstOfs + len → m.test j = true) :
    SameBits m (readMaskSet m dstOfs len) := by
  have hrefl : SameBits m m := ⟨rfl, fun _ => rfl⟩
  rw [readMaskSet]
  dsimp only
  split
  · refine foldl_sameBits _ (fun m' h' k hk => ?_) hrefl
    rw [List.mem_range] at hk
    rw [show bitFrom (dstOfs / 8) (dstOfs % 8) = dstOfs by unfold bitFrom; omega]
    exact h'.mark (by omega) (hset dstOfs (Nat.le_refl _) (by omega))
  · next halign =>
    have hbytes := foldl_sameBits (List.range (len / 8))
      (f := fun m' k => m'.fill (dstOfs / 8 + k) 0xFF) (fun m' h' k hk => by
        rw [List.mem_range] at hk
        refine h'.fill (by omega) fun i hi => ?_
        have hlow := Mask.getLsbD_low (Nat.le_refl 8) hi
        rw [hset _ (by omega) (by omega)]
        simpa [hi] using hlow) hrefl
    -- the last byte is past the end where `len` is a multiple of 8 and ends the mask
    by_cases hlast : dstOfs / 8 + len / 8 < m.length
    · refine hbytes.fill hlast fun i hi => ?_
      have hlow := Mask.getLsbD_low (n := len % 8) (by omega) hi
      have hbit := hbytes.test (8 * (dstOfs / 8 + len / 8) + i)
      rw [BitVec.getLsbD_or, hlow, ← hbit, Mask.test_eq,
        show (8 * (dstOfs / 8 + len / 8) + i) / 8 = dstOfs / 8 + len / 8 by omega,
        show (8 * (dstOfs / 8 + len / 8) + i) % 8 = i by omega]
      by_cases hin : i < len % 8
      · have hone := hset (8 * (dstOfs / 8 + len / 8) + i) (by omega) (by omega)
        rw [← hbit, Mask.test_eq,
          show (8 * (dstOfs / 8 + len / 8) + i) / 8 = dstOfs / 8 + len / 8 by omega,
          show (8 * (dstOfs / 8 + len / 8) + i) % 8 = i by omega] at hone
        rw [hone, Bool.true_or]
      · simp [hin]
    · refine ⟨(Mask.length_fill _ _ _).trans hbytes.length, fun j => ?_⟩
      rw [Mask.fill, List.set_eq_of_length_le (by have := hbytes.length; omega), hbytes.test]


/-! ## 5. The operations -/

namespace Allocation

/-- Does `ofs..ofs + len` lie inside? -/
def inside (a : Allocation) (ofs len : Nat) : Bool :=
  ofs ≤ a.length && len ≤ a.length && ofs + len ≤ a.length

def getBytes (a : Allocation) (ofs len : Nat) (checkMask : Bool) : Option (List Byte) :=
  if !a.inside ofs len then none
  else if checkMask && (Eval.checkMask a.mask ofs len).isNone then none
  else some ((a.data.drop ofs).take len)

def isWritable (a : Allocation) : Bool := !a.isReadonly

/-- What is written through the pointer it returns is put in by `memcpy` below. -/
def extWriteBytes (a : Allocation) (ofs len : Nat) : Option Allocation :=
  if a.inside ofs len then
    some { a with
      mask := extWriteMask a.mask ofs len
      relocations := a.relocations.filter fun r => !(ofs ≤ r.offset && r.offset < ofs + len) }
  else none

/-- `memcpy` to the pointer that `extWriteBytes` returns for `ofs`. -/
def memcpy (a : Allocation) (ofs : Nat) (bytes : List Byte) : Allocation :=
  { a with data := splice a.data ofs bytes }

def writeBytes (a : Allocation) (ofs : Nat) (bytes : List Byte) : Option Allocation :=
  (a.extWriteBytes ofs bytes.length).map fun a => a.memcpy ofs bytes

def getReloc (a : Allocation) (ofs : Nat) : Option RelocPtr :=
  (a.relocations.find? fun r => r.offset == ofs).map Reloc.ptr

/-- The new relocation goes before the first whose offset is not less (`lower_bound`). -/
def setReloc (a : Allocation) (ofs : Nat) : Option RelocPtr → Allocation
  | some ptr =>
    { a with
      relocations := a.relocations.takeWhile (fun r => r.offset < ofs) ++
        ⟨ofs, ptr⟩ :: a.relocations.dropWhile (fun r => r.offset < ofs) }
  | none => a

end Allocation

end Trustme.Eval
