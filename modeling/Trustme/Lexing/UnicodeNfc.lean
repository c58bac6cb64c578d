/-
  Subject:   `unicodeNormaliseNfc`: identifiers are put into normal form C (unicode_nfc.cpp).

  * `Tables`: the three generated tables, sorted, without circles in the decompositions;
  * `combiningClass`, `decompositionOf`, `composedPair`, `decomposeInto`: what is looked up in
    them, and computed for Hangul;
  * `orderCanonically`, `compose`: the loops over the text, in place;
  * `decodeUtf8`, `appendUtf8`, `unicodeNormaliseNfc`: from bytes to bytes.

  Codepoints, classes and places are small; no number here comes near the limits of its type.
-/
import Trustme.Lexing.Reader

namespace Trustme.Lexing.Nfc

/-! ## 1. Tables -/

structure UnicodeCombining where
  codepoint : Nat
  cls : Nat

/-- A second codepoint of 0 is none. -/
structure UnicodeDecomposition where
  codepoint : Nat
  first : Nat
  second : Nat

structure UnicodeComposition where
  first : Nat
  second : Nat
  composed : Nat

/-- unicode_nfc_tables.inc. `height` tells that decompositions end. -/
structure Tables where
  COMBINING : List UnicodeCombining
  DECOMPOSITIONS : List UnicodeDecomposition
  COMPOSITIONS : List UnicodeComposition
  combining_sorted : COMBINING.Pairwise fun a b => a.codepoint < b.codepoint
  decompositions_sorted : DECOMPOSITIONS.Pairwise fun a b => a.codepoint < b.codepoint
  compositions_sorted : COMPOSITIONS.Pairwise fun a b =>
    a.first < b.first ∨ a.first = b.first ∧ a.second < b.second
  height : Nat → Nat
  acyclic : ∀ e ∈ DECOMPOSITIONS, height e.first < height e.codepoint ∧
    (e.second ≠ 0 → height e.second < height e.codepoint)

/-- `std::lower_bound`: the range from the first entry that is not less. -/
def lowerBound {α : Type} (less : α → Bool) (range : List α) : List α := range.dropWhile less

def HANGUL_S_BASE : Nat := 0xAC00
def HANGUL_L_BASE : Nat := 0x1100
def HANGUL_V_BASE : Nat := 0x1161
def HANGUL_T_BASE : Nat := 0x11A7
def HANGUL_L_COUNT : Nat := 19
def HANGUL_V_COUNT : Nat := 21
def HANGUL_T_COUNT : Nat := 28
def HANGUL_N_COUNT : Nat := HANGUL_V_COUNT * HANGUL_T_COUNT
def HANGUL_S_COUNT : Nat := HANGUL_L_COUNT * HANGUL_N_COUNT

namespace Tables

variable (T : Tables)

def combiningClass (codepoint : Nat) : Nat :=
  match lowerBound (·.codepoint < codepoint) T.COMBINING with
  | found :: _ => if found.codepoint = codepoint then found.cls else 0
  | [] => 0

def decompositionOf (codepoint : Nat) : Option UnicodeDecomposition :=
  match lowerBound (·.codepoint < codepoint) T.DECOMPOSITIONS with
  | found :: _ => if found.codepoint = codepoint then some found else none
  | [] => none

/-- The loop over the entries of one first codepoint. -/
def composedFrom (first second : Nat) : List UnicodeComposition → Nat
  | [] => 0
  | found :: rest =>
    if found.first ≠ first then 0
    else if found.second = second then found.composed
    else composedFrom first second rest

/-- 0 is none. -/
def composedPair (first second : Nat) : Nat :=
  if HANGUL_L_BASE ≤ first ∧ first < HANGUL_L_BASE + HANGUL_L_COUNT ∧ HANGUL_V_BASE ≤ second ∧
      second < HANGUL_V_BASE + HANGUL_V_COUNT then
    HANGUL_S_BASE + ((first - HANGUL_L_BASE) * HANGUL_V_COUNT + (second - HANGUL_V_BASE)) *
      HANGUL_T_COUNT
  else if HANGUL_S_BASE ≤ first ∧ first < HANGUL_S_BASE + HANGUL_S_COUNT ∧
      (first - HANGUL_S_BASE) % HANGUL_T_COUNT = 0 ∧ HANGUL_T_BASE < second ∧
      second < HANGUL_T_BASE + HANGUL_T_COUNT then
    first + (second - HANGUL_T_BASE)
  else composedFrom first second (lowerBound (·.first < first) T.COMPOSITIONS)

variable {T} in
theorem decompositionOf_mem {codepoint : Nat} {entry : UnicodeDecomposition}
    (h : T.decompositionOf codepoint = some entry) :
    entry ∈ T.DECOMPOSITIONS ∧ entry.codepoint = codepoint := by
  unfold decompositionOf at h
  split at h
  · next found rest hfound =>
    split_ifs at h with he
    cases h
    refine ⟨?_, he⟩
    have hmem : entry ∈ lowerBound (·.codepoint < codepoint) T.DECOMPOSITIONS := by
      rw [hfound]
      exact List.mem_cons_self
    exact (List.dropWhile_sublist _).subset hmem
  · cases h

/-! ## 2. Decomposition -/

/-- What is appended to `out`. -/
def decomposeInto (codepoint : Nat) : List Nat :=
  if HANGUL_S_BASE ≤ codepoint ∧ codepoint < HANGUL_S_BASE + HANGUL_S_COUNT then
    let index := codepoint - HANGUL_S_BASE
    [HANGUL_L_BASE + index / HANGUL_N_COUNT,
      HANGUL_V_BASE + index % HANGUL_N_COUNT / HANGUL_T_COUNT] ++
      if index % HANGUL_T_COUNT ≠ 0 then [HANGUL_T_BASE + index % HANGUL_T_COUNT] else []
  else
    match _h : T.decompositionOf codepoint with
    | some entry =>
      decomposeInto entry.first ++
        if _h' : entry.second ≠ 0 then decomposeInto entry.second else []
    | none => [codepoint]
termination_by T.height codepoint
decreasing_by
  · obtain ⟨hmem, rfl⟩ := decompositionOf_mem _h
    exact (T.acyclic entry hmem).1
  · obtain ⟨hmem, rfl⟩ := decompositionOf_mem _h
    exact (T.acyclic entry hmem).2 _h'

/-! ## 3. Order -/

/-- The inner loop, at `j`. -/
def sift (cls : Nat) (text : List Nat) : Nat → List Nat
  | 0 => text
  | j + 1 =>
    let previous := T.combiningClass (text.getD j 0)
    if previous = 0 ∨ previous ≤ cls then text
    else sift cls ((text.set j (text.getD (j + 1) 0)).set (j + 1) (text.getD j 0)) j

def orderAt (text : List Nat) (i : Nat) : List Nat :=
  let cls := T.combiningClass (text.getD i 0)
  if cls = 0 then text else T.sift cls text i

def orderCanonically (text : List Nat) : List Nat :=
  (List.range' 1 (text.length - 1)).foldl T.orderAt text

/-! ## 4. Composition -/

/-- The loop, at `i`: the text and `out` at the end. -/
def composeFrom (text : List Nat) (starter lastClass out i : Nat) : List Nat × Nat :=
  if _h : i < text.length then
    let cls := T.combiningClass (text.getD i 0)
    let composed :=
      if lastClass < cls ∨ (lastClass = 0 ∧ cls = 0) then
        T.composedPair (text.getD starter 0) (text.getD i 0)
      else 0
    if composed ≠ 0 then composeFrom (text.set starter composed) starter lastClass out (i + 1)
    else
      composeFrom (text.set out (text.getD i 0))
        (if cls = 0 then out else starter) cls (out + 1) (i + 1)
  else (text, out)
termination_by text.length - i
decreasing_by
  · rw [List.length_set]
    omega
  · rw [List.length_set]
    omega

def compose (text : List Nat) : List Nat :=
  let lastClass := if T.combiningClass (text.getD 0 0) = 0 then 0 else 255
  let (text, out) := T.composeFrom text 0 lastClass 1 1
  text.take out

end Tables

/-! ## 5. Bytes -/

def appendUtf8 (codepoint : Nat) : List UInt8 :=
  if codepoint < 0x80 then [UInt8.ofNat codepoint]
  else if codepoint < 0x800 then
    [UInt8.ofNat (0xC0 ||| (codepoint >>> 6)), UInt8.ofNat (0x80 ||| (codepoint &&& 0x3F))]
  else if codepoint < 0x10000 then
    [UInt8.ofNat (0xE0 ||| (codepoint >>> 12)), UInt8.ofNat (0x80 ||| ((codepoint >>> 6) &&& 0x3F)),
      UInt8.ofNat (0x80 ||| (codepoint &&& 0x3F))]
  else
    [UInt8.ofNat (0xF0 ||| (codepoint >>> 18)),
    UInt8.ofNat (0x80 ||| ((codepoint >>> 12) &&& 0x3F)),
      UInt8.ofNat (0x80 ||| ((codepoint >>> 6) &&& 0x3F)),
        UInt8.ofNat (0x80 ||| (codepoint &&& 0x3F))]

/-- The length of a character and the bits in its first byte. -/
def leadOf (lead : UInt8) : Nat × Nat :=
  if lead &&& 0xE0 = 0xC0 then (2, (lead &&& 0x1F).toNat)
  else if lead &&& 0xF0 = 0xE0 then (3, (lead &&& 0x0F).toNat)
  else if lead &&& 0xF8 = 0xF0 then (4, (lead &&& 0x07).toNat)
  else (1, lead.toNat)

/-- A character that is cut off at the end is not read further. -/
def decodeUtf8 : List UInt8 → List Nat
  | [] => []
  | lead :: text =>
    let (length, codepoint) := leadOf lead
    let codepoint := (text.take (length - 1)).foldl
      (fun codepoint next => (codepoint <<< 6) ||| (next &&& 0x3F).toNat) codepoint
    codepoint :: decodeUtf8 (text.drop (length - 1))
termination_by text => text.length
decreasing_by
  rw [List.length_drop, List.length_cons]
  omega

def isAscii (text : List UInt8) : Bool := text.all fun c => c < 0x80

def unicodeNormaliseNfc (T : Tables) (text : List UInt8) : List UInt8 :=
  if isAscii text then text
  else
    let decomposed := (decodeUtf8 text).flatMap T.decomposeInto
    (T.compose (T.orderCanonically decomposed)).flatMap appendUtf8

end Trustme.Lexing.Nfc
