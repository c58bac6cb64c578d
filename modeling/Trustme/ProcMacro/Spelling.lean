/-
  Subject:   `Literal::from_spelling`, which takes the spelling of a literal apart (token_tree.rs).

  * `slice`: a part of a `str`, where characters end or else with a panic;
  * `fromSpelling`: the kind from the quotes, the symbol from what is between them, the suffix;
  * **`fromSpelling_returns`** -- no slice of it panics: it is cut behind bytes of ASCII.

  A `str` is its bytes.
-/
import Mathlib.Data.List.TakeWhile
import Trustme.Lexing.Reader
import Trustme.Lib.Scanning

namespace Trustme.ProcMacro.Lex

open Trustme.Lib
open Trustme.Lexing (encoded continuation lead_two lead_three lead_four)

/-! ## 1. Literals -/

/-- `LexError { inner }` -/
abbrev LexError := String

inductive LitKind where
  | Byte
  | Char
  | Integer
  | Float
  | Str
  | StrRaw (hashes : UInt8)
  | ByteStr
  | ByteStrRaw (hashes : UInt8)
  | CStr
  | CStrRaw (hashes : UInt8)
  | ErrWithGuar
  deriving DecidableEq

structure Literal where
  kind : LitKind
  symbol : List UInt8
  suffix : Option (List UInt8)
  deriving DecidableEq

/-! ## 2. Strings -/

/-- `c as u8`; a byte character is written with it. -/
def asU8 (c : Char) : UInt8 := UInt8.ofNat c.toNat

/-- The bytes of a string of ASCII. -/
def asciis (s : String) : List UInt8 := s.toList.map asU8

def isAsciiDigit (b : UInt8) : Bool := asU8 '0' ≤ b && b ≤ asU8 '9'

def isAsciiHexdigit (b : UInt8) : Bool :=
  isAsciiDigit b || (asU8 'a' ≤ b && b ≤ asU8 'f') || (asU8 'A' ≤ b && b ≤ asU8 'F')

def isAsciiAlphanumeric (b : UInt8) : Bool :=
  isAsciiDigit b || (asU8 'a' ≤ b && b ≤ asU8 'z') || (asU8 'A' ≤ b && b ≤ asU8 'Z')

/-- `str::is_char_boundary` -/
def isCharBoundary (text : List UInt8) (i : Nat) : Bool :=
  i == 0 || match text[i]? with
    | some b => b &&& 0xC0 != 0x80
    | none => i == text.length

/-- `&text[start..stop]` -/
def slice (text : List UInt8) (start stop : Nat) : Outcome LexError (List UInt8) :=
  if start ≤ stop ∧ isCharBoundary text start = true ∧ isCharBoundary text stop = true then
    .ok ((text.drop start).take (stop - start))
  else .panic "slice index out of range or not a char boundary"

/-- `str::rfind` -/
def rfind (pattern text : List UInt8) : Option Nat :=
  (List.range text.length).reverse.find? fun i => pattern.isPrefixOf (text.drop i)

/-! ## 3. The spelling -/

/-- Where a quoted body starts and stops. -/
def quoted (text : List UInt8) (lead : Nat) (quote : UInt8) : Option (Nat × Nat) :=
  if text.length < lead + 2 ∨ text[lead]? ≠ some quote then none
  else
    match rfind [quote] text with
    | none => none
    | some close => if close ≤ lead then none else some (lead + 1, close)

/-- The same between hashes, which are counted in a `u8`. -/
def raw (text : List UInt8) (lead : Nat) : Outcome LexError (Option (UInt8 × Nat × Nat)) := do
  let rest ← slice text lead text.length
  let hashes := (rest.takeWhile (· == asU8 '#')).length
  let start := lead + hashes
  if text[start]? ≠ some (asU8 '"') then return none
  match rfind (asU8 '"' :: List.replicate hashes (asU8 '#')) text with
  | none => return none
  | some close => return if close ≤ start then none else some (UInt8.ofNat hashes, start + 1, close)

def make (kind : LitKind) (body suffix : List UInt8) : Literal where
  kind := kind
  symbol := body
  suffix := if suffix.isEmpty then none else some suffix

/-- What all kinds end with: `None` is no suffix. -/
def withSuffix (text : List UInt8) (kind : LitKind) (start stop after : Nat) :
    Outcome LexError (Option Literal) := do
  let suffix ← slice text after text.length
  if !suffix.all fun b => b == asU8 '_' || isAsciiAlphanumeric b then return none
  let body ← slice text start stop
  return some (make kind body suffix)

def quotedLiteral (text : List UInt8) (kind : LitKind) (lead : Nat) (quote : UInt8) :
    Outcome LexError (Option Literal) :=
  match quoted text lead quote with
  | none => .ok none
  | some (s, e) => withSuffix text kind s e (e + 1)

def rawLiteral (text : List UInt8) (kind : UInt8 → LitKind) (lead : Nat) :
    Outcome LexError (Option Literal) := do
  match ← raw text lead with
  | none => return none
  | some (n, s, e) => withSuffix text (kind n) s e (e + 1 + n.toNat)

/-- The loops over digits, from `i`. -/
def runEnd (p : UInt8 → Bool) (text : List UInt8) (i : Nat) : Nat :=
  i + ((text.drop i).takeWhile p).length

def isDecimal (b : UInt8) : Bool := b == asU8 '_' || isAsciiDigit b

/-- Whether it is a float, and the end of it. -/
def fraction (text : List UInt8) (i : Nat) : Bool × Nat :=
  if text[i]? = some (asU8 '.') ∧ (i + 1 = text.length ∨ text[i + 1]?.any isAsciiDigit = true) then
    (true, runEnd isDecimal text (i + 1))
  else (false, i)

def exponent (text : List UInt8) (float : Bool) (i : Nat) : Bool × Nat :=
  if text[i]? = some (asU8 'e') ∨ text[i]? = some (asU8 'E') then
    let signed := text[i + 1]? = some (asU8 '+') ∨ text[i + 1]? = some (asU8 '-')
    let digits := if signed then i + 2 else i + 1
    let j := runEnd isDecimal text digits
    if ((text.drop digits).take (j - digits)).any isAsciiDigit then (true, j) else (float, i)
  else (float, i)

def numberLiteral (text : List UInt8) (first : UInt8) : Outcome LexError (Option Literal) :=
  let radix := if first = asU8 '0' then text.getD 1 0 else 0
  if radix = asU8 'x' ∨ radix = asU8 'o' ∨ radix = asU8 'b' then
    let digit := if radix = asU8 'x' then isAsciiHexdigit else isAsciiDigit
    let i := runEnd (fun b => b == asU8 '_' || digit b) text 2
    withSuffix text .Integer 0 i i
  else
    let i := runEnd isDecimal text 0
    let (float, i) := fraction text i
    let (float, i) := exponent text float i
    withSuffix text (if float then .Float else .Integer) 0 i i

def fromSpelling (text : List UInt8) : Outcome LexError (Option Literal) :=
  match text with
  | [] => .ok none
  | first :: _ =>
    if first = asU8 '\'' then quotedLiteral text .Char 0 (asU8 '\'')
    else if first = asU8 '"' then quotedLiteral text .Str 0 (asU8 '"')
    else if (asciis "b'").isPrefixOf text then quotedLiteral text .Byte 1 (asU8 '\'')
    else if (asciis "b\"").isPrefixOf text then quotedLiteral text .ByteStr 1 (asU8 '"')
    else if (asciis "c\"").isPrefixOf text then quotedLiteral text .CStr 1 (asU8 '"')
    else if (asciis "br").isPrefixOf text then rawLiteral text .ByteStrRaw 2
    else if (asciis "cr").isPrefixOf text then rawLiteral text .CStrRaw 2
    else if (asciis "r").isPrefixOf text then rawLiteral text .StrRaw 1
    else if isAsciiDigit first then numberLiteral text first
    else .ok none

/-! ## 4. Boundaries -/

/-- Six bits behind the mark of a continuation byte. -/
theorem continuation_high (x : Nat) (h : x < 64) : ¬ UInt8.ofNat (x + 0x80) < 128 := by
  decide +revert

variable {b : UInt8}

/-- A byte of ASCII is a character. -/
theorem utf8_ascii {c : Char} (hb : b ∈ String.utf8EncodeChar c) (hlt : b < 0x80) :
    String.utf8EncodeChar c = [b] := by
  have hval : c.val.toNat = c.toNat := rfl
  rw [String.utf8EncodeChar, hval] at hb ⊢
  split_ifs at hb ⊢
  · rw [List.mem_singleton.mp hb]
  · simp only [List.mem_cons, List.not_mem_nil, or_false] at hb
    rcases hb with rfl | rfl
    · exact absurd hlt (lead_two _ (by omega)).1
    · exact absurd hlt (continuation_high _ (by omega))
  · simp only [List.mem_cons, List.not_mem_nil, or_false] at hb
    rcases hb with rfl | rfl | rfl
    · exact absurd hlt (lead_three _ (by omega)).1
    · exact absurd hlt (continuation_high _ (by omega))
    · exact absurd hlt (continuation_high _ (by omega))
  · simp only [List.mem_cons, List.not_mem_nil, or_false] at hb
    rcases hb with rfl | rfl | rfl | rfl
    · exact absurd hlt (lead_four _ (by omega)).1
    · exact absurd hlt (continuation_high _ (by omega))
    · exact absurd hlt (continuation_high _ (by omega))
    · exact absurd hlt (continuation_high _ (by omega))

theorem ascii_start (b : UInt8) (h : b < 0x80) : b &&& 0xC0 ≠ 0x80 := by
  have hall : ∀ x < 0x80, UInt8.ofNat x &&& 0xC0 ≠ 0x80 := by decide
  have hb := hall b.toNat (UInt8.lt_iff_toNat_lt.mp h)
  rwa [UInt8.ofNat_toNat] at hb

theorem utf8_start (c : Char) : ∃ b bs, String.utf8EncodeChar c = b :: bs ∧ b &&& 0xC0 ≠ 0x80 := by
  have hval : c.val.toNat = c.toNat := rfl
  rw [String.utf8EncodeChar, hval]
  split_ifs with h1
  · refine ⟨_, _, rfl, ascii_start _ ?_⟩
    rw [UInt8.lt_iff_toNat_lt, UInt8.toNat_ofNat', Nat.mod_eq_of_lt (by omega)]
    exact Nat.lt_of_le_of_lt h1 (by decide)
  · exact ⟨_, _, rfl, (lead_two _ (by omega)).2.1⟩
  · exact ⟨_, _, rfl, (lead_three _ (by omega)).2.1⟩
  · exact ⟨_, _, rfl, (lead_four _ (by omega)).2.1⟩

theorem encoded_cons (c : Char) (text : List Char) :
    encoded (c :: text) = String.utf8EncodeChar c ++ encoded text := List.flatMap_cons

variable {text : List UInt8} {i : Nat}

theorem boundary_of_byte (h : text[i]? = some b)
    (hb : b &&& 0xC0 ≠ 0x80) : isCharBoundary text i = true := by
  rw [isCharBoundary, h, Bool.or_eq_true]
  exact .inr (bne_iff_ne.mpr hb)

theorem boundary_length (text : List UInt8) : isCharBoundary text text.length = true := by
  rw [isCharBoundary, List.getElem?_eq_none (Nat.le_refl _), Bool.or_eq_true]
  exact .inr (beq_self_eq_true _)

theorem boundary_le (h : isCharBoundary text i = true) :
    i ≤ text.length := by
  by_contra hlt
  have hnone : text[i]? = none := List.getElem?_eq_none (by omega)
  rw [isCharBoundary, hnone, Bool.or_eq_true, beq_iff_eq] at h
  rcases h with h | h
  · omega
  · have := beq_iff_eq.mp h
    omega

/-- A character ends where the next one starts. -/
theorem boundary_start (text : List Char) (bs : List UInt8) :
    isCharBoundary (bs ++ encoded text) bs.length = true := by
  cases text with
  | nil =>
    have hlen := boundary_length bs
    rwa [encoded, List.flatMap_nil, List.append_nil]
  | cons c text =>
    obtain ⟨b, cs, hc, hb⟩ := utf8_start c
    refine boundary_of_byte (b := b) ?_ hb
    rw [encoded_cons, hc, List.getElem?_append_right (Nat.le_refl _), Nat.sub_self]
    rfl

/-- Behind a byte of ASCII a character ends. By induction on the characters. -/
theorem boundary_next {text : List Char} (bs : List UInt8) (h : (encoded text)[i]? = some b)
    (hb : b < 0x80) :
    isCharBoundary (bs ++ encoded text) (bs.length + i + 1) = true := by
  induction text generalizing bs i with
  | nil => cases h
  | cons c text ih =>
    rw [encoded_cons] at h ⊢
    by_cases hi : i < (String.utf8EncodeChar c).length
    · rw [List.getElem?_append_left hi] at h
      have hone := utf8_ascii (List.mem_of_getElem? h) hb
      have hstart := boundary_start text (bs ++ String.utf8EncodeChar c)
      rw [hone, List.length_singleton] at hi
      rw [List.length_append, hone, List.length_singleton, List.append_assoc] at hstart
      obtain rfl : i = 0 := by omega
      rw [hone]
      exact hstart
    · rw [List.getElem?_append_right (by omega)] at h
      have hrest := ih (bs ++ String.utf8EncodeChar c) h
      rw [List.length_append, List.append_assoc] at hrest
      have hplace : bs.length + (String.utf8EncodeChar c).length +
          (i - (String.utf8EncodeChar c).length) + 1 = bs.length + i + 1 := by omega
      rwa [hplace] at hrest

/-- Around a byte of ASCII a text may be cut. -/
theorem boundary_around {text : List Char} (h : (encoded text)[i]? = some b)
    (hb : b < 0x80) : isCharBoundary (encoded text) i = true ∧
      isCharBoundary (encoded text) (i + 1) = true := by
  have hnext := boundary_next [] h hb
  rw [List.nil_append, List.length_nil, Nat.zero_add] at hnext
  exact ⟨boundary_of_byte h (ascii_start b hb), hnext⟩

/-! ## 5. It returns -/

theorem slice_ok {start stop : Nat} (hle : start ≤ stop) (hstart : isCharBoundary text start = true)
    (hstop : isCharBoundary text stop = true) :
    slice text start stop = .ok ((text.drop start).take (stop - start)) :=
  if_pos ⟨hle, hstart, hstop⟩

theorem withSuffix_returns {start stop after : Nat} (kind : LitKind) (hle : start ≤ stop)
    (hstart : isCharBoundary text start = true) (hstop : isCharBoundary text stop = true)
    (hafter : isCharBoundary text after = true) :
    (withSuffix text kind start stop after).Returns := by
  rw [withSuffix, slice_ok (boundary_le hafter) hafter (boundary_length text), Outcome.ok_bind]
  split_ifs
  · trivial
  · rw [slice_ok hle hstart hstop]
    trivial

theorem rfind_found {pattern : List UInt8} (h : rfind pattern text = some i) :
    pattern <+: text.drop i := by
  have hi := List.find?_some (p := fun i => pattern.isPrefixOf (text.drop i)) h
  exact List.isPrefixOf_iff_prefix.mp hi

/-- A byte of what was found. -/
theorem found_byte {pattern : List UInt8} {j : Nat} (h : pattern <+: text.drop i)
    (hb : pattern[j]? = some b) : text[i + j]? = some b := by
  obtain ⟨rest, hrest⟩ := h
  have hj : j < pattern.length := (List.getElem?_eq_some_iff.mp hb).1
  rw [← List.getElem?_drop, ← hrest, List.getElem?_append_left hj, hb]

variable {text : List Char}

theorem quotedLiteral_returns (kind : LitKind) (lead : Nat) {quote : UInt8} (hq : quote < 0x80) :
    (quotedLiteral (encoded text) kind lead quote).Returns := by
  unfold quotedLiteral quoted
  split
  · trivial
  · next s e h =>
    split_ifs at h with hshort
    split at h
    · cases h
    · next close hclose =>
      split_ifs at h with hle
      obtain ⟨rfl, rfl⟩ := Prod.mk.inj (Option.some.inj h)
      have hopen : (encoded text)[lead]? = some quote := not_not.mp (not_or.mp hshort).2
      have hend : (encoded text)[close]? = some quote := found_byte (rfind_found hclose)
        (j := 0) rfl
      exact withSuffix_returns kind (by omega)
        (boundary_around hopen hq).2 (boundary_around hend hq).1
        (boundary_around hend hq).2

theorem raw_returns {lead : Nat} (hlead : isCharBoundary (encoded text) lead = true) :
    (raw (encoded text) lead).Returns ∧ ∀ n s e, raw (encoded text) lead = .ok (some (n, s, e)) →
      s ≤ e ∧ isCharBoundary (encoded text) s = true ∧ isCharBoundary (encoded text) e = true ∧
        isCharBoundary (encoded text) (e + 1 + n.toNat) = true := by
  rw [raw, slice_ok (boundary_le hlead) hlead (boundary_length _), Outcome.ok_bind]
  generalize (List.takeWhile _ _).length = hashes
  dsimp only
  split_ifs with hopen
  · exact ⟨trivial, fun n s e h => nomatch h⟩
  split
  · exact ⟨trivial, fun n s e h => nomatch h⟩
  · next close hclose =>
    refine ⟨trivial, fun n s e h => ?_⟩
    split_ifs at h with hle
    · cases h
    · cases h
      have hfound := rfind_found hclose
      have hquote : (encoded text)[close]? = some (asU8 '"') := found_byte hfound (j := 0) rfl
      -- the last of the hashes that are counted
      have hlast : (asU8 '"' :: List.replicate hashes (asU8 '#'))[hashes % 256]? = some (asU8 '"') ∨
          (asU8 '"' :: List.replicate hashes (asU8 '#'))[hashes % 256]? = some (asU8 '#') := by
        cases hmod : hashes % 256 with
        | zero => exact .inl rfl
        | succ k =>
          refine .inr ?_
          rw [List.getElem?_cons_succ, List.getElem?_replicate, if_pos (by omega)]
      have hbyte : isCharBoundary (encoded text) (close + hashes % 256 + 1) = true := by
        rcases hlast with hlast | hlast
        · exact (boundary_around (found_byte hfound hlast) (by decide)).2
        · exact (boundary_around (found_byte hfound hlast) (by decide)).2
      refine ⟨by omega, (boundary_around (not_not.mp hopen) (by decide)).2,
        (boundary_around hquote (by decide)).1, ?_⟩
      rw [UInt8.toNat_ofNat', Nat.add_right_comm]
      exact hbyte

theorem rawLiteral_returns (kind : UInt8 → LitKind) {lead : Nat}
    (hlead : isCharBoundary (encoded text) lead = true) :
    (rawLiteral (encoded text) kind lead).Returns := by
  obtain ⟨hreturns, hplaces⟩ := raw_returns hlead
  unfold rawLiteral
  cases hraw : raw (encoded text) lead with
  | ok found =>
    cases found with
    | none => trivial
    | some place =>
      obtain ⟨hle, hs, he, hafter⟩ := hplaces _ _ _ hraw
      exact withSuffix_returns _ hle hs he hafter
  | err e => trivial
  | panic m => rw [hraw] at hreturns; exact hreturns
  | running => rw [hraw] at hreturns; exact hreturns

/-- A run of bytes of ASCII ends where characters do. -/
theorem runEnd_boundary {p : UInt8 → Bool} (hp : ∀ b, p b = true → b < 0x80)
    (hi : isCharBoundary (encoded text) i = true) :
    isCharBoundary (encoded text) (runEnd p (encoded text) i) = true := by
  unfold runEnd
  have hfound := List.takeWhile_prefix p (l := (encoded text).drop i)
  have hall : ∀ b ∈ ((encoded text).drop i).takeWhile p, p b = true :=
    fun b hb => List.mem_takeWhile_imp hb
  generalize ((encoded text).drop i).takeWhile p = run at hfound hall ⊢
  rcases List.eq_nil_or_concat run with rfl | ⟨run, b, rfl⟩
  · exact hi
  · rw [List.concat_eq_append] at hfound hall ⊢
    have hb : p b = true := hall b (List.mem_append_right run List.mem_cons_self)
    have hlast : (encoded text)[i + run.length]? = some b := by
      refine found_byte hfound ?_
      rw [List.getElem?_append_right (Nat.le_refl _), Nat.sub_self]
      rfl
    rw [List.length_append, List.length_singleton, ← Nat.add_assoc]
    exact (boundary_around hlast (hp b hb)).2

theorem isAsciiDigit_lt (h : isAsciiDigit b = true) : b < 0x80 := by
  have hle := (Bool.and_eq_true _ _).mp h
  exact UInt8.lt_of_le_of_lt (of_decide_eq_true hle.2) (by decide)

theorem isAsciiHexdigit_lt (h : isAsciiHexdigit b = true) : b < 0x80 := by
  simp only [isAsciiHexdigit, Bool.or_eq_true, Bool.and_eq_true, decide_eq_true_eq] at h
  rcases h with (h | h) | h
  · exact isAsciiDigit_lt h
  · exact UInt8.lt_of_le_of_lt h.2 (by decide)
  · exact UInt8.lt_of_le_of_lt h.2 (by decide)

theorem isDecimal_lt (b : UInt8) (h : isDecimal b = true) : b < 0x80 := by
  rcases (Bool.or_eq_true _ _).mp h with h | h
  · rw [beq_iff_eq.mp h]
    decide
  · exact isAsciiDigit_lt h

theorem fraction_boundary (hi : isCharBoundary (encoded text) i = true) :
    isCharBoundary (encoded text) (fraction (encoded text) i).2 = true := by
  unfold fraction
  split_ifs with h
  · exact runEnd_boundary isDecimal_lt (boundary_around h.1 (by decide)).2
  · exact hi

theorem exponent_boundary (float : Bool) (hi : isCharBoundary (encoded text) i = true) :
    isCharBoundary (encoded text) (exponent (encoded text) float i).2 = true := by
  unfold exponent
  split_ifs with he
  · have hsign : isCharBoundary (encoded text) (i + 1) = true := by
      rcases he with he | he
      · exact (boundary_around he (by decide)).2
      · exact (boundary_around he (by decide)).2
    dsimp only
    split_ifs with hsigned
    · refine runEnd_boundary isDecimal_lt ?_
      rcases hsigned with hs | hs
      · exact (boundary_around hs (by decide)).2
      · exact (boundary_around hs (by decide)).2
    · exact hi
    · exact runEnd_boundary isDecimal_lt hsign
    · exact hi
  · exact hi

theorem radix_boundary {first radix : UInt8}
    (h : (if first = asU8 '0' then (encoded text).getD 1 0 else 0) = radix) (h0 : radix ≠ 0)
    (hlt : radix < 0x80) : isCharBoundary (encoded text) 2 = true := by
  split_ifs at h
  · have hbyte : (encoded text)[1]? = some radix := by
      rw [List.getD_eq_getElem?_getD] at h
      cases hb : (encoded text)[1]? with
      | none => rw [hb] at h; exact absurd h.symm h0
      | some b => rw [hb] at h; exact congrArg some h
    exact (boundary_around hbyte hlt).2
  · exact absurd h.symm h0

theorem numberLiteral_returns (first : UInt8) : (numberLiteral (encoded text) first).Returns := by
  have hdecimal : isCharBoundary (encoded text) (runEnd isDecimal (encoded text) 0) = true :=
    runEnd_boundary isDecimal_lt rfl
  have hfloat := exponent_boundary (fraction (encoded text) (runEnd isDecimal (encoded text) 0)).1
    (fraction_boundary hdecimal)
  have hradix : ∀ radix, (if first = asU8 '0' then (encoded text).getD 1 0 else 0) = radix →
      radix ≠ 0 → radix < 0x80 → isCharBoundary (encoded text) 2 = true := fun _ => radix_boundary
  unfold numberLiteral
  generalize (if first = asU8 '0' then (encoded text).getD 1 0 else 0) = radix at hradix ⊢
  dsimp only
  split_ifs with h hx
  · subst hx
    have hdigit : ∀ b, (b == asU8 '_' || isAsciiHexdigit b) = true → b < 0x80 := by
      intro b hb
      rcases (Bool.or_eq_true _ _).mp hb with hb | hb
      · rw [beq_iff_eq.mp hb]
        decide
      · exact isAsciiHexdigit_lt hb
    have hend := runEnd_boundary hdigit (hradix _ rfl (by decide) (by decide))
    exact withSuffix_returns _ (Nat.zero_le _) rfl hend hend
  · have hstart : isCharBoundary (encoded text) 2 = true := by
      rcases h with rfl | rfl | rfl
      · exact hradix _ rfl (by decide) (by decide)
      · exact hradix _ rfl (by decide) (by decide)
      · exact hradix _ rfl (by decide) (by decide)
    have hend := runEnd_boundary isDecimal_lt hstart
    exact withSuffix_returns _ (Nat.zero_le _) rfl hend hend
  · exact withSuffix_returns _ (Nat.zero_le _) rfl hfloat hfloat
  · exact withSuffix_returns _ (Nat.zero_le _) rfl hfloat hfloat

theorem spelled_boundary {lead : List UInt8} (h : lead.isPrefixOf (encoded text) = true)
    (hi : lead[i]? = some b) (hb : b < 0x80) :
    isCharBoundary (encoded text) (i + 1) = true := by
  have hfound : lead <+: (encoded text).drop 0 := List.isPrefixOf_iff_prefix.mp h
  have hbyte := found_byte hfound hi
  rw [Nat.zero_add] at hbyte
  exact (boundary_around hbyte hb).2

/-- **Taking a spelling apart returns.** -/
theorem fromSpelling_returns (text : List Char) : (fromSpelling (encoded text)).Returns := by
  unfold fromSpelling
  split
  · trivial
  · split_ifs with _ _ _ _ _ hbr hcr hr
    · exact quotedLiteral_returns _ _ (by decide)
    · exact quotedLiteral_returns _ _ (by decide)
    · exact quotedLiteral_returns _ _ (by decide)
    · exact quotedLiteral_returns _ _ (by decide)
    · exact quotedLiteral_returns _ _ (by decide)
    · exact rawLiteral_returns _ (spelled_boundary hbr (i := 1) rfl (by decide))
    · exact rawLiteral_returns _ (spelled_boundary hcr (i := 1) rfl (by decide))
    · exact rawLiteral_returns _ (spelled_boundary hr (i := 0) rfl (by decide))
    · exact numberLiteral_returns _
    · trivial

end Trustme.ProcMacro.Lex
