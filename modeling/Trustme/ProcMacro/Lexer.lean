/-
  Subject:   `TokenStream::from_str`, which lexes a string for a procedural macro (lex.rs).

  * `charLiteral`, `stringLiteral`, `rawString`, `number`, `operator`: the kinds of tokens;
  * `lineComment`, `blockComment`: the loops that skip a comment;
  * `token`: one round of the loop over the text; `tokens` -- the loop;
  * `fromStr`: the tokens, grouped by their delimiters.

  A `CharStream` is the list of the characters from `cur` on: `consume` drops one, `next` is the one
  behind, and the empty list is complete. `fuel` counts the rounds of the two loops that may not
  end. The library is built with `--release`: its counters wrap. Spans are left out, as all are
  `call_site`.
-/
import Trustme.ProcMacro.Spelling

namespace Trustme.ProcMacro.Lex

open Trustme.Lib

/-! ## 1. Tokens -/

inductive Delimiter where
  | Parenthesis
  | Brace
  | Bracket
  | None
  deriving DecidableEq

inductive TokenTree where
  | Group (delimiter : Delimiter) (stream : List TokenTree)
  | Ident (sym : List Char) (isRaw : Bool)
  | Punct (ch : UInt8) (joint : Bool)
  | Literal (literal : Literal)

/-- Trees, and what is left of the text. -/
abbrev Lexed := Outcome LexError (List TokenTree × List Char)

/-- Part of a spelling, and what is left of the text. -/
abbrev Spelled := Outcome LexError (List Char × List Char)

/-- What the standard library says of characters beyond ASCII. -/
structure CharTables where
  alphabetic : Char → Bool
  numeric : Char → Bool
  whiteSpace : Char → Bool

namespace CharTables

variable (U : CharTables)

def isAlphabetic (c : Char) : Bool := c.isAlpha || (decide (0x7F < c.toNat) && U.alphabetic c)

def isNumeric (c : Char) : Bool := c.isDigit || (decide (0x7F < c.toNat) && U.numeric c)

def isAlphanumeric (c : Char) : Bool := U.isAlphabetic c || U.isNumeric c

def isWhitespace (c : Char) : Bool :=
  c == ' ' || (decide (0x09 ≤ c.toNat) && decide (c.toNat ≤ 0x0D)) ||
    (decide (0x7F < c.toNat) && U.whiteSpace c)

end CharTables

/-- `c.to_digit(radix).is_some()` -/
def isDigitOf (radix : Nat) (c : Char) : Bool :=
  if c.isDigit then c.toNat - 0x30 < radix
  else decide (0x41 ≤ c.toUpper.toNat) && decide (c.toUpper.toNat < 0x41 + (radix - 10))

def spelled (text : List Char) : Outcome LexError Literal := do
  let literal ← fromSpelling (Lexing.encoded text)
  Outcome.okOr "Malformed literal" literal

section Lexer

variable (U : CharTables)

/-! ## 2. Identifiers -/

def validateIdent (string : List Char) : Outcome LexError Unit :=
  match string with
  | [] => .panic "Ident is not allowed to be empty; use Option<Ident>"
  | first :: chars =>
    if string.all (·.isDigit) then .panic "Ident cannot be a number; use Literal instead"
    else if (first ≠ '_' ∧ U.isAlphabetic first = false) ∨
        (chars.all fun c => c == '_' || U.isAlphanumeric c) = false then
      .panic "is not a valid Ident"
    else .ok ()

/-- `Ident::new` -/
def identNew (string : List Char) : Outcome LexError TokenTree := do
  validateIdent U string
  return .Ident string false

def isIdentChar (c : Char) : Bool := c == '_' || U.isAlphanumeric c || c.isDigit

/-- It begins with `cur`. -/
def getIdent (s : List Char) : List Char → Spelled
  | [] => .panic "CharStream::cur called with no current"
  | c :: rest =>
    .ok (s ++ (c :: rest).takeWhile (isIdentChar U), (c :: rest).dropWhile (isIdentChar U))

/-! ## 3. Quotes -/

/-- The loop over the two digits of a `\x`. -/
def hexEscape (eof bad : LexError) (spelling : List Char) : Nat → List Char → Spelled
  | 0, rest => .ok (spelling, rest)
  | _ + 1, [] => .err eof
  | n + 1, d :: rest =>
    if isDigitOf 16 d then hexEscape eof bad (spelling ++ [d]) n rest else .err bad

/-- The loop to the closing brace of a `\u`. -/
def unicodeEscape (spelling : List Char) : List Char → Spelled
  | [] => .err "Unterminated `\\u` escape"
  | d :: rest =>
    if d = '}' then .ok (spelling ++ [d], rest) else unicodeEscape (spelling ++ [d]) rest

/-- The escapes that are one character. -/
def isPlainEscape (c : Char) : Bool :=
  c == '0' || c == 'n' || c == 'r' || c == 't' || c == '\\' || c == '\'' || c == '"'

def charEscape (spelling : List Char) : List Char → Spelled
  | [] => .err "Unterminated char literal"
  | escaped :: rest =>
    if isPlainEscape escaped then .ok (spelling ++ [escaped], rest)
    else if escaped = 'u' then unicodeEscape (spelling ++ [escaped]) rest
    else if escaped = 'x' then
      hexEscape "Unterminated `\\x` escape" "Invalid hex digit in `\\x` escape"
        (spelling ++ [escaped]) 2 rest
    else .err "Unknown escape in char literal"

/-- The closing quote of a character. -/
def closeQuote (eof more : LexError) (spelling : List Char) : List Char → Lexed
  | [] => .err eof
  | d :: rest =>
    if d = '\'' then do
      let literal ← spelled (spelling ++ [d])
      return ([.Literal literal], rest)
    else .err more

/-- `c` is the first character behind the quote. -/
def charBody (c : Char) (rest : List Char) : Spelled :=
  if c = '\\' then charEscape ['\'', c] rest else .ok (['\'', c], rest)

def charLiteral (c : Char) (rest : List Char) : Lexed := do
  let (spelling, rest) ← charBody c rest
  closeQuote "Unterminated char literal" "Multiple characters in char literal" spelling rest

/-- What a single quote begins. -/
def lifetimeOrChar : List Char → Lexed
  | [] => .err "Unterminated char literal"
  | c :: rest =>
    if (U.isAlphabetic c = true ∨ c = '_') ∧ rest.head? ≠ some '\'' then do
      let (ident, it) ← getIdent U [] (c :: rest)
      return ([.Punct (asU8 '\'') true, .Ident ident false], it)
    else charLiteral c rest

def byteEscape (spelling : List Char) : List Char → Spelled
  | [] => .err "Unterminated byte character literal"
  | escaped :: rest =>
    if isPlainEscape escaped then .ok (spelling ++ [escaped], rest)
    else if escaped = 'x' then
      hexEscape "Unterminated byte character literal" "Invalid hex digit in byte character literal"
        (spelling ++ [escaped]) 2 rest
    else .err "Invalid escape in byte character literal"

def byteBody (c : Char) (rest : List Char) : Spelled :=
  if c = '\\' then byteEscape ['b', '\'', c] rest
  else if c.toNat ≤ 0x7F ∧ c ≠ '\n' ∧ c ≠ '\r' then .ok (['b', '\'', c], rest)
  else .err "Invalid byte character literal"

def byteLiteral : List Char → Lexed
  | [] => .err "Unterminated byte character literal"
  | c :: rest => do
      let (spelling, rest) ← byteBody c rest
      closeQuote "Unterminated byte character literal"
        "Multiple characters in byte character literal"
        spelling rest

def stringEscape (spelling : List Char) : List Char → Spelled
  | [] => .err "str eof"
  | escaped :: rest =>
    if isPlainEscape escaped then .ok (spelling ++ [escaped], rest)
    else if escaped = 'x' then
      hexEscape "str eof" "Invalid hex digit in `\\x` escape" (spelling ++ [escaped]) 2 rest
    else if escaped = 'u' then unicodeEscape (spelling ++ [escaped]) rest
    else if escaped = '\n' ∨ escaped = '\r' then
      .ok (spelling ++ escaped :: rest.takeWhile U.isWhitespace, rest.dropWhile U.isWhitespace)
    else .err "Unknown escape in string"

theorem hexEscape_leaves (eof bad : LexError) (spelling : List Char) (n : Nat) (rest : List Char) :
    (hexEscape eof bad spelling n rest).Leaves rest.length := by
  induction n generalizing spelling rest with
  | zero =>
    rw [hexEscape]
    exact Nat.le_refl _
  | succ n ih =>
    cases rest with
    | nil => trivial
    | cons d rest =>
      rw [hexEscape]
      split_ifs
      · exact (ih _ rest).mono (Nat.le_succ _)
      · trivial

theorem unicodeEscape_leaves (spelling rest : List Char) :
    (unicodeEscape spelling rest).Leaves rest.length := by
  induction rest generalizing spelling with
  | nil => trivial
  | cons d rest ih =>
    rw [unicodeEscape]
    split_ifs
    · exact Nat.le_succ _
    · exact (ih _).mono (Nat.le_succ _)

theorem stringEscape_leaves (spelling rest : List Char) :
    (stringEscape U spelling rest).Leaves rest.length := by
  cases rest with
  | nil => trivial
  | cons escaped rest =>
    rw [stringEscape]
    split_ifs
    · exact Nat.le_succ _
    · exact (hexEscape_leaves ..).mono (Nat.le_succ _)
    · exact (unicodeEscape_leaves ..).mono (Nat.le_succ _)
    · exact Nat.le_succ_of_le (List.length_dropWhile_le ..)
    · trivial

/-- The loop over a string. -/
def stringBody (spelling : List Char) : List Char → Spelled
  | [] => .err "str eof"
  | c :: rest =>
    if c = '"' then .ok (spelling ++ [c], rest)
    else if c = '\\' then
      match _h : stringEscape U (spelling ++ [c]) rest with
      | .ok (escaped, it) => stringBody escaped it
      | .err e => .err e
      | .panic m => .panic m
      | .running => .running
    else stringBody (spelling ++ [c]) rest
termination_by rest => rest.length
decreasing_by
  · have hle := stringEscape_leaves U (spelling ++ [c]) rest
    rw [_h] at hle
    exact Nat.lt_succ_of_le hle
  · exact Nat.lt_succ_self _

def openingQuote : Option Char → List Char
  | some 'b' => ['b', '"']
  | some 'c' => ['c', '"']
  | _ => ['"']

def stringLiteral (lead : Option Char) (rest : List Char) : Lexed := do
  let (spelling, it) ← stringBody U (openingQuote lead) rest
  let literal ← spelled spelling
  return ([.Literal literal], it)

/-! ## 4. Raw strings -/

/-- The hashes in front of a raw string, and what follows them. -/
def countHashes (hashes : Int32) : List Char → Outcome LexError ((Int32 × Char) × List Char)
  | [] => .err "rawstr eof"
  | c :: rest => if c = '#' then countHashes (hashes + 1) rest else .ok ((hashes, c), rest)

/-- The hashes behind a quote, up to as many as there must be. -/
def closeHashes (reqHashes hashes : Int32) (c : Char) :
    List Char → Outcome LexError ((Int32 × Char) × List Char)
  | [] => if hashes < reqHashes then .err "rawstr eof" else .ok ((hashes, c), [])
  | d :: rest =>
    if hashes < reqHashes then
      if d ≠ '#' then .ok ((hashes, d), rest) else closeHashes reqHashes (hashes + 1) d rest
    else .ok ((hashes, c), d :: rest)

/-- `for _ in 0 .. hashes { push('#') }` -/
def hashMarks (hashes : Int32) : List Char := List.replicate hashes.toInt.toNat '#'

theorem closeHashes_leaves (reqHashes hashes : Int32) (c : Char) (rest : List Char) :
    (closeHashes reqHashes hashes c rest).Leaves rest.length := by
  induction rest generalizing hashes c with
  | nil =>
    rw [closeHashes]
    split_ifs
    · trivial
    · exact Nat.le_refl _
  | cons d rest ih =>
    rw [closeHashes]
    split_ifs
    · exact Nat.le_succ _
    · exact (ih _ _).mono (Nat.le_succ _)
    · exact Nat.le_refl _

/-- The loop over a raw string. -/
def rawBody (reqHashes : Int32) (rawstr : List Char) : List Char → Spelled
  | [] => .err "Rawstr eof"
  | c :: rest =>
    if c = '"' then
      match _h : closeHashes reqHashes 0 c rest with
      | .ok ((hashes, d), it) =>
        if hashes ≠ reqHashes then
          rawBody reqHashes (rawstr ++ '"' :: hashMarks hashes ++ [d]) it
        else .ok (rawstr, it)
      | .err e => .err e
      | .panic m => .panic m
      | .running => .running
    else rawBody reqHashes (rawstr ++ [c]) rest
termination_by rest => rest.length
decreasing_by
  · have hle := closeHashes_leaves reqHashes 0 c rest
    rw [_h] at hle
    exact Nat.lt_succ_of_le hle
  · exact Nat.lt_succ_self _

/-- The hashes of something that is no string: the last of them is alone. -/
def hashPuncts : Nat → List TokenTree
  | 0 => []
  | n + 1 => .Punct (asU8 '#') (n ≠ 0) :: hashPuncts n

def identStr : Option Char → List Char
  | some 'b' => ['b', 'r']
  | some 'c' => ['c', 'r']
  | _ => ['r']

/-- What begins with an `r`. -/
def rawString (lead : Option Char) (rest : List Char) : Lexed := do
  if rest = [] then
    let ident ← identNew U (identStr lead)
    return ([ident], [])
  let ((hashes, c), rest) ← countHashes 0 rest
  if c ≠ '"' then
    if hashes = 0 then
      let (s, it) ← getIdent U (identStr lead) (c :: rest)
      return (.Ident s false :: hashPuncts hashes.toInt.toNat, it)
    else
      let ident ← identNew U (identStr lead)
      return (ident :: hashPuncts hashes.toInt.toNat, c :: rest)
  let (rawstr, it) ← rawBody hashes [] rest
  let literal ← spelled (identStr lead ++ hashMarks hashes ++ '"' :: rawstr ++ '"' ::
    hashMarks hashes)
  return ([.Literal literal], it)

/-- What `c` begins behind a `b` or a `c`. -/
def behindLead (lead : Option Char) (c : Char) (rest : List Char) : Lexed :=
  if c = 'r' then rawString U lead rest
  else if c = '\'' then
    if lead ≠ some 'b' then .ok ([.Ident ['c'] false], c :: rest) else byteLiteral rest
  else if c = '"' then stringLiteral U lead rest
  else do
    let (ident, it) ← getIdent U lead.toList (c :: rest)
    return ([.Ident ident false], it)

/-- Byte, C or raw string literals. -/
def literalOrIdent (c : Char) (rest : List Char) : Lexed :=
  if c = 'b' ∨ c = 'c' then
    match rest with
    | [] => .ok ([.Ident [c] false], [])
    | d :: rest => behindLead U (some c) d rest
  else behindLead U none c rest

/-! ## 5. Numbers -/

def finish (spelling it : List Char) : Lexed := do
  let literal ← spelled spelling
  return ([.Literal literal], it)

def isDecimalChar (c : Char) : Bool := c == '_' || c.isDigit

def fractionPart (spelling : List Char) : List Char → List Char × List Char
  | [] => (spelling, [])
  | c :: rest =>
    if c = '.' then (spelling ++ c :: rest.takeWhile isDecimalChar, rest.dropWhile isDecimalChar)
    else (spelling, c :: rest)

/-- The sign of an exponent. -/
def signPart (spelling : List Char) : List Char → List Char × List Char
  | [] => (spelling, [])
  | c :: rest => if c = '+' ∨ c = '-' then (spelling ++ [c], rest) else (spelling, c :: rest)

def exponentPart (spelling : List Char) : List Char → Spelled
  | [] => .ok (spelling, [])
  | c :: rest =>
    if c = 'e' ∨ c = 'E' then
      let (spelling, it) := signPart (spelling ++ [c]) rest
      if (it.takeWhile isDecimalChar).any (·.isDigit) then
        .ok (spelling ++ it.takeWhile isDecimalChar, it.dropWhile isDecimalChar)
      else .err "Missing digits in float exponent"
    else .ok (spelling, c :: rest)

def floatSuffix (spelling : List Char) : List Char → Spelled
  | [] => .ok (spelling, [])
  | c :: rest =>
    if c = 'f' then do
      let (suffix, it) ← getIdent U [] (c :: rest)
      if suffix = ['f', '3', '2'] ∨ suffix = ['f', '6', '4'] then return (spelling ++ suffix, it)
      else .err "Unexpected float suffix"
    else if c = '_' ∨ U.isAlphabetic c = true then .err "Unexpected float suffix"
    else .ok (spelling, c :: rest)

def float (spelling it : List Char) : Lexed := do
  let (spelling, it) := fractionPart spelling it
  let (spelling, it) ← exponentPart spelling it
  let (spelling, it) ← floatSuffix U spelling it
  finish spelling it

def integerSuffixes : List (List Char) :=
  ["u8", "i8", "u16", "i16", "u32", "i32", "u64", "i64", "u128", "i128", "usize", "isize"].map
    String.toList

local instance charsLawful : LawfulBEq (List Char) := inferInstance

/-- The loop over an integer. -/
def integer (base : Nat) (spelling : List Char) : List Char → Lexed
  | [] => finish spelling []
  | c :: rest =>
    if c = '_' then integer base (spelling ++ [c]) rest
    else if c = 'u' ∨ c = 'i' then do
      let (s, it) ← getIdent U [] (c :: rest)
      if s ∈ integerSuffixes then finish (spelling ++ s) it else .err "Unexpected integer suffix"
    else if isDigitOf base c then integer base (spelling ++ [c]) rest
    else if base = 10 ∧ (c = '.' ∨ c = 'e' ∨ c = 'E' ∨ c = 'f') then
      if c = '.' ∧ (rest.head?.any fun next => next == '.' || next == '_' || U.isAlphabetic next) =
        true
      then finish spelling (c :: rest)
      else float U spelling (c :: rest)
    else finish spelling (c :: rest)

/-- `let mut c = it.cur();` -/
def integerFrom (base : Nat) (spelling : List Char) : List Char → Lexed
  | [] => .panic "CharStream::cur called with no current"
  | c :: rest => integer U base spelling (c :: rest)

def number (c : Char) (rest : List Char) : Lexed :=
  if c = '0' then
    match rest with
    | [] => finish ['0'] []
    | d :: rest =>
      if d = 'x' then integerFrom U 16 ['0', d] rest
      else if d = 'o' then integerFrom U 8 ['0', d] rest
      else if d = 'b' then integerFrom U 2 ['0', d] rest
      else integerFrom U 10 ['0'] (d :: rest)
  else integerFrom U 10 [] (c :: rest)

/-! ## 6. Operators -/

def SYMS : List (List UInt8) :=
  ["!", "!=", "#", "$", "%", "%=", "&", "&&", "&=", "(", ")", "*", "*=", "+", "+=", ",", "-", "-=",
    "->", ".", "..", "...", "/", "/=", ":", "::", ";", "<", "<-", "<<", "<<=", "<=", "=",
    "==", "=>",
    ">", ">=", ">>", ">>=", "?", "@", "[", "]", "^", "^=", "\x7b", "|", "|=", "||", "\x7d", "~"].map
      asciis

/-- `l[i]` -/
def index {α : Type} (l : List α) (i : Nat) : Outcome LexError α :=
  match l[i]? with
  | some a => .ok a
  | none => .panic "index out of bounds"

/-- `&l[start..stop]` -/
def subslice {α : Type} (l : List α) (start stop : Nat) : Outcome LexError (List α) :=
  if start ≤ stop ∧ stop ≤ l.length then .ok ((l.drop start).take (stop - start))
  else .panic "range out of range for slice"

/-- `syms.iter().position(|v| v[ofs] == b)` -/
def positionAt (ofs : Nat) (b : UInt8) : List (List UInt8) → Outcome LexError (Option Nat)
  | [] => .ok none
  | v :: vs => do
      let x ← index v ofs
      if x = b then return some 0
      let found ← positionAt ofs b vs
      return found.map (· + 1)

/-- `while stop < syms.len() && syms[stop][ofs] == b { stop += 1 }`, over the entries from `stop`
    on. -/
def extendEnd (ofs : Nat) (b : UInt8) (stop : Nat) : List (List UInt8) → Outcome LexError Nat
  | [] => .ok stop
  | v :: vs => do
      let x ← index v ofs
      if x = b then extendEnd ofs b (stop + 1) vs else return stop

/-- The entries that go on as the text did, after the assertion on them. -/
def candidates (start stop ofs : Nat) : Outcome LexError (List (List UInt8)) := do
  let syms ← subslice SYMS start stop
  let first ← index syms 0
  if ofs ≠ first.length then .panic "assertion `left == right` failed" else return syms

/-- The loop over the characters of an operator: the entry, its length, and `c` at the end. -/
def operatorLoop (start stop ofs : Nat) (c : Char) :
    List Char → Outcome LexError ((Nat × Nat × Char) × List Char)
  | [] => do
      let _ ← candidates start stop ofs
      return ((start, ofs, c), [])
  | d :: rest => do
      let syms ← candidates start stop ofs
      match ← positionAt ofs (asU8 d) (syms.drop 1) with
      | none => return ((start, ofs, d), d :: rest)
      | some s =>
        let start := start + (s + 1)
        let stop ← extendEnd ofs (asU8 d) (start + 1) (syms.drop (start + 1))
        operatorLoop start stop (ofs + 1) d rest

def punctuation : List Char := "~!@#$%^&*-=+|;:,<.>/?'".toList

def startsPunctuation (it : List Char) (c : Char) : Bool :=
  if c = '/' ∧ (it.tail.head? = some '/' ∨ it.tail.head? = some '*') then false
  else punctuation.contains c

/-- All characters are joint but the last, which is if there is punctuation behind it. -/
def puncts (joint : Bool) : List UInt8 → List TokenTree
  | [] => []
  | [punct] => [.Punct punct joint]
  | punct :: more => .Punct punct true :: puncts joint more

def operator (c : Char) (rest : List Char) : Lexed := do
  match ← positionAt 0 (asU8 c) SYMS with
  | none => .err "Unknown operator"
  | some start =>
    let stop ← extendEnd 0 (asU8 c) (start + 1) (SYMS.drop (start + 1))
    let ((start, ofs, d), it) ← operatorLoop start stop 1 c rest
    let op ← index SYMS start
    if op.length ≠ ofs then .panic "assertion `left == right` failed"
    else return (puncts (!it.isEmpty && startsPunctuation it d) op, it)

/-! ## 7. Comments -/

/-- `while it.consume() != Some('\n') {}` -/
def lineComment : Nat → List Char → Outcome LexError (List Char)
  | 0, _ => .running
  | fuel + 1, it => if it.tail.head? = some '\n' then .ok it.tail else lineComment fuel it.tail

/-- The loop over a block comment. At an end and at a start of a comment it consumes two characters,
    and one more when it goes on. -/
def blockComment (level : UInt32) : List Char → Outcome LexError (List Char)
  | [] => .panic "Unexpected EOF in block comment"
  | c :: rest =>
    if c = '*' ∧ rest.head? = some '/' then
      if level - 1 = 0 then .ok rest.tail else blockComment (level - 1) rest.tail.tail
    else if c = '/' ∧ rest.head? = some '*' then blockComment (level + 1) rest.tail.tail
    else blockComment level rest
termination_by rest => rest.length
decreasing_by
  · rw [List.length_tail, List.length_tail, List.length_cons]
    omega
  · rw [List.length_tail, List.length_tail, List.length_cons]
    omega
  · exact Nat.lt_succ_self _

/-! ## 8. The loop over the text -/

/-- One round, at `c`. -/
def token (fuel : Nat) (c : Char) (rest : List Char) : Lexed :=
  if U.isWhitespace c then .ok ([], rest)
  else if c = '\'' then lifetimeOrChar U rest
  else if c = '/' ∧ rest.head? = some '/' then do
    let it ← lineComment fuel (c :: rest)
    return ([], it)
  else if c = '/' ∧ rest.head? = some '*' then do
    let it ← blockComment 1 rest.tail
    return ([], it)
  else if c = 'b' ∨ c = 'c' ∨ c = 'r' ∨ c = '"' then literalOrIdent U c rest
  else if U.isAlphabetic c = true ∨ c = '_' then do
    let (ident, it) ← getIdent U [] (c :: rest)
    return ([.Ident ident false], it)
  else if c.isDigit then number U c rest
  else if c.toNat ≤ 0xFF then operator c rest
  else .err "Unexpected character"

def tokens : Nat → List Char → List TokenTree → Outcome LexError (List TokenTree)
  | 0, _, _ => .running
  | _ + 1, [], rv => .ok rv
  | fuel + 1, c :: rest, rv => do
      let (trees, it) ← token U fuel c rest
      tokens fuel it (rv ++ trees)

def delimiterOf (opened closed : UInt8) : Option Delimiter :=
  if opened = asU8 '(' ∧ closed = asU8 ')' then some .Parenthesis
  else if opened = asU8 '[' ∧ closed = asU8 ']' then some .Bracket
  else if opened = asU8 '{' ∧ closed = asU8 '}' then some .Brace
  else none

def groupDelimiters (groups : List (UInt8 × List TokenTree)) (current : List TokenTree) :
    List TokenTree → Outcome LexError (List TokenTree)
  | [] => if groups.isEmpty then .ok current else .err "Unclosed delimiter"
  | .Punct ch joint :: tokens =>
    if ch = asU8 '(' ∨ ch = asU8 '[' ∨ ch = asU8 '{' then
      groupDelimiters ((ch, current) :: groups) [] tokens
    else if ch = asU8 ')' ∨ ch = asU8 ']' ∨ ch = asU8 '}' then
      match groups with
      | [] => .err "Unexpected closing delimiter"
      | (opened, parent) :: groups =>
        match delimiterOf opened ch with
        | none => .err "Mismatched closing delimiter"
        | some delimiter => groupDelimiters groups (parent ++ [.Group delimiter current]) tokens
    else groupDelimiters groups (current ++ [.Punct ch joint]) tokens
  | token :: tokens => groupDelimiters groups (current ++ [token]) tokens

def fromStr (fuel : Nat) (src : List Char) : Outcome LexError (List TokenTree) := do
  let rv ← tokens U fuel (' ' :: src) []
  groupDelimiters [] [] rv

end Lexer

end Trustme.ProcMacro.Lex
