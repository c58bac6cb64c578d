/-
  Subject:   What there is to skip at the beginning of a text, on the text itself.

  * `commentEnd`, `afterTrivia`: white space and comments that are no doc comments;
  * `shebangLine`: `rustc_lexer::strip_shebang`, and `shebangUnread`, where a test for it can stop
    to read;
  * `frontmatterEnd`: a block between two lines of dashes, and `fenceTest`, the same with the
    place where a test for it can stop to read;
  * `visible`: the text without them, each character with its line.
-/
import Trustme.Lexing.Reader

namespace Trustme.Lexing

/-! ## 1. The shebang -/

/-- The text behind a block comment that is open to a depth; nothing, if it is not closed. -/
def commentEnd : Nat → List Codepoint → List Codepoint
  | depth, a :: b :: t =>
    if a = '/'.toNat ∧ b = '*'.toNat then commentEnd (depth + 1) t
    else if a = '*'.toNat ∧ b = '/'.toNat then (if depth = 1 then t else commentEnd (depth - 1) t)
    else commentEnd depth (b :: t)
  | _, _ => []

theorem commentEnd_length_le :
    ∀ (t : List Codepoint) (depth : Nat), (commentEnd depth t).length ≤ t.length
  | [], _ => by simp [commentEnd]
  | [_], _ => by simp [commentEnd]
  | a :: b :: t, depth => by
    have h₁ := commentEnd_length_le t (depth + 1)
    have h₂ := commentEnd_length_le t (depth - 1)
    have h₃ := commentEnd_length_le (b :: t) depth
    simp only [List.length_cons] at h₁ h₂ h₃ ⊢
    rw [commentEnd]
    split
    · omega
    · split
      · split <;> omega
      · omega

/-- `///` that is no `////`, and `//!`; what is given stands behind `//`. -/
def lineDoc : List Codepoint → Bool
  | [] => false
  | c :: t => c = '!'.toNat || (c = '/'.toNat && t.head? ≠ some '/'.toNat)

/-- `/**` that is no `/***` and no `/**/`, and `/*!`; what is given stands behind `/*`. -/
def blockDoc : List Codepoint → Bool
  | [] => false
  | c :: t =>
    c = '!'.toNat || (c = '*'.toNat && t.head? ≠ some '*'.toNat && t.head? ≠ some '/'.toNat)

def line (t : List Codepoint) : List Codepoint := t.takeWhile (· ≠ '\n'.toNat)

def lineEnd (t : List Codepoint) : List Codepoint := t.dropWhile (· ≠ '\n'.toNat)

theorem line_append_lineEnd (t : List Codepoint) : line t ++ lineEnd t = t :=
  List.takeWhile_append_dropWhile

theorem lineEnd_length_le (t : List Codepoint) : (lineEnd t).length ≤ t.length := by
  have := congrArg List.length (line_append_lineEnd t)
  simp only [List.length_append] at this
  omega

/-- The text from the first token on that is neither white space nor a comment other than a doc
    comment. -/
def afterTrivia : List Codepoint → List Codepoint
  | [] => []
  | [c] => if isspace c then [] else [c]
  | c :: d :: t =>
    if isspace c then afterTrivia (d :: t)
    else if c = '/'.toNat ∧ d = '/'.toNat ∧ ¬ lineDoc t then afterTrivia (lineEnd t)
    else if c = '/'.toNat ∧ d = '*'.toNat ∧ ¬ blockDoc t then afterTrivia (commentEnd 1 t)
    else c :: d :: t
termination_by t => t.length
decreasing_by
  · simp
  · have := lineEnd_length_le t
    simp only [List.length_cons]
    omega
  · have := commentEnd_length_le t 1
    simp only [List.length_cons]
    omega

/-- A text begins with `#!`, and what follows is no inner attribute. -/
def hasShebang : List Codepoint → Bool
  | a :: b :: t => a = '#'.toNat && b = '!'.toNat && (afterTrivia t).head? ≠ some '['.toNat
  | _ => false

/-- The shebang of a text without its newline. -/
def shebangLine (t : List Codepoint) : List Codepoint := if hasShebang t then line t else []

/-- What a test has not read that reads no more than it takes to know the first token, its doc
    comment or slash included; what is given begins with this token. -/
def unreadBehind : List Codepoint → List Codepoint
  | a :: b :: c :: t =>
    if a = '/'.toNat then
      if b = '/'.toNat ∨ b = '*'.toNat then (if c = '!'.toNat then t else t.tail) else c :: t
    else b :: c :: t
  | a :: b :: [] => if a = '/'.toNat then [] else [b]
  | _ => []

/-- Where a test for the shebang can stop to read. -/
def shebangUnread (t : List Codepoint) : List Codepoint := unreadBehind (afterTrivia (t.drop 2))

/-! ## 2. The frontmatter -/

def dashes (t : List Codepoint) : Nat := (t.takeWhile (· = '-'.toNat)).length

def nextLine (t : List Codepoint) : List Codepoint := (lineEnd t).tail

theorem nextLine_length_lt {t : List Codepoint} (h : t ≠ []) : (nextLine t).length < t.length := by
  have := lineEnd_length_le t
  have : 0 < t.length := List.length_pos_of_ne_nil h
  rw [nextLine, List.length_tail]
  omega

/-- Behind white space there are dashes for a fence of `n`. -/
def fenceLike (n : Nat) (l : List Codepoint) : Bool := n ≤ dashes (l.dropWhile isspace)

/-- A closing fence: as many dashes as the opening one at the beginning of the line, and nothing but
    white space behind them. -/
def closes (n : Nat) (l : List Codepoint) : Bool := dashes l = n && (l.drop n).all isspace

/-- What may stand behind the dashes of an opening fence: one label at most. -/
def labelled (l : List Codepoint) : Bool :=
  match l.dropWhile isspace with
  | [] => true
  | c :: l => (c = '_'.toNat || (c < 128 && issym.isalpha c) || 128 ≤ c) &&
      (l.dropWhile fun ch => issym ch || ch = '.'.toNat).all isspace

/-- The first line with the dashes of a fence of `n` is to be the closing fence: whether it is, and
    the text behind it. -/
def closed (n : Nat) (t : List Codepoint) : Bool × List Codepoint :=
  if t = [] then (false, [])
  else if fenceLike n (line t) then (closes n (line t), nextLine t)
  else closed n (nextLine t)
termination_by t.length
decreasing_by exact nextLine_length_lt (by assumption)

/-- The text behind the frontmatter that a text begins with. -/
def frontmatterEnd (t : List Codepoint) : Option (List Codepoint) :=
  if 3 ≤ dashes t ∧ labelled ((line t).drop (dashes t)) then
    match closed (dashes t) (nextLine t) with
    | (true, rest) => some rest
    | (false, _) => none
  else none

/-- Where a test for the frontmatter can stop to read, when there is none: behind a character that
    is in the way, behind a line that is no closing fence, or at the end. What is given begins with
    a dash. -/
def fenceUnread (t : List Codepoint) : List Codepoint :=
  if dashes t < 3 then
    (t.drop (dashes t)).tail
  else if labelled ((line t).drop (dashes t)) then
    (closed (dashes t) (nextLine t)).2
  else
    match (t.drop (dashes t)).dropWhile isspace with
    | [] => []
    | c :: u =>
      if c = '_'.toNat || (c < 128 && issym.isalpha c) || 128 ≤ c then
        ((u.dropWhile fun ch => issym ch || ch = '.'.toNat).dropWhile isspace).tail
      else u

/-! ## 3. What is left -/

/-- Every character with the line the reader is on behind it. -/
def numbered : Nat → List Codepoint → List (Codepoint × Nat)
  | _, [] => []
  | line, c :: t => (c, line + newlines c) :: numbered (line + newlines c) t

/-- A fence is to begin a line. -/
def beginsLine (lead : List Codepoint) : Bool := lead.getLast? = none || lead.getLast? =
    some '\n'.toNat

/-- The white space before the first token. -/
def lead (t : List Codepoint) : List Codepoint := t.takeWhile isspace

def afterLead (t : List Codepoint) : List Codepoint := t.dropWhile isspace

/-- What there is of a text to skip behind its leading white space. -/
def frontmatter (t : List Codepoint) : Nat :=
  if beginsLine (lead t) then
    match frontmatterEnd (afterLead t) with
    | some rest => (afterLead t).length - rest.length
    | none => 0
  else 0

/-- **The text without its shebang and without its frontmatter**, every character with its line in
    the whole text. -/
def visible (t : List Codepoint) : List (Codepoint × Nat) :=
  let rest := t.drop (shebangLine t).length
  let chars := (numbered 1 t).drop (shebangLine t).length
  chars.take (lead rest).length ++ chars.drop ((lead rest).length + frontmatter rest)

end Trustme.Lexing
