/-
  Subject:   `src/bin/rustc/parse_lex.cpp`: what the lexer skips at the beginning of a file, and how
             the token loop comes to its first token.

  * `read`, `restore`: the look-ahead of both scans, and its replay;
  * `checkInitialShebang`: `#!` is a shebang or the beginning of an inner attribute;
  * `trySkipInitialFrontmatter`: a block between fences of dashes;
  * `tokens`: the characters the token loop gets, with their lines.
-/
import Trustme.Lexing.Reader

namespace Trustme.Lexing

open Lexed

/-! ## 1. Look-ahead -/

/-- What both scans keep: the characters they have read, and that there are no more. -/
structure Scan where
  consumed : List Codepoint
  eof : Bool
deriving DecidableEq, Repr

def Scan.start : Scan := ⟨[], false⟩

/-- The `read` of both scans. -/
def read (sc : Scan) : Lexed (Codepoint × Scan) :=
  catchEnd (do
    let ch ← getc
    pure (ch, { sc with consumed := sc.consumed ++ [ch] }))
    (pure (0, { sc with eof := true }))

/-- The `restore` of both scans: what was read stands before the source again, from `start` on. -/
def restore (initialLine initialLineOfs : Nat) (sc : Scan) (start : Nat) : Lexed Unit :=
  change fun lx => { lx with line := initialLine, lineOfs := initialLineOfs, lastCharValid := false,
                             replayChars := sc.consumed, replayCharOffset := start }

/-- A bound of the characters that are left, which bounds every loop below. -/
def Lexer.unread (lx : Lexer) : Nat := lx.source.length + lx.replayChars.length + 2

/-! ## 2. The shebang -/

inductive Classification
  | innerAttribute
  | shebang
deriving DecidableEq, Repr

/-- The comment ends behind a newline that was read. -/
def lineComment : Nat → Scan → Lexed Scan
  | 0, sc => pure sc
  | fuel + 1, sc =>
    if ¬ sc.eof ∧ sc.consumed.getLast? ≠ some '\n'.toNat then do
      let (_, sc) ← read sc
      lineComment fuel sc
    else
      pure sc

/-- The next character of a block comment: one that the test for a doc comment has read, or a new
    one. -/
def commentChar (index : Nat) (sc : Scan) : Lexed (Codepoint × Nat × Scan) :=
  match sc.consumed[index]? with
  | some current => pure (current, index + 1, sc)
  | none => do
      let (current, sc) ← read sc
      pure (current, sc.consumed.length, sc)

/-- Block comments nest. -/
def blockComment : Nat → Nat → Codepoint → Nat → Scan → Lexed Scan
  | 0, _, _, _, sc => pure sc
  | fuel + 1, depth, previous, index, sc =>
    if 0 < depth ∧ ¬ sc.eof then do
      let (current, index, sc) ← commentChar index sc
      if sc.eof then
        pure sc
      else if previous = '/'.toNat ∧ current = '*'.toNat then
        blockComment fuel (depth + 1) 0 index sc
      else if previous = '*'.toNat ∧ current = '/'.toNat then
        blockComment fuel (depth - 1) 0 index sc
      else
        blockComment fuel depth current index sc
    else
      pure sc

/-- Whether a comment is a doc comment, by the one or two characters behind its opening. -/
def docComment (isLine : Bool) (sc : Scan) : Lexed (Bool × Scan) := do
  let (third, sc) ← read sc
  if sc.eof then
    pure (false, sc)
  else if third = '!'.toNat then
    pure (true, sc)
  else if isLine ∧ third = '/'.toNat then do
    let (fourth, sc) ← read sc
    pure (sc.eof || fourth ≠ '/'.toNat, sc)
  else if ¬ isLine ∧ third = '*'.toNat then do
    let (fourth, sc) ← read sc
    pure (sc.eof || (fourth ≠ '*'.toNat && fourth ≠ '/'.toNat), sc)
  else
    pure (false, sc)

/-- The loop that looks for the first token behind `#!`. -/
def classify : Nat → Scan → Lexed (Classification × Scan)
  | 0, sc => pure (.shebang, sc)
  | fuel + 1, sc =>
    if sc.eof then
      pure (.shebang, sc)
    else do
      let (ch, sc) ← read sc
      if sc.eof then
        pure (.shebang, sc)
      else if isspace ch then
        classify fuel sc
      else if ch = '['.toNat then
        pure (.innerAttribute, sc)
      else if ch ≠ '/'.toNat then
        pure (.shebang, sc)
      else do
        let commentStart := sc.consumed.length - 1
        let (ch, sc) ← read sc
        if sc.eof ∨ (ch ≠ '/'.toNat ∧ ch ≠ '*'.toNat) then
          pure (.shebang, sc)
        else do
          let (doc, sc) ← docComment (ch = '/'.toNat) sc
          if doc then
            pure (.shebang, sc)
          else if ch = '/'.toNat then do
            let sc ← lineComment fuel sc
            classify fuel sc
          else do
            let sc ← blockComment fuel 1 0 (commentStart + 2) sc
            classify fuel sc

def endsShebang (ch : Codepoint) : Bool := ch = '\n'.toNat || ch = '\r'.toNat

/-- The loop that reads on to the end of the line; what it returns is `replayStart`. -/
def shebangEnd : Nat → Scan → Lexed (Nat × Scan)
  | 0, sc => pure (sc.consumed.length, sc)
  | fuel + 1, sc =>
    if sc.eof then
      pure (sc.consumed.length, sc)
    else do
      let (ch, sc) ← read sc
      if ¬ sc.eof ∧ endsShebang ch then
        pure (sc.consumed.length - 1, sc)
      else
        shebangEnd fuel sc

/-- `Lexer::checkInitialShebang`. -/
def checkInitialShebang : Lexed Unit := do
  change fun lx => { lx with initialShebangChecked := true }
  let initialLine ← look (·.line)
  let initialLineOfs ← look (·.lineOfs)
  let fuel ← look Lexer.unread
  let first ← catchEnd (do let ch ← getc; pure (some ch)) (pure none)
  match first with
  | none => pure ()
  | some first =>
    if first ≠ '#'.toNat then
      ungetc
    else do
      let (second, sc) ← read ⟨[first], false⟩
      if second ≠ '!'.toNat ∨ sc.eof then
        restore initialLine initialLineOfs sc 0
      else do
        let (classification, sc) ← classify fuel sc
        match classification with
        | .innerAttribute => restore initialLine initialLineOfs sc 0
        | .shebang =>
          match sc.consumed.findIdx? endsShebang with
          | some replayStart => restore initialLine initialLineOfs sc replayStart
          | none => do
              let (replayStart, sc) ← shebangEnd fuel sc
              restore initialLine initialLineOfs sc replayStart

/-! ## 3. The frontmatter -/

/-- A run of dashes, with the character that ends it. -/
def dashRun : Nat → Nat → Codepoint → Scan → Lexed (Nat × Codepoint × Scan)
  | 0, length, ch, sc => pure (length, ch, sc)
  | fuel + 1, length, ch, sc =>
    if sc.eof then
      pure (length, ch, sc)
    else do
      let (ch, sc) ← read sc
      if ¬ sc.eof ∧ ch = '-'.toNat then
        dashRun fuel (length + 1) ch sc
      else
        pure (length, ch, sc)

/-- White space up to the end of the line. -/
def blanks : Nat → Codepoint → Scan → Lexed (Codepoint × Scan)
  | 0, ch, sc => pure (ch, sc)
  | fuel + 1, ch, sc =>
    if ¬ sc.eof ∧ ch ≠ '\n'.toNat ∧ isspace ch then do
      let (ch, sc) ← read sc
      blanks fuel ch sc
    else
      pure (ch, sc)

def labelStart (ch : Codepoint) : Bool :=
  ch = '_'.toNat || (ch < 128 && issym.isalpha ch) || 128 ≤ ch

def labelChar (ch : Codepoint) : Bool := issym ch || ch = '.'.toNat

/-- The label behind its first character. -/
def label : Nat → Scan → Lexed (Codepoint × Scan)
  | 0, sc => pure (0, sc)
  | fuel + 1, sc => do
      let (ch, sc) ← read sc
      if ¬ sc.eof ∧ labelChar ch then
        label fuel sc
      else
        pure (ch, sc)

/-- The opening line behind its dashes: whether the line is one. -/
def opening (fuel : Nat) (ch : Codepoint) (sc : Scan) : Lexed (Bool × Scan) := do
  let (ch, sc) ← blanks fuel ch sc
  if ¬ sc.eof ∧ ch ≠ '\n'.toNat then
    if ¬ labelStart ch then
      pure (false, sc)
    else do
      let (ch, sc) ← label fuel sc
      let (ch, sc) ← blanks fuel ch sc
      pure (sc.eof || ch = '\n'.toNat, sc)
  else
    pure (true, sc)

/-- The line of a closing fence behind its dashes: it is one if there is nothing but white space. -/
def closing : Nat → Bool → Codepoint → Scan → Lexed (Bool × Scan)
  | 0, validClosing, _, sc => pure (validClosing, sc)
  | fuel + 1, validClosing, ch, sc =>
    if ¬ sc.eof ∧ ch ≠ '\n'.toNat then do
      let (next, sc) ← read sc
      closing fuel (validClosing && isspace ch) next sc
    else
      pure (validClosing, sc)

/-- The lines between the fences, and the closing fence: whether there is one that is valid. -/
def body (openingLength : Nat) : Nat → Bool → Bool → Scan → Lexed (Bool × Scan)
  | 0, _, _, sc => pure (false, sc)
  | fuel + 1, linePrefixIsWhitespace, linePrefixHasWhitespace, sc =>
    if sc.eof then
      pure (false, sc)
    else do
      let (ch, sc) ← read sc
      if sc.eof then
        pure (false, sc)
      else if ch = '\n'.toNat then
        body openingLength fuel true false sc
      else if isspace ch then
        body openingLength fuel linePrefixIsWhitespace true sc
      else if ch ≠ '-'.toNat ∨ ¬ linePrefixIsWhitespace then
        body openingLength fuel false linePrefixHasWhitespace sc
      else do
        let (closingLength, ch, sc) ← dashRun fuel 1 ch sc
        if openingLength ≤ closingLength then
          closing fuel (closingLength = openingLength && !linePrefixHasWhitespace) ch sc
        else if ¬ sc.eof ∧ ch = '\n'.toNat then
          body openingLength fuel true false sc
        else
          body openingLength fuel false linePrefixHasWhitespace sc

/-- `initialFrontmatterAllowed = false`. -/
def forbidFrontmatter : Lexed Unit := change fun lx =>
    { lx with initialFrontmatterAllowed := false }

/-- `Lexer::trySkipInitialFrontmatter`. -/
def trySkipInitialFrontmatter : Lexed Bool := do
  if ¬ (← look (·.initialFrontmatterAllowed)) then
    pure false
  else do
    let initialLine ← look (·.line)
    let initialLineOfs ← look (·.lineOfs)
    let fuel ← look Lexer.unread
    let (ch, sc) ← read .start
    if sc.eof then do
      forbidFrontmatter
      pure false
    else if isspace ch then do
      change fun lx => { lx with initialFrontmatterPrecededByWhitespace := ch ≠ '\n'.toNat }
      ungetc
      pure false
    else if ch ≠ '-'.toNat ∨ (← look (·.initialFrontmatterPrecededByWhitespace)) then do
      forbidFrontmatter
      ungetc
      pure false
    else do
      let (openingLength, ch, sc) ← dashRun fuel 1 ch sc
      if openingLength < 3 then do
        forbidFrontmatter
        restore initialLine initialLineOfs sc 0
        pure false
      else do
        let (opened, sc) ← opening fuel ch sc
        if ¬ opened then do
          forbidFrontmatter
          restore initialLine initialLineOfs sc 0
          pure false
        else do
          let (closed, sc) ← body openingLength fuel true false sc
          if closed then do
            forbidFrontmatter
            pure true
          else do
            forbidFrontmatter
            restore initialLine initialLineOfs sc 0
            pure false

/-! ## 4. The token loop -/

/-- The rest of a token of white space, with the lines of its characters; the character behind it is
    put back, if there is one. -/
def whitespace : Nat → Lexer → List (Codepoint × Nat) × Lexer
  | 0, lx => ([], lx)
  | fuel + 1, lx =>
    match getc.run lx with
    | (.error _, lx) => ([], lx)
    | (.ok ch, lx) =>
      if isspace ch ∧ ch ≠ '\n'.toNat then
        let (chars, lx') := whitespace fuel lx
        ((ch, lx.line) :: chars, lx')
      else
        ([], (ungetc.run lx).2)

/-- All characters that are left. -/
def remaining : Nat → Lexer → List (Codepoint × Nat)
  | 0, _ => []
  | fuel + 1, lx =>
    match getc.run lx with
    | (.error _, _) => []
    | (.ok ch, lx) => (ch, lx.line) :: remaining fuel lx

/-- What `Lexer::getTokenInt` begins with. -/
def beforeToken : Lexed Bool := do
  if ¬ (← look (·.initialShebangChecked)) then do
    checkInitialShebang
    trySkipInitialFrontmatter
  else
    trySkipInitialFrontmatter

/-- `Lexer::getTokenInt`, called again and again: the characters that its tokens are made of, each
    with the line the lexer is on when it has read it. The first token that is no white space is
    left to the rest of the lexer, and with it all that follows. -/
def tokens : Nat → Lexer → List (Codepoint × Nat)
  | 0, _ => []
  | fuel + 1, lx =>
    match beforeToken.run lx with
    | (.error _, _) => []
    | (.ok true, lx) => tokens fuel lx
    | (.ok false, lx) =>
      match getc.run lx with
      | (.error _, _) => []
      | (.ok ch, lx) =>
        if ch = '\n'.toNat then
          (ch, lx.line) :: tokens fuel lx
        else if isspace ch then
          -- where the file ends in it, this token is lost and the next call meets the end again
          let (chars, lx') := whitespace fuel lx
          (ch, lx.line) :: chars ++ tokens fuel lx'
        else
          remaining fuel (ungetc.run lx).2

/-- What the token loop gets of a source, or that the constructor throws. -/
def seen (origin : Origin) (source : List UInt8) : Option (List (Codepoint × Nat)) :=
  match opened origin source with
  | (.ok (), lx) => some (tokens (lx.unread + 2) lx)
  | (.error _, _) => none

end Trustme.Lexing
