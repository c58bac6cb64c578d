/-
  Subject:   `src/bin/rustc/parse_lex.cpp`: the character reader of the lexer.

  * `Lexer`, `Lexed`: the state, and a step that may throw;
  * `getcByte`, `getcCp`: bytes with CR LF made one, and code points out of bytes;
  * `getc`, `ungetc`: the same with one character put back and a replay buffer;
  * `opened`: the two constructors;
  * `Before`: which characters and which line a lexer stands before: `getc_held`, `getc_coming`,
    `getc_end`, `ungetc_before`.
-/
import Mathlib.Data.List.Basic
import Mathlib.Data.List.Count
import Mathlib.Data.Nat.Bitwise

namespace Trustme.Lexing

/-! ## 1. State and steps -/

/-- `struct Codepoint`: a `u32`, of which a reader fills 21 bits. -/
abbrev Codepoint := Nat

/-- What is thrown: the end of the file, which some callers catch, and a compile error. -/
inductive Thrown
  | endOfFile
  | compileError (msg : String)
deriving DecidableEq, Repr

/-- `class Lexer`, what its reader and the two initial scans use. -/
structure Lexer where
  source : List UInt8
  sourcePos : Nat
  line : Nat
  lineOfs : Nat
  prevLine : Nat
  prevOfs : Nat
  lastCharValid : Bool
  lastChar : Codepoint
  initialShebangChecked : Bool
  initialFrontmatterAllowed : Bool
  initialFrontmatterPrecededByWhitespace : Bool
  replayChars : List Codepoint
  replayCharOffset : Nat
deriving DecidableEq, Repr

/-- A step of the lexer: what it returns or throws, and the state it leaves either way. -/
structure Lexed (α : Type) where
  run : Lexer → Except Thrown α × Lexer

namespace Lexed

variable {α β : Type}

instance : Monad Lexed where
  pure a := ⟨fun lx => (.ok a, lx)⟩
  bind m k := ⟨fun lx =>
    match m.run lx with
    | (.ok a, lx) => (k a).run lx
    | (.error e, lx) => (.error e, lx)⟩

def throw (e : Thrown) : Lexed α where
  run lx := (.error e, lx)

/-- `catch (const Lexer::EndOfFile&)`: what was done before the throw stays done. -/
def catchEnd (m : Lexed α) (k : Lexed α) : Lexed α where
  run lx :=
    match m.run lx with
    | (.error .endOfFile, lx) => k.run lx
    | r => r

/-- A look at the state. -/
def look (f : Lexer → α) : Lexed α where
  run lx := (.ok (f lx), lx)

/-- A change of the state. -/
def change (f : Lexer → Lexer) : Lexed Unit where
  run lx := (.ok (), f lx)

@[simp] theorem run_pure (a : α) (lx : Lexer) : (pure a : Lexed α).run lx = (.ok a, lx) := rfl

@[simp] theorem run_throw (e : Thrown) (lx : Lexer) :
    (throw e : Lexed α).run lx = (.error e, lx) := rfl

@[simp] theorem run_look (f : Lexer → α) (lx : Lexer) : (look f).run lx = (.ok (f lx), lx) := rfl

@[simp] theorem run_change (f : Lexer → Lexer) (lx : Lexer) :
    (change f).run lx = (.ok (), f lx) := rfl

theorem run_bind {m : Lexed α} {lx lx' : Lexer} {a : α} (h : m.run lx = (.ok a, lx'))
    (k : α → Lexed β) :
    (m >>= k).run lx = (k a).run lx' := by
  change (match m.run lx with | (.ok a, lx) => (k a).run lx | (.error e, lx) => (.error e, lx)) = _
  rw [h]

theorem run_bind_error {m : Lexed α} {lx lx' : Lexer} {e : Thrown} (h : m.run lx = (.error e, lx'))
    (k : α → Lexed β) : (m >>= k).run lx = (.error e, lx') := by
  change (match m.run lx with | (.ok a, lx) => (k a).run lx | (.error e, lx) => (.error e, lx)) = _
  rw [h]

@[simp] theorem run_look_bind (f : Lexer → α) (k : α → Lexed β) (lx : Lexer) :
    (look f >>= k).run lx = (k (f lx)).run lx := rfl

@[simp] theorem run_change_bind (f : Lexer → Lexer) (k : Unit → Lexed β) (lx : Lexer) :
    (change f >>= k).run lx = (k ()).run (f lx) := rfl

@[simp] theorem run_pure_bind (a : α) (k : α → Lexed β) (lx : Lexer) :
    ((pure a : Lexed α) >>= k).run lx = (k a).run lx := rfl

@[simp] theorem run_ite (c : Prop) [Decidable c] (m m' : Lexed α) (lx : Lexer) :
    (if c then m else m').run lx = if c then m.run lx else m'.run lx := by
  split <;> rfl

end Lexed

open Lexed

/-! ## 2. Bytes -/

/-- `Codepoint::isspace`. -/
def isspace (ch : Codepoint) : Bool :=
  ch ∈ ['\t'.toNat, '\r'.toNat, '\n'.toNat, ' '.toNat, 0xB, 0xC, 0x85, 0x200E, 0x200F,
    0x2028, 0x2029]

/-- `issym`: `std::isalpha` knows the ASCII letters only. -/
def issym (ch : Codepoint) : Bool :=
  ('0'.toNat ≤ ch && ch ≤ '9'.toNat) || isalpha ch || ch = '_'.toNat || (128 ≤ ch && !isspace ch)
where
  isalpha (ch : Codepoint) : Bool :=
    ('a'.toNat ≤ ch && ch ≤ 'z'.toNat) || ('A'.toNat ≤ ch && ch ≤ 'Z'.toNat)

/-- `Lexer::getcByte`. -/
def getcByte : Lexed UInt8 where
  run lx :=
    match lx.source[lx.sourcePos]? with
    | none => (.error .endOfFile, lx)
    | some rv =>
      let lx := { lx with sourcePos := lx.sourcePos + 1 }
      if rv = 0x0D ∧ lx.source[lx.sourcePos]? = some 0x0A then
        (.ok 0x0A, { lx with sourcePos := lx.sourcePos + 1, line := lx.line + 1, lineOfs := 0 })
      else if rv = 0x0A then
        (.ok rv, { lx with line := lx.line + 1, lineOfs := 0 })
      else
        (.ok rv, lx)

/-- `Lexer::ungetByte`. -/
def ungetByte : Lexed Unit := change fun lx => { lx with sourcePos := lx.sourcePos - 1 }

/-- `Lexer::getcCp`. -/
def getcCp : Lexed Codepoint := do
  let v1 ← getcByte
  if v1 < 128 then
    pure v1.toNat
  else if v1 &&& 0xC0 = 0x80 then
    pure 0xFFFE
  else if v1 &&& 0xE0 = 0xC0 then do
    let e1 ← getcByte
    if e1 &&& 0xC0 ≠ 0x80 then pure 0xFFFE else
    pure (((v1 &&& 0x1F).toNat <<< 6) ||| (e1 &&& 0x3F).toNat)
  else if v1 &&& 0xF0 = 0xE0 then do
    let e1 ← getcByte
    if e1 &&& 0xC0 ≠ 0x80 then pure 0xFFFE else do
    let e2 ← getcByte
    if e2 &&& 0xC0 ≠ 0x80 then pure 0xFFFE else
    pure (((v1 &&& 0x0F).toNat <<< 12) ||| ((e1 &&& 0x3F).toNat <<< 6) ||| (e2 &&& 0x3F).toNat)
  else if v1 &&& 0xF8 = 0xF0 then do
    let e1 ← getcByte
    if e1 &&& 0xC0 ≠ 0x80 then pure 0xFFFE else do
    let e2 ← getcByte
    if e2 &&& 0xC0 ≠ 0x80 then pure 0xFFFE else do
    let e3 ← getcByte
    if e3 &&& 0xC0 ≠ 0x80 then pure 0xFFFE else
    pure (((v1 &&& 0x07).toNat <<< 18) ||| ((e1 &&& 0x3F).toNat <<< 12) |||
      ((e2 &&& 0x3F).toNat <<< 6) |||
      (e3 &&& 0x3F).toNat)
  else
    throw (.compileError "Invalid UTF-8 (too long)")

/-! ## 3. Characters -/

/-- `Lexer::getc`: the character put back, else one of the replay buffer, else one of the source. -/
def getc : Lexed Codepoint where
  run lx :=
    if lx.lastCharValid then
      (.ok lx.lastChar, { lx with lastCharValid := false })
    else
      match lx.replayChars[lx.replayCharOffset]? with
      | some ch =>
        let lx := { lx with prevLine := lx.line, prevOfs := lx.lineOfs, lastChar := ch,
                            replayCharOffset := lx.replayCharOffset + 1 }
        (.ok ch, if ch = '\n'.toNat then { lx with line := lx.line + 1, lineOfs := 0 }
          else { lx with lineOfs := lx.lineOfs + 1 })
      | none =>
        let lx := { lx with replayChars := [], replayCharOffset := 0, prevLine := lx.line,
                            prevOfs := lx.lineOfs }
        match getcCp.run lx with
        | (.error e, lx) => (.error e, lx)
        | (.ok ch, lx) =>
          let lx := { lx with lastChar := ch }
          (.ok ch, if ch ≠ '\n'.toNat then { lx with lineOfs := lx.lineOfs + 1 } else lx)

/-- `Lexer::ungetc`; the assertion is that no character is put back twice. -/
def ungetc : Lexed Unit where
  run lx :=
    if lx.lastCharValid then (.error (.compileError "!lastCharValid"), lx)
    else (.ok (), { lx with lastCharValid := true })

/-- Where the bytes come from: a file of a name, or the stream of a string or of the standard
    input. -/
inductive Origin
  | file
  | stream
deriving DecidableEq, Repr

def fresh (source : List UInt8) : Lexer where
  source := source
  sourcePos := 0
  line := 1
  lineOfs := 0
  prevLine := 1
  prevOfs := 0
  lastCharValid := false
  lastChar := 0
  initialShebangChecked := false
  initialFrontmatterAllowed := true
  initialFrontmatterPrecededByWhitespace := false
  replayChars := []
  replayCharOffset := 0

/-- The constructor for a file takes a byte order mark off; what else begins with its first byte it
    does not take. -/
def skipMark : Lexed Unit := do
  if (← getcByte) = 0xEF then do
    if (← getcByte) ≠ 0xBB then
      throw (.compileError "Incomplete BOM - missing \\xBB in second position")
    else if (← getcByte) ≠ 0xBF then
      throw (.compileError "Incomplete BOM - missing \\xBF in third position")
    else
      change fun lx => { lx with lineOfs := 0 }
  else
    ungetByte

/-- `Lexer::Lexer`. -/
def opened (origin : Origin) (source : List UInt8) : Except Thrown Unit × Lexer :=
  match origin with
  | .stream => (.ok (), fresh source)
  | .file => if source.isEmpty then (.ok (), fresh source) else skipMark.run (fresh source)

/-! ## 4. The characters of a text -/

/-- The bytes of a text. -/
def encoded (text : List Char) : List UInt8 := text.flatMap String.utf8EncodeChar

/-- The characters of a text, CR LF being one of them. -/
def folded : List Char → List Codepoint
  | '\r' :: '\n' :: text => '\n'.toNat :: folded text
  | c :: text => c.toNat :: folded text
  | [] => []

/-- By how many lines a character moves on. -/
def newlines (ch : Codepoint) : Nat := if ch = '\n'.toNat then 1 else 0

/-- Behind the bytes that are read, a text of these characters follows. -/
def Coming (lx : Lexer) (s : List Codepoint) : Prop :=
  ∃ text, lx.source.drop lx.sourcePos = encoded text ∧ folded text = s

/-- The lexer moved on in its source. -/
def Lexer.moved (lx : Lexer) (pos line ofs : Nat) : Lexer :=
  { lx with sourcePos := pos, line := line, lineOfs := ofs }

private theorem drop_cons {l r : List UInt8} {b : UInt8} {n : Nat} (h : l.drop n = b :: r) :
    l[n]? = some b ∧ l.drop (n + 1) = r := by
  constructor
  · have := congrArg (·[0]?) h
    simpa using this
  · rw [← List.tail_drop, h, List.tail_cons]

theorem getcByte_other {lx : Lexer} {b : UInt8} {r : List UInt8}
    (h : lx.source.drop lx.sourcePos = b :: r) (hr : b ≠ 0x0D) (hn : b ≠ 0x0A) :
    getcByte.run lx = (.ok b, lx.moved (lx.sourcePos + 1) lx.line lx.lineOfs) := by
  simp [getcByte, (drop_cons h).1, hr, hn, Lexer.moved]

variable {lx : Lexer}

theorem getcByte_newline {r : List UInt8} (h : lx.source.drop lx.sourcePos = 0x0A :: r) :
    getcByte.run lx = (.ok 0x0A, lx.moved (lx.sourcePos + 1) (lx.line + 1) 0) := by
  simp [getcByte, (drop_cons h).1, Lexer.moved]

theorem getcByte_folded {lx : Lexer} {r : List UInt8}
    (h : lx.source.drop lx.sourcePos = 0x0D :: 0x0A :: r) :
    getcByte.run lx = (.ok 0x0A, lx.moved (lx.sourcePos + 2) (lx.line + 1) 0) := by
  have h' := drop_cons h
  simp [getcByte, h'.1, (drop_cons h'.2).1, Lexer.moved]

theorem getcByte_return {lx : Lexer} {r : List UInt8} (h : lx.source.drop lx.sourcePos = 0x0D :: r)
    (hr : r.head? ≠ some 0x0A) :
    getcByte.run lx = (.ok 0x0D, lx.moved (lx.sourcePos + 1) lx.line lx.lineOfs) := by
  have h' := drop_cons h
  have h'' : lx.source[lx.sourcePos + 1]? ≠ some 0x0A := by
    rw [← h'.2, List.head?_drop] at hr
    exact hr
  simp [getcByte, h'.1, h'', Lexer.moved]

theorem getcByte_end (h : lx.source.drop lx.sourcePos = []) :
    getcByte.run lx = (.error .endOfFile, lx) := by
  have : lx.source[lx.sourcePos]? = none := by simpa using h
  simp [getcByte, this]

/-- What a continuation byte of six bits is to the reader. -/
theorem continuation (x : Nat) (h : x < 64) :
    UInt8.ofNat (x + 0x80) &&& 0xC0 = 0x80 ∧ (UInt8.ofNat (x + 0x80) &&& 0x3F).toNat = x ∧
      UInt8.ofNat (x + 0x80) ≠ 0x0D ∧ UInt8.ofNat (x + 0x80) ≠ 0x0A := by
  decide +revert

theorem lead_two (x : Nat) (h : x < 32) :
    ¬ UInt8.ofNat (x + 0xC0) < 128 ∧ UInt8.ofNat (x + 0xC0) &&& 0xC0 ≠ 0x80 ∧
      UInt8.ofNat (x + 0xC0) &&& 0xE0 = 0xC0 ∧ (UInt8.ofNat (x + 0xC0) &&& 0x1F).toNat = x ∧
      UInt8.ofNat (x + 0xC0) ≠ 0x0D ∧ UInt8.ofNat (x + 0xC0) ≠ 0x0A := by
  decide +revert

theorem lead_three (x : Nat) (h : x < 16) :
    ¬ UInt8.ofNat (x + 0xE0) < 128 ∧ UInt8.ofNat (x + 0xE0) &&& 0xC0 ≠ 0x80 ∧
      UInt8.ofNat (x + 0xE0) &&& 0xE0 ≠ 0xC0 ∧ UInt8.ofNat (x + 0xE0) &&& 0xF0 = 0xE0 ∧
      (UInt8.ofNat (x + 0xE0) &&& 0x0F).toNat = x ∧
      UInt8.ofNat (x + 0xE0) ≠ 0x0D ∧ UInt8.ofNat (x + 0xE0) ≠ 0x0A := by
  decide +revert

theorem lead_four (x : Nat) (h : x < 8) :
    ¬ UInt8.ofNat (x + 0xF0) < 128 ∧ UInt8.ofNat (x + 0xF0) &&& 0xC0 ≠ 0x80 ∧
      UInt8.ofNat (x + 0xF0) &&& 0xE0 ≠ 0xC0 ∧ UInt8.ofNat (x + 0xF0) &&& 0xF0 ≠ 0xE0 ∧
      UInt8.ofNat (x + 0xF0) &&& 0xF8 = 0xF0 ∧ (UInt8.ofNat (x + 0xF0) &&& 0x07).toNat = x ∧
      UInt8.ofNat (x + 0xF0) ≠ 0x0D ∧ UInt8.ofNat (x + 0xF0) ≠ 0x0A := by
  decide +revert

/-- Six bits put below others. -/
theorem shifted_or (a x : Nat) (h : x < 64) : (a <<< 6) ||| x = a * 64 + x := by
  rw [← Nat.shiftLeft_add_eq_or_of_lt (i := 6) (by omega), Nat.shiftLeft_eq]

theorem shifted_twice (a x : Nat) (h : x < 64) :
    (a <<< 12) ||| (x <<< 6) = (a * 64 + x) <<< 6 := by
  rw [show a <<< 12 = (a <<< 6) <<< 6 from (Nat.shiftLeft_add a 6 6), ← Nat.shiftLeft_or_distrib,
    shifted_or a x h]

theorem shifted_thrice (a x : Nat) (h : x < 64) :
    (a <<< 18) ||| (x <<< 12) = (a * 64 + x) <<< 12 := by
  rw [show a <<< 18 = (a <<< 6) <<< 12 from (Nat.shiftLeft_add a 6 12), ← Nat.shiftLeft_or_distrib,
    shifted_or a x h]

@[simp] theorem moved_source (lx : Lexer) (p l o : Nat) : (lx.moved p l o).source = lx.source := rfl
@[simp] theorem moved_sourcePos (lx : Lexer) (p l o : Nat) : (lx.moved p l o).sourcePos = p := rfl
@[simp] theorem moved_line (lx : Lexer) (p l o : Nat) : (lx.moved p l o).line = l := rfl
@[simp] theorem moved_lineOfs (lx : Lexer) (p l o : Nat) : (lx.moved p l o).lineOfs = o := rfl
@[simp] theorem moved_moved (lx : Lexer) (p l o p' l' o' : Nat) :
    (lx.moved p l o).moved p' l' o' = lx.moved p' l' o' := rfl

/-- A character of several bytes is read as it was written. -/
theorem getcCp_wide {c : Char} {r : List UInt8} (hc : 0x80 ≤ c.toNat)
    (h : lx.source.drop lx.sourcePos = String.utf8EncodeChar c ++ r) :
    ∃ pos, getcCp.run lx = (.ok c.toNat, lx.moved pos lx.line lx.lineOfs) ∧
      lx.source.drop pos = r := by
  have hlt : c.toNat < 0x110000 := by
    have := c.valid
    simp only [UInt32.isValidChar, Nat.isValidChar] at this
    change c.val.toNat < _
    omega
  have h1 : ¬ c.toNat ≤ 0x7f := by omega
  rw [String.utf8EncodeChar] at h
  simp only [Char.toNat_val, h1, if_false] at h
  by_cases h2 : c.toNat ≤ 0x7ff
  · obtain ⟨l1, l2, l3, l4, l5, l6⟩ := lead_two (c.toNat / 64 % 0x20) (by omega)
    obtain ⟨e1, e2, e3, e4⟩ := continuation (c.toNat % 0x40) (by omega)
    simp only [h2, if_true, List.cons_append, List.nil_append] at h
    have hd := drop_cons h
    refine ⟨lx.sourcePos + 2, ?_, (drop_cons hd.2).2⟩
    rw [getcCp, run_bind (getcByte_other h l5 l6)]
    simp only [l1, l2, l3, if_true, if_false]
    rw [run_bind (@getcByte_other (lx.moved _ _ _) _ _ hd.2 e3 e4)]
    simp only [e1, e2, l4, ne_eq, not_true_eq_false, if_false, run_pure, moved_moved,
      moved_sourcePos, moved_line, moved_lineOfs]
    rw [shifted_or _ _ (by omega)]
    congr 2
    change @Eq Nat _ _
    omega
  by_cases h3 : c.toNat ≤ 0xffff
  · obtain ⟨l1, l2, l3, l4, l5, l6, l7⟩ := lead_three (c.toNat / 4096 % 0x10) (by omega)
    obtain ⟨e1, e2, e3, e4⟩ := continuation (c.toNat / 64 % 0x40) (by omega)
    obtain ⟨f1, f2, f3, f4⟩ := continuation (c.toNat % 0x40) (by omega)
    simp only [h2, h3, if_true, if_false, List.cons_append, List.nil_append] at h
    have hd := drop_cons h
    have hd' := drop_cons hd.2
    refine ⟨lx.sourcePos + 3, ?_, (drop_cons hd'.2).2⟩
    rw [getcCp, run_bind (getcByte_other h l6 l7)]
    simp only [l1, l2, l3, l4, if_true, if_false]
    rw [run_bind (@getcByte_other (lx.moved _ _ _) _ _ hd.2 e3 e4)]
    simp only [e1, ne_eq, not_true_eq_false, if_false, moved_moved, moved_sourcePos, moved_line,
      moved_lineOfs]
    rw [run_bind (@getcByte_other (lx.moved _ _ _) _ _ hd'.2 f3 f4)]
    simp only [f1, f2, e2, l5, not_true_eq_false, if_false, run_pure, moved_moved,
      moved_sourcePos, moved_line, moved_lineOfs]
    rw [shifted_twice _ _ (by omega), shifted_or _ _ (by omega)]
    congr 2
    change @Eq Nat _ _
    omega
  · obtain ⟨l1, l2, l3, l4, l5, l6, l7, l8⟩ := lead_four (c.toNat / 262144 % 0x08) (by omega)
    obtain ⟨e1, e2, e3, e4⟩ := continuation (c.toNat / 4096 % 0x40) (by omega)
    obtain ⟨f1, f2, f3, f4⟩ := continuation (c.toNat / 64 % 0x40) (by omega)
    obtain ⟨g1, g2, g3, g4⟩ := continuation (c.toNat % 0x40) (by omega)
    simp only [h2, h3, if_false, List.cons_append, List.nil_append] at h
    have hd := drop_cons h
    have hd' := drop_cons hd.2
    have hd'' := drop_cons hd'.2
    refine ⟨lx.sourcePos + 4, ?_, (drop_cons hd''.2).2⟩
    rw [getcCp, run_bind (getcByte_other h l7 l8)]
    simp only [l1, l2, l3, l4, l5, if_true, if_false]
    rw [run_bind (@getcByte_other (lx.moved _ _ _) _ _ hd.2 e3 e4)]
    simp only [e1, ne_eq, not_true_eq_false, if_false, moved_moved, moved_sourcePos, moved_line,
      moved_lineOfs]
    rw [run_bind (@getcByte_other (lx.moved _ _ _) _ _ hd'.2 f3 f4)]
    simp only [f1, not_true_eq_false, if_false, moved_moved, moved_sourcePos, moved_line,
      moved_lineOfs]
    rw [run_bind (@getcByte_other (lx.moved _ _ _) _ _ hd''.2 g3 g4)]
    simp only [g1, g2, f2, e2, l6, not_true_eq_false, if_false, run_pure,
      moved_moved, moved_sourcePos, moved_line, moved_lineOfs]
    rw [shifted_thrice _ _ (by omega), shifted_twice _ _ (by omega), shifted_or _ _ (by omega)]
    congr 2
    change @Eq Nat _ _
    omega

/-- So is a character of one byte, be it the CR of no CR LF. -/
theorem getcCp_narrow {c : Char} {r : List UInt8} (hc : c.toNat < 0x80) (hn : c ≠ '\n')
    (h : lx.source.drop lx.sourcePos = String.utf8EncodeChar c ++ r)
    (hr : c = '\r' → r.head? ≠ some 0x0A) :
    getcCp.run lx = (.ok c.toNat, lx.moved (lx.sourcePos + 1) lx.line lx.lineOfs) ∧
      lx.source.drop (lx.sourcePos + 1) = r := by
  have hb : (UInt8.ofNat c.toNat).toNat = c.toNat := by
    simp only [UInt8.toNat_ofNat']
    omega
  have hlt : UInt8.ofNat c.toNat < 128 := by
    rw [UInt8.lt_iff_toNat_lt, hb]
    exact hc
  have hne (d : Char) (hd : d.toNat < 0x80) (he : c ≠ d) :
    UInt8.ofNat c.toNat ≠ UInt8.ofNat d.toNat := by
    intro e
    have e' := congrArg UInt8.toNat e
    rw [hb, UInt8.toNat_ofNat', Nat.mod_eq_of_lt (by omega)] at e'
    exact he (Char.toNat_inj.1 e')
  have h1 : c.toNat ≤ 0x7f := by omega
  rw [String.utf8EncodeChar] at h
  simp only [Char.toNat_val, h1, if_true, List.cons_append, List.nil_append] at h
  refine ⟨?_, (drop_cons h).2⟩
  have hbyte : getcByte.run lx = (.ok (UInt8.ofNat c.toNat),
    lx.moved (lx.sourcePos + 1) lx.line lx.lineOfs) := by
    by_cases hcr : c = '\r'
    · subst hcr
      exact getcByte_return h (hr rfl)
    · exact getcByte_other h (hne '\r' (by decide) hcr) (hne '\n' (by decide) hn)
  rw [getcCp, run_bind hbyte]
  simp only [hlt, if_true, run_pure, hb]

theorem getcCp_newline {pos line ofs : Nat}
    (h : getcByte.run lx = (.ok 0x0A, lx.moved pos line ofs)) :
    getcCp.run lx = (.ok '\n'.toNat, lx.moved pos line ofs) := by
  rw [getcCp, run_bind h]
  rfl

/-- The first byte of a character is the LF only of an LF. -/
private theorem head_encoded {text : List Char} (h : text.head? ≠ some '\n') :
    (encoded text).head? ≠ some 0x0A := by
  cases text with
  | nil => simp [encoded]
  | cons c text =>
    intro e
    apply h
    simp only [encoded, List.flatMap_cons, String.utf8EncodeChar, Char.toNat_val] at e
    split at e
    · simp only [List.cons_append, List.nil_append, List.head?_cons, Option.some.injEq] at e
      have e' := congrArg UInt8.toNat e
      rw [UInt8.toNat_ofNat', Nat.mod_eq_of_lt (by omega)] at e'
      simp [Char.toNat_inj.1 (show c.toNat = '\n'.toNat from e')]
    · split at e
      · exact absurd (by simpa using e) (lead_two _ (Nat.mod_lt _ (by decide))).2.2.2.2.2
      · split at e
        · exact absurd (by simpa using e) (lead_three _ (Nat.mod_lt _ (by decide))).2.2.2.2.2.2
        · exact absurd (by simpa using e) (lead_four _ (Nat.mod_lt _ (by decide))).2.2.2.2.2.2.2

theorem folded_cons {d : Char} {text : List Char} (h : d = '\r' → text.head? ≠ some '\n') :
    folded (d :: text) = d.toNat :: folded text := by
  rw [folded.eq_def]
  split
  · rename_i heq
    simp only [List.cons.injEq] at heq
    simp [heq.2] at h
    exact absurd heq.1 h
  · rename_i heq
    simp only [List.cons.injEq] at heq
    rw [heq.1, heq.2]
  · simp at *

/-- **The next character of the source is the next of the folded text**, and a line ends with LF. -/
theorem getcCp_coming {lx : Lexer} {c : Codepoint} {s : List Codepoint} (h : Coming lx (c :: s)) :
    ∃ pos ofs, getcCp.run lx = (.ok c, lx.moved pos (lx.line + newlines c) ofs) ∧
      Coming (lx.moved pos (lx.line + newlines c) ofs) s := by
  obtain ⟨text, hd, hf⟩ := h
  rcases text with _ | ⟨d, text⟩
  · simp [folded] at hf
  by_cases hcr : d = '\r' ∧ text.head? = some '\n'
  · -- CR LF
    obtain ⟨rfl, hlf⟩ := hcr
    rcases text with _ | ⟨d', text⟩
    · simp at hlf
    obtain rfl : d' = '\n' := by simpa using hlf
    simp only [folded, List.cons.injEq] at hf
    obtain ⟨rfl, rfl⟩ := hf
    have hd' : lx.source.drop lx.sourcePos = 0x0D :: 0x0A :: encoded text := hd
    exact ⟨_, _, getcCp_newline (getcByte_folded hd'), text, (drop_cons (drop_cons hd').2).2, rfl⟩
  have hcr' : d = '\r' → text.head? ≠ some '\n' := fun e e' => hcr ⟨e, e'⟩
  rw [folded_cons hcr'] at hf
  simp only [List.cons.injEq] at hf
  obtain ⟨rfl, rfl⟩ := hf
  by_cases hn : d = '\n'
  · subst hn
    have hd' : lx.source.drop lx.sourcePos = 0x0A :: encoded text := hd
    exact ⟨_, _, getcCp_newline (getcByte_newline hd'), text, (drop_cons hd').2, rfl⟩
  have hl : newlines d.toNat = 0 := by
    simp only [newlines, ite_eq_right_iff, one_ne_zero, imp_false]
    exact fun e => hn (Char.toNat_inj.1 e)
  have hd' : lx.source.drop lx.sourcePos = String.utf8EncodeChar d ++ encoded text := hd
  rw [hl]
  by_cases hw : d.toNat < 0x80
  · obtain ⟨hrun, hrest⟩ := getcCp_narrow hw hn hd' fun e => head_encoded (hcr' e)
    exact ⟨_, _, hrun, text, hrest, rfl⟩
  · obtain ⟨pos, hrun, hrest⟩ := getcCp_wide (by omega) hd'
    exact ⟨_, _, hrun, text, hrest, rfl⟩

theorem encoded_nil_of_folded {text : List Char} (h : folded text = []) : text = [] := by
  rw [folded.eq_def] at h
  split at h <;> simp_all

theorem getcCp_end {lx : Lexer} (h : Coming lx []) : getcCp.run lx = (.error .endOfFile, lx) := by
  obtain ⟨text, hd, hf⟩ := h
  rw [encoded_nil_of_folded hf] at hd
  rw [getcCp, run_bind_error (getcByte_end hd)]

/-! ## 5. Where a lexer stands -/

/-- What the lexer has read from its source and not handed out: the character put back and the rest
    of the replay buffer. -/
def Lexer.held (lx : Lexer) : List Codepoint :=
  (if lx.lastCharValid then [lx.lastChar] else []) ++ lx.replayChars.drop lx.replayCharOffset

/-- The lexer stands on a line before the characters `p`, which it holds, and `s`, which it has to
    read. A newline that was put back has been counted. -/
structure Before (lx : Lexer) (line : Nat) (p s : List Codepoint) : Prop where
  held : lx.held = p
  coming : Coming lx s
  line : lx.line = line + if lx.lastCharValid then newlines lx.lastChar else 0

/-- What the initial scans leave alone when they read. -/
structure SameFlags (lx lx' : Lexer) : Prop where
  shebang : lx'.initialShebangChecked = lx.initialShebangChecked
  allowed : lx'.initialFrontmatterAllowed = lx.initialFrontmatterAllowed
  preceded : lx'.initialFrontmatterPrecededByWhitespace = lx.initialFrontmatterPrecededByWhitespace

theorem SameFlags.refl (lx : Lexer) : SameFlags lx lx := ⟨rfl, rfl, rfl⟩

theorem SameFlags.trans {lx lx' lx'' : Lexer} (h : SameFlags lx lx') (h' : SameFlags lx' lx'') :
    SameFlags lx lx'' :=
  ⟨h'.1.trans h.1, h'.2.trans h.2, h'.3.trans h.3⟩

/-- A character was read: it can be put back. -/
structure Took (lx lx' : Lexer) (line : Nat) (c : Codepoint) (p s : List Codepoint) : Prop where
  run : getc.run lx = (.ok c, lx')
  before : Before lx' (line + newlines c) p s
  same : SameFlags lx lx'
  lastChar : lx'.lastChar = c
  free : lx'.lastCharValid = false

theorem getc_held {line : Nat} {c : Codepoint} {p s : List Codepoint}
    (h : Before lx line (c :: p) s) : ∃ lx', Took lx lx' line c p s := by
  obtain ⟨hheld, hcoming, hline⟩ := h
  unfold Lexer.held at hheld
  by_cases hv : lx.lastCharValid = true
  · simp only [hv, if_true, List.cons_append, List.nil_append, List.cons.injEq] at hheld hline
    obtain ⟨rfl, hp⟩ := hheld
    refine ⟨{ lx with lastCharValid := false }, ?_, ⟨?_, hcoming, ?_⟩, ⟨rfl, rfl, rfl⟩, rfl, rfl⟩
    · simp [getc, hv]
    · simpa [Lexer.held] using hp
    · simpa using hline
  · simp only [hv, if_false, List.nil_append, Bool.false_eq_true, Nat.add_zero] at hheld hline
    have hc : lx.replayChars[lx.replayCharOffset]? = some c := by
      have := congrArg (·[0]?) hheld
      simpa using this
    have hp : lx.replayChars.drop (lx.replayCharOffset + 1) = p := by
      rw [← List.tail_drop, hheld, List.tail_cons]
    by_cases hn : c = '\n'.toNat
    · refine ⟨{ lx with prevLine := lx.line, prevOfs := lx.lineOfs, lastChar := c,
                        replayCharOffset := lx.replayCharOffset + 1, line := lx.line + 1,
                          lineOfs := 0 },
        ?_, ⟨?_, hcoming, ?_⟩, ⟨rfl, rfl, rfl⟩, rfl, by simpa using hv⟩
      · simp [getc, hv, hc, hn]
      · simpa [Lexer.held, hv] using hp
      · simp [hv, newlines, hn, hline]
    · refine ⟨{ lx with prevLine := lx.line, prevOfs := lx.lineOfs, lastChar := c,
                        replayCharOffset := lx.replayCharOffset + 1, lineOfs := lx.lineOfs + 1 },
        ?_, ⟨?_, hcoming, ?_⟩, ⟨rfl, rfl, rfl⟩, rfl, by simpa using hv⟩
      · simp only [getc, hv, hc, hn, if_false, Bool.false_eq_true]
      · simpa [Lexer.held, hv] using hp
      · simp only [newlines, hn, hv, if_false, Bool.false_eq_true, Nat.add_zero, hline]

theorem getc_coming {line : Nat} {c : Codepoint} {s : List Codepoint}
    (h : Before lx line [] (c :: s)) : ∃ lx', Took lx lx' line c [] s := by
  obtain ⟨hheld, hcoming, hline⟩ := h
  unfold Lexer.held at hheld
  have hv : lx.lastCharValid = false := by
    by_contra hv
    simp [hv] at hheld
  simp only [hv, if_false, List.nil_append, Bool.false_eq_true, Nat.add_zero] at hheld hline
  have hc : lx.replayChars[lx.replayCharOffset]? = none := by simpa using hheld
  let lx₁ : Lexer := { lx with replayChars := [], replayCharOffset := 0, prevLine := lx.line,
                               prevOfs := lx.lineOfs }
  obtain ⟨pos, ofs, hrun, hrest⟩ := @getcCp_coming lx₁ _ _ hcoming
  let lx₂ : Lexer := { lx₁.moved pos (lx₁.line + newlines c) ofs with lastChar := c }
  have hget :
    getc.run lx =
    (.ok c, if c ≠ '\n'.toNat then { lx₂ with lineOfs := lx₂.lineOfs + 1 } else lx₂) := by
    rw [getc]
    dsimp only
    rw [if_neg (by simp [hv]), hc]
    dsimp only
    rw [show getcCp.run _ = _ from hrun]
  refine ⟨_, hget, ⟨?_, ?_, ?_⟩, ⟨?_, ?_, ?_⟩, ?_, ?_⟩
  · split <;> simp [Lexer.held, lx₂, lx₁, Lexer.moved, hv]
  · split <;> exact hrest
  · split <;> simp [lx₂, lx₁, Lexer.moved, hv, hline]
  · split <;> rfl
  · split <;> rfl
  · split <;> rfl
  · split <;> rfl
  · split <;> exact hv

theorem getc_end {line : Nat} (h : Before lx line [] []) :
    ∃ lx', getc.run lx = (.error .endOfFile, lx') ∧ Before lx' line [] [] ∧ SameFlags lx lx' ∧
      lx'.lastCharValid = false := by
  obtain ⟨hheld, hcoming, hline⟩ := h
  unfold Lexer.held at hheld
  have hv : lx.lastCharValid = false := by
    by_contra hv
    simp [hv] at hheld
  simp only [hv, if_false, List.nil_append, Bool.false_eq_true, Nat.add_zero] at hheld hline
  have hc : lx.replayChars[lx.replayCharOffset]? = none := by simpa using hheld
  let lx₁ : Lexer := { lx with replayChars := [], replayCharOffset := 0, prevLine := lx.line,
                               prevOfs := lx.lineOfs }
  refine ⟨lx₁, ?_, ⟨by simp [Lexer.held, lx₁, hv], hcoming, by simp [lx₁, hv, hline]⟩,
    ⟨rfl, rfl, rfl⟩, hv⟩
  rw [getc]
  dsimp only
  rw [if_neg (by simp [hv]), hc]
  dsimp only
  rw [show getcCp.run _ = _ from @getcCp_end lx₁ hcoming]

/-- The character that was read last is put back. -/
theorem ungetc_before {lx : Lexer} {line : Nat} {c : Codepoint} {p s : List Codepoint}
    (h : Before lx (line + newlines c) p s) (hc : lx.lastChar = c) (hv : lx.lastCharValid = false) :
    ungetc.run lx = (.ok (), { lx with lastCharValid := true }) ∧
      Before { lx with lastCharValid := true } line (c :: p) s := by
  have hheld := h.held
  have hline := h.line
  simp only [Lexer.held, hv, Bool.false_eq_true, if_false, List.nil_append,
    Nat.add_zero] at hheld hline
  refine ⟨by simp [ungetc, hv], ?_, h.coming, ?_⟩
  · simp [Lexer.held, hc, hheld]
  · simp [hc, hline]

end Trustme.Lexing
