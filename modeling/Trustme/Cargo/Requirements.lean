/-
  Subject:   The texts that semver reads as requirements, and what `parseVersionSpec` makes of them.

  * `Written`, `Comparator`, `Requirement`: what is written, with the blanks between;
  * `parseBound_comparator`: the bound of a comparator;
  * `parseVersionSpec_text`: the bounds of a requirement.
-/
import Mathlib.Data.List.TakeWhile
import Trustme.Cargo.Blanks
import Trustme.Cargo.VersionSpec

namespace Trustme.Cargo

open Trustme.Lib

/-! ## 1. Requirements -/

/-- What is written of a version: its numbers as digits, wildcards for those that are left out. -/
inductive Written where
  | short (major : Str) (minor : Option Str) (wilds : List Str)
  | full (major minor patch : Str) (pre build : Option Str)

def optional (mark : Byte) (text : Option Str) : Str := text.elim [] fun s => mark :: s

def Written.text : Written → Str
  | .short major minor wilds => join 46 (major :: (minor.toList ++ wilds))
  | .full major minor patch pre build =>
    join 46 [major, minor, patch] ++ optional 45 pre ++ optional 43 build

/-- A letter, a digit or a hyphen. -/
def isIdentifierByte (b : Byte) : Bool :=
  isDigit b || (65 ≤ b && b ≤ 90) || (97 ≤ b && b ≤ 122) || b == 45

def IsIdentifier (x : Str) : Prop := x ≠ [] ∧ x.all isIdentifierByte = true

/-- A number does not begin with a zero, unless it is zero. -/
def Canonical (x : Str) : Prop := isNumeric x = true → x.head? = some 48 → x = [48]

def PreText (s : Str) : Prop := ∀ x ∈ identifiers s, IsIdentifier x ∧ Canonical x

def BuildText (s : Str) : Prop := ∀ x ∈ identifiers s, IsIdentifier x

/-- It can be read by semver, but for numbers that begin with zeros or are too large. -/
def Written.WellFormed : Written → Prop
  | .short major minor wilds =>
    isNumeric major = true ∧ (∀ m ∈ minor, isNumeric m = true) ∧
      (∀ w ∈ wilds, isWildcard w = true) ∧
      minor.toList.length + wilds.length ≤ 2
  | .full major minor patch pre build =>
    isNumeric major = true ∧ isNumeric minor = true ∧ isNumeric patch = true ∧
      (∀ s ∈ pre, PreText s) ∧ ∀ s ∈ build, BuildText s

def opText : BoundOp → Str
  | .exact => ascii "="
  | .greater => ascii ">"
  | .greaterEq => ascii ">="
  | .less => ascii "<"
  | .lessEq => ascii "<="
  | .tilde => ascii "~"
  | .caret => ascii "^"
  | .wildcard => []

/-- An operator may be there, with blanks behind it. -/
structure Comparator where
  op : Option (BoundOp × Nat)
  written : Written

def Comparator.text (c : Comparator) : Str :=
  c.op.elim [] (fun op => opText op.1 ++ blanks op.2) ++ c.written.text

def Comparator.WellFormed (c : Comparator) : Prop :=
  (∀ op ∈ c.op, op.1 ≠ .wildcard) ∧ c.written.WellFormed

/-- One wildcard, or comparators with commas between them. -/
inductive Requirement where
  | star (before : Nat) (wild : Str) (after : Nat)
  | comparators (before : Nat) (c : Comparator) (more : List (Nat × Nat × Comparator)) (after : Nat)

/-- The comparators behind the first, each behind a comma. -/
def moreText : List (Nat × Nat × Comparator) → Str
  | [] => []
  | (a, b, c) :: more => blanks a ++ 44 :: (blanks b ++ c.text ++ moreText more)

def Requirement.text : Requirement → Str
  | .star before wild after => blanks before ++ wild ++ blanks after
  | .comparators before c more after => blanks before ++ (c.text ++ moreText more) ++ blanks after

def Requirement.list : Requirement → List Comparator
  | .star _ _ _ => []
  | .comparators _ c more _ => c :: more.map fun m => m.2.2

def Requirement.WellFormed : Requirement → Prop
  | .star _ wild _ => isWildcard wild = true
  | .comparators _ c more _ => c.WellFormed ∧ ∀ m ∈ more, m.2.2.WellFormed

/-! ## 2. What is written -/

def isWrittenByte (b : Byte) : Bool := isIdentifierByte b || b == 43 || b == 46 || b == 42

theorem written_byte : ∀ b : Byte, isWrittenByte b = true →
    isPlain b = true ∧ b ≠ 44 := by
  grind [isWrittenByte, isIdentifierByte, isDigit, isPlain]

theorem digit_free : ∀ b : Byte, isDigit b = true →
    isIdentifierByte b = true ∧ b ≠ 43 ∧ b ≠ 45 ∧ b ≠ 46 := by
  grind [isIdentifierByte, isDigit]

theorem ident_byte :
    ∀ b : Byte, isIdentifierByte b = true → isWrittenByte b = true ∧ b ≠ 43 ∧ b ≠ 46 := by
  grind [isWrittenByte, isIdentifierByte, isDigit]

variable {x s major : Str}

theorem numeric_bytes (hx : isNumeric x = true) : x ≠ [] ∧ ∀ b ∈ x, isDigit b = true := by
  rw [isNumeric, Bool.and_eq_true_iff, decide_eq_true_iff, List.all_eq_true] at hx
  exact hx

theorem wildcard_cases {w : Str} (hw : isWildcard w = true) : w = [42] ∨ w = [120] ∨ w = [88] := by
  simpa [isWildcard, ascii, or_assoc] using hw

/-- A numeral is no wildcard, whatever follows it. -/
theorem numeric_not_wildcard (hx : isNumeric x = true) (t : Str) : isWildcard (x ++ t) = false := by
  obtain ⟨hne, hdigits⟩ := numeric_bytes hx
  obtain ⟨b, x, rfl⟩ := List.exists_cons_of_ne_nil hne
  have hb := hdigits b List.mem_cons_self
  rw [Bool.eq_false_iff]
  intro hwild
  rcases wildcard_cases hwild with h | h | h
  all_goals
    rw [List.cons_append, List.cons.injEq] at h
    rw [h.1] at hb
    exact absurd hb (by decide)

theorem identifiers_bytes (hs : ∀ x ∈ identifiers s, IsIdentifier x) :
    ∀ b ∈ s, isIdentifierByte b = true ∨ b = 46 := by
  have hjoin : join 46 (identifiers s) = s := join_split s
  intro b hb
  rw [← hjoin] at hb
  rcases mem_join hb with hb | ⟨x, hx, hb⟩
  · exact .inr hb
  · exact .inl (List.all_eq_true.mp (hs x hx).2 b hb)

theorem mem_optional {mark b : Byte} {text : Option Str} (hb : b ∈ optional mark text) :
    b = mark ∨ ∃ s ∈ text, b ∈ s := by
  cases text with
  | none => exact absurd hb List.not_mem_nil
  | some s =>
    rcases List.mem_cons.mp hb with hb | hb
    · exact .inl hb
    · exact .inr ⟨s, rfl, hb⟩

variable {pre build : Option Str}

theorem plus_not_mem_optional (hpre : ∀ s ∈ pre, 43 ∉ s) : 43 ∉ optional 45 pre := by
  intro hb
  rcases mem_optional hb with hb | ⟨s, hs, hb⟩
  · cases hb
  · exact hpre s hs hb

/-- The numbers. -/
def Written.numbers : Written → List Str
  | .short major minor _ => major :: minor.toList
  | .full major minor patch _ _ => [major, minor, patch]

theorem Written.WellFormed.numeric {w : Written} (h : w.WellFormed) :
    ∀ x ∈ w.numbers, isNumeric x = true := by
  intro x hx
  cases w with
  | short major minor wilds =>
    rcases List.mem_cons.mp hx with rfl | hx
    · exact h.1
    · exact h.2.1 x (Option.mem_toList.mp hx)
  | full major minor patch pre build =>
    obtain ⟨h₁, h₂, h₃, -, -⟩ := h
    simp only [Written.numbers, List.mem_cons, List.not_mem_nil, or_false] at hx
    rcases hx with rfl | rfl | rfl
    · exact h₁
    · exact h₂
    · exact h₃

theorem numeric_written (hx : isNumeric x = true) {b : Byte}
    (hb : b ∈ x) : isWrittenByte b = true :=
  (ident_byte b (digit_free b ((numeric_bytes hx).2 b hb)).1).1

theorem identifiers_written (hs : ∀ x ∈ identifiers s, IsIdentifier x) {b : Byte} (hb : b ∈ s) :
    isWrittenByte b = true := by
  rcases identifiers_bytes hs b hb with hb | rfl
  · exact (ident_byte b hb).1
  · rfl

theorem Written.WellFormed.bytes {w : Written} (h : w.WellFormed) :
    ∀ b ∈ w.text, isWrittenByte b = true := by
  have hjoin : ∀ l : List Str, (∀ x ∈ l, isNumeric x = true ∨ isWildcard x = true) →
      ∀ b ∈ join 46 l, isWrittenByte b = true := by
    intro l hl b hb
    rcases mem_join hb with rfl | ⟨x, hx, hb⟩
    · rfl
    · rcases hl x hx with hnum | hwild
      · exact numeric_written hnum hb
      · rcases wildcard_cases hwild with rfl | rfl | rfl
        all_goals
          rw [List.mem_singleton.mp hb]
          rfl
  have hnum := h.numeric
  intro b hb
  cases w with
  | short major minor wilds =>
    refine hjoin (major :: (minor.toList ++ wilds)) (fun x hx => ?_) b hb
    rw [← List.cons_append, List.mem_append] at hx
    exact hx.imp (hnum x) (h.2.2.1 x)
  | full major minor patch pre build =>
    obtain ⟨-, -, -, hpre, hbuild⟩ := h
    rw [Written.text, List.mem_append, List.mem_append] at hb
    rcases hb with (hb | hb) | hb
    · exact hjoin _ (fun x hx => .inl (hnum x hx)) b hb
    · rcases mem_optional hb with rfl | ⟨s, hs, hb⟩
      · rfl
      · exact identifiers_written (fun x hx => (hpre s hs x hx).1) hb
    · rcases mem_optional hb with rfl | ⟨s, hs, hb⟩
      · rfl
      · exact identifiers_written (hbuild s hs) hb

theorem numeric_first (hx : isNumeric x = true) (t : Str) :
    ∃ d s, x ++ t = d :: s ∧ isDigit d = true := by
  obtain ⟨hne, hdigits⟩ := numeric_bytes hx
  obtain ⟨d, x, rfl⟩ := List.exists_cons_of_ne_nil hne
  exact ⟨d, x ++ t, rfl, hdigits d List.mem_cons_self⟩

theorem Written.WellFormed.first {w : Written} (h : w.WellFormed) :
    ∃ d s, w.text = d :: s ∧ isDigit d = true := by
  cases w with
  | short major minor wilds => exact numeric_first h.1 _
  | full major minor patch pre build =>
    rw [Written.text, join, List.append_assoc, List.append_assoc]
    exact numeric_first h.1 _

theorem plainEnds_of_all (hne : s ≠ []) (hs : ∀ b ∈ s, isWrittenByte b = true) : PlainEnds s := by
  constructor
  · obtain ⟨b, t, rfl⟩ := List.exists_cons_of_ne_nil hne
    exact ⟨b, t, rfl, (written_byte b (hs b List.mem_cons_self)).1⟩
  · refine ⟨s.getLast hne, s.dropLast, (List.dropLast_append_getLast hne).symm, ?_⟩
    exact (written_byte _ (hs _ (List.getLast_mem hne))).1

theorem Written.WellFormed.plainEnds {w : Written} (h : w.WellFormed) : PlainEnds w.text := by
  obtain ⟨d, s, htext, -⟩ := h.first
  exact plainEnds_of_all (htext ▸ List.cons_ne_nil d s) h.bytes

/-! ## 3. Versions in requirements -/

theorem cutAt_optional {b : Byte} (hs : b ∉ s) (text : Option Str) :
    cutAt b (s ++ optional b text) = (s, text.getD []) := by
  have hall : ∀ c ∈ s, (decide (c ≠ b)) = true := fun c hc => decide_eq_true fun heq =>
    hs (heq ▸ hc)
  rw [cutAt, List.takeWhile_append_of_pos hall, List.dropWhile_append_of_pos hall]
  cases text with
  | none => exact congrArg (·, []) (List.append_nil s)
  | some t =>
    change (s ++ List.takeWhile _ (b :: t), List.drop 1 (List.dropWhile _ (b :: t))) = (s, t)
    simp

/-- The numbers are below 2⁶³. -/
def Small (parts : List Str) : Prop := ∀ p ∈ parts, number p < 2 ^ 63

instance (parts : List Str) : Decidable (Small parts) := List.decidableBAll _ _

theorem parseNumbers_numeric (input : Str) {parts : List Str}
    (hnum : ∀ p ∈ parts, isNumeric p = true) :
    (Small parts → parseNumbers input parts = .ok (parts.map fun p => (number p : Int))) ∧
      (¬ Small parts → ∃ e, parseNumbers input parts = .error e) := by
  induction parts with
  | nil => exact ⟨fun _ => rfl, fun h => absurd (fun p hp => absurd hp List.not_mem_nil) h⟩
  | cons p parts ih =>
    obtain ⟨ihok, iherr⟩ := ih fun q hq => hnum q (List.mem_cons_of_mem p hq)
    have hp := hnum p List.mem_cons_self
    have hround : parseNumbers input (p :: parts) = (do
        let n ← atoi p
        let ns ← parseNumbers input parts
        return n :: ns) := by
      rw [parseNumbers, if_neg (numeric_bytes hp).1]
    by_cases hlt : number p < 2 ^ 63
    · have hatoi : atoi p = .ok (number p) := by
        rw [atoi, hp, decide_eq_true hlt]
        rfl
      rw [hround, hatoi]
      constructor
      · intro h
        rw [ihok fun q hq => h q (List.mem_cons_of_mem p hq)]
        rfl
      · intro h
        obtain ⟨e, he⟩ := iherr fun hsmall => h (List.forall_mem_cons.mpr ⟨hlt, hsmall⟩)
        exact ⟨e, by rw [he]; rfl⟩
    · have hatoi : atoi p = .error (.atoi p) := by
        rw [atoi, hp, decide_eq_false hlt]
        rfl
      rw [hround, hatoi]
      exact ⟨fun h => absurd (h p List.mem_cons_self) hlt, fun _ => ⟨.atoi p, rfl⟩⟩

/-- A version with these numbers. -/
def versionOf (parts : List Str) (pre build : Option Str) : Version :=
  ⟨((parts.map fun p => (number p : Int)).getD 0 0),
  ((parts.map fun p => (number p : Int)).getD 1 0),
    ((parts.map fun p => (number p : Int)).getD 2 0), pre.getD [], build.getD []⟩

theorem numeric_free {xs : List Str} (hnum : ∀ p ∈ x :: xs, isNumeric p = true) :
    (∀ p ∈ x :: xs, 46 ∉ p) ∧ 43 ∉ join 46 (x :: xs) ∧ 45 ∉ join 46 (x :: xs) := by
  have hbyte : ∀ p ∈ x :: xs, ∀ b ∈ p, b ≠ 43 ∧ b ≠ 45 ∧ b ≠ 46 := fun p hp b hb =>
    (digit_free b ((numeric_bytes (hnum p hp)).2 b hb)).2
  have hjoin : ∀ c : Byte, c ≠ 46 → (∀ p ∈ x :: xs, c ∉ p) → c ∉ join 46 (x :: xs) := by
    intro c hc hmem hb
    rcases mem_join hb with rfl | ⟨p, hp, hb⟩
    · exact hc rfl
    · exact hmem p hp hb
  exact ⟨fun p hp hb => (hbyte p hp 46 hb).2.2 rfl,
    hjoin 43 (by decide) fun p hp hb => (hbyte p hp 43 hb).1 rfl,
    hjoin 45 (by decide) fun p hp hb => (hbyte p hp 45 hb).2.1 rfl⟩

theorem parseVersion_parts {xs : List Str} (hlen : (x :: xs).length ≤ 3)
    (hnum : ∀ p ∈ x :: xs, isNumeric p = true) (hpre : ∀ s ∈ pre, 43 ∉ s)
    (hends : PlainEnds (join 46 (x :: xs) ++ optional 45 pre ++ optional 43 build)) :
    (Small (x :: xs) → parseVersion (join 46 (x :: xs) ++ optional 45 pre ++ optional 43 build) =
        .ok (versionOf (x :: xs) pre build)) ∧
      (¬ Small (x :: xs) →
        ∃ e, parseVersion (join 46 (x :: xs) ++ optional 45 pre ++ optional 43 build) =
          .error e) := by
  obtain ⟨hdots, hplus, hdash⟩ := numeric_free hnum
  have hplus' : 43 ∉ join 46 (x :: xs) ++ optional 45 pre := by
    rw [List.mem_append, not_or]
    exact ⟨hplus, plus_not_mem_optional hpre⟩
  have hparse : parseVersion (join 46 (x :: xs) ++ optional 45 pre ++ optional 43 build) = (do
      let ns ← parseNumbers (join 46 (x :: xs)) (x :: xs)
      return ⟨ns.getD 0 0, ns.getD 1 0, ns.getD 2 0, pre.getD [], build.getD []⟩) := by
    rw [parseVersion, trimSpace_plain hends, cutAt_optional hplus']
    dsimp only
    rw [cutAt_optional hdash]
    dsimp only
    rw [split_join hdots, if_neg (by omega)]
  obtain ⟨hok, herr⟩ := parseNumbers_numeric (join 46 (x :: xs)) hnum
  rw [hparse]
  constructor
  · intro h
    rw [hok h]
    rfl
  · intro h
    obtain ⟨e, he⟩ := herr h
    exact ⟨e, by rw [he]; rfl⟩

/-! ## 4. Operators -/

/-- The operator that the code reads. -/
def Comparator.boundOp (c : Comparator) : BoundOp := c.op.elim .caret (·.1)

theorem operators_bytes :
    operators = [([60, 61], .lessEq), ([62, 61], .greaterEq), ([61], .exact), ([60], .less),
    ([62], .greater), ([126], .tilde), ([94], .caret)] := by decide

theorem digit_no_operator : ∀ d : Byte, isDigit d = true →
    d ≠ 32 ∧ d ≠ 60 ∧ d ≠ 61 ∧ d ≠ 62 ∧ d ≠ 126 ∧ d ≠ 94 ∧ d ≠ 42 := by grind [isDigit]

variable {c : Comparator}

theorem stripOp_text (h : c.WellFormed) : stripOp c.text = (c.boundOp, c.written.text) := by
  obtain ⟨d, s, htext, hd⟩ := h.2.first
  obtain ⟨-, h60, h61, h62, h126, h94, -⟩ := digit_no_operator d hd
  have htrim : ∀ n, trimSpace (blanks n ++ c.written.text) = c.written.text := by
    intro n
    have htrim := trimSpace_blanks h.2.plainEnds n 0
    rwa [show blanks 0 = [] from rfl, List.append_nil] at htrim
  -- no `=` behind `<` and `>`
  have hnext : ∀ n, [61].isPrefixOf (blanks n ++ c.written.text) = false := by
    intro n
    rw [htext]
    cases n with
    | zero => simp [blanks, List.isPrefixOf, Ne.symm h61]
    | succ n => simp [blanks, List.replicate_succ, List.isPrefixOf]
  have hempty : ∀ l : Str, List.isPrefixOf [] l = true := fun _ => rfl
  unfold stripOp Comparator.text Comparator.boundOp
  rw [operators_bytes]
  cases hop : c.op with
  | none =>
    dsimp only [Option.elim_none]
    rw [List.nil_append, htext]
    simp [List.find?, List.isPrefixOf, beq_false_of_ne (Ne.symm h60), beq_false_of_ne (Ne.symm h61),
      beq_false_of_ne (Ne.symm h62), beq_false_of_ne (Ne.symm h126), beq_false_of_ne (Ne.symm h94)]
  | some op =>
    obtain ⟨op, n⟩ := op
    have hne := h.1 (op, n) hop
    dsimp only [Option.elim_some]
    rw [List.append_assoc]
    cases op with
    | wildcard => exact absurd rfl hne
    | _ => simp [opText, ascii, List.find?, List.isPrefixOf, htrim, hnext]

/-! ## 5. The bound of a comparator -/

theorem opText_bytes (op : BoundOp) : ∀ b ∈ opText op, isPlain b = true ∧ b ≠ 44 := by
  cases op <;> decide +kernel

theorem Comparator.WellFormed.no_comma (h : c.WellFormed) : 44 ∉ c.text := by
  intro hb
  rw [Comparator.text, List.mem_append] at hb
  rcases hb with hb | hb
  · cases hop : c.op with
    | none =>
      rw [hop] at hb
      exact absurd hb List.not_mem_nil
    | some op =>
      rw [hop, Option.elim_some, List.mem_append] at hb
      rcases hb with hb | hb
      · exact (opText_bytes op.1 44 hb).2 rfl
      · cases (List.mem_replicate.mp hb).2
  · exact (written_byte 44 (h.2.bytes 44 hb)).2 rfl

theorem Comparator.WellFormed.plainEnds {c : Comparator} (h : c.WellFormed) : PlainEnds c.text := by
  obtain ⟨hfirst, b, t, hlast, hb⟩ := h.2.plainEnds
  unfold Comparator.text
  cases hop : c.op with
  | none => exact ⟨hfirst, b, t, hlast, hb⟩
  | some op =>
    obtain ⟨op, n⟩ := op
    have hne := h.1 (op, n) hop
    refine ⟨?_, b, opText op ++ blanks n ++ t, by rw [hlast, List.append_assoc]; rfl, hb⟩
    obtain ⟨d, s, hd⟩ : ∃ d s, opText op = d :: s := by
      cases op with
      | wildcard => exact absurd rfl hne
      | _ => exact ⟨_, _, rfl⟩
    refine ⟨d, s ++ blanks n ++ c.written.text, ?_, (opText_bytes op d (hd ▸ List.mem_cons_self)).1⟩
    dsimp only [Option.elim_some]
    rw [hd, List.cons_append, List.cons_append]

/-- The parts before a wildcard. -/
def kept (text : Str) : List Str := (split 46 text).takeWhile fun item => !isWildcard item

theorem parseBound_text (h : c.WellFormed) (hkept : kept c.written.text ≠ []) (a b : Nat) :
    parseBound (blanks a ++ c.text ++ blanks b) = (do
      let version ← parseVersion (join 46 (kept c.written.text))
      return some ⟨if (kept c.written.text).length <
        (split 46 c.written.text).length then .wildcard else c.boundOp,
        version, (kept c.written.text).length⟩) := by
  obtain ⟨d, s, htext, hd⟩ := h.2.first
  have hstar : c.written.text ≠ ascii "*" := by
    intro heq
    rw [htext] at heq
    exact (digit_no_operator d hd).2.2.2.2.2.2 (List.cons.inj heq).1
  unfold parseBound
  rw [trimSpace_blanks h.plainEnds, stripOp_text h]
  dsimp only
  rw [if_neg hstar]
  exact if_neg hkept

/-- What is behind the numbers of a full version. -/
def Written.tail : Written → Str
  | .short _ _ _ => []
  | .full _ _ _ pre build => optional 45 pre ++ optional 43 build

/-- An identifier behind a dot is taken for a wildcard. -/
def Written.Hidden (w : Written) : Prop := ∃ x ∈ (split 46 w.tail).tail, isWildcard x = true

def Comparator.Small (c : Comparator) : Prop := Cargo.Small c.written.numbers

/-- The bound that the code has for a comparator. -/
def Comparator.IsBound (c : Comparator) (bound : VersionBound) : Prop :=
  match c.written with
  | .short major minor wilds =>
    bound = ⟨if wilds = [] then c.boundOp else .wildcard,
      versionOf (major :: minor.toList) none none,
      (major :: minor.toList).length⟩
  | .full major minor patch pre build =>
    (c.written.Hidden → bound.op = .wildcard ∧ 3 ≤ bound.parts ∧
      bound.version.major = number major) ∧
    (¬ c.written.Hidden → bound = ⟨c.boundOp, versionOf [major, minor, patch] pre build,
      2 + (split 46 c.written.tail).length⟩)

theorem kept_short {minor : Option Str} {wilds : List Str}
    (h : (Written.short major minor wilds).WellFormed) :
    split 46 (Written.short major minor wilds).text = (major :: minor.toList) ++ wilds ∧
      kept (Written.short major minor wilds).text = major :: minor.toList := by
  have hnum := h.numeric
  have hfree : ∀ y ∈ major :: (minor.toList ++ wilds), 46 ∉ y := by
    intro y hy
    rw [← List.cons_append, List.mem_append] at hy
    rcases hy with hy | hy
    · exact fun hb => (digit_free 46 ((numeric_bytes (hnum y hy)).2 46 hb)).2.2.2 rfl
    · rcases wildcard_cases (h.2.2.1 y hy) with rfl | rfl | rfl <;> decide
  have hsplit : split 46 (Written.short major minor wilds).text =
    (major :: minor.toList) ++ wilds :=
    split_join hfree
  refine ⟨hsplit, ?_⟩
  have hpos : ∀ y ∈ major :: minor.toList, (!isWildcard y) = true := by
    intro y hy
    have hnot := numeric_not_wildcard (hnum y hy) []
    rw [List.append_nil] at hnot
    rw [hnot]
    rfl
  rw [kept, hsplit, List.takeWhile_append_of_pos hpos]
  cases wilds with
  | nil => exact List.append_nil _
  | cons w wilds =>
    have hw := h.2.2.1 w List.mem_cons_self
    rw [List.takeWhile_cons_of_neg (by rw [hw]; decide), List.append_nil]

theorem parseBound_short (h : c.WellFormed) {minor : Option Str} {wilds : List Str}
    (hw : c.written = .short major minor wilds) (a b : Nat) :
    (c.Small → ∃ bound, parseBound (blanks a ++ c.text ++ blanks b) = .ok (some bound) ∧
      c.IsBound bound) ∧
      (¬ c.Small → ∃ e, parseBound (blanks a ++ c.text ++ blanks b) = .error e) := by
  have hwell : (Written.short major minor wilds).WellFormed := hw ▸ h.2
  obtain ⟨hsplit, hkept⟩ := kept_short hwell
  have hends : PlainEnds (join 46 (major :: minor.toList) ++ optional 45 none ++
    optional 43 none) := by
    rw [show join 46 (major :: minor.toList) ++ optional 45 none ++ optional 43 none =
      (Written.short major minor []).text by simp [optional, Written.text]]
    exact Written.WellFormed.plainEnds ⟨hwell.1, hwell.2.1, fun w hw => absurd hw List.not_mem_nil,
      by have := hwell.2.2.2; simp only [List.length_nil]; omega⟩
  have hlen : (major :: minor.toList).length ≤ 3 := by
    have := hwell.2.2.2
    rw [List.length_cons]
    omega
  obtain ⟨hok, herr⟩ := parseVersion_parts hlen hwell.numeric
    (fun s hs => absurd hs (by simp)) hends
  have htext : join 46 (major :: minor.toList) ++ optional 45 none ++ optional 43 none =
      join 46 (major :: minor.toList) := by simp [optional]
  rw [htext] at hok herr
  have hbound := parseBound_text h (by rw [hw, hkept]; exact List.cons_ne_nil _ _) a b
  rw [hw, hkept, hsplit] at hbound
  rw [hbound, Comparator.Small, hw]
  constructor
  · intro hsmall
    rw [hok hsmall]
    refine ⟨_, rfl, ?_⟩
    rw [Comparator.IsBound, hw]
    dsimp only
    congr 1
    cases wilds with
    | nil => rw [List.append_nil, if_neg (lt_irrefl _), if_pos rfl]
    | cons w wilds => rw [if_pos (by simp), if_neg (List.cons_ne_nil w wilds)]
  · intro hlarge
    obtain ⟨e, he⟩ := herr hlarge
    exact ⟨e, by rw [he]; rfl⟩

/-- What begins with a hyphen or a plus. -/
theorem optional_of_head {t : Str} (ht : ∀ b ∈ t.head?, b = 45 ∨ b = 43) :
    ∃ pre build, t = optional 45 pre ++ optional 43 build ∧ ∀ s ∈ pre, 43 ∉ s := by
  cases t with
  | nil => exact ⟨none, none, rfl, fun s hs => absurd hs (by simp)⟩
  | cons b t =>
    rcases ht b rfl with rfl | rfl
    · by_cases hplus : 43 ∈ t
      · obtain ⟨pre, build, rfl, hpre⟩ := List.eq_append_cons_of_mem hplus
        exact ⟨some pre, some build, rfl, fun s hs => by rwa [← Option.some.inj hs]⟩
      · exact ⟨some t, none, (List.append_nil _).symm, fun s hs => by rwa [← Option.some.inj hs]⟩
    · exact ⟨none, some t, rfl, fun s hs => absurd hs (by simp)⟩

theorem optional_inj {pre' build' : Option Str} (hpre : ∀ s ∈ pre, 43 ∉ s)
    (hpre' : ∀ s ∈ pre', 43 ∉ s)
    (h : optional 45 pre ++ optional 43 build = optional 45 pre' ++ optional 43 build') :
    pre.getD [] = pre'.getD [] ∧ build.getD [] = build'.getD [] := by
  have hcut := congrArg (cutAt 43) h
  rw [cutAt_optional (plus_not_mem_optional hpre),
    cutAt_optional (plus_not_mem_optional hpre')] at hcut
  obtain ⟨hfirst, hsecond⟩ := Prod.mk.inj hcut
  have hcut' : cutAt 45 ([] ++ optional 45 pre) = cutAt 45 ([] ++ optional 45 pre') := by
    rw [hfirst]
  rw [cutAt_optional List.not_mem_nil, cutAt_optional List.not_mem_nil] at hcut'
  exact ⟨(Prod.mk.inj hcut').2, hsecond⟩

theorem takeWhile_not_wildcard (ys : List Str) :
    ((∃ y ∈ ys, isWildcard y = true) → (ys.takeWhile fun item => !isWildcard item).length <
      ys.length) ∧
      ((¬ ∃ y ∈ ys, isWildcard y = true) → (ys.takeWhile fun item => !isWildcard item) = ys) := by
  constructor
  · rintro ⟨y, hy, hwild⟩
    refine lt_of_le_of_ne (List.takeWhile_prefix _).length_le fun heq => ?_
    have hall := (List.takeWhile_prefix _).eq_of_length heq
    have hkept := List.takeWhile_eq_self_iff.mp hall y hy
    rw [hwild] at hkept
    cases hkept
  · intro hnone
    refine List.takeWhile_eq_self_iff.mpr fun y hy => ?_
    cases hwild : isWildcard y with
    | true => exact absurd ⟨y, hy, hwild⟩ hnone
    | false => rfl

theorem optional_head (pre build : Option Str) :
    ∀ b ∈ (optional 45 pre ++ optional 43 build).head?, b = 45 ∨ b = 43 := by
  intro b hb
  cases pre with
  | some s => exact .inl (Option.some.inj hb).symm
  | none =>
    cases build with
    | some s => exact .inr (Option.some.inj hb).symm
    | none => cases hb

theorem parseBound_full (h : c.WellFormed) {minor patch : Str}
    (hw : c.written = .full major minor patch pre build) (a b : Nat) :
    (c.Small → ∃ bound, parseBound (blanks a ++ c.text ++ blanks b) = .ok (some bound) ∧
      c.IsBound bound) ∧
      (¬ c.Small → ∃ e, parseBound (blanks a ++ c.text ++ blanks b) = .error e) := by
  have hwell : (Written.full major minor patch pre build).WellFormed := hw ▸ h.2
  have hnum := hwell.numeric
  have hfree : ∀ p ∈ [major, minor, patch], 46 ∉ p := (numeric_free hnum).1
  have hpre : ∀ s ∈ pre, 43 ∉ s := by
    intro s hs hb
    rcases identifiers_bytes (fun x hx => (hwell.2.2.2.1 s hs x hx).1) 43 hb with hb | hb
    · exact (ident_byte 43 hb).2.1 rfl
    · cases hb
  have htext : (Written.full major minor patch pre build).text =
      join 46 [major, minor, patch] ++ (optional 45 pre ++ optional 43 build) :=
        List.append_assoc _ _ _
  cases htail : split 46 (optional 45 pre ++ optional 43 build) with
  | nil => exact absurd htail (split_ne_nil _)
  | cons y ys =>
    have hjoin : y ++ behind 46 ys = optional 45 pre ++ optional 43 build := by
      have hjoin : join 46 (split 46 _) = optional 45 pre ++ optional 43 build := join_split _
      rwa [htail, join] at hjoin
    have hsplit : split 46 (Written.full major minor patch pre build).text =
        major :: minor :: (patch ++ y) :: ys := by
      rw [htext, split_join_append hfree _ htail]
      rfl
    have hkept : kept (Written.full major minor patch pre build).text =
        major :: minor :: (patch ++ y) :: ys.takeWhile fun item => !isWildcard item := by
      have hnot : ∀ x ∈ [major, minor, patch], ∀ t, (!isWildcard (x ++ t)) = true := by
        intro x hx t
        rw [numeric_not_wildcard (hnum x hx) t]
        rfl
      have hmajor := hnot major (by simp) []
      have hminor := hnot minor (by simp) []
      rw [List.append_nil] at hmajor hminor
      simp only [kept, hsplit, List.takeWhile_cons, hmajor, hminor, hnot patch (by simp) y, if_true]
    obtain ⟨hshorter, hsame⟩ := takeWhile_not_wildcard ys
    generalize hys : (ys.takeWhile fun item => !isWildcard item) = zs at hkept hshorter hsame
    have hkeptText : join 46 (major :: minor :: (patch ++ y) :: zs) =
        join 46 [major, minor, patch] ++ (y ++ behind 46 zs) := by
      simp [join, behind]
    -- the rest begins as the tail does
    have hhead : ∀ b ∈ (y ++ behind 46 zs).head?, b = 45 ∨ b = 43 := by
      have htailhead := optional_head pre build
      rw [← hjoin] at htailhead
      cases y with
      | cons d y => exact htailhead
      | nil =>
        cases ys with
        | nil =>
          rw [← hys]
          intro b hb
          cases hb
        | cons z ys => exact absurd (htailhead 46 rfl) (by decide)
    obtain ⟨pre', build', hrest, hpre'⟩ := optional_of_head hhead
    have hends : PlainEnds (join 46 [major, minor, patch] ++ optional 45 pre' ++
      optional 43 build') := by
      rw [List.append_assoc, ← hrest, ← hkeptText, ← hkept]
      refine plainEnds_of_all ?_ fun b hb => ?_
      · obtain ⟨d, t, hd, -⟩ := numeric_first (hnum major (by simp [Written.numbers]))
          (behind 46 (minor :: (patch ++ y) :: zs))
        rw [hkept, join, hd]
        exact List.cons_ne_nil d t
      · rcases mem_join hb with rfl | ⟨x, hx, hb⟩
        · rfl
        · exact hwell.bytes b (mem_of_mem_split ((List.takeWhile_prefix _).subset hx) hb)
    obtain ⟨hok, herr⟩ := parseVersion_parts (le_refl 3) hnum hpre' hends
    have hbound := parseBound_text h (by rw [hw, hkept]; exact List.cons_ne_nil _ _) a b
    rw [hw, hkept, hkeptText, hrest, ← List.append_assoc] at hbound
    rw [hbound, Comparator.Small, hw]
    constructor
    · intro hsmall
      rw [hok hsmall]
      refine ⟨_, rfl, ?_⟩
      have htails : split 46 c.written.tail = y :: ys := by rw [hw]; exact htail
      rw [Comparator.IsBound, hw]
      dsimp only
      rw [Written.Hidden, ← hw, htails, List.tail_cons, hw, hsplit]
      constructor
      · intro hhidden
        have hlt := hshorter hhidden
        exact ⟨if_pos (by simp only [List.length_cons]; omega), by
          simp only [List.length_cons]; omega, rfl⟩
      · intro hhidden
        have hzs := hsame hhidden
        rw [hzs, hjoin] at hrest
        obtain ⟨hpre, hbuild⟩ := optional_inj hpre hpre' hrest
        subst hzs
        rw [if_neg (by simp), versionOf, versionOf, hpre, hbuild]
        simp only [List.length_cons]
        congr 1
        omega
    · intro hlarge
      obtain ⟨e, he⟩ := herr hlarge
      exact ⟨e, by rw [he]; rfl⟩

theorem parseBound_comparator (h : c.WellFormed) (a b : Nat) :
    (c.Small → ∃ bound, parseBound (blanks a ++ c.text ++ blanks b) = .ok (some bound) ∧
      c.IsBound bound) ∧
      (¬ c.Small → ∃ e, parseBound (blanks a ++ c.text ++ blanks b) = .error e) := by
  cases hw : c.written with
  | short major minor wilds => exact parseBound_short h hw a b
  | full major minor patch pre build => exact parseBound_full h hw a b

/-! ## 6. The bounds of a requirement -/

/-- What stands between the commas. -/
def pieces (n : Nat) (c : Comparator) : List (Nat × Nat × Comparator) → List Str
  | [] => [blanks n ++ c.text ++ blanks 0]
  | (a, b, d) :: more => (blanks n ++ c.text ++ blanks a) :: pieces b d more

variable {more : List (Nat × Nat × Comparator)}

variable (hc : c.WellFormed) (hmore : ∀ m ∈ more, m.2.2.WellFormed)

include hc hmore

theorem split_more {n : Nat} :
    split 44 (blanks n ++ c.text ++ moreText more) = pieces n c more := by
  have hfree : ∀ {n : Nat} {c : Comparator}, c.WellFormed → ∀ a, 44 ∉ blanks n ++ c.text ++
    blanks a := by
    intro n c hc a hb
    rw [List.mem_append, List.mem_append] at hb
    rcases hb with (hb | hb) | hb
    · cases (List.mem_replicate.mp hb).2
    · exact hc.no_comma hb
    · cases (List.mem_replicate.mp hb).2
  induction more generalizing n c with
  | nil => exact split_single (hfree hc 0)
  | cons m more ih =>
    obtain ⟨a, b, d⟩ := m
    rw [moreText, pieces, ← List.append_assoc, split_append (hfree hc a),
      ih (hmore _ List.mem_cons_self) fun m hm => hmore m (List.mem_cons_of_mem _ hm)]

theorem parseBounds_pieces {n : Nat} :
    ((∀ d ∈ c :: more.map (·.2.2), d.Small) → ∃ spec, parseBounds (pieces n c more) = .ok spec ∧
        List.Forall₂ Comparator.IsBound (c :: more.map (·.2.2)) spec) ∧
      ((¬ ∀ d ∈ c :: more.map (·.2.2), d.Small) → ∃ e, parseBounds (pieces n c more) =
        .error e) := by
  -- a round, and the rounds behind it
  have hround : ∀ {n : Nat} {c : Comparator} {a : Nat} {l : List Comparator} {raws : List Str},
    c.WellFormed →
      (((∀ d ∈ l, d.Small) → ∃ spec, parseBounds raws = .ok spec ∧
        List.Forall₂ Comparator.IsBound l spec) ∧
        ((¬ ∀ d ∈ l, d.Small) → ∃ e, parseBounds raws = .error e)) →
      ((∀ d ∈ c :: l, d.Small) → ∃ spec, parseBounds ((blanks n ++ c.text ++ blanks a) :: raws) =
        .ok spec ∧
        List.Forall₂ Comparator.IsBound (c :: l) spec) ∧
      ((¬ ∀ d ∈ c :: l, d.Small) → ∃ e, parseBounds ((blanks n ++ c.text ++ blanks a) :: raws) =
        .error e) := by
    rintro n c a l raws hc ⟨ihok, iherr⟩
    obtain ⟨hok, herr⟩ := parseBound_comparator hc n a
    rw [List.forall_mem_cons, parseBounds]
    by_cases hsmall : c.Small
    · obtain ⟨bound, hbound, his⟩ := hok hsmall
      rw [hbound]
      constructor
      · rintro ⟨-, hl⟩
        obtain ⟨spec, hspec, hall⟩ := ihok hl
        rw [hspec]
        exact ⟨bound :: spec, rfl, .cons his hall⟩
      · intro hnot
        obtain ⟨e, he⟩ := iherr fun hl => hnot ⟨hsmall, hl⟩
        rw [he]
        exact ⟨e, rfl⟩
    · obtain ⟨e, he⟩ := herr hsmall
      rw [he]
      exact ⟨fun h => absurd h.1 hsmall, fun _ => ⟨e, rfl⟩⟩
  induction more generalizing n c with
  | nil =>
    refine hround hc ⟨fun _ => ⟨[], rfl, .nil⟩, fun h =>
      absurd (fun d hd => absurd hd List.not_mem_nil) h⟩
  | cons m more ih =>
    obtain ⟨a, b, d⟩ := m
    exact hround hc (ih (hmore _ List.mem_cons_self) fun m hm =>
      hmore m (List.mem_cons_of_mem _ hm))

/-- A text of several begins as the first of them and ends as the last. -/
theorem plainEnds_more {n : Nat} :
    ∃ b t, blanks n ++ c.text ++ moreText more = t ++ [b] ∧ isPlain b = true := by
  induction more generalizing n c with
  | nil =>
    obtain ⟨-, b, t, ht, hb⟩ := hc.plainEnds
    exact ⟨b, blanks n ++ t, by rw [moreText, List.append_nil, ht, List.append_assoc], hb⟩
  | cons m more ih =>
    obtain ⟨a, k, d⟩ := m
    obtain ⟨b, t, ht, hb⟩ := ih (n := k) (hmore _ List.mem_cons_self)
      fun m hm => hmore m (List.mem_cons_of_mem _ hm)
    refine ⟨b, blanks n ++ c.text ++ (blanks a ++ 44 :: t), ?_, hb⟩
    rw [moreText]
    dsimp only at ht
    rw [ht]
    simp only [List.append_assoc, List.cons_append]

omit hc hmore

theorem parseVersionSpec_text {r : Requirement} (h : r.WellFormed) :
    ((∀ c ∈ r.list, c.Small) → ∃ spec, parseVersionSpec r.text = .ok spec ∧
        List.Forall₂ Comparator.IsBound r.list spec) ∧
      ((¬ ∀ c ∈ r.list, c.Small) → ∃ e, parseVersionSpec r.text = .error e) := by
  cases r with
  | star before wild after =>
    refine ⟨fun _ => ⟨[], ?_, .nil⟩, fun hnot =>
      absurd (fun c hc => absurd hc List.not_mem_nil) hnot⟩
    have hends : PlainEnds wild := by
      rcases wildcard_cases h with rfl | rfl | rfl
      all_goals exact ⟨⟨_, [], rfl, rfl⟩, ⟨_, [], rfl, rfl⟩⟩
    rw [parseVersionSpec, Requirement.text, trimSpace_blanks hends]
    rcases wildcard_cases h with rfl | rfl | rfl
    · rfl
    · decide +kernel
    · decide +kernel
  | comparators before c more after =>
    obtain ⟨hc, hmore⟩ := h
    obtain ⟨⟨b, t, ht, hb⟩, -⟩ := hc.plainEnds
    have hends : PlainEnds (c.text ++ moreText more) :=
      ⟨⟨b, t ++ moreText more, by rw [ht]; rfl, hb⟩, plainEnds_more (n := 0) hc hmore⟩
    have hstar : ¬ (c.text ++ moreText more = [] ∨ c.text ++ moreText more = ascii "*") := by
      rw [ht, List.cons_append]
      rintro (heq | heq)
      · cases heq
      · -- it would be a comparator without an operator that begins with no digit
        obtain ⟨rfl, hrest⟩ := List.cons.inj (heq.trans (rfl : ascii "*" = [42]))
        obtain ⟨rfl, -⟩ := List.append_eq_nil_iff.mp hrest
        have hstrip := stripOp_text hc
        rw [ht] at hstrip
        obtain ⟨-, htext⟩ := Prod.mk.inj (hstrip.symm.trans (rfl : stripOp [42] = (.caret, [42])))
        obtain ⟨d, s, hd, hdigit⟩ := hc.2.first
        obtain ⟨rfl, -⟩ := List.cons.inj (hd.symm.trans htext)
        cases hdigit
    have hsplit : split 44 (c.text ++ moreText more) = pieces 0 c more :=
      split_more (n := 0) hc hmore
    rw [parseVersionSpec, Requirement.text, trimSpace_blanks hends, if_neg hstar, hsplit]
    exact parseBounds_pieces hc hmore

end Trustme.Cargo
