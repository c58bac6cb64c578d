/-
  Subject:   Conditions as they are written, and what `CfgSet.matches` makes of them.

  * `Condition`, `Arguments`: conditions, with the white space before each token;
  * `Condition.eval`: what a condition means;
  * `Condition.Trailing`: somewhere a comma is behind the last argument;
  * `expression_text`: reading throws just then, and else has the meaning;
  * `matches_text`: and so has `matches`.
-/
import Trustme.Cargo.Blanks
import Trustme.Cargo.Cfg

namespace Trustme.Cargo

/-! ## 1. Conditions -/

/-- `all` is true if all arguments are, `any` if one is. -/
inductive ListOp where
  | all
  | any
  deriving DecidableEq

mutual

/-- Every token has the white space before it; `close` is before `)`. -/
inductive Condition where
  | flag (gap name : Str)
  | pair (gap name equals quote value : Str)
  | not (gap paren : Str) (arg : Condition) (close : Str)
  | list (gap : Str) (op : ListOp) (paren : Str) (args : Arguments)

/-- Up to the parenthesis; a comma may be before it. -/
inductive Arguments where
  | none (close : Str)
  | last (arg : Condition) (close : Str)
  | more (arg : Condition) (comma : Str) (args : Arguments)

end

def ListOp.text : ListOp → Str
  | .all => ascii "all"
  | .any => ascii "any"

mutual

def Condition.text : Condition → Str
  | .flag gap name => gap ++ name
  | .pair gap name equals quote value =>
    gap ++ (name ++ (equals ++ 61 :: (quote ++ 34 :: (value ++ [34]))))
  | .not gap paren arg close =>
    gap ++ (ascii "not" ++ (paren ++ 40 :: (arg.text ++ (close ++ [41]))))
  | .list gap op paren args => gap ++ (op.text ++ (paren ++ 40 :: (args.text ++ [41])))

def Arguments.text : Arguments → Str
  | .none close => close
  | .last arg close => arg.text ++ close
  | .more arg comma args => arg.text ++ (comma ++ 44 :: args.text)

end

def isGapByte (b : Byte) : Bool := decide (b ∈ ([9, 10, 11, 12, 13, 32] : List Byte))

def IsGap (s : Str) : Prop := s.all isGapByte = true

instance (s : Str) : Decidable (IsGap s) := inferInstanceAs (Decidable (_ = _))

def isLetterByte (b : Byte) : Bool := (65 ≤ b && b ≤ 90) || (97 ≤ b && b ≤ 122) || b == 95

def isNameByte (b : Byte) : Bool := isLetterByte b || (48 ≤ b && b ≤ 57)

/-- An identifier that is no operator. -/
def IsName (s : Str) : Prop :=
  s.head?.elim false isLetterByte = true ∧ s.all isNameByte = true ∧
    s ≠ ascii "not" ∧ s ≠ ascii "all" ∧ s ≠ ascii "any"

instance (s : Str) : Decidable (IsName s) := inferInstanceAs (Decidable (_ ∧ _))

def Arguments.isNone : Arguments → Bool
  | .none _ => true
  | _ => false

mutual

def Condition.WellFormed : Condition → Prop
  | .flag gap name => IsGap gap ∧ IsName name
  | .pair gap name equals quote value =>
    IsGap gap ∧ IsName name ∧ IsGap equals ∧ IsGap quote ∧ 34 ∉ value
  | .not gap paren arg close => IsGap gap ∧ IsGap paren ∧ arg.WellFormed ∧ IsGap close
  | .list gap _ paren args => IsGap gap ∧ IsGap paren ∧ args.WellFormed

def Arguments.WellFormed : Arguments → Prop
  | .none close => IsGap close
  | .last arg close => arg.WellFormed ∧ IsGap close
  | .more arg comma args => arg.WellFormed ∧ IsGap comma ∧ args.WellFormed

end

section Meaning

variable (cfg : CfgSet) (features : Finset Str) (read : Str → Str)

mutual

/-- The value, where `read` is what is read of a string. -/
def Condition.eval : Condition → Bool
  | .flag _ name => cfg.flags name
  | .pair _ name _ _ value =>
    if name = ascii "feature" then decide (read value ∈ features)
    else ((cfg.values name).map fun values => values (read value)).getD false
  | .not _ _ arg _ => !arg.eval
  | .list _ .all _ args => args.evals.all id
  | .list _ .any _ args => args.evals.any id

def Arguments.evals : Arguments → List Bool
  | .none _ => []
  | .last arg _ => [arg.eval]
  | .more arg _ args => arg.eval :: args.evals

end

end Meaning

mutual

/-- A comma is behind the last argument of a list. -/
def Condition.Trailing : Condition → Prop
  | .flag _ _ => False
  | .pair _ _ _ _ _ => False
  | .not _ _ arg _ => arg.Trailing
  | .list _ _ _ args => args.Trailing

def Arguments.Trailing : Arguments → Prop
  | .none _ => False
  | .last arg _ => arg.Trailing
  | .more arg _ args => arg.Trailing ∨ args.isNone = true ∨ args.Trailing

end

/-- What is read of a string: a backslash goes, and what is behind it stays. -/
def unescape : Str → Str
  | [] => []
  | [char] => [char]
  | char :: next :: rest =>
    if char = 92 then next :: unescape rest else char :: unescape (next :: rest)

/-- A backslash takes the quote behind the string. -/
def Escaped : Str → Bool
  | [] => false
  | [char] => char = 92
  | char :: next :: rest => if char = 92 then Escaped rest else Escaped (next :: rest)

mutual

/-- No string takes the quote behind it. -/
def Condition.Closed : Condition → Prop
  | .flag _ _ => True
  | .pair _ _ _ _ value => Escaped value = false
  | .not _ _ arg _ => arg.Closed
  | .list _ _ _ args => args.Closed

def Arguments.Closed : Arguments → Prop
  | .none _ => True
  | .last arg _ => arg.Closed
  | .more arg _ args => arg.Closed ∧ args.Closed

end

/-! ## 2. Strings -/

theorem quotedRest_text : ∀ (value result t : Str), 34 ∉ value → Escaped value = false →
    quotedRest result (value ++ 34 :: t) = .ok (result ++ unescape value, t)
  | [], result, t, _, _ => by
    rw [List.nil_append, unescape, List.append_nil]
    cases t with
    | nil => rfl
    | cons c t => rfl
  | [char], result, t, hquote, hescaped => by
    have hchar : char ≠ 34 := fun h => hquote (h ▸ List.mem_cons_self)
    have hslash : char ≠ 92 := of_decide_eq_false hescaped
    have hnil := quotedRest_text [] (result ++ [char]) t List.not_mem_nil rfl
    rw [List.singleton_append, quotedRest, if_neg hchar, if_neg hslash]
    rw [List.nil_append, unescape, List.append_nil] at hnil
    exact hnil
  | char :: next :: rest, result, t, hquote, hescaped => by
    have hchar : char ≠ 34 := fun h => hquote (h ▸ List.mem_cons_self)
    rw [List.cons_append, List.cons_append, quotedRest, if_neg hchar, unescape]
    rw [Escaped] at hescaped
    by_cases hslash : char = 92
    · rw [if_pos hslash] at hescaped
      rw [if_pos hslash, if_pos hslash, quotedRest_text rest _ t
        (fun h => hquote (List.mem_cons_of_mem _ (List.mem_cons_of_mem _ h))) hescaped,
          List.append_assoc]
      rfl
    · rw [if_neg hslash] at hescaped
      have hmore := quotedRest_text (next :: rest) (result ++ [char]) t
        (fun h => hquote (List.mem_cons_of_mem _ h)) hescaped
      rw [List.cons_append, List.append_assoc] at hmore
      rw [if_neg hslash, if_neg hslash, hmore]
      rfl

/-! ## 3. Tokens -/

theorem gap_space (b : Byte) (h : isGapByte b = true) : isSpaceByte b = true :=
  decide_eq_true (List.mem_append_left [0x85, 0xA0] (of_decide_eq_true h))

theorem name_byte : ∀ b : Byte, isNameByte b = true → isIdentByte b = true := by
  grind [isNameByte, isLetterByte, isIdentByte]

theorem letter_byte : ∀ b : Byte, isLetterByte b = true → isSpaceByte b = false ∧ b ≠ 41 := by
  have hothers : ∀ b : Byte, isSpaceByte b = true ∨ b = 41 → isLetterByte b = false := by
    simp [isSpaceByte, isLetterByte, or_imp, forall_and]
  grind

theorem gap_ident : ∀ b : Byte, isGapByte b = true → isIdentByte b = false := by
  simp [isGapByte, isIdentByte]

variable {gap : Str}

theorem space_gap (hgap : IsGap gap) (t : Str) : space (gap ++ t) = space t := by
  refine List.dropWhile_append_of_pos fun b hb => gap_space b ?_
  exact List.all_eq_true.mp hgap b hb

theorem space_byte {b : Byte} (hb : isSpaceByte b = false) (t : Str) : space (b :: t) = b :: t :=
  List.dropWhile_cons_of_neg (by rw [hb]; decide)

theorem take_gap (hgap : IsGap gap) {b : Byte} (hb : isSpaceByte b = false) (want : Byte)
    (t : Str) :
    take want (gap ++ b :: t) = if b = want then (true, t) else (false, b :: t) := by
  rw [take, space_gap hgap, space_byte hb]

theorem take_congr {r t : Str} (h : space r = space t) (want : Byte) :
    take want r = take want t := by
  rw [take, take, h]

theorem expect_gap (hgap : IsGap gap) {b : Byte} (hb : isSpaceByte b = false) (t : Str) :
    expect b (gap ++ b :: t) = .ok t := by
  rw [expect, take_gap hgap hb, if_pos rfl]

/-- An identifier, and something behind it that does not go on with it. -/
theorem ident_name (hgap : IsGap gap) {name : Str}
    (hfirst : name.head?.elim false isLetterByte = true) (hname : name.all isNameByte = true)
    {t : Str} (ht : t.head?.elim true (fun b => !isIdentByte b) = true) :
    ident (gap ++ (name ++ t)) = .ok (name, t) := by
  cases name with
  | nil => cases hfirst
  | cons d name =>
    have hspace : space (gap ++ ((d :: name) ++ t)) = (d :: name) ++ t := by
      rw [space_gap hgap, List.cons_append, space_byte (letter_byte d hfirst).1]
    have hall : ∀ b ∈ d :: name, isIdentByte b = true := fun b hb =>
      name_byte b (List.all_eq_true.mp hname b hb)
    have htake : t.takeWhile isIdentByte = [] ∧ t.dropWhile isIdentByte = t := by
      cases t with
      | nil => exact ⟨rfl, rfl⟩
      | cons b t =>
        have hb : isIdentByte b = false := by simpa using ht
        have hneg : ¬ isIdentByte b = true := by rw [hb]; decide
        exact ⟨List.takeWhile_cons_of_neg hneg, List.dropWhile_cons_of_neg hneg⟩
    unfold ident
    rw [hspace, List.takeWhile_append_of_pos hall, List.dropWhile_append_of_pos hall,
      htake.1, htake.2,
      List.append_nil]
    exact if_neg (List.cons_ne_nil d name)

/-- What may be behind a condition: a comma or the end of a list. -/
def Stops (t : Str) : Prop := ∃ gap b s, t = gap ++ b :: s ∧ IsGap gap ∧ (b = 44 ∨ b = 41)

theorem head_gap (hgap : IsGap gap) {b : Byte} (hb : isIdentByte b = false) (t : Str) :
    (gap ++ b :: t).head?.elim true (fun b => !isIdentByte b) = true := by
  cases gap with
  | nil => simpa using hb
  | cons c gap => simpa using gap_ident c (List.all_eq_true.mp hgap c List.mem_cons_self)

theorem Stops.head {t : Str} (ht : Stops t) :
    t.head?.elim true (fun b => !isIdentByte b) = true := by
  obtain ⟨gap, b, s, rfl, hgap, rfl | rfl⟩ := ht
  · exact head_gap hgap (by decide) s
  · exact head_gap hgap (by decide) s

theorem Stops.take {t : Str} (ht : Stops t) {want : Byte} (hcomma : want ≠ 44)
    (hclose : want ≠ 41) :
    take want t = (false, space t) := by
  obtain ⟨gap, b, s, rfl, hgap, rfl | rfl⟩ := ht
  · rw [take_gap hgap (by decide), if_neg (Ne.symm hcomma), space_gap hgap, space_byte (by decide)]
  · rw [take_gap hgap (by decide), if_neg (Ne.symm hclose), space_gap hgap, space_byte (by decide)]

theorem space_space (t : Str) : space (space t) = space t := by
  cases h : space t with
  | nil => rfl
  | cons b s =>
    have hb : isSpaceByte b = false := by
      have hhead := List.head?_dropWhile_not isSpaceByte t
      rw [← space, h] at hhead
      exact hhead
    exact space_byte hb s

/-- A condition begins with a letter. -/
theorem Condition.WellFormed.first {c : Condition} (h : c.WellFormed) :
    ∃ gap b s, c.text = gap ++ b :: s ∧ IsGap gap ∧ isLetterByte b = true := by
  have hword : ∀ {gap word : Str} (t : Str), IsGap gap → word.head?.elim false isLetterByte = true →
      ∃ gap' b s, gap ++ (word ++ t) = gap' ++ b :: s ∧ IsGap gap' ∧ isLetterByte b = true := by
    intro gap word t hgap hfirst
    cases word with
    | nil => cases hfirst
    | cons b word => exact ⟨gap, b, word ++ t, rfl, hgap, hfirst⟩
  cases c with
  | flag gap name =>
    rw [Condition.WellFormed] at h
    obtain ⟨gap', b, s, heq, hrest⟩ := hword [] h.1 h.2.1
    exact ⟨gap', b, s, by rw [Condition.text, ← heq, List.append_nil], hrest⟩
  | pair gap name equals quote value =>
    rw [Condition.WellFormed] at h
    exact hword _ h.1 h.2.1.1
  | not gap paren arg close =>
    rw [Condition.WellFormed] at h
    exact hword _ h.1 rfl
  | list gap op paren args =>
    rw [Condition.WellFormed] at h
    cases op with
    | all => exact hword _ h.1 rfl
    | any => exact hword _ h.1 rfl

/-- So it does not end a list. -/
theorem Condition.WellFormed.not_close {c : Condition} (h : c.WellFormed) (t : Str) :
    (take 41 (c.text ++ t)).1 = false := by
  obtain ⟨gap, b, s, htext, hgap, hb⟩ := h.first
  rw [htext, List.append_assoc, List.cons_append, take_gap hgap (letter_byte b hb).1,
    if_neg (letter_byte b hb).2]

theorem Arguments.isNone_iff (args : Arguments) :
    args.isNone = true ↔ ∃ close, args = .none close := by
  cases args with
  | none close => exact ⟨fun _ => ⟨close, rfl⟩, fun _ => rfl⟩
  | last arg close => exact ⟨fun h => (by cases h), fun ⟨_, h⟩ => (by cases h)⟩
  | more arg comma args => exact ⟨fun h => (by cases h), fun ⟨_, h⟩ => (by cases h)⟩

theorem Arguments.WellFormed.not_close {args : Arguments} (h : args.WellFormed)
    (hne : args.isNone = false)
    (t : Str) : (take 41 (args.text ++ 41 :: t)).1 = false := by
  cases args with
  | none close => cases hne
  | last arg close =>
    rw [Arguments.WellFormed] at h
    rw [Arguments.text, List.append_assoc, h.1.not_close]
  | more arg comma args =>
    rw [Arguments.WellFormed] at h
    rw [Arguments.text, List.append_assoc, h.1.not_close]

/-! ## 4. Reading what is written -/

section Reading

variable (cfg : CfgSet) (features : Finset Str)

/-- What is read of a condition, with `t` behind it. -/
def ReadsAs (trailing : Prop) {β : Type} (value : β) (t : Str)
    (result : Option (Except CfgFailure (β × Str))) : Prop :=
  (trailing → ∃ e, result = some (.error e)) ∧
    (¬ trailing → ∃ r, result = some (.ok (value, r)) ∧ space r = space t)

variable {cfg features}

/-- An operator, and what is made of its arguments. -/
theorem expression_operator {gap name paren : Str} (hgap : IsGap gap)
    (hfirst : name.head?.elim false isLetterByte = true) (hname : name.all isNameByte = true)
      (hparen : IsGap paren)
    {n : Nat} {args t : Str} {trailing : Prop} {values : List Bool} {value : Bool}
    (hargs : ReadsAs trailing values (41 :: t)
      (if (take 41 (args ++ 41 :: t)).1 then some (.ok ([], args ++ 41 :: t))
        else arguments (expression cfg features n) n (args ++ 41 :: t)))
    (hop : operator name values = .ok value) :
    ReadsAs trailing value t
      (expression cfg features (n + 1) (gap ++
        (name ++ (paren ++ 40 :: (args ++ [41]))) ++ t)) := by
  have htext : gap ++ (name ++ (paren ++ 40 :: (args ++ [41]))) ++ t =
      gap ++ (name ++ (paren ++ 40 :: (args ++ 41 :: t))) := by
    simp only [List.append_assoc, List.cons_append, List.nil_append]
  rw [htext, expression, ident_name hgap hfirst hname (head_gap hparen (by decide) _)]
  dsimp only
  rw [take_gap hparen (by decide), if_pos rfl]
  dsimp only
  obtain ⟨herr, hok⟩ := hargs
  constructor
  · intro htrailing
    obtain ⟨e, he⟩ := herr htrailing
    rw [he]
    exact ⟨e, rfl⟩
  · intro htrailing
    obtain ⟨r, hr, hspace⟩ := hok htrailing
    have hexpect : expect 41 r = .ok t := by
      have hclose := expect_gap (rfl : IsGap []) (b := 41) (by decide) t
      rw [expect, take_congr hspace]
      exact hclose
    rw [hr]
    dsimp only
    rw [hexpect, hop]
    exact ⟨t, rfl, rfl⟩

/-- The last argument. -/
theorem arguments_last {expr : Str → Option (Except CfgFailure (Bool × Str))} {trailing : Prop}
    {value : Bool}
    {close t rest : Str} (hclose : IsGap close)
    (h : ReadsAs trailing value (close ++ 41 :: t) (expr rest)) (n : Nat) :
    ReadsAs trailing [value] (41 :: t) (arguments expr (n + 1) rest) := by
  obtain ⟨herr, hok⟩ := h
  rw [arguments]
  constructor
  · intro htrailing
    obtain ⟨e, he⟩ := herr htrailing
    rw [he]
    exact ⟨e, rfl⟩
  · intro htrailing
    obtain ⟨r, hr, hspace⟩ := hok htrailing
    rw [hr]
    dsimp only
    rw [take_congr hspace, take_gap hclose (by decide), if_neg (by decide)]
    exact ⟨41 :: t, rfl, rfl⟩

mutual

theorem expression_text : ∀ (c : Condition), c.WellFormed → c.Closed → ∀ {n : Nat} {t : Str},
    (c.text ++ t).length < n → Stops t →
      ReadsAs c.Trailing (c.eval cfg features unescape) t (expression cfg features n (c.text ++ t))
  | .flag gap name, hc, hclosed, n, t, hn, ht => by
    rw [Condition.WellFormed] at hc
    obtain ⟨hgap, hfirst, hname, -⟩ := hc
    obtain ⟨n, rfl⟩ : ∃ m, n = m + 1 := ⟨n - 1, by omega⟩
    have hspace : space (space t) = space t := space_space t
    rw [Condition.text, List.append_assoc, expression, ident_name hgap hfirst hname ht.head]
    dsimp only
    rw [ht.take (by decide) (by decide)]
    dsimp only
    rw [predicate, take_congr hspace, ht.take (by decide) (by decide)]
    exact ⟨fun h => absurd h (by rw [Condition.Trailing]; exact id), fun _ =>
      ⟨space t, rfl, hspace⟩⟩
  | .pair gap name equals quote value, hc, hclosed, n, t, hn, ht => by
    rw [Condition.WellFormed] at hc
    obtain ⟨hgap, ⟨hfirst, hname, -⟩, hequals, hquote, hvalue⟩ := hc
    obtain ⟨n, rfl⟩ : ∃ m, n = m + 1 := ⟨n - 1, by omega⟩
    have htext : (Condition.pair gap name equals quote value).text ++ t =
        gap ++ (name ++ (equals ++ 61 :: (quote ++ 34 :: (value ++ 34 :: t)))) := by
      rw [Condition.text]
      simp only [List.append_assoc, List.cons_append, List.nil_append]
    have hquoted : quoted (quote ++ 34 :: (value ++ 34 :: t)) = .ok (unescape value, t) := by
      rw [quoted, expect_gap hquote (by decide)]
      exact quotedRest_text value [] t hvalue hclosed
    rw [htext, expression, ident_name hgap hfirst hname (head_gap hequals (by decide) _)]
    dsimp only
    rw [take_gap hequals (by decide), if_neg (by decide)]
    dsimp only
    have htake := take_gap (rfl : IsGap []) (b := 61)
      (by decide) 61 (quote ++ 34 :: (value ++ 34 :: t))
    rw [List.nil_append, if_pos rfl] at htake
    rw [predicate, htake]
    dsimp only
    rw [hquoted, Condition.eval]
    refine ⟨fun h => absurd h (by rw [Condition.Trailing]; exact id), fun _ => ⟨t, ?_, rfl⟩⟩
    dsimp only
    split_ifs with hfeature
    · rfl
    · rfl
  | .not gap paren arg close, hc, hclosed, n, t, hn, ht => by
    rw [Condition.WellFormed] at hc
    rw [Condition.Closed] at hclosed
    obtain ⟨hgap, hparen, harg, hclose⟩ := hc
    rw [Condition.text, ← List.append_assoc arg.text close [41]] at hn ⊢
    simp only [List.length_append, List.length_cons, List.length_nil] at hn
    obtain ⟨n, rfl⟩ : ∃ m, n = m + 2 := ⟨n - 2, by omega⟩
    have hone := arguments_last hclose (expression_text arg harg hclosed (n := n + 1)
      (t := close ++ 41 :: t)
      (by simp only [List.length_append, List.length_cons]; omega) ⟨close, 41, t, rfl, hclose,
        .inr rfl⟩) n
    rw [Condition.Trailing]
    have hargs : ReadsAs arg.Trailing [arg.eval cfg features unescape] (41 :: t)
        (if (take 41 ((arg.text ++ close) ++ 41 :: t)).1 then some
          (.ok ([], (arg.text ++ close) ++ 41 :: t))
          else arguments (expression cfg features (n + 1)) (n + 1)
            ((arg.text ++ close) ++ 41 :: t)) := by
      rw [List.append_assoc, harg.not_close]
      exact hone
    exact expression_operator hgap rfl (by decide) hparen hargs rfl
  | .list gap op paren args, hc, hclosed, n, t, hn, ht => by
    rw [Condition.WellFormed] at hc
    rw [Condition.Closed] at hclosed
    obtain ⟨hgap, hparen, hargs⟩ := hc
    rw [Condition.text] at hn ⊢
    simp only [List.length_append, List.length_cons, List.length_nil] at hn
    obtain ⟨n, rfl⟩ : ∃ m, n = m + 1 := ⟨n - 1, by omega⟩
    have hvalues : ReadsAs args.Trailing (args.evals cfg features unescape) (41 :: t)
        (if (take 41 (args.text ++ 41 :: t)).1 then some (.ok ([], args.text ++ 41 :: t))
          else arguments (expression cfg features n) n (args.text ++ 41 :: t)) := by
      cases hnone : args.isNone with
      | true =>
        obtain ⟨close, rfl⟩ := args.isNone_iff.mp hnone
        have hclose : IsGap close := by rwa [Arguments.WellFormed] at hargs
        have htake : (take 41 (close ++ 41 :: t)).1 = true := by
          rw [take_gap hclose (by decide), if_pos rfl]
        rw [Arguments.text, htake, Arguments.Trailing, Arguments.evals]
        exact ⟨False.elim, fun _ => ⟨close ++ 41 :: t, rfl, space_gap hclose _⟩⟩
      | false =>
        rw [hargs.not_close hnone]
        exact arguments_text args hargs hclosed hnone
          (by simp only [List.length_append, List.length_cons]; omega)
          (by simp only [List.length_append, List.length_cons]; omega)
    rw [Condition.Trailing]
    cases op with
    | all => exact expression_operator hgap rfl (by decide) hparen hvalues rfl
    | any => exact expression_operator hgap rfl (by decide) hparen hvalues rfl

theorem arguments_text : ∀ (args : Arguments), args.WellFormed → args.Closed → args.isNone = false →
    ∀ {m n : Nat} {t : Str}, (args.text ++ 41 :: t).length < m → (args.text ++ 41 :: t).length < n →
      ReadsAs args.Trailing (args.evals cfg features unescape) (41 :: t)
        (arguments (expression cfg features m) n (args.text ++ 41 :: t))
  | .none close, hargs, hclosed, hne, m, n, t, hm, hn => by
    cases hne
  | .last arg close, hargs, hclosed, hne, m, n, t, hm, hn => by
    rw [Arguments.WellFormed] at hargs
    rw [Arguments.Closed] at hclosed
    obtain ⟨harg, hclose⟩ := hargs
    obtain ⟨n, rfl⟩ : ∃ k, n = k + 1 := ⟨n - 1, by omega⟩
    rw [Arguments.text, List.append_assoc] at hm ⊢
    rw [Arguments.Trailing]
    exact arguments_last hclose (expression_text arg harg hclosed hm ⟨close, 41, t, rfl, hclose,
      .inr rfl⟩) n
  | .more arg comma args, hargs, hclosed, hne, m, n, t, hm, hn => by
    rw [Arguments.WellFormed] at hargs
    rw [Arguments.Closed] at hclosed
    obtain ⟨harg, hcomma, hrest⟩ := hargs
    obtain ⟨n, rfl⟩ : ∃ k, n = k + 1 := ⟨n - 1, by omega⟩
    rw [Arguments.text, List.append_assoc, List.append_assoc, List.cons_append] at hm hn ⊢
    obtain ⟨herr, hok⟩ := expression_text arg harg hclosed.1 hm
      ⟨comma, 44, args.text ++ 41 :: t, rfl, hcomma, .inl rfl⟩
    simp only [List.length_append, List.length_cons] at hm hn
    rw [arguments, Arguments.Trailing]
    by_cases harg' : arg.Trailing
    · obtain ⟨e, he⟩ := herr harg'
      rw [he]
      exact ⟨fun _ => ⟨e, rfl⟩, fun h => absurd (.inl harg') h⟩
    · obtain ⟨r, hr, hspace⟩ := hok harg'
      rw [hr]
      dsimp only
      rw [take_congr hspace, take_gap hcomma (by decide), if_pos rfl]
      dsimp only
      cases hnone : args.isNone with
      | true =>
        -- another argument is wanted
        obtain ⟨close, rfl⟩ := args.isNone_iff.mp hnone
        have hclose : IsGap close := by rwa [Arguments.WellFormed] at hrest
        rw [Arguments.text] at hm hn ⊢
        obtain ⟨n, rfl⟩ : ∃ k, n = k + 1 := ⟨n - 1, by omega⟩
        obtain ⟨m, rfl⟩ : ∃ k, m = k + 1 := ⟨m - 1, by omega⟩
        have hident : ident (close ++ 41 :: t) = .error (.ident (41 :: t)) := by
          unfold ident
          rw [space_gap hclose, space_byte (by decide)]
          rfl
        have hwant : expression cfg features (m + 1) (close ++ 41 :: t) =
          some (.error (.ident (41 :: t))) := by
          rw [expression, hident]
        rw [arguments, hwant]
        exact ⟨fun _ => ⟨_, rfl⟩, fun h => absurd (.inr (.inl rfl)) h⟩
      | false =>
        obtain ⟨herrs, hoks⟩ := arguments_text args hrest hclosed.2 hnone (m := m) (n := n) (t := t)
          (by simp only [List.length_append, List.length_cons]; omega)
          (by simp only [List.length_append, List.length_cons]; omega)
        constructor
        · rintro (h | h | h)
          · exact absurd h harg'
          · cases h
          · obtain ⟨e, he⟩ := herrs h
            rw [he]
            exact ⟨e, rfl⟩
        · intro h
          obtain ⟨r', hr', hspace'⟩ := hoks fun h' => h (.inr (.inr h'))
          rw [hr']
          exact ⟨r', rfl, hspace'⟩

end

end Reading

/-! ## 5. Target tables -/

/-- `cfg(` and a condition, with the white space before the last parenthesis. -/
def tableText (c : Condition) (close : Str) : Str := ascii "cfg(" ++ (c.text ++ (close ++ [41]))

theorem matches_text {c : Condition} (hc : c.WellFormed) (hclosed : c.Closed) {close : Str}
    (hclose : IsGap close)
    (cfg : CfgSet) (features : Finset Str) :
    (c.Trailing → cfg.matches features (tableText c close) = none) ∧
      (¬ c.Trailing → cfg.matches features (tableText c close) =
        some (c.eval cfg features unescape)) := by
  have hends : PlainEnds (tableText c close) :=
    ⟨⟨99, _, rfl, rfl⟩, 41, ascii "cfg(" ++ (c.text ++ close),
      by rw [tableText, List.append_assoc, List.append_assoc], rfl⟩
  have hstart : tableText c close = ascii "cfg" ++ 40 :: (c.text ++ (close ++ [41])) := by
    rw [tableText, show ascii "cfg(" = ascii "cfg" ++ [40] from rfl, List.append_assoc,
      List.singleton_append]
  have hprefix : (ascii "cfg(").isPrefixOf (tableText c close) = true := by
    rw [List.isPrefixOf_iff_prefix]
    exact ⟨_, rfl⟩
  have hident : ident (tableText c close) = .ok
    (ascii "cfg", 40 :: (c.text ++ (close ++ [41]))) := by
    have hfirst : (ascii "cfg").head?.elim false isLetterByte = true := by decide
    rw [hstart]
    exact ident_name (rfl : IsGap []) hfirst (by decide) rfl
  have hexpect : expect 40 (40 :: (c.text ++ (close ++ [41]))) = .ok (c.text ++ (close ++ [41])) :=
    expect_gap (rfl : IsGap []) (by decide) _
  have hreads : ReadsAs c.Trailing (c.eval cfg features unescape) (close ++ [41])
      (expression cfg features ((c.text ++ (close ++ [41])).length + 1)
        (c.text ++ (close ++ [41]))) :=
    expression_text c hc hclosed (Nat.lt_succ_self _) ⟨close, 41, [], rfl, hclose, .inr rfl⟩
  obtain ⟨herr, hok⟩ := hreads
  unfold CfgSet.matches
  dsimp only
  rw [trimSpace_plain hends, hprefix, hident]
  dsimp only
  rw [hexpect]
  dsimp only
  constructor
  · intro htrailing
    obtain ⟨e, he⟩ := herr htrailing
    rw [he]
    rfl
  · intro htrailing
    obtain ⟨r, hr, hspace⟩ := hok htrailing
    have hlast : expect 41 r = .ok [] := by
      rw [expect, take_congr hspace]
      exact expect_gap hclose (by decide) []
    rw [hr]
    dsimp only
    rw [hlast]
    rfl

/-- Where no string takes its quote: a condition has its value just if no comma is behind the last
    argument of a list, and the backslashes of its strings do not matter. -/
theorem matches_exact (cfg : CfgSet) (features : Finset Str) (c : Condition) (hc : c.WellFormed)
    (hclosed : c.Closed) (close : Str) (hclose : IsGap close) :
    cfg.matches features (tableText c close) = some (c.eval cfg features id) ↔
      ¬ c.Trailing ∧ c.eval cfg features unescape = c.eval cfg features id := by
  obtain ⟨herr, hok⟩ := matches_text hc hclosed hclose cfg features
  by_cases htrailing : c.Trailing
  · rw [herr htrailing]
    exact ⟨fun h => (by cases h), fun h => absurd htrailing h.1⟩
  · rw [hok htrailing, Option.some.injEq]
    exact ⟨fun h => ⟨htrailing, h⟩, And.right⟩

/-- `all(unix, target_os = "linux")`, and `all(unix,)`. -/
def unixAndLinux : Condition :=
  .list [] .all [] (.more (.flag [] (ascii "unix")) []
    (.last (.pair [32] (ascii "target_os") [32] [32] (ascii "linux")) []))
def unixComma : Condition := .list [] .all [] (.more (.flag [] (ascii "unix")) [] (.none []))

/-- A target with the flag `unix`, and `target_os = "linux"`. -/
def linux : CfgSet where
  flags := fun name => name == ascii "unix"
  values := fun name => if name = ascii "target_os" then some fun value =>
    value == ascii "linux" else none

theorem matches_unixAndLinux :
    linux.matches ∅ (tableText unixAndLinux []) = some (unixAndLinux.eval linux ∅ id) ↔
      ¬ unixAndLinux.Trailing ∧ unixAndLinux.eval linux ∅ unescape = unixAndLinux.eval linux ∅ id :=
  matches_exact linux ∅ unixAndLinux
    (by simp [unixAndLinux, Condition.WellFormed, Arguments.WellFormed]; decide)
    (by simp [unixAndLinux, Condition.Closed, Arguments.Closed]; decide) [] rfl

/-- With a comma behind the last argument it throws. -/
theorem unixComma_throws :
    linux.matches ∅ (tableText unixComma []) = none ∧
      ¬ ∀ (cfg : CfgSet) (features : Finset Str) (c : Condition) (close : Str), c.WellFormed →
      IsGap close →
        cfg.matches features (tableText c close) = some (c.eval cfg features id) := by
  have hwell : unixComma.WellFormed := by
    simp [unixComma, Condition.WellFormed, Arguments.WellFormed]
    decide
  have hnone : linux.matches ∅ (tableText unixComma []) = none := by decide +kernel
  refine ⟨hnone, fun h => ?_⟩
  cases hnone.symm.trans (h linux ∅ unixComma [] hwell rfl)

end Trustme.Cargo
