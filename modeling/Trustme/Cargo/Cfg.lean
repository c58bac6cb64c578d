/-
  Subject:   The conditions of target tables (src/bin/cargo/cfg.go).

  * `CfgSet.matches`: whether a condition holds, which is found out while it is read;
  * `matches_told`: whether a condition can be read does not depend on the features.
-/
import Trustme.Cargo.Features

namespace Trustme.Cargo

/-! ## 1. Reading -/

/-- What the compiler says of the target: `values` has the keys that have any. -/
structure CfgSet where
  flags : Str → Bool
  values : Str → Option (Str → Bool)

/-- What `CfgParser` throws. -/
inductive CfgFailure where
  | ident (rest : Str)
  | expected (want : Byte) (rest : Str)
  | arity
  | operator (name : Str)
  | unterminated

/-- `unicode.IsSpace(rune(p.input[p.pos]))` -/
def isSpaceByte (b : Byte) : Bool := decide (b ∈ ([9, 10, 11, 12, 13, 32, 0x85, 0xA0] : List Byte))

/-- A byte that goes on an identifier; one above 127 is the letter of this number. -/
def isIdentByte (b : Byte) : Bool :=
  (65 ≤ b && b ≤ 90) || (97 ≤ b && b ≤ 122) || (48 ≤ b && b ≤ 57) || b == 95 || b == 45 ||
    b == 0xAA || b == 0xB5 || b == 0xBA || (0xC0 ≤ b && b != 0xD7 && b != 0xF7)

def space (rest : Str) : Str := rest.dropWhile isSpaceByte

def take (want : Byte) (rest : Str) : Bool × Str :=
  match space rest with
  | [] => (false, [])
  | b :: rest => if b = want then (true, rest) else (false, b :: rest)

def expect (want : Byte) (rest : Str) : Except CfgFailure Str :=
  match take want rest with
  | (true, rest) => .ok rest
  | (false, rest) => .error (.expected want rest)

def ident (rest : Str) : Except CfgFailure (Str × Str) :=
  let name := (space rest).takeWhile isIdentByte
  if name = [] then .error (.ident (space rest)) else .ok (name, (space rest).dropWhile isIdentByte)

/-- The loop of `quoted`. -/
def quotedRest (result : Str) : Str → Except CfgFailure (Str × Str)
  | [] => .error .unterminated
  | [char] => if char = 34 then .ok (result, []) else .error .unterminated
  | char :: next :: rest =>
    if char = 34 then .ok (result, next :: rest)
    else if char = 92 then quotedRest (result ++ [next]) rest
    else quotedRest (result ++ [char]) (next :: rest)

def quoted (rest : Str) : Except CfgFailure (Str × Str) :=
  match expect 34 rest with
  | .error e => .error e
  | .ok rest => quotedRest [] rest

/-- What an operator makes of its arguments. -/
def operator (name : Str) (values : List Bool) : Except CfgFailure Bool :=
  if name = ascii "not" then
    match values with
    | [value] => .ok !value
    | _ => .error .arity
  else if name = ascii "all" then .ok (values.all id)
  else if name = ascii "any" then .ok (values.any id)
  else .error (.operator name)

section Expression

variable (cfg : CfgSet) (features : Finset Str)

/-- `name`, with a value if there is one. -/
def predicate (name rest : Str) : Except CfgFailure (Bool × Str) :=
  match take 61 rest with
  | (true, rest) =>
    match quoted rest with
    | .error e => .error e
    | .ok (value, rest) =>
      if name = ascii "feature" then .ok (decide (value ∈ features), rest)
      else .ok (((cfg.values name).map fun values => values value).getD false, rest)
  | (false, rest) => .ok (cfg.flags name, rest)

/-- The loop over the arguments of an operator, each read by `expr`. -/
def arguments (expr : Str → Option (Except CfgFailure (Bool × Str))) :
    Nat → Str → Option (Except CfgFailure (List Bool × Str))
  | 0, _ => none
  | n + 1, rest =>
    match expr rest with
    | none => none
    | some (.error e) => some (.error e)
    | some (.ok (value, rest)) =>
      match take 44 rest with
      | (false, rest) => some (.ok ([value], rest))
      | (true, rest) =>
        match arguments expr n rest with
        | none => none
        | some (.error e) => some (.error e)
        | some (.ok (values, rest)) => some (.ok (value :: values, rest))

def expression : Nat → Str → Option (Except CfgFailure (Bool × Str))
  | 0, _ => none
  | n + 1, rest =>
    match ident rest with
    | .error e => some (.error e)
    | .ok (name, rest) =>
      match take 40 rest with
      | (false, rest) => some (predicate cfg features name rest)
      | (true, rest) =>
        match (if (take 41 rest).1 then some (.ok ([], rest))
          else arguments (expression n) n rest) with
        | none => none
        | some (.error e) => some (.error e)
        | some (.ok (values, rest)) =>
          match expect 41 rest with
          | .error e => some (.error e)
          | .ok rest => some ((operator name values).map fun value => (value, rest))

/-- `matches`, which is `none` where it throws. -/
def CfgSet.matches (condition : Str) : Option Bool :=
  let condition := trimSpace condition
  if !(ascii "cfg(").isPrefixOf condition then
    some (((cfg.values (ascii "target")).map fun values => values condition).getD false)
  else
    match ident condition with
    | .error _ => none
    | .ok (_, rest) =>
      match expect 40 rest with
      | .error _ => none
      | .ok rest =>
        match expression cfg features (rest.length + 1) rest with
        | some (.ok (result, rest)) =>
          match expect 41 rest with
          | .error _ => none
          | .ok _ => some result
        | _ => none

end Expression

/-! ## 2. Reading does not depend on the features -/

/-- Two results of reading the same: both throw, or both have read as much, with values in `R`. -/
def Alike {β : Type} (R : β → β → Prop) :
    Option (Except CfgFailure (β × Str)) → Option (Except CfgFailure (β × Str)) → Prop
  | none, none => True
  | some (.error _), some (.error _) => True
  | some (.ok (b, rest)), some (.ok (b', rest')) => R b b' ∧ rest = rest'
  | _, _ => False

section Told

variable {cfg : CfgSet} {S T : Finset Str}

theorem predicate_alike (name rest : Str) : Alike (fun _ _ => True)
    (some (predicate cfg S name rest)) (some (predicate cfg T name rest)) := by
  unfold predicate
  split
  · split
    · trivial
    · split
      · exact ⟨trivial, rfl⟩
      · exact ⟨trivial, rfl⟩
  · exact ⟨trivial, rfl⟩

theorem arguments_alike {expr expr' : Str → Option (Except CfgFailure (Bool × Str))}
    (h : ∀ rest, Alike (fun _ _ => True) (expr rest) (expr' rest)) : ∀ (n : Nat) (rest : Str),
      Alike (fun values values' => values.length = values'.length)
        (arguments expr n rest) (arguments expr' n rest)
  | 0, _ => trivial
  | n + 1, rest => by
    have hfirst := h rest
    rw [arguments, arguments]
    match hres : expr rest, hres' : expr' rest with
    | none, none => trivial
    | some (.error _), some (.error _) => trivial
    | some (.ok (value, rest₁)), some (.ok (value', rest₁')) =>
      rw [hres, hres'] at hfirst
      obtain ⟨-, rfl⟩ := hfirst
      dsimp only
      split
      · exact ⟨rfl, rfl⟩
      · next rest₂ _ =>
        have hmore := arguments_alike h n rest₂
        match hargs : arguments expr n rest₂, hargs' : arguments expr' n rest₂ with
        | none, none => trivial
        | some (.error _), some (.error _) => trivial
        | some (.ok (values, rest₃)), some (.ok (values', rest₃')) =>
          rw [hargs, hargs'] at hmore
          exact ⟨congrArg (· + 1) hmore.1, hmore.2⟩
        | none, some _ | some (.error _), none | some (.ok _), none
        | some (.error _), some (.ok _) | some (.ok _), some (.error _) =>
          rw [hargs, hargs'] at hmore
          exact hmore.elim
    | none, some _ | some (.error _), none | some (.ok _), none
    | some (.error _), some (.ok _) | some (.ok _), some (.error _) =>
      rw [hres, hres'] at hfirst
      exact hfirst.elim

/-- Whether an operator takes its arguments is a matter of their number. -/
theorem operator_alike (name : Str) {values values' : List Bool}
    (h : values.length = values'.length)
    (rest : Str) : Alike (fun _ _ => True)
      (some ((operator name values).map fun value => (value, rest)))
      (some ((operator name values').map fun value => (value, rest))) := by
  unfold operator
  split
  · match values, values', h with
    | [], [], _ => trivial
    | [_], [_], _ => exact ⟨trivial, rfl⟩
    | _ :: _ :: _, _ :: _ :: _, _ => trivial
  · split
    · exact ⟨trivial, rfl⟩
    · split
      · exact ⟨trivial, rfl⟩
      · trivial

theorem expression_alike (cfg : CfgSet) (S T : Finset Str) :
    ∀ (n : Nat) (rest : Str), Alike (fun _ _ => True)
    (expression cfg S n rest) (expression cfg T n rest)
  | 0, _ => trivial
  | n + 1, rest => by
    rw [expression, expression]
    cases ident rest with
    | error e => trivial
    | ok r =>
      obtain ⟨name, rest₁⟩ := r
      dsimp only
      split
      · exact predicate_alike name _
      · next rest₂ _ =>
        have hargs : Alike (fun values values' => values.length = values'.length)
            (if (take 41 rest₂).1 then some (.ok ([], rest₂))
              else arguments (expression cfg S n) n rest₂)
            (if (take 41 rest₂).1 then some (.ok ([], rest₂))
              else arguments (expression cfg T n) n rest₂) := by
          split
          · exact ⟨rfl, rfl⟩
          · exact arguments_alike (expression_alike cfg S T n) n rest₂
        revert hargs
        generalize (if (take 41 rest₂).1 then some (.ok ([], rest₂))
          else arguments (expression cfg S n) n rest₂) = r
        generalize (if (take 41 rest₂).1 then some (.ok ([], rest₂))
          else arguments (expression cfg T n) n rest₂) = r'
        intro hargs
        match r, r', hargs with
        | none, none, _ => trivial
        | some (.error _), some (.error _), _ => trivial
        | some (.ok (values, rest₃)), some (.ok (values', _)), ⟨hlength, rfl⟩ =>
          dsimp only
          cases expect 41 rest₃ with
          | error e => trivial
          | ok rest₄ => exact operator_alike name hlength rest₄

/-- A condition can be read with all features, or with none. -/
theorem matches_told (cfg : CfgSet) (condition : Str) (S T : Finset Str) :
    (cfg.matches S condition).isSome = (cfg.matches T condition).isSome := by
  unfold CfgSet.matches
  dsimp only
  split
  · rfl
  · split
    · rfl
    · split
      · rfl
      · next rest _ =>
        have halike := expression_alike cfg S T (rest.length + 1) rest
        match hS : expression cfg S (rest.length + 1) rest,
          hT : expression cfg T (rest.length + 1) rest with
        | none, none => rfl
        | some (.error _), some (.error _) => rfl
        | some (.ok (b, rest₁)), some (.ok (b', rest₁')) =>
          rw [hS, hT] at halike
          obtain ⟨-, rfl⟩ := halike
          dsimp only
          cases expect 41 rest₁ <;> rfl
        | none, some _ | some (.error _), none | some (.ok _), none
        | some (.error _), some (.ok _) | some (.ok _), some (.error _) =>
          refine absurd halike ?_
          rw [hS, hT]
          exact id

end Told

end Trustme.Cargo
