/-
  Subject:   The two runs over the contents of an arm.

  The first run counts how often each capture is used, the second one makes the tokens. Both follow
  the iterator over the contents.

  * `countSubstUses`: the counting run;
  * `ExpandEnv`: what an expander knows of its macro;
  * `entToken`: what is made of an entry that the iterator stops at;
  * `expandStep`: one step of `realGetToken`;
  * `invokeRules`: a matched arm: bound, counted and expanded.
-/
import Trustme.Macro.ExpandState
import Trustme.Macro.Replay

namespace Trustme.Macro

open Lib

variable {H F : Type}

/-! ## 1. The counting run -/

def countConcatEnt (iterations : List Nat) (boundTts : ParameterMappings H F) :
    MacroExpansionConcatEnt → Except Err (ParameterMappings H F)
  | .Ident _ => .ok boundTts
  | .Named e =>
    if namedValueType e = 0 ∨ namedValueType e = NAMEDVALUE_TY_IGNORE then
      boundTts.incCount iterations (namedValueIndex e)
    else .ok boundTts

def countEnt (boundTts : ParameterMappings H F) (visit : Visit H F) :
    Except Err (ParameterMappings H F) :=
  match visit.ent with
  | .Token _ => .ok boundTts
  | .Loop _ _ _ => .ok boundTts
  | .NamedValue e =>
    if namedValueType e = 0 then boundTts.incCount visit.iterations (namedValueIndex e)
    else .ok boundTts
  | .Concat ents => ents.foldlM (countConcatEnt visit.iterations) boundTts

/-- `MacroInvokeRulesCountSubstUses` -/
def countSubstUses (fuel : Nat) (boundTts : ParameterMappings H F)
    (contents : List (MacroExpansionEnt H F)) :
    Option (Except Err (ParameterMappings H F × MacroExpandState H F)) :=
  Next.consume (MacroExpandState.nextStep boundTts.getLoopRepeats contents) countEnt fuel
    (MacroExpandState.new contents) boundTts

/-! ## 2. Tokens -/

structure ExpandEnv (H : Type) where
  transparent : Bool
  isMacroItem : Bool
  hygiene_ : H
  /-- the hygiene of a token that has none -/
  noHygiene : H
  withTailScope : H → H → Bool → H
  crateName : List Char
  /-- `sourceEdition >= ASTEdition::Rust2018` -/
  rust2018 : Bool

/-- A token of the contents, and the hygiene it leaves behind. -/
def contentToken (env : ExpandEnv H) : Token H F → Token H F × H
  | .lexed type text h spacing =>
    match type with
    | .IDENT | .LIFETIME =>
      let h := if env.transparent then h else env.withTailScope h env.hygiene_ env.isMacroItem
      (.lexed type text h .Alone, h)
    | .BYTESTRING | .STRING =>
      let h := env.withTailScope h env.hygiene_ env.isMacroItem
      (.lexed type text h .Alone, h)
    | .PAREN_OPEN | .PAREN_CLOSE | .SQUARE_OPEN | .BRACE_OPEN | .BRACE_CLOSE =>
      (.lexed type text h spacing, env.hygiene_)
    | _ => (.lexed type text h .Alone, env.hygiene_)
  | .interpolated frag => (.interpolated frag, env.hygiene_)

def setAlone : Token H F → Token H F
  | .lexed type text h _ => .lexed type text h .Alone
  | .interpolated frag => .interpolated frag

def integerToken (env : ExpandEnv H) (n : Nat) : Token H F :=
  .lexed .INTEGER (Nat.toDigits 10 n) env.noHygiene .Alone

/-- The text of a token that may stand in an identifier. -/
def identText : Token H F → Option (List Char)
  | .lexed type text _ _ =>
    match type with
    | .STRING | .IDENT => some text
    | _ => none
  | .interpolated _ => none

/-- The tokens that a fragment is read back as. -/
def InterpolatedFragment.tokens : InterpolatedFragment H F → List (Token H F)
  | .TT tok toks => tok :: toks
  | .other frag => [.interpolated frag]

/-- A value of the loop that is `depth` loops further out than the innermost. -/
def loopAt (values : List Nat) (depth : Nat) : Option Nat :=
  if depth < values.length then values[values.length - 1 - depth]? else none

/-! ## 3. The expansion -/

structure MacroExpander (H F : Type) where
  state : MacroExpandState H F
  mappings : ParameterMappings H F
  nextToken : Option (Token H F)
  ttstream : Option (List (Token H F))
  lastHygiene : H

/-- A fragment, moved out at its last use. -/
def takeCap (mappings : ParameterMappings H F) (more : Bool) (iterations : List Nat) (e : Nat) :
    Except Err (ParameterMappings H F) :=
  if more then .ok mappings else mappings.steal iterations e

/-- The token of a variable; of a token tree the further tokens are left to be read. -/
def variableToken (visit : Visit H F) (exp : MacroExpander H F) (e : Nat) :
    Except Err (Option (Token H F) × MacroExpander H F) :=
  match exp.mappings.get visit.iterations e with
  | .error err => .error err
  | .ok frag =>
    match exp.mappings.decCount visit.iterations e with
    | .error err => .error err
    | .ok (more, mappings) =>
      match takeCap mappings more visit.iterations e with
      | .error err => .error err
      | .ok mappings =>
        match frag with
        | .TT tok toks => .ok (some tok, { exp with mappings := mappings, ttstream := some toks })
        | .other frag => .ok (some (.interpolated frag), { exp with mappings := mappings })

/-- The tokens of `$crate`, `${index()}` and `${len()}`. -/
def magicToken (env : ExpandEnv H) (visit : Visit H F) (exp : MacroExpander H F) (e : Nat) :
    Except Err (Option (Token H F) × MacroExpander H F) :=
  if e = NAMEDVALUE_MAGIC_CRATE then
    if env.crateName = [] then
      if env.rust2018 then .ok (some (.lexed .RWORD_CRATE [] env.noHygiene .Alone), exp)
      else .ok (none, exp)
    else
      .ok (some (.lexed .DOUBLE_COLON [] env.noHygiene .Alone),
        { exp with nextToken := some (.lexed .STRING env.crateName env.noHygiene .Alone) })
  else if e = NAMEDVALUE_MAGIC_INDEX then
    match visit.iterations.getLast? with
    | none => .error .bug
    | some i => .ok (some (integerToken env i), exp)
  else
    let kind := e / 256 * 256
    let depth := e % 256
    if kind = NAMEDVALUE_MAGIC_INDEX_AT then
      match loopAt visit.iterations depth with
      | none => .error .bug
      | some i => .ok (some (integerToken env i), exp)
    else if kind = NAMEDVALUE_MAGIC_LEN_AT then
      match loopAt visit.lengths depth with
      | none => .error .bug
      | some n => .ok (some (integerToken env n), exp)
    else .error .bug

def namedValueToken (env : ExpandEnv H) (visit : Visit H F) (exp : MacroExpander H F) (e : Nat) :
    Except Err (Option (Token H F) × MacroExpander H F) :=
  if namedValueType e = 0 then variableToken visit exp e
  else if namedValueType e = NAMEDVALUE_TY_COUNT then
    let value := namedValueIndex e
    match exp.mappings.getVariableCount visit.iterations (value % 2 ^ 22) (value / 2 ^ 22) with
    | .error err => .error err
    | .ok count => .ok (some (integerToken env count), exp)
  else if namedValueType e = NAMEDVALUE_TY_IGNORE then .ok (none, exp)
  else if namedValueType e = NAMEDVALUE_TY_MAGIC then magicToken env visit exp e
  else .error .bug

/-- The identifier so far, with one part more. -/
def concatEnt (iterations : List Nat) (newIdent : List Char × ParameterMappings H F) :
    MacroExpansionConcatEnt → Except Err (List Char × ParameterMappings H F)
  | .Ident name => .ok (newIdent.1 ++ name, newIdent.2)
  | .Named v =>
    match newIdent.2.decCount iterations v with
    | .error err => .error err
    | .ok (more, mappings) =>
      match mappings.get iterations v with
      | .error err => .error err
      | .ok frag =>
        match takeCap mappings more iterations v with
        | .error err => .error err
        | .ok mappings =>
          -- a token tree of more than one token is an error, as is one without a text
          match frag.tokens with
          | [tok] =>
            match identText tok with
            | none => .error .user
            | some text => .ok (newIdent.1 ++ text, mappings)
          | _ => .error .user

/-- The token that is returned for an entry; for some entries the loop goes on. -/
def entToken (env : ExpandEnv H) (visit : Visit H F) (exp : MacroExpander H F) :
    Except Err (Option (Token H F) × MacroExpander H F) :=
  match visit.ent with
  | .Token e =>
    .ok (some (contentToken env e).1, { exp with lastHygiene := (contentToken env e).2 })
  | .NamedValue e => namedValueToken env visit exp e
  | .Concat ents =>
    match ents.foldlM (concatEnt visit.iterations) ([], exp.mappings) with
    | .error err => .error err
    | .ok (newIdent, mappings) =>
      .ok (some (.lexed .IDENT newIdent exp.lastHygiene .Alone), { exp with mappings := mappings })
  | .Loop _ joiner _ =>
    match joiner with
    | none => .error .bug
    | some joiner => .ok (some (setAlone joiner), exp)

/-- One step of `realGetToken`: a token that waits, the stream of a token tree, or a round of the
    iterator and what is made of the entry it stops at. -/
def expandStep (env : ExpandEnv H) (contents : List (MacroExpansionEnt H F))
    (exp : MacroExpander H F) : Next (MacroExpander H F) (Token H F) Err :=
  match exp.nextToken with
  | some tok => .emit tok { exp with nextToken := none, lastHygiene := env.hygiene_ }
  | none =>
    match exp.ttstream with
    | some (tok :: toks) =>
      .emit tok { exp with ttstream := some toks, lastHygiene := env.hygiene_ }
    | some [] => .again { exp with ttstream := none, lastHygiene := env.hygiene_ }
    | none =>
      match MacroExpandState.nextStep exp.mappings.getLoopRepeats contents exp.state with
      | .again s => .again { exp with state := s, lastHygiene := env.hygiene_ }
      | .done => .done
      | .fail err => .fail err
      | .emit visit s =>
        match entToken env visit { exp with state := s, lastHygiene := env.hygiene_ } with
        | .error err => .fail err
        | .ok (none, exp) => .again exp
        | .ok (some tok, exp) => .emit tok exp

/-- All tokens of an expander. -/
def expandAll (fuel : Nat) (env : ExpandEnv H) (contents : List (MacroExpansionEnt H F))
    (mappings : ParameterMappings H F) :
    Option (Except Err (List (Token H F) × MacroExpander H F)) :=
  Next.consume (expandStep env contents) (fun toks tok => .ok (toks ++ [tok])) fuel
    ⟨MacroExpandState.new contents, mappings, none, none, env.hygiene_⟩ []

/-- A matched arm: what it binds, the counting run and the expansion. -/
def invokeRules (fuel : Nat) (env : ExpandEnv H) (ms : List (Match H F)) (variableCount : Nat)
    (contents : List (MacroExpansionEnt H F)) :
    Option (Except Err (List (Token H F) × MacroExpander H F)) :=
  match bindArm ms variableCount with
  | .error err => some (.error err)
  | .ok boundTts =>
    match countSubstUses fuel boundTts contents with
    | none => none
    | some (.error err) => some (.error err)
    | some (.ok (boundTts, _)) => expandAll fuel env contents boundTts

end Trustme.Macro
