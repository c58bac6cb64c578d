/-
  Subject:   The right-hand side of a macro_rules arm, the left-hand side it refers to, and tokens.

  * `Token`, `InterpolatedFragment`: tokens, and what a fragment captures;
  * `MacroExpansionEnt`, `MacroExpansionConcatEnt`: the contents of an arm;
  * `MacroPatEnt`: a pattern: its variables and its loops.
-/
import Mathlib.Algebra.Ring.Nat
import Mathlib.Data.Nat.Basic

namespace Trustme.Macro

/-- What stops an expansion: an error in the macro or its use (`ERROR`), or a broken assumption of
    the compiler (`BUG`, an assertion, an access out of range). -/
inductive Err
  | user
  | bug
deriving DecidableEq, Repr

/-! ## 1. Tokens -/

inductive TokenType
  | IDENT | LIFETIME | STRING | BYTESTRING
  | PAREN_OPEN | PAREN_CLOSE | SQUARE_OPEN | BRACE_OPEN | BRACE_CLOSE
  | DOUBLE_COLON | RWORD_CRATE | INTEGER
  | other (n : Nat)
deriving DecidableEq, Repr

inductive TokenSpacing
  | Alone | Joint | JointHidden
deriving DecidableEq, Repr

/-- A token of the lexer, with hygiene `H`, or one that carries a parsed fragment `F`. `TOK_EOF` and
    `TOK_NULL` are not among them. -/
inductive Token (H F : Type)
  | lexed (type : TokenType) (text : List Char) (hygiene : H) (spacing : TokenSpacing)
  | interpolated (frag : F)
deriving DecidableEq, Repr

/-- A captured fragment: a token tree, as the tokens it is read back as, of which there is at least
    one; or a parsed piece of syntax. -/
inductive InterpolatedFragment (H F : Type)
  | TT (tok : Token H F) (toks : List (Token H F))
  | other (frag : F)
deriving DecidableEq, Repr

/-! ## 2. Contents -/

/-- The kinds of a named value stand in bits 30 and 31, over an index. -/
def NAMEDVALUE_TY_MAGIC : Nat := 2 ^ 30

def NAMEDVALUE_TY_IGNORE : Nat := 2 * 2 ^ 30

def NAMEDVALUE_TY_COUNT : Nat := 3 * 2 ^ 30

def NAMEDVALUE_MAGIC_CRATE : Nat := NAMEDVALUE_TY_MAGIC

def NAMEDVALUE_MAGIC_INDEX : Nat := NAMEDVALUE_TY_MAGIC + 1

def NAMEDVALUE_MAGIC_INDEX_AT : Nat := NAMEDVALUE_TY_MAGIC + 0x100

def NAMEDVALUE_MAGIC_LEN_AT : Nat := NAMEDVALUE_TY_MAGIC + 0x200

/-- `e & ~NAMEDVALUE_VALMASK` -/
def namedValueType (e : Nat) : Nat := e / 2 ^ 30 * 2 ^ 30

/-- `e & NAMEDVALUE_VALMASK` -/
def namedValueIndex (e : Nat) : Nat := e % 2 ^ 30

/-- A part of `${concat(..)}`: a named value, or an identifier or string. -/
inductive MacroExpansionConcatEnt
  | Named (v : Nat)
  | Ident (name : List Char)
deriving DecidableEq, Repr

/-- A loop has a token between its iterations, or none, and the loops of the pattern that control
    it, in ascending order. -/
inductive MacroExpansionEnt (H F : Type)
  | Token (t : Token H F)
  | NamedValue (e : Nat)
  | Concat (ents : List MacroExpansionConcatEnt)
  | Loop (entries : List (MacroExpansionEnt H F)) (joiner : Option (Macro.Token H F))
      (controllingInputLoops : List Nat)

/-! ## 3. Patterns -/

/-- What a pattern says about its variables: tokens bind nothing, a fragment binds a variable, and a
    loop holds the variables of its body once for each iteration. -/
inductive MacroPatEnt
  | token
  | frag (nameIndex : Nat)
  | loop (nameIndex : Nat) (subpats : List MacroPatEnt)

end Trustme.Macro
