/-
  Subject:   Tokens and the arms of macro_rules as a crate exports them (parse_token.h,
             macro_rules_macro_rules.h).

  * `Token`, `TokenData`: a token: its data, and the marks that are kept beside them. Positions
    are left out;
  * `SimplePatEnt`, `MacroExpansionEnt`: the compiled pattern and the contents, over any tokens
    and identifiers;
  * `findTokenCaptures`: which variables a call of a macro captures as tokens: it reads the types
    of the tokens alone;
  * `MacroRulesArm`: an arm with its captures found.
-/
import Trustme.Ident.HygieneChains
import Trustme.Metadata.MirCodec

namespace Trustme.Metadata

open Trustme.Lib Trustme.Numeric

/-! ## 1. Tokens -/

inductive eTokenType where
  | TOK_NULL | TOK_EOF | TOK_NEWLINE | TOK_WHITESPACE | TOK_COMMENT | TOK_INTERPOLATED_PATH
  | TOK_INTERPOLATED_TYPE | TOK_INTERPOLATED_PATTERN | TOK_INTERPOLATED_EXPR | TOK_INTERPOLATED_STMT
  | TOK_INTERPOLATED_BLOCK | TOK_INTERPOLATED_META | TOK_INTERPOLATED_ITEM | TOK_INTERPOLATED_VIS
  | TOK_IDENT | TOK_LIFETIME | TOK_INTEGER | TOK_CHAR | TOK_FLOAT | TOK_STRING | TOK_BYTESTRING
  | TOK_CSTRING | TOK_HASH | TOK_UNDERSCORE | TOK_PAREN_OPEN | TOK_PAREN_CLOSE | TOK_BRACE_OPEN
  | TOK_BRACE_CLOSE | TOK_LT | TOK_GT | TOK_SQUARE_OPEN | TOK_SQUARE_CLOSE | TOK_COMMA
      | TOK_SEMICOLON
  | TOK_COLON | TOK_DOUBLE_COLON | TOK_STAR | TOK_AMP | TOK_PIPE | TOK_FATARROW | TOK_THINARROW
  | TOK_THINARROW_LEFT | TOK_PLUS | TOK_DASH | TOK_EXCLAM | TOK_PERCENT | TOK_SLASH | TOK_DOT
  | TOK_DOUBLE_DOT | TOK_DOUBLE_DOT_EQUAL | TOK_TRIPLE_DOT | TOK_EQUAL | TOK_PLUS_EQUAL
  | TOK_DASH_EQUAL | TOK_PERCENT_EQUAL | TOK_SLASH_EQUAL | TOK_STAR_EQUAL | TOK_AMP_EQUAL
  | TOK_PIPE_EQUAL | TOK_DOUBLE_EQUAL | TOK_EXCLAM_EQUAL | TOK_GTE | TOK_LTE | TOK_DOUBLE_AMP
  | TOK_DOUBLE_PIPE | TOK_DOUBLE_LT | TOK_DOUBLE_GT | TOK_DOUBLE_LT_EQUAL | TOK_DOUBLE_GT_EQUAL
  | TOK_DOLLAR | TOK_QMARK | TOK_AT | TOK_TILDE | TOK_BACKSLASH | TOK_CARET | TOK_CARET_EQUAL
  | TOK_BACKTICK | TOK_RWORD_PUB | TOK_RWORD_PRIV | TOK_RWORD_MUT | TOK_RWORD_CONST
      | TOK_RWORD_STATIC
  | TOK_RWORD_UNSAFE | TOK_RWORD_EXTERN | TOK_RWORD_CRATE | TOK_RWORD_MOD | TOK_RWORD_STRUCT
  | TOK_RWORD_ENUM | TOK_RWORD_TRAIT | TOK_RWORD_FN | TOK_RWORD_USE | TOK_RWORD_IMPL
      | TOK_RWORD_TYPE
  | TOK_RWORD_WHERE | TOK_RWORD_AS | TOK_RWORD_LET | TOK_RWORD_MATCH | TOK_RWORD_IF | TOK_RWORD_ELSE
  | TOK_RWORD_LOOP | TOK_RWORD_WHILE | TOK_RWORD_FOR | TOK_RWORD_IN | TOK_RWORD_DO
      | TOK_RWORD_CONTINUE
  | TOK_RWORD_BREAK | TOK_RWORD_RETURN | TOK_RWORD_YIELD | TOK_RWORD_BOX | TOK_RWORD_REF
  | TOK_RWORD_FALSE | TOK_RWORD_TRUE | TOK_RWORD_SELF | TOK_RWORD_SUPER | TOK_RWORD_MOVE
  | TOK_RWORD_MACRO | TOK_RWORD_ABSTRACT | TOK_RWORD_FINAL | TOK_RWORD_OVERRIDE | TOK_RWORD_VIRTUAL
  | TOK_RWORD_TYPEOF | TOK_RWORD_BECOME | TOK_RWORD_UNSIZED | TOK_RWORD_ASYNC | TOK_RWORD_AWAIT
  | TOK_RWORD_DYN | TOK_RWORD_TRY | TOK_INTERPOLATED_STMT_ITEM | TOK_LITERAL_SUFFIXED
  deriving DecidableEq

/-- The types in the order of their numbers. -/
def eTokenType.all : List eTokenType := [
    .TOK_NULL, .TOK_EOF, .TOK_NEWLINE, .TOK_WHITESPACE, .TOK_COMMENT, .TOK_INTERPOLATED_PATH,
    .TOK_INTERPOLATED_TYPE, .TOK_INTERPOLATED_PATTERN, .TOK_INTERPOLATED_EXPR,
    .TOK_INTERPOLATED_STMT,
    .TOK_INTERPOLATED_BLOCK, .TOK_INTERPOLATED_META, .TOK_INTERPOLATED_ITEM, .TOK_INTERPOLATED_VIS,
    .TOK_IDENT, .TOK_LIFETIME, .TOK_INTEGER, .TOK_CHAR, .TOK_FLOAT, .TOK_STRING, .TOK_BYTESTRING,
    .TOK_CSTRING, .TOK_HASH, .TOK_UNDERSCORE, .TOK_PAREN_OPEN, .TOK_PAREN_CLOSE, .TOK_BRACE_OPEN,
    .TOK_BRACE_CLOSE, .TOK_LT, .TOK_GT, .TOK_SQUARE_OPEN, .TOK_SQUARE_CLOSE, .TOK_COMMA,
    .TOK_SEMICOLON, .TOK_COLON, .TOK_DOUBLE_COLON, .TOK_STAR, .TOK_AMP, .TOK_PIPE, .TOK_FATARROW,
    .TOK_THINARROW, .TOK_THINARROW_LEFT, .TOK_PLUS, .TOK_DASH, .TOK_EXCLAM, .TOK_PERCENT,
    .TOK_SLASH,
    .TOK_DOT, .TOK_DOUBLE_DOT, .TOK_DOUBLE_DOT_EQUAL, .TOK_TRIPLE_DOT, .TOK_EQUAL, .TOK_PLUS_EQUAL,
    .TOK_DASH_EQUAL, .TOK_PERCENT_EQUAL, .TOK_SLASH_EQUAL, .TOK_STAR_EQUAL, .TOK_AMP_EQUAL,
    .TOK_PIPE_EQUAL, .TOK_DOUBLE_EQUAL, .TOK_EXCLAM_EQUAL, .TOK_GTE, .TOK_LTE, .TOK_DOUBLE_AMP,
    .TOK_DOUBLE_PIPE, .TOK_DOUBLE_LT, .TOK_DOUBLE_GT, .TOK_DOUBLE_LT_EQUAL, .TOK_DOUBLE_GT_EQUAL,
    .TOK_DOLLAR, .TOK_QMARK, .TOK_AT, .TOK_TILDE, .TOK_BACKSLASH, .TOK_CARET, .TOK_CARET_EQUAL,
    .TOK_BACKTICK, .TOK_RWORD_PUB, .TOK_RWORD_PRIV, .TOK_RWORD_MUT, .TOK_RWORD_CONST,
    .TOK_RWORD_STATIC, .TOK_RWORD_UNSAFE, .TOK_RWORD_EXTERN, .TOK_RWORD_CRATE, .TOK_RWORD_MOD,
    .TOK_RWORD_STRUCT, .TOK_RWORD_ENUM, .TOK_RWORD_TRAIT, .TOK_RWORD_FN, .TOK_RWORD_USE,
    .TOK_RWORD_IMPL, .TOK_RWORD_TYPE, .TOK_RWORD_WHERE, .TOK_RWORD_AS, .TOK_RWORD_LET,
    .TOK_RWORD_MATCH, .TOK_RWORD_IF, .TOK_RWORD_ELSE, .TOK_RWORD_LOOP, .TOK_RWORD_WHILE,
    .TOK_RWORD_FOR, .TOK_RWORD_IN, .TOK_RWORD_DO, .TOK_RWORD_CONTINUE, .TOK_RWORD_BREAK,
    .TOK_RWORD_RETURN, .TOK_RWORD_YIELD, .TOK_RWORD_BOX, .TOK_RWORD_REF, .TOK_RWORD_FALSE,
    .TOK_RWORD_TRUE, .TOK_RWORD_SELF, .TOK_RWORD_SUPER, .TOK_RWORD_MOVE, .TOK_RWORD_MACRO,
    .TOK_RWORD_ABSTRACT, .TOK_RWORD_FINAL, .TOK_RWORD_OVERRIDE, .TOK_RWORD_VIRTUAL,
    .TOK_RWORD_TYPEOF,
    .TOK_RWORD_BECOME, .TOK_RWORD_UNSIZED, .TOK_RWORD_ASYNC, .TOK_RWORD_AWAIT, .TOK_RWORD_DYN,
    .TOK_RWORD_TRY, .TOK_INTERPOLATED_STMT_ITEM, .TOK_LITERAL_SUFFIXED]

instance : CEnum eTokenType where
  number := eTokenType.ctorIdx
  named n := eTokenType.all[n]?
  number_lt := by intro x; cases x <;> decide
  named_number := by intro x; cases x <;> rfl

inductive eCoreType where
  | CORETYPE_INVAL | CORETYPE_ANY | CORETYPE_BOOL | CORETYPE_CHAR | CORETYPE_STR | CORETYPE_UINT
  | CORETYPE_INT | CORETYPE_U8 | CORETYPE_I8 | CORETYPE_U16 | CORETYPE_I16 | CORETYPE_U32
  | CORETYPE_I32 | CORETYPE_U64 | CORETYPE_I64 | CORETYPE_U128 | CORETYPE_I128 | CORETYPE_F16
  | CORETYPE_F32 | CORETYPE_F64 | CORETYPE_F128
  deriving DecidableEq

instance : CEnum eCoreType :=
  .ofList [
    .CORETYPE_INVAL, .CORETYPE_ANY, .CORETYPE_BOOL, .CORETYPE_CHAR, .CORETYPE_STR, .CORETYPE_UINT,
    .CORETYPE_INT, .CORETYPE_U8, .CORETYPE_I8, .CORETYPE_U16, .CORETYPE_I16, .CORETYPE_U32,
    .CORETYPE_I32, .CORETYPE_U64, .CORETYPE_I64, .CORETYPE_U128, .CORETYPE_I128, .CORETYPE_F16,
    .CORETYPE_F32, .CORETYPE_F64, .CORETYPE_F128]
    (by intro x; cases x <;> decide) (by decide)

inductive TokenSpacing where
  | Alone | Joint | JointHidden
  deriving DecidableEq

instance : CEnum TokenSpacing :=
  .ofList [.Alone, .Joint, .JointHidden] (by intro x; cases x <;> decide) (by decide)

/-- `struct Ident`. -/
structure Ident where
  hygiene : Ident.Hygiene
  name : RcString
  isRaw : Bool := false
  deriving DecidableEq

/-- What a fragment points to is not read here. -/
inductive TokenData where
  | None
  | Ident (e : Ident)
  | String (value : Str) (spelling : RcString)
  | Integer (datatype : eCoreType) (intval : U128) (spelling : RcString)
  | Float (datatype : eCoreType) (floatval : Float128) (spelling : RcString)
  | Fragment
  deriving DecidableEq

structure Token where
  type : eTokenType
  data : TokenData
  hygiene : Ident.Hygiene := {}
  isDocComment : Bool := false
  spacing : TokenSpacing := .Alone
  deriving DecidableEq

/-! ## 2. Patterns and contents -/

/-- `MacroPatEnt::Type`. -/
inductive PatType where
  | PAT_TOKEN | PAT_LOOP | PAT_TT | PAT_PAT | PAT_IDENT | PAT_PATH | PAT_TYPE | PAT_EXPR | PAT_STMT
  | PAT_BLOCK | PAT_META | PAT_ITEM | PAT_VIS | PAT_LIFETIME | PAT_LITERAL | PAT_PAT_PARAM
  | PAT_TOKEN_AMBIGUOUS
  deriving DecidableEq

instance : CEnum PatType :=
  .ofList [
    .PAT_TOKEN, .PAT_LOOP, .PAT_TT, .PAT_PAT, .PAT_IDENT, .PAT_PATH, .PAT_TYPE, .PAT_EXPR,
    .PAT_STMT,
    .PAT_BLOCK, .PAT_META, .PAT_ITEM, .PAT_VIS, .PAT_LIFETIME, .PAT_LITERAL, .PAT_PAT_PARAM,
    .PAT_TOKEN_AMBIGUOUS]
    (by intro x; cases x <;> decide) (by decide)

structure SimplePatIfCheck (T : Type) where
  ty : PatType
  tok : T

/-- Places in the pattern are `size_t`. -/
inductive SimplePatEnt (T : Type) where
  | End
  | LoopStart (index : BitVec 32)
  | LoopNext
  | LoopEnd
  | Jump (jumpTarget : Nat)
  | ExpectTok (e : T)
  | ExpectPat (type : PatType) (idx : BitVec 32)
  | If (isEqual : Bool) (jumpTarget : Nat) (ents : List (SimplePatIfCheck T))

inductive MacroExpansionConcatEnt (I : Type) where
  | Named (v : BitVec 32)
  | Ident (i : I)

/-- The loops that control a loop are a set, in ascending order. -/
inductive MacroExpansionEnt (T I : Type) where
  | Token (e : T)
  | NamedValue (e : BitVec 32)
  | Concat (e : List (MacroExpansionConcatEnt I))
  | Loop (entries : List (MacroExpansionEnt T I)) (joiner : T)
      (controllingInputLoops : {l : List (BitVec 32) // l.Pairwise (· < ·)})

section Parts

variable {T T' I I' : Type}

def SimplePatIfCheck.map (f : T → T') (c : SimplePatIfCheck T) : SimplePatIfCheck T' :=
  ⟨c.ty, f c.tok⟩

/-- The same entry over other tokens. -/
def SimplePatEnt.map (f : T → T') : SimplePatEnt T → SimplePatEnt T'
  | .End => .End
  | .LoopStart index => .LoopStart index
  | .LoopNext => .LoopNext
  | .LoopEnd => .LoopEnd
  | .Jump jumpTarget => .Jump jumpTarget
  | .ExpectTok e => .ExpectTok (f e)
  | .ExpectPat type idx => .ExpectPat type idx
  | .If isEqual jumpTarget ents => .If isEqual jumpTarget (ents.map (·.map f))

def SimplePatEnt.tokens : SimplePatEnt T → List T
  | .ExpectTok e => [e]
  | .If _ _ ents => ents.map (·.tok)
  | _ => []

def MacroExpansionConcatEnt.map (g : I → I') : MacroExpansionConcatEnt I →
    MacroExpansionConcatEnt I'
  | .Named v => .Named v
  | .Ident i => .Ident (g i)

def MacroExpansionConcatEnt.idents : MacroExpansionConcatEnt I → List I
  | .Named _ => []
  | .Ident i => [i]

mutual

/-- The same contents over other tokens and identifiers. -/
def MacroExpansionEnt.map (f : T → T') (g : I → I') : MacroExpansionEnt T I →
    MacroExpansionEnt T' I'
  | .Token e => .Token (f e)
  | .NamedValue e => .NamedValue e
  | .Concat e => .Concat (e.map (·.map g))
  | .Loop entries joiner loops => .Loop (mapContents f g entries) (f joiner) loops

def mapContents (f : T → T') (g : I → I') :
    List (MacroExpansionEnt T I) → List (MacroExpansionEnt T' I')
  | [] => []
  | e :: es => e.map f g :: mapContents f g es

end

mutual

def MacroExpansionEnt.tokens : MacroExpansionEnt T I → List T
  | .Token e => [e]
  | .NamedValue _ => []
  | .Concat _ => []
  | .Loop entries joiner _ => contentsTokens entries ++ [joiner]

def contentsTokens : List (MacroExpansionEnt T I) → List T
  | [] => []
  | e :: es => e.tokens ++ contentsTokens es

end

mutual

def MacroExpansionEnt.idents : MacroExpansionEnt T I → List I
  | .Token _ => []
  | .NamedValue _ => []
  | .Concat e => e.flatMap (·.idents)
  | .Loop entries _ _ => contentsIdents entries

def contentsIdents : List (MacroExpansionEnt T I) → List I
  | [] => []
  | e :: es => e.idents ++ contentsIdents es

end

mutual

/-- How deep the loops are nested. -/
def MacroExpansionEnt.depth : MacroExpansionEnt T I → Nat
  | .Loop entries _ _ => contentsDepth entries + 1
  | _ => 0

def contentsDepth : List (MacroExpansionEnt T I) → Nat
  | [] => 0
  | e :: es => max e.depth (contentsDepth es)

end

variable {T'' I'' : Type}

theorem SimplePatEnt.map_map (f : T → T') (f' : T' → T'') (pe : SimplePatEnt T) :
    (pe.map f).map f' = pe.map fun t => f' (f t) := by
  cases pe with
  | If isEqual jumpTarget ents =>
    have hents : (ents.map (·.map f)).map (·.map f') = ents.map (·.map fun t => f' (f t)) := by
      rw [List.map_map]
      rfl
    rw [SimplePatEnt.map, SimplePatEnt.map, SimplePatEnt.map, hents]
  | _ => rfl

theorem SimplePatEnt.map_eq_iff {f f' : T → T'} (pe : SimplePatEnt T) :
    pe.map f = pe.map f' ↔ ∀ t ∈ pe.tokens, f t = f' t := by
  cases pe with
  | ExpectTok e => simp [SimplePatEnt.map, SimplePatEnt.tokens]
  | If isEqual jumpTarget ents =>
    simp [SimplePatEnt.map, SimplePatEnt.tokens, SimplePatIfCheck.map, List.map_inj_left]
  | _ => simp [SimplePatEnt.map, SimplePatEnt.tokens]

theorem MacroExpansionConcatEnt.map_map (g : I → I') (g' : I' → I'')
    (e : MacroExpansionConcatEnt I) : (e.map g).map g' = e.map fun i => g' (g i) := by
  cases e <;> rfl

theorem MacroExpansionConcatEnt.map_eq_iff {g g' : I → I'} (e : MacroExpansionConcatEnt I) :
    e.map g = e.map g' ↔ ∀ i ∈ e.idents, g i = g' i := by
  cases e <;> simp [MacroExpansionConcatEnt.map, MacroExpansionConcatEnt.idents]

mutual

theorem MacroExpansionEnt.map_map (f : T → T') (f' : T' → T'') (g : I → I') (g' : I' → I'') :
    ∀ e : MacroExpansionEnt T I,
      (e.map f g).map f' g' = e.map (fun t => f' (f t)) fun i => g' (g i)
  | .Token _ => rfl
  | .NamedValue _ => rfl
  | .Concat e => by
    simp only [MacroExpansionEnt.map, List.map_map, Function.comp_def,
      MacroExpansionConcatEnt.map_map]
  | .Loop entries joiner loops => by
    simp only [MacroExpansionEnt.map, mapContents_map f f' g g' entries]

theorem mapContents_map (f : T → T') (f' : T' → T'') (g : I → I') (g' : I' → I'') :
    ∀ es : List (MacroExpansionEnt T I), mapContents f' g' (mapContents f g es) =
      mapContents (fun t => f' (f t)) (fun i => g' (g i)) es
  | [] => rfl
  | e :: es => by
    rw [mapContents, mapContents, mapContents, MacroExpansionEnt.map_map f f' g g' e,
      mapContents_map f f' g g' es]

end

mutual

/-- Two maps agree on an entry, if they do on its tokens and identifiers. -/
theorem MacroExpansionEnt.map_eq_iff (f f' : T → T') (g g' : I → I') : ∀ e : MacroExpansionEnt T I,
    e.map f g = e.map f' g' ↔ (∀ t ∈ e.tokens, f t = f' t) ∧ ∀ i ∈ e.idents, g i = g' i
  | .Token e => by
    simp [MacroExpansionEnt.map, MacroExpansionEnt.tokens, MacroExpansionEnt.idents]
  | .NamedValue e => by
    simp [MacroExpansionEnt.map, MacroExpansionEnt.tokens, MacroExpansionEnt.idents]
  | .Concat e => by
    have hents : e.map (·.map g) = e.map (·.map g') ↔ ∀ i ∈ e.flatMap (·.idents), g i = g' i := by
      simp only [List.map_inj_left, MacroExpansionConcatEnt.map_eq_iff, List.mem_flatMap]
      exact ⟨fun h i ⟨c, hc, hi⟩ => h c hc i hi, fun h c hc i hi => h i ⟨c, hc, hi⟩⟩
    rw [MacroExpansionEnt.map, MacroExpansionEnt.map, MacroExpansionEnt.Concat.injEq, hents]
    simp [MacroExpansionEnt.tokens, MacroExpansionEnt.idents]
  | .Loop entries joiner loops => by
    rw [MacroExpansionEnt.map, MacroExpansionEnt.map, MacroExpansionEnt.Loop.injEq,
      mapContents_eq_iff f f' g g' entries]
    simp only [MacroExpansionEnt.tokens, MacroExpansionEnt.idents, List.mem_append,
      List.mem_singleton, or_imp, forall_and, forall_eq, and_true]
    exact and_right_comm

theorem mapContents_eq_iff (f f' : T → T') (g g' : I → I') :
    ∀ es : List (MacroExpansionEnt T I), mapContents f g es = mapContents f' g' es ↔
      (∀ t ∈ contentsTokens es, f t = f' t) ∧ ∀ i ∈ contentsIdents es, g i = g' i
  | [] => by simp [mapContents, contentsTokens, contentsIdents]
  | e :: es => by
    rw [mapContents, mapContents, List.cons.injEq, MacroExpansionEnt.map_eq_iff f f' g g' e,
      mapContents_eq_iff f f' g g' es]
    simp only [contentsTokens, contentsIdents, List.mem_append, or_imp, forall_and]
    exact and_and_and_comm

end

end Parts

/-! ## 3. Captures -/

inductive CaptureGroup where
  | Other | Call | DefinitionParameters
  deriving DecidableEq

/-- `TokenCaptureScan`. -/
structure TokenCaptureScan where
  captures : List Bool := []
  groups : List CaptureGroup := []
  insideCall : Nat := 0
  afterName : Bool := false
  afterBang : Bool := false
  afterCallName : Bool := false
  definitionGroup : Bool := false

namespace TokenCaptureScan

def name (s : TokenCaptureScan) : TokenCaptureScan :=
  { s with afterCallName := s.afterBang, afterName := !s.afterBang, afterBang := false }

/-- The end of `token`. -/
def forget (s : TokenCaptureScan) : TokenCaptureScan :=
  { s with afterName := false, afterBang := false, afterCallName := false }

/-- `Token::typeIsRword`. -/
def typeIsRword (type : eTokenType) : Bool :=
  CEnum.number eTokenType.TOK_RWORD_PUB ≤ CEnum.number type &&
    CEnum.number type ≤ CEnum.number eTokenType.TOK_RWORD_TRY

def openGroup (s : TokenCaptureScan) (type : eTokenType) : TokenCaptureScan :=
  let isCall := s.definitionGroup || s.afterBang || s.afterCallName
  let group := if s.definitionGroup && type == .TOK_PAREN_OPEN then .DefinitionParameters
    else if isCall then .Call else .Other
  { s with
    groups := group :: s.groups
    definitionGroup := false
    insideCall := if isCall then s.insideCall + 1 else s.insideCall }

def closeGroup (s : TokenCaptureScan) : TokenCaptureScan :=
  match s.groups with
  | [] => s
  | group :: groups =>
    { s with
      groups := groups
      insideCall := if group ≠ .Other then s.insideCall - 1 else s.insideCall
      definitionGroup := group = .DefinitionParameters }

def token (s : TokenCaptureScan) : eTokenType → TokenCaptureScan
  | .TOK_PAREN_OPEN => (s.openGroup .TOK_PAREN_OPEN).forget
  | .TOK_SQUARE_OPEN => (s.openGroup .TOK_SQUARE_OPEN).forget
  | .TOK_BRACE_OPEN => (s.openGroup .TOK_BRACE_OPEN).forget
  | .TOK_PAREN_CLOSE => s.closeGroup.forget
  | .TOK_SQUARE_CLOSE => s.closeGroup.forget
  | .TOK_BRACE_CLOSE => s.closeGroup.forget
  | .TOK_RWORD_MACRO => { s with definitionGroup := true }.name
  | .TOK_EXCLAM => { s with afterBang := s.afterName, afterName := false, afterCallName := false }
  | .TOK_IDENT => s.name
  | type => if typeIsRword type then s.name else s.forget

/-- The variable is captured, if it stands inside a call. -/
def capture (s : TokenCaptureScan) (value : Nat) : TokenCaptureScan :=
  if s.insideCall > 0 then
    { s with
      captures :=
        (s.captures ++ List.replicate (value + 1 - s.captures.length) false).set value true }
  else s

variable {T I : Type}

mutual

/-- One step of `scan`. -/
def scanEnt (type : T → eTokenType) (s : TokenCaptureScan) : MacroExpansionEnt T I →
    TokenCaptureScan
  | .Loop entries _ _ => scan type s entries
  | .Token tok => s.token (type tok)
  | .NamedValue value =>
    if value.toNat < 2 ^ 30 then (s.capture value.toNat).name else s.name
  | .Concat _ => s.name

def scan (type : T → eTokenType) (s : TokenCaptureScan) :
    List (MacroExpansionEnt T I) → TokenCaptureScan
  | [] => s
  | ent :: ents => scan type (scanEnt type s ent) ents

end

variable {T' I' : Type}

mutual

theorem scanEnt_map (type : T' → eTokenType) (f : T → T') (g : I → I') (s : TokenCaptureScan) :
    ∀ e : MacroExpansionEnt T I, scanEnt type s (e.map f g) = scanEnt (fun t => type (f t)) s e
  | .Token _ => rfl
  | .NamedValue _ => rfl
  | .Concat _ => rfl
  | .Loop entries _ _ => by
    simp only [MacroExpansionEnt.map, scanEnt, scan_map type f g s entries]

/-- The scan of the types only. -/
theorem scan_map (type : T' → eTokenType) (f : T → T') (g : I → I') (s : TokenCaptureScan) :
    ∀ es : List (MacroExpansionEnt T I),
      scan type s (mapContents f g es) = scan (fun t => type (f t)) s es
  | [] => rfl
  | e :: es => by
    rw [mapContents, scan, scan, scanEnt_map type f g s e, scan_map type f g _ es]

end

end TokenCaptureScan

/-- `findTokenCaptures`, for tokens of any kind that have a type. -/
def findTokenCaptures {T I : Type} (type : T → eTokenType)
    (contents : List (MacroExpansionEnt T I)) :
    List Bool :=
  (TokenCaptureScan.scan type {} contents).captures

theorem findTokenCaptures_map {T T' I I' : Type} (type : T' → eTokenType) (f : T → T') (g : I → I')
    (es : List (MacroExpansionEnt T I)) :
    findTokenCaptures type (mapContents f g es) = findTokenCaptures (fun t => type (f t)) es := by
  rw [findTokenCaptures, findTokenCaptures, TokenCaptureScan.scan_map]

/-- `MacroRulesArm`; every arm that is made has its captures found. -/
structure MacroRulesArm where
  paramNames : List RcString
  pattern : List (SimplePatEnt Token)
  contents : List (MacroExpansionEnt Token Ident)
  tokenCaptures : List Bool
  found : tokenCaptures = findTokenCaptures Token.type contents

end Trustme.Metadata
