/-
  Subject:   What may follow a fragment in the pattern of a macro_rules arm
             (macro_rules_pattern_checks.cpp).

  * `Leaf`, `Ent`: an entry of a pattern: a token, a fragment, or a loop over entries;
  * `firstOf`, `followOf`, `followAllowed`, `checkRun`: the check, as the compiler makes it;
  * `firstOf_spec`: `firstOf` has the first entries of the words of a pattern;
  * `checkRun_spec`: what the check says about neighbours in the words of a pattern;
  * `checkFollowSets_exact`: it passes only if no word has a fragment before what it may not be
    before; but it does not look across the seams of a word, between two iterations without a
    separator and before the separator of an empty one.
-/
import Trustme.Lib.Repetitions
import Trustme.Metadata.MacroTokens

namespace Trustme.Macro.FollowSets

open Lib Metadata

/-! ## 1. Patterns -/

/-- `MacroPatEnt`, but for the loops: a token (`PAT_TOKEN`), or a fragment that is bound to a
    name. -/
inductive Leaf where
  | token (tok : Metadata.Token)
  | frag (name : RcString) (type : PatType)
deriving DecidableEq

/-- `MacroPatEnt`: a loop (`PAT_LOOP`) has a separator, or none (`TOK_NULL`), and its operator. -/
abbrev Ent := Rep Metadata.Token Leaf

def isTokenPath : eTokenType → Bool
  | .TOK_IDENT | .TOK_DOUBLE_COLON | .TOK_LT | .TOK_DOUBLE_LT | .TOK_RWORD_SELF | .TOK_RWORD_SUPER
  | .TOK_INTERPOLATED_PATH => true
  | _ => false

def isTokenType (tt : eTokenType) : Bool :=
  if isTokenPath tt then true
  else
    match tt with
    | .TOK_PAREN_OPEN | .TOK_SQUARE_OPEN | .TOK_STAR | .TOK_AMP | .TOK_RWORD_EXTERN
        | .TOK_RWORD_UNSAFE
    | .TOK_RWORD_FN | .TOK_INTERPOLATED_TYPE => true
    | _ => false

/-! ## 2. The check -/

mutual

/-- What an entry can begin with, and whether what follows it is a beginning too. -/
def firstOfEnt : Ent → List Leaf × Bool
  | .letter e => ([e], false)
  | .loop _ times subpats =>
    let (out, bodyIsEmpty) := firstOf subpats
    (out, !(times == .plus && !bodyIsEmpty))

/-- The entries that a pattern can begin with, and whether it can be empty. -/
def firstOf : List Ent → List Leaf × Bool
  | [] => ([], true)
  | e :: ents =>
    let (out, goesOn) := firstOfEnt e
    if goesOn then
      let (more, isEmpty) := firstOf ents
      (out ++ more, isEmpty)
    else (out, false)

end

/-- The entries after one that `rest` follows, and then `outer`. -/
def followOf (rest : List Ent) (outer : List Leaf) : List Leaf :=
  let (out, isEmpty) := firstOf rest
  if isEmpty then out ++ outer else out

/-- `TOK_RWORD_PUB <= tt && tt <= TOK_RWORD_TRY` -/
def isReserved (tt : eTokenType) : Bool :=
  CEnum.number eTokenType.TOK_RWORD_PUB ≤ CEnum.number tt && CEnum.number tt ≤
    CEnum.number eTokenType.TOK_RWORD_TRY

def followAllowed (fragment : PatType) (next : Leaf) : Bool :=
  match next with
  | .frag _ type =>
    match fragment with
    | .PAT_EXPR | .PAT_STMT | .PAT_PAT | .PAT_PAT_PARAM => false
    | .PAT_PATH | .PAT_TYPE => type == .PAT_BLOCK
    | .PAT_VIS => type == .PAT_IDENT || type == .PAT_TYPE || type == .PAT_PATH
    | _ => true
  | .token tok =>
    let tt := tok.type
    if tt = .TOK_PAREN_CLOSE ∨ tt = .TOK_BRACE_CLOSE ∨ tt = .TOK_SQUARE_CLOSE then true
    else
      match fragment with
      | .PAT_EXPR | .PAT_STMT => tt == .TOK_FATARROW || tt == .TOK_COMMA || tt == .TOK_SEMICOLON
      | .PAT_PAT =>
        tt == .TOK_FATARROW || tt == .TOK_COMMA || tt == .TOK_EQUAL || tt == .TOK_RWORD_IF ||
          tt == .TOK_RWORD_IN
      | .PAT_PAT_PARAM =>
        tt == .TOK_FATARROW || tt == .TOK_COMMA || tt == .TOK_EQUAL || tt == .TOK_PIPE ||
          tt == .TOK_RWORD_IF ||
          tt == .TOK_RWORD_IN
      | .PAT_PATH | .PAT_TYPE =>
        match tt with
        | .TOK_FATARROW | .TOK_COMMA | .TOK_EQUAL | .TOK_PIPE | .TOK_SEMICOLON
            | .TOK_COLON | .TOK_GT
        | .TOK_DOUBLE_GT | .TOK_SQUARE_OPEN | .TOK_BRACE_OPEN | .TOK_RWORD_AS | .TOK_RWORD_WHERE =>
          true
        | _ => false
      | .PAT_VIS =>
        if tt = .TOK_COMMA then true
        else if tt = .TOK_IDENT ∨ isReserved tt then tt != .TOK_RWORD_PRIV
        else isTokenType tt
      | _ => true

def isRestricted : PatType → Bool
  | .PAT_EXPR | .PAT_STMT | .PAT_PAT | .PAT_PAT_PARAM | .PAT_PATH | .PAT_TYPE | .PAT_VIS => true
  | _ => false

/-- The error: a fragment, and what may follow it but is not allowed there. -/
structure FollowError where
  name : RcString
  type : PatType
  next : Leaf
deriving DecidableEq

/-- The loop over what follows a restricted fragment. -/
def checkFollow (name : RcString) (type : PatType) : List Leaf → Except FollowError Unit
  | [] => .ok ()
  | next :: follow =>
    if followAllowed type next then checkFollow name type follow else .error ⟨name, type, next⟩

def checkLeaf (follow : List Leaf) : Leaf → Except FollowError Unit
  | .token _ => .ok ()
  | .frag name type => if isRestricted type then checkFollow name type follow else .ok ()

mutual

def checkEnt : Ent → List Leaf → Except FollowError Unit
  | .letter e, follow => checkLeaf follow e
  | .loop sep _ subpats, follow => checkRun subpats (sep.toList.map .token ++ follow)

def checkRun : List Ent → List Leaf → Except FollowError Unit
  | [], _ => .ok ()
  | e :: ents, outer => do
      checkEnt e (followOf ents outer)
      checkRun ents outer

end

def MacroRulesCheckFollowSets (ents : List Ent) : Except FollowError Unit := checkRun ents []

/-! ## 3. What is said of an error -/

def fragmentName : PatType → String
  | .PAT_TT => "tt"
  | .PAT_PAT => "pat"
  | .PAT_PAT_PARAM => "pat_param"
  | .PAT_IDENT => "ident"
  | .PAT_PATH => "path"
  | .PAT_TYPE => "ty"
  | .PAT_EXPR => "expr"
  | .PAT_STMT => "stmt"
  | .PAT_BLOCK => "block"
  | .PAT_META => "meta"
  | .PAT_ITEM => "item"
  | .PAT_VIS => "vis"
  | .PAT_LIFETIME => "lifetime"
  | .PAT_LITERAL => "literal"
  | _ => ""

def allowedAfter : PatType → String
  | .PAT_EXPR | .PAT_STMT => "`=>`, `,` or `;`"
  | .PAT_PAT => "`=>`, `,`, `=`, `if` or `in`"
  | .PAT_PAT_PARAM => "`=>`, `,`, `=`, `|`, `if` or `in`"
  | .PAT_PATH | .PAT_TYPE =>
    "`=>`, `,`, `=`, `|`, `;`, `:`, `>`, `>>`, `[`, `\x7b`, `as`, `where` or a `block` fragment"
  | .PAT_VIS =>
    "`,`, an identifier other than `priv`, a token that begins a type, or an `ident`, `ty` or `path` fragment"
  | _ => ""

/-- `Described`; how a token is printed is not part of this. -/
def Leaf.described (tokText : Metadata.Token → Text) : Leaf → Text
  | .token tok => "`".toList ++ tokText tok ++ "`".toList
  | .frag name type => "`$".toList ++ name ++ ":".toList ++ (fragmentName type).toList ++ "`".toList

def FollowError.text (tokText : Metadata.Token → Text) (e : FollowError) : Text :=
  "`$".toList ++ e.name ++ ":".toList ++ (fragmentName e.type).toList ++
  "` may be followed by ".toList ++
    e.next.described tokText ++ ", which is not allowed for `".toList ++
      (fragmentName e.type).toList ++
    "` fragments -- allowed there are ".toList ++ (allowedAfter e.type).toList

/-! ## 4. First entries -/

theorem firstOf_spec : ∀ ents : List Ent,
    (∀ a, a ∈ (firstOf ents).1 ↔ First Leaf.token ents a) ∧
      ((firstOf ents).2 = true ↔ Nullable Leaf.token ents)
  | [] => ⟨fun _ => iff_of_false List.not_mem_nil not_first_nil, iff_of_true rfl nullable_nil⟩
  | .letter e :: ents =>
    ⟨fun a => List.mem_singleton.trans first_letter.symm,
      iff_of_false (fun h => Bool.false_ne_true h) not_nullable_letter⟩
  | .loop sep times subpats :: ents => by
    obtain ⟨hbody, hbodyEmpty⟩ := firstOf_spec subpats
    obtain ⟨hrest, hrestEmpty⟩ := firstOf_spec ents
    have hgoes : (firstOfEnt (.loop sep times subpats)).2 = true ↔
        times ≠ .plus ∨ Nullable Leaf.token subpats := by
      rw [firstOfEnt, ← hbodyEmpty, Bool.not_eq_true', Bool.and_eq_false_iff, beq_eq_false_iff_ne,
        Bool.not_eq_false']
    have hbegins : ∀ a, a ∈ (firstOfEnt (.loop sep times subpats)).1 ↔
      First Leaf.token subpats a := hbody
    rw [firstOf]
    dsimp only
    split
    · next h =>
      rw [hgoes] at h
      refine ⟨fun a => ?_, ?_⟩
      · rw [List.mem_append, hbegins, hrest, first_loop, and_iff_right h]
      · rw [hrestEmpty, nullable_loop, and_iff_right h]
    · next h =>
      rw [hgoes] at h
      refine ⟨fun a => ?_, iff_of_false Bool.false_ne_true fun hnil => h (nullable_loop.mp hnil).1⟩
      rw [hbegins, first_loop, or_iff_left fun hrest => h hrest.1]

theorem mem_followOf {rest : List Ent} {outer : List Leaf} {a : Leaf} :
    a ∈ followOf rest outer ↔ After Leaf.token rest (· ∈ outer) a := by
  obtain ⟨hfirst, hempty⟩ := firstOf_spec rest
  rw [followOf]
  dsimp only
  split
  · next h =>
    rw [List.mem_append, hfirst, After, and_iff_right (hempty.mp h)]
  · next h =>
    rw [hfirst, After, or_iff_left fun hrest => h (hempty.mpr hrest.1)]

/-! ## 5. Errors -/

/-- The first is a restricted fragment, and the second is not allowed after it. -/
def Forbidden (a b : Leaf) : Prop :=
  match a with
  | .token _ => False
  | .frag _ type => isRestricted type = true ∧ followAllowed type b = false

theorem checkFollow_spec (name : RcString) (type : PatType) : ∀ follow : List Leaf,
    (checkFollow name type follow = .ok () ∧ ∀ b ∈ follow, followAllowed type b = true) ∨
      ∃ b ∈ follow, followAllowed type b = false ∧ checkFollow name type follow =
        .error ⟨name, type, b⟩
  | [] => .inl ⟨rfl, List.forall_mem_nil _⟩
  | next :: follow => by
    rw [checkFollow]
    cases hnext : followAllowed type next with
    | false => exact .inr ⟨next, List.mem_cons_self, hnext, rfl⟩
    | true =>
      refine (checkFollow_spec name type follow).imp (fun h => ⟨h.1, ?_⟩)
        (fun ⟨b, hb, h⟩ => ⟨b, ?_, h⟩)
      · exact List.forall_mem_cons.mpr ⟨hnext, h.2⟩
      · exact List.mem_cons_of_mem _ hb

theorem checkLeaf_spec (follow : List Leaf) (a : Leaf) :
    (checkLeaf follow a = .ok () ∧ ∀ b ∈ follow, ¬ Forbidden a b) ∨
      ∃ e, checkLeaf follow a = .error e ∧ a = .frag e.name e.type ∧ e.next ∈ follow ∧
        Forbidden a e.next := by
  cases a with
  | token tok => exact .inl ⟨rfl, fun _ _ h => h⟩
  | frag name type =>
    rw [checkLeaf]
    cases htype : isRestricted type with
    | false =>
      refine .inl ⟨rfl, fun b _ h => ?_⟩
      rw [Forbidden, htype] at h
      exact Bool.false_ne_true h.1
    | true =>
      rcases checkFollow_spec name type follow with ⟨hok, hall⟩ | ⟨b, hb, hbad, herr⟩
      · refine .inl ⟨hok, fun b hb h => ?_⟩
        rw [Forbidden, hall b hb] at h
        exact Bool.false_ne_true h.2.symm
      · exact .inr ⟨_, herr, rfl, hb, htype, hbad⟩

mutual

/-- A `?` has no separator. -/
def Ent.bareOption : Ent → Bool
  | .letter _ => true
  | .loop sep times subpats => (times != .opt || sep.isNone) && bareOptions subpats

def bareOptions : List Ent → Bool
  | [] => true
  | e :: ents => e.bareOption && bareOptions ents

end

theorem mem_outer_iff {sep : Option Metadata.Token} {times : Times} {ents : List Ent}
    {outer : List Leaf} {c : Leaf}
    (hbare : times ≠ .opt ∨ sep = none) :
    c ∈ sep.toList.map Leaf.token ++ followOf ents outer ↔
      AfterLap Leaf.token sep times ents (· ∈ outer) c := by
  rw [List.mem_append, mem_followOf, AfterLap, List.mem_map]
  refine or_congr_left ⟨fun ⟨s, hs, hc⟩ => ?_, fun ⟨⟨s, hs, hc⟩, _⟩ =>
    ⟨s, Option.mem_toList.mpr hs, hc⟩⟩
  have hs : sep = some s := Option.mem_toList.mp hs
  refine ⟨⟨s, hs, hc⟩, hbare.resolve_right fun hnone => ?_⟩
  rw [hnone] at hs
  cases hs

theorem afterLap_outer {sep : Option Metadata.Token} {times : Times} {ents : List Ent}
    {outer : List Leaf} {c : Leaf}
    (h : AfterLap Leaf.token sep times ents (· ∈ outer) c) :
    c ∈ sep.toList.map Leaf.token ++ followOf ents outer := by
  rw [List.mem_append, mem_followOf, List.mem_map]
  exact h.imp (fun ⟨⟨s, hs, hc⟩, _⟩ => ⟨s, Option.mem_toList.mpr hs, hc⟩) id

/-- The check passes and nothing is beside what it may not be beside; or it fails at two that are
    side by side. -/
def Checked (ents : List Ent) (outer : List Leaf) (result : Except FollowError Unit) : Prop :=
  (result = .ok () ∧ ∀ a b, Meets Leaf.token ents (· ∈ outer) a b → ¬ Forbidden a b) ∨
    ∃ e, result = .error e ∧ Forbidden (.frag e.name e.type) e.next ∧
      (bareOptions ents = true → Meets Leaf.token ents (· ∈ outer) (.frag e.name e.type) e.next)

theorem checkRun_spec :
    ∀ (ents : List Ent) (outer : List Leaf), Checked ents outer (checkRun ents outer)
  | [], _ => .inl ⟨rfl, fun _ _ h => absurd h not_meets_nil⟩
  | .letter a :: ents, outer => by
    have ih := checkRun_spec ents outer
    rw [checkRun, checkEnt]
    rcases checkLeaf_spec (followOf ents outer) a with ⟨hok, hnone⟩ | ⟨e, herr, rfl, hnext, hbad⟩
    · rw [hok]
      rcases ih with ⟨hrest, hfree⟩ | ⟨e, hrest, hbad, hmeets⟩
      · refine .inl ⟨hrest, fun x b h => ?_⟩
        rcases meets_letter.mp h with ⟨rfl, hafter⟩ | h
        · exact hnone b (mem_followOf.mpr hafter)
        · exact hfree x b h
      · exact .inr ⟨e, hrest, hbad, fun hbare => meets_letter.mpr (.inr (hmeets hbare))⟩
    · rw [herr]
      exact .inr ⟨e, rfl, hbad, fun _ => meets_letter.mpr (.inl ⟨rfl, mem_followOf.mp hnext⟩)⟩
  | .loop sep times subpats :: ents, outer => by
    have ihBody := checkRun_spec subpats (sep.toList.map .token ++ followOf ents outer)
    have ih := checkRun_spec ents outer
    have hparts : bareOptions (.loop sep times subpats :: ents) = true →
        (times ≠ .opt ∨ sep = none) ∧ bareOptions subpats = true ∧ bareOptions ents = true :=
          fun h => by
      rw [bareOptions, Ent.bareOption, Bool.and_eq_true, Bool.and_eq_true, Bool.or_eq_true,
        bne_iff_ne,
        Option.isNone_iff_eq_none] at h
      exact ⟨h.1.1, h.1.2, h.2⟩
    rw [checkRun, checkEnt]
    rcases ihBody with ⟨hbody, hbodyFree⟩ | ⟨e, hbody, hbad, hmeets⟩
    · rw [hbody]
      rcases ih with ⟨hrest, hfree⟩ | ⟨e, hrest, hbad, hmeets⟩
      · refine .inl ⟨hrest, fun a b h => ?_⟩
        rcases h.of_loop with ⟨s, -, rfl⟩ | h | h
        · exact id
        · exact hbodyFree a b (h.mono fun c hc => afterLap_outer hc)
        · exact hfree a b h
      · exact .inr ⟨e, hrest, hbad, fun hbare => (hmeets (hparts hbare).2.2).loop_rest⟩
    · rw [hbody]
      refine .inr ⟨e, rfl, hbad, fun hbare => ?_⟩
      obtain ⟨hsep, hsub, -⟩ := hparts hbare
      exact Meets.loop_body ((hmeets hsub).mono fun c hc => (mem_outer_iff hsep).mp hc)

theorem meets_nothing {ents : List Ent} {a b : Leaf} :
    Meets Leaf.token ents (· ∈ ([] : List Leaf)) a b ↔
      ∃ w, Yields Leaf.token ents w ∧ Adjacent w (some a) (some b) := by
  constructor
  · rintro ⟨w, _ | c, hw, ho, hadj⟩
    · exact ⟨w, hw, by rwa [Option.map_none, Option.toList_none, List.append_nil] at hadj⟩
    · exact absurd (ho c rfl) List.not_mem_nil
  · rintro ⟨w, hw, hadj⟩
    refine ⟨w, none, hw, fun c hc => ?_,
      by rwa [Option.map_none, Option.toList_none, List.append_nil]⟩
    cases hc

/-- The check of a pattern passes only if no word of it has a fragment directly before something
    that is not allowed there, with no seam between the two; and, where no `?` has a separator, the
    fragment and the entry that an error names are side by side in a word of the pattern. -/
theorem checkFollowSets_exact (ents : List Ent) :
    (MacroRulesCheckFollowSets ents = .ok () → ∀ w, Yields Leaf.token ents w →
      ∀ a b, Adjacent w (some a) (some b) → ¬ Forbidden a b) ∧
    ∀ e, MacroRulesCheckFollowSets ents = .error e →
      isRestricted e.type = true ∧ followAllowed e.type e.next = false ∧
        (bareOptions ents = true → ∃ w, Yields Leaf.token ents w ∧
          Adjacent w (some (.frag e.name e.type)) (some e.next)) := by
  rcases checkRun_spec ents [] with ⟨hok, hfree⟩ | ⟨e, herr, hbad, hmeets⟩
  · refine ⟨fun _ w hw a b hadj => hfree a b (meets_nothing.mpr ⟨w, hw, hadj⟩), fun e h => ?_⟩
    rw [MacroRulesCheckFollowSets, hok] at h
    cases h
  · refine ⟨fun h => ?_, fun e' h => ?_⟩
    · rw [MacroRulesCheckFollowSets, herr] at h
      cases h
    · rw [MacroRulesCheckFollowSets, herr] at h
      cases h
      exact ⟨hbad.1, hbad.2, fun hbare => meets_nothing.mp (hmeets hbare)⟩

/-- Across a seam the check does not look: `$($e:expr)*` passes, and has the word `e e`. -/
example : MacroRulesCheckFollowSets [.loop none .star [.letter (.frag "e".toList .PAT_EXPR)]] =
    .ok () := by
  decide

end Trustme.Macro.FollowSets
