/-
  Subject:   The parser of token trees (`ParseTT` in parse_common.cpp).

  * `parseTT`, `ttItems`: a token, or a group up to its closing delimiter;
  * `Formed`: the trees it makes;
  * `parseTT_exact`: it takes the tokens of a formed tree, and no others;
  * `parseTT_returns`: on a source that ends it gives a tree or rejects a token;
  * `parseTT_again`: a tree that was parsed, read as a stream, is parsed as the same tree.

  The delimiter that ends a group may be the end of the file.
-/
import Trustme.Lib.Scanning
import Trustme.Parse.TokenCursor
import Trustme.Parse.TokenTree

namespace Trustme.Parse

open Lib
open Metadata (eTokenType)

variable {σ Tok Ed Hyg : Type}

/-! ## 1. The parser -/

/-- `parseErrorUnexpected`, and the bug checks of a token stream. -/
inductive ParseError (Tok : Type) where
  | unexpected (tok : Tok)
  | bug (check : BugCheck)

def checked {α : Type} : Except BugCheck α → Outcome (ParseError Tok) α
  | .ok a => .ok a
  | .error check => .err (.bug check)

/-- The closing delimiter of an opening one. -/
def closerOf : eTokenType → Option eTokenType
  | .TOK_PAREN_OPEN => some .TOK_PAREN_CLOSE
  | .TOK_SQUARE_OPEN => some .TOK_SQUARE_CLOSE
  | .TOK_BRACE_OPEN => some .TOK_BRACE_CLOSE
  | _ => none

/-- The tokens that no tree starts with. -/
def refused : eTokenType → Bool
  | .TOK_EOF => true
  | .TOK_NULL => true
  | .TOK_PAREN_CLOSE => true
  | .TOK_SQUARE_CLOSE => true
  | .TOK_BRACE_CLOSE => true
  | _ => false

variable (R : Reader σ Tok Ed Hyg)

/-- The loop over the trees of a group, with the token that ends it. -/
def ttItems
    (parse : TokenStream σ Tok Ed Hyg → Outcome (ParseError Tok)
      (TokenTree Tok Ed Hyg × TokenStream σ Tok Ed Hyg))
    (closer : eTokenType) : Nat → TokenStream σ Tok Ed Hyg → List (TokenTree Tok Ed Hyg) →
      Outcome (ParseError Tok) ((List (TokenTree Tok Ed Hyg) × Tok) × TokenStream σ Tok Ed Hyg)
  | 0, _, _ => .running
  | fuel + 1, lex, items => do
      let (tok, lex) ← checked (lex.getTokenIf R closer)
      if let some tok := tok then .ok ((items, tok), lex)
      else
        let (tok, lex) ← checked (lex.getTokenIf R .TOK_EOF)
        if let some tok := tok then .ok ((items, tok), lex)
        else
          let (type, lex) ← checked (lex.lookahead R 0)
          if type = .TOK_NULL then .err (.unexpected (lex.getToken R).1)
          else
            let (item, lex) ← parse lex
            ttItems parse closer fuel lex (items ++ [item])

def parseTT : Nat → Bool → TokenStream σ Tok Ed Hyg →
    Outcome (ParseError Tok) (TokenTree Tok Ed Hyg × TokenStream σ Tok Ed Hyg)
  | 0, _, _ => .running
  | fuel + 1, unwrapped, lex =>
    let (tok, lex) := lex.getToken R
    let edition := lex.edition
    match closerOf (R.type tok) with
    | none =>
      if refused (R.type tok) then .err (.unexpected tok)
      else .ok (.token edition lex.hygiene tok, lex)
    | some closer => do
      let items := if unwrapped then [] else [.token edition lex.hygiene tok]
      let ((items, tok), lex) ← ttItems R (parseTT fuel false) closer fuel lex items
      let items := if unwrapped then items else items ++ [.token lex.edition lex.hygiene tok]
      .ok (.group edition lex.hygiene items, lex)

/-! ## 2. The trees it makes -/

/-- A token as it is in a tree. -/
def leaf (e : Entry Tok Ed Hyg) : TokenTree Tok Ed Hyg := .token e.edition e.hygiene e.tok

/-- A group has the edition of its first token and the hygiene of its last. -/
def delimited (o : Entry Tok Ed Hyg) (items : List (TokenTree Tok Ed Hyg)) (c : Entry Tok Ed Hyg) :
    TokenTree Tok Ed Hyg :=
  .group o.edition c.hygiene (leaf o :: items ++ [leaf c])

/-- Without its delimiters. -/
def unwrap : TokenTree Tok Ed Hyg → TokenTree Tok Ed Hyg
  | .token edition hygiene tok => .token edition hygiene tok
  | .group edition hygiene subtrees => .group edition hygiene subtrees.tail.dropLast

/-- A group ends at its closing delimiter, or at the end of the file. -/
def Closes (type : Tok → eTokenType) (closer : eTokenType) (c : Entry Tok Ed Hyg) : Prop :=
  type c.tok = closer ∨ type c.tok = .TOK_EOF

inductive Formed (type : Tok → eTokenType) : TokenTree Tok Ed Hyg → Prop
  | token {e : Entry Tok Ed Hyg} (hplain : closerOf (type e.tok) = none)
      (hrefused : refused (type e.tok) = false) :
      Formed type (leaf e)
  | group {o c : Entry Tok Ed Hyg} {closer : eTokenType} {items : List (TokenTree Tok Ed Hyg)}
      (hopen : closerOf (type o.tok) = some closer) (hclose : Closes type closer c)
      (hitems : ∀ t ∈ items, Formed type t) : Formed type (delimited o items c)

variable {K : Tokens Tok} {next : σ → Entry Tok Ed Hyg × σ}

open TokenTree TokenStream

theorem leaves_leaf (e : Entry Tok Ed Hyg) : (leaf e).leaves K = [e] := by
  rw [leaf, leaves]

theorem leaves_delimited (o c : Entry Tok Ed Hyg) (items : List (TokenTree Tok Ed Hyg)) :
    (delimited o items c).leaves K = o :: (leavesAll K items ++ [c]) := by
  rw [delimited, List.cons_append, leaves, leaves_leaf, leavesAll_append, leavesAll, leavesAll,
    leaves_leaf]
  rfl

theorem unwrap_delimited (o c : Entry Tok Ed Hyg) (items : List (TokenTree Tok Ed Hyg)) :
    unwrap (delimited o items c) = .group o.edition c.hygiene items := by
  rw [delimited, unwrap, List.cons_append, List.tail_cons, List.dropLast_concat]

variable {t : TokenTree Tok Ed Hyg}

/-- What a tree starts with is no end of a group. -/
theorem Formed.leaves_eq {type : Tok → eTokenType} (h : Formed type t) :
    ∃ e l, t.leaves K = e :: l ∧ refused (type e.tok) = false := by
  cases h with
  | token hplain hrefused => exact ⟨_, [], leaves_leaf _, hrefused⟩
  | group hopen hclose hitems =>
    refine ⟨_, _, leaves_delimited _ _ _, ?_⟩
    unfold closerOf at hopen
    split at hopen
    · next heq => rw [heq]; rfl
    · next heq => rw [heq]; rfl
    · next heq => rw [heq]; rfl
    · cases hopen

theorem refused_closer {type closer : eTokenType} (h : closerOf type = some closer) :
    refused closer = true := by
  unfold closerOf at h
  split at h
  · cases h; rfl
  · cases h; rfl
  · cases h; rfl
  · cases h

/-! ## 3. The calls -/

variable {R} {s : TokenStream σ Tok Ed Hyg} {e : Entry Tok Ed Hyg} {u : Stream' (Entry Tok Ed Hyg)}

/-- A token has been taken. -/
structure Took (R : Reader σ Tok Ed Hyg) (e : Entry Tok Ed Hyg) (u : Stream' (Entry Tok Ed Hyg))
    (s : TokenStream σ Tok Ed Hyg) : Prop where
  upcoming : upcoming R s = u
  edition : s.edition = e.edition
  hygiene : s.hygiene = e.hygiene

theorem stands_self (s : TokenStream σ Tok Ed Hyg) :
    Stands R s ⟨upcoming R s, s.edition, s.hygiene, s.cacheValid⟩ :=
  ⟨rfl, rfl, rfl, rfl⟩

variable (h : upcoming R s = Stream'.cons e u)

include h

theorem getToken_took : (s.getToken R).1 = e.tok ∧ Took R e u (s.getToken R).2 := by
  obtain ⟨htok, hnext⟩ := (stands_self (R := R) s).getToken
  rw [Cursor.getToken, h] at htok hnext
  exact ⟨htok, hnext.upcoming, hnext.edition, hnext.hygiene⟩

theorem getTokenIf_some {exp : eTokenType} (hexp : R.type e.tok = exp) :
    ∃ s', s.getTokenIf R exp = .ok (some e.tok, s') ∧ Took R e u s' := by
  obtain ⟨tok, s', hcall, h'⟩ := (stands_self (R := R) s).getTokenIf exp
  rw [h, Stream'.head_cons, if_pos hexp, Cursor.getToken] at h'
  obtain ⟨rfl, hnext⟩ := h'
  exact ⟨s', hcall, hnext.upcoming, hnext.edition, hnext.hygiene⟩

theorem getTokenIf_none {exp : eTokenType} (hexp : R.type e.tok ≠ exp) :
    ∃ s', s.getTokenIf R exp = .ok (none, s') ∧ upcoming R s' = Stream'.cons e u := by
  obtain ⟨tok, s', hcall, h'⟩ := (stands_self (R := R) s).getTokenIf exp
  rw [h, Stream'.head_cons, if_neg hexp] at h'
  obtain ⟨rfl, hnext⟩ := h'
  exact ⟨s', hcall, hnext.upcoming⟩

theorem lookahead_zero :
    ∃ s', s.lookahead R 0 = .ok (R.type e.tok, s') ∧ upcoming R s' = Stream'.cons e u := by
  rw [TokenStream.lookahead]
  rcases (stands_self (R := R) s).lookahead 0 with ⟨-, hbad⟩ | ⟨e', s', hs, hc, h'⟩
  · rw [Cursor.lookahead, if_pos (Nat.lt_of_lt_of_le (by decide) (Nat.le_add_right _ _))] at hbad
    cases hbad
  · rw [Cursor.lookahead, if_pos (Nat.lt_of_lt_of_le (by decide) (Nat.le_add_right _ _)), h] at hc
    obtain rfl : e = e' := Except.ok.inj hc
    rw [hs]
    exact ⟨s', rfl, h'.upcoming.trans h⟩

omit h

/-! ## 4. Rounds -/

variable {parse : TokenStream σ Tok Ed Hyg → Outcome (ParseError Tok)
  (TokenTree Tok Ed Hyg × TokenStream σ Tok Ed Hyg)}
  {closer : eTokenType} {fuel : Nat} {items : List (TokenTree Tok Ed Hyg)} {unwrapped : Bool}

variable (parse closer fuel items) in
theorem ttItems_ends (h : upcoming R s = Stream'.cons e u) (hclose : Closes R.type closer e) :
    ∃ s', ttItems R parse closer (fuel + 1) s items = .ok ((items, e.tok), s') ∧ Took R e u s' := by
  rw [ttItems]
  by_cases hcloser : R.type e.tok = closer
  · obtain ⟨s', hcall, htook⟩ := getTokenIf_some h hcloser
    rw [hcall]
    exact ⟨s', rfl, htook⟩
  · obtain ⟨s₁, hcall, h₁⟩ := getTokenIf_none h hcloser
    obtain ⟨s', hcall', htook⟩ := getTokenIf_some h₁ (hclose.resolve_left hcloser)
    rw [hcall]
    refine ⟨s', ?_, htook⟩
    show (checked (s₁.getTokenIf R .TOK_EOF) >>= _) = _
    rw [hcall']
    rfl

variable (parse fuel items) in
theorem ttItems_goes (h : upcoming R s = Stream'.cons e u) (hclose : ¬ Closes R.type closer e) :
    ∃ s', upcoming R s' = Stream'.cons e u ∧ ttItems R parse closer (fuel + 1) s items =
      if R.type e.tok = .TOK_NULL then .err (.unexpected (s'.getToken R).1)
      else parse s' >>= fun r => ttItems R parse closer fuel r.2 (items ++ [r.1]) := by
  obtain ⟨hcloser, heof⟩ := not_or.mp hclose
  obtain ⟨s₁, hcall₁, h₁⟩ := getTokenIf_none h hcloser
  obtain ⟨s₂, hcall₂, h₂⟩ := getTokenIf_none h₁ heof
  obtain ⟨s', hcall', h'⟩ := lookahead_zero h₂
  refine ⟨s', h', ?_⟩
  rw [ttItems, hcall₁]
  show (checked (s₁.getTokenIf R .TOK_EOF) >>= _) = _
  rw [hcall₂]
  show (checked (s₂.lookahead R 0) >>= _) = _
  rw [hcall']
  rfl

variable (fuel unwrapped) in
theorem parseTT_token (h : upcoming R s = Stream'.cons e u)
    (hplain : closerOf (R.type e.tok) = none) :
    ∃ s', Took R e u s' ∧ parseTT R (fuel + 1) unwrapped s =
      if refused (R.type e.tok) then .err (.unexpected e.tok) else .ok (leaf e, s') := by
  obtain ⟨htok, htook⟩ := getToken_took h
  refine ⟨_, htook, ?_⟩
  rw [parseTT]
  dsimp only
  rw [htok, hplain, htook.edition, htook.hygiene]
  rfl

variable (fuel unwrapped) in
theorem parseTT_group (h : upcoming R s = Stream'.cons e u)
    (hopen : closerOf (R.type e.tok) = some closer) :
    ∃ s', Took R e u s' ∧ parseTT R (fuel + 1) unwrapped s =
      (ttItems R (parseTT R fuel false) closer fuel s' (if unwrapped then [] else [leaf e]) >>=
        fun r =>
        .ok (.group e.edition r.2.hygiene
          (if unwrapped then r.1.1 else r.1.1 ++ [.token r.2.edition r.2.hygiene r.1.2]),
            r.2)) := by
  obtain ⟨htok, htook⟩ := getToken_took h
  refine ⟨_, htook, ?_⟩
  rw [parseTT]
  dsimp only
  rw [htok, hopen, htook.edition, htook.hygiene]
  rfl

/-! ## 5. What is parsed -/

theorem outcome_bind_ok {E A B : Type} {x : Outcome E A} {f : A → Outcome E B} {b : B}
    (h : x >>= f = .ok b) :
    ∃ a, x = .ok a ∧ f a = .ok b := by
  cases x with
  | ok a => exact ⟨a, rfl, h⟩
  | err e => cases h
  | panic m => cases h
  | running => cases h

theorem upcoming_eq_cons (s : TokenStream σ Tok Ed Hyg) : ∃ e u, upcoming R s = Stream'.cons e u :=
  ⟨_, _, (Stream'.eta (upcoming R s)).symm⟩

/-- The trees of a group, and the token it ends with. -/
theorem ttItems_sound (hparse : ∀ s t s', parse s = .ok (t, s') →
      Formed R.type t ∧ upcoming R s = t.leaves K ++ₛ upcoming R s') : ∀ (fuel : Nat)
    (s : TokenStream σ Tok Ed Hyg) (items : List (TokenTree Tok Ed Hyg))
      {r : List (TokenTree Tok Ed Hyg) × Tok}
    {s' : TokenStream σ Tok Ed Hyg}, ttItems R parse closer fuel s items = .ok (r, s') →
    ∃ mids c, r = (items ++ mids, c.tok) ∧ (∀ t ∈ mids, Formed R.type t) ∧ Closes R.type closer c ∧
      Took R c (upcoming R s') s' ∧ upcoming R s = (leavesAll K mids ++ [c]) ++ₛ upcoming R s'
  | 0, _, _, _, _, h => by cases h
  | fuel + 1, s, items, r, s', h => by
    obtain ⟨e, u, hup⟩ := upcoming_eq_cons (R := R) s
    by_cases hclose : Closes R.type closer e
    · obtain ⟨s₁, hends, htook⟩ := ttItems_ends parse closer fuel items hup hclose
      rw [hends] at h
      cases h
      refine ⟨[],
        e, by rw [List.append_nil], fun t ht => absurd ht List.not_mem_nil, hclose, ?_, ?_⟩
      · rw [htook.upcoming]
        exact htook
      · rw [hup, htook.upcoming, leavesAll, List.nil_append, Stream'.cons_append_stream,
          Stream'.nil_append_stream]
    · obtain ⟨s₁, hup₁, hgoes⟩ := ttItems_goes parse fuel items hup hclose
      rw [hgoes] at h
      split at h
      · cases h
      · obtain ⟨⟨t, s₂⟩, hitem, hrest⟩ := outcome_bind_ok h
        obtain ⟨hformed, hleaves⟩ := hparse _ _ _ hitem
        obtain ⟨mids, c, hr, hmids, hc, htook, hup₂⟩ := ttItems_sound hparse fuel s₂ _ hrest
        refine ⟨t :: mids, c, ?_, List.forall_mem_cons.mpr ⟨hformed, hmids⟩, hc, htook, ?_⟩
        · rw [hr, List.append_assoc]
          rfl
        · rw [hup, ← hup₁, hleaves, hup₂, leavesAll, List.append_assoc,
            ← Stream'.append_append_stream]

/-- The result, with or without its delimiters. -/
def wanted (unwrapped : Bool) (t : TokenTree Tok Ed Hyg) : TokenTree Tok Ed Hyg :=
  if unwrapped then unwrap t else t

theorem wanted_leaf (e : Entry Tok Ed Hyg) : wanted unwrapped (leaf e) = leaf e := by
  cases unwrapped <;> rfl

theorem parseTT_sound : ∀ (fuel : Nat) (unwrapped : Bool) (s : TokenStream σ Tok Ed Hyg)
    {t' : TokenTree Tok Ed Hyg} {s' : TokenStream σ Tok Ed Hyg}, parseTT R fuel unwrapped s =
    .ok (t', s') →
    ∃ t, Formed R.type t ∧ t' = wanted unwrapped t ∧ upcoming R s = t.leaves K ++ₛ upcoming R s'
  | 0, _, _, _, _, h => by cases h
  | fuel + 1, unwrapped, s, t', s', h => by
    obtain ⟨e, u, hup⟩ := upcoming_eq_cons (R := R) s
    cases hcloser : closerOf (R.type e.tok) with
    | none =>
      obtain ⟨s₁, htook, htoken⟩ := parseTT_token fuel unwrapped hup hcloser
      rw [htoken] at h
      split at h
      · cases h
      · next hrefused =>
        cases h
        refine ⟨leaf e, .token hcloser (Bool.eq_false_of_not_eq_true hrefused),
          (wanted_leaf e).symm, ?_⟩
        rw [hup, htook.upcoming, leaves_leaf]
        rfl
    | some closer =>
      obtain ⟨s₁, htook, hgroup⟩ := parseTT_group fuel unwrapped hup hcloser
      rw [hgroup] at h
      obtain ⟨⟨⟨ts, tok⟩, s₂⟩, hitems, hend⟩ := outcome_bind_ok h
      obtain ⟨mids, c, hr, hmids, hc, htook₂, hup₂⟩ := ttItems_sound (K := K) (fun s t s' hs => by
        obtain ⟨t₀, hformed, heq, hup⟩ := parseTT_sound fuel false s hs
        rw [heq]
        exact ⟨hformed, hup⟩) fuel s₁ _ hitems
      cases hr
      cases hend
      refine ⟨delimited e mids c, .group hcloser hc hmids, ?_, ?_⟩
      · dsimp only
        rw [htook₂.edition, htook₂.hygiene]
        cases unwrapped with
        | true => exact (unwrap_delimited e c mids).symm
        | false => rfl
      · rw [leaves_delimited, Stream'.cons_append_stream, ← hup₂, htook.upcoming, hup]

theorem length_leaves_pos (h : Formed R.type t) : 0 < (t.leaves K).length := by
  obtain ⟨e, l, hleaves, -⟩ := h.leaves_eq (K := K)
  rw [hleaves]
  exact Nat.succ_pos _

/-- The parser takes the trees of a group one after the other. -/
theorem ttItems_complete (hcloser : refused closer = true) :
    ∀ (mids : List (TokenTree Tok Ed Hyg)) (fuel : Nat)
    (s : TokenStream σ Tok Ed Hyg) (items : List (TokenTree Tok Ed Hyg)),
      (∀ t ∈ mids, Formed R.type t) →
    (∀ t ∈ mids, ∀ s rest, upcoming R s = t.leaves K ++ₛ rest →
      ∃ s', parse s = .ok (t, s') ∧ upcoming R s' = rest) →
    mids.length < fuel → Closes R.type closer e → upcoming R s = (leavesAll K mids ++ [e]) ++ₛ u →
    ∃ s', ttItems R parse closer fuel s items = .ok ((items ++ mids, e.tok), s') ∧ Took R e u s'
  | _, 0, _, _, _, _, hfuel, _, _ => absurd hfuel (Nat.not_lt_zero _)
  | [], fuel + 1, s, items, _, _, _, hclose, hup => by
    rw [leavesAll, List.nil_append, Stream'.cons_append_stream, Stream'.nil_append_stream] at hup
    rw [List.append_nil]
    exact ttItems_ends parse closer _ items hup hclose
  | t :: mids, fuel + 1, s, items, hformed, hparse, hfuel, hclose, hup => by
    obtain ⟨ht, hmids⟩ := List.forall_mem_cons.mp hformed
    obtain ⟨hparse₀, hparses⟩ := List.forall_mem_cons.mp hparse
    rw [leavesAll, List.append_assoc, Stream'.append_append_stream] at hup
    obtain ⟨e₀, l, hleaves, hrefused⟩ := ht.leaves_eq (K := K)
    have hcons := hup
    rw [hleaves, Stream'.cons_append_stream] at hcons
    -- the first token of a tree is neither the end of the group nor null
    have hnot : ¬ Closes R.type closer e₀ := by
      rintro (heq | heq)
      · rw [heq, hcloser] at hrefused
        cases hrefused
      · rw [heq] at hrefused
        cases hrefused
    have hnull : R.type e₀.tok ≠ .TOK_NULL := by
      intro heq
      rw [heq] at hrefused
      cases hrefused
    obtain ⟨s₁, hup₁, hgoes⟩ := ttItems_goes parse fuel items hcons hnot
    obtain ⟨s₂, hitem, hup₂⟩ := hparse₀ s₁ _ (hup₁.trans (hcons.symm.trans hup))
    obtain ⟨s', hrest, htook⟩ := ttItems_complete hcloser mids fuel s₂ (items ++ [t]) hmids hparses
      (Nat.lt_of_succ_lt_succ hfuel) hclose hup₂
    refine ⟨s', ?_, htook⟩
    rw [hgoes, if_neg hnull, hitem]
    show ttItems R parse closer fuel s₂ (items ++ [t]) = _
    rw [hrest, List.append_assoc]
    rfl

theorem length_le_leavesAll :
    ∀ {mids : List (TokenTree Tok Ed Hyg)}, (∀ t ∈ mids, Formed R.type t) →
    mids.length ≤ (leavesAll K mids).length
  | [], _ => Nat.zero_le _
  | t :: mids, h => by
    obtain ⟨ht, hmids⟩ := List.forall_mem_cons.mp h
    have hpos := length_leaves_pos (K := K) ht
    have ih := length_le_leavesAll hmids
    rw [leavesAll, List.length_append, List.length_cons]
    omega

theorem leaves_le_leavesAll :
    ∀ {mids : List (TokenTree Tok Ed Hyg)} {t : TokenTree Tok Ed Hyg}, t ∈ mids →
    (t.leaves K).length ≤ (leavesAll K mids).length
  | t₀ :: mids, t, h => by
    rw [leavesAll, List.length_append]
    cases h with
    | head => exact Nat.le_add_right _ _
    | tail _ h => exact Nat.le_trans (leaves_le_leavesAll h) (Nat.le_add_left _ _)

/-- The tokens of a formed tree are parsed as that tree. -/
theorem Formed.parses (h : Formed R.type t) : ∀ (fuel : Nat) (unwrapped : Bool)
    (s : TokenStream σ Tok Ed Hyg) (rest : Stream' (Entry Tok Ed Hyg)), (t.leaves K).length ≤ fuel →
    upcoming R s = t.leaves K ++ₛ rest →
    ∃ s', parseTT R fuel unwrapped s = .ok (wanted unwrapped t, s') ∧ upcoming R s' = rest := by
  induction h with
  | @token e hplain hrefused =>
    intro fuel unwrapped s rest hfuel hup
    rw [leaves_leaf] at hfuel hup
    obtain ⟨fuel, rfl⟩ : ∃ n, fuel = n + 1 := ⟨fuel - 1, (Nat.succ_pred_eq_of_pos hfuel).symm⟩
    obtain ⟨s', htook, htoken⟩ := parseTT_token fuel unwrapped hup hplain
    rw [htoken, if_neg (by rw [hrefused]; decide), wanted_leaf]
    exact ⟨s', rfl, htook.upcoming⟩
  | @group o c closer mids hopen hclose hmids ih =>
    intro fuel unwrapped s rest hfuel hup
    have hmore := length_le_leavesAll (K := K) hmids
    rw [leaves_delimited] at hfuel hup
    rw [List.length_cons, List.length_append, List.length_singleton] at hfuel
    obtain ⟨fuel, rfl⟩ : ∃ n, fuel = n + 1 := ⟨fuel - 1, by omega⟩
    rw [Stream'.cons_append_stream] at hup
    obtain ⟨s₁, htook, hgroup⟩ := parseTT_group fuel unwrapped hup hopen
    have hparse : ∀ t ∈ mids, ∀ s rest, upcoming R s = t.leaves K ++ₛ rest →
        ∃ s', parseTT R fuel false s = .ok (t, s') ∧ upcoming R s' = rest :=
          fun t ht s rest hs => by
      have hlen := leaves_le_leavesAll (K := K) ht
      exact ih t ht fuel false s rest (by omega) hs
    obtain ⟨s', hitems, htook'⟩ := ttItems_complete (refused_closer hopen) mids fuel s₁
      (if unwrapped then [] else [leaf o])
      hmids hparse (by omega) hclose htook.upcoming
    refine ⟨s', ?_, htook'.upcoming⟩
    rw [hgroup, hitems]
    show Outcome.ok _ = _
    dsimp only
    rw [htook'.edition, htook'.hygiene]
    cases unwrapped with
    | true =>
      rw [wanted, if_pos rfl, unwrap_delimited]
      rfl
    | false => rfl

/-- A parse succeeds exactly on the tokens of a formed tree, and leaves what follows them. The tree
    has each token with its own edition and hygiene; without its delimiters it has the trees between
    them. -/
theorem parseTT_exact (K : Tokens Tok) (next : σ → Entry Tok Ed Hyg × σ) (unwrapped : Bool)
    (s : TokenStream σ Tok Ed Hyg) (t' : TokenTree Tok Ed Hyg) (rest : Stream' (Entry Tok Ed Hyg)) :
    (∃ fuel s', parseTT (K.reader next) fuel unwrapped s = .ok (t', s') ∧
      upcoming (K.reader next) s' = rest) ↔
      ∃ t, Formed K.type t ∧ t' = wanted unwrapped t ∧ upcoming (K.reader next) s = t.leaves K ++ₛ
        rest := by
  constructor
  · rintro ⟨fuel, s', hparse, rfl⟩
    exact parseTT_sound fuel unwrapped s hparse
  · rintro ⟨t, hformed, rfl, hup⟩
    exact ⟨_, hformed.parses (R := K.reader next) _ unwrapped s rest (Nat.le_refl _) hup⟩

/-! ## 6. Sources that end -/

/-- What a parser leaves of a source of which `n` tokens come before the end. -/
def Settles (R : Reader σ Tok Ed Hyg) (eof : Entry Tok Ed Hyg) (n : Nat) {A : Type} :
    Outcome (ParseError Tok) (A × TokenStream σ Tok Ed Hyg) → Prop
  | .ok (_, s') => ∃ l, upcoming R s' = l ++ₛ Stream'.const eof ∧ l.length ≤ n
  | .err (.unexpected tok) => refused (R.type tok)
  | _ => False

variable {eof : Entry Tok Ed Hyg}

theorem Settles.bind {A B : Type} {n m : Nat}
    {x : Outcome (ParseError Tok) (A × TokenStream σ Tok Ed Hyg)}
    {f : A × TokenStream σ Tok Ed Hyg → Outcome (ParseError Tok) (B × TokenStream σ Tok Ed Hyg)}
    (h : Settles R eof n x) (hf : ∀ a s l, upcoming R s = l ++ₛ Stream'.const eof → l.length ≤ n →
      Settles R eof m (f (a, s))) :
    Settles R eof m (x >>= f) := by
  cases x with
  | ok r =>
    obtain ⟨l, hup, hlen⟩ := h
    exact hf r.1 r.2 l hup hlen
  | err e =>
    cases e with
    | unexpected tok => exact h
    | bug check => exact h.elim
  | panic m => exact h.elim
  | running => exact h.elim

theorem Settles.mono {A : Type} {n m : Nat} {x : Outcome (ParseError Tok)
    (A × TokenStream σ Tok Ed Hyg)}
    (h : Settles R eof n x) (hnm : n ≤ m) : Settles R eof m x := by
  cases x with
  | ok r =>
    obtain ⟨l, hup, hlen⟩ := h
    exact ⟨l, hup, Nat.le_trans hlen hnm⟩
  | err e =>
    cases e with
    | unexpected tok => exact h
    | bug check => exact h
  | panic m => exact h
  | running => exact h

theorem cons_of_upcoming {l : List (Entry Tok Ed Hyg)}
    (h : upcoming R s = l ++ₛ Stream'.const eof) :
    (l = [] ∧ upcoming R s = Stream'.cons eof (Stream'.const eof)) ∨
      ∃ e l', l = e :: l' ∧ upcoming R s = Stream'.cons e (l' ++ₛ Stream'.const eof) := by
  cases l with
  | nil =>
    rw [Stream'.nil_append_stream, Stream'.const_eq] at h
    exact .inl ⟨rfl, h⟩
  | cons e l' => exact .inr ⟨e, l', rfl, h⟩

variable (closer) in
theorem ttItems_settles (heof : R.type eof.tok = .TOK_EOF) {n : Nat}
    (hparse : ∀ s l, l.length ≤ n → upcoming R s = l ++ₛ Stream'.const eof →
      Settles R eof (l.length - 1) (parse s)) : ∀ (fuel : Nat) (s : TokenStream σ Tok Ed Hyg)
    (items : List (TokenTree Tok Ed Hyg)) (l : List (Entry Tok Ed Hyg)), l.length < fuel →
      l.length ≤ n →
    upcoming R s = l ++ₛ Stream'.const eof → Settles R eof l.length
      (ttItems R parse closer fuel s items)
  | 0, _, _, _, hfuel, _, _ => absurd hfuel (Nat.not_lt_zero _)
  | fuel + 1, s, items, l, hfuel, hn, hup => by
    rcases cons_of_upcoming hup with ⟨rfl, hcons⟩ | ⟨e, l', rfl, hcons⟩
    · obtain ⟨s', hends, htook⟩ := ttItems_ends parse closer fuel items hcons (.inr heof)
      rw [hends]
      exact ⟨[], htook.upcoming, Nat.le_refl _⟩
    · by_cases hclose : Closes R.type closer e
      · obtain ⟨s', hends, htook⟩ := ttItems_ends parse closer fuel items hcons hclose
        rw [hends]
        exact ⟨l', htook.upcoming, Nat.le_succ _⟩
      · obtain ⟨s₁, hup₁, hgoes⟩ := ttItems_goes parse fuel items hcons hclose
        rw [hgoes]
        split
        · next hnull =>
          show refused _ = true
          rw [(getToken_took hup₁).1, hnull]
          rfl
        · refine (hparse s₁ (e :: l') hn (hup₁.trans (hcons.symm.trans hup))).bind
            fun t s₂ l₂ hup₂ hlen => ?_
          rw [List.length_cons, Nat.add_sub_cancel] at hlen
          rw [List.length_cons] at hfuel hn
          exact (ttItems_settles heof hparse fuel s₂ (items ++ [t]) l₂ (by omega)
            (by omega) hup₂).mono
            (by rw [List.length_cons]; omega)

theorem parseTT_settles (heof : R.type eof.tok = .TOK_EOF) : ∀ (fuel : Nat) (unwrapped : Bool)
    (s : TokenStream σ Tok Ed Hyg) (l : List (Entry Tok Ed Hyg)), l.length < fuel →
    upcoming R s = l ++ₛ Stream'.const eof → Settles R eof (l.length - 1)
      (parseTT R fuel unwrapped s)
  | 0, _, _, _, hfuel, _ => absurd hfuel (Nat.not_lt_zero _)
  | fuel + 1, unwrapped, s, l, hfuel, hup => by
    rcases cons_of_upcoming hup with ⟨rfl, hcons⟩ | ⟨e, l', rfl, hcons⟩
    · obtain ⟨s', -, htoken⟩ := parseTT_token fuel unwrapped hcons (by rw [heof]; rfl)
      have hrefused : refused (R.type eof.tok) = true := by
        rw [heof]
        rfl
      rw [htoken, if_pos hrefused]
      exact hrefused
    · rw [List.length_cons, Nat.add_sub_cancel]
      rw [List.length_cons] at hfuel
      cases hcloser : closerOf (R.type e.tok) with
      | none =>
        obtain ⟨s', htook, htoken⟩ := parseTT_token fuel unwrapped hcons hcloser
        rw [htoken]
        split
        · next hrefused => exact hrefused
        · exact ⟨l', htook.upcoming, Nat.le_refl _⟩
      | some closer =>
        obtain ⟨s₁, htook, hgroup⟩ := parseTT_group fuel unwrapped hcons hcloser
        rw [hgroup]
        have hitems := ttItems_settles closer heof
          (fun s l hlen hs => parseTT_settles heof fuel false s l
          (Nat.lt_of_le_of_lt hlen (Nat.lt_of_succ_lt_succ hfuel)) hs) fuel s₁
            (if unwrapped then [] else [leaf e]) l'
          (Nat.lt_of_succ_lt_succ hfuel) (Nat.le_refl _) htook.upcoming
        exact hitems.bind fun r s₂ l₂ hup₂ hlen => ⟨l₂, hup₂, hlen⟩

/-- With more fuel the result of the parser stays. -/
theorem ttItems_below
    {parse' : TokenStream σ Tok Ed Hyg → Outcome (ParseError Tok)
    (TokenTree Tok Ed Hyg × TokenStream σ Tok Ed Hyg)}
    (hparse : ∀ s, (parse s).Below (parse' s)) : ∀ (fuel : Nat) (s : TokenStream σ Tok Ed Hyg)
    (items : List (TokenTree Tok Ed Hyg)),
    (ttItems R parse closer fuel s items).Below (ttItems R parse' closer (fuel + 1) s items)
  | 0, _, _ => .inl rfl
  | fuel + 1, s, items => by
    unfold ttItems
    refine Outcome.Below.bind (.refl _) fun r => ?_
    obtain ⟨tok, lex⟩ := r
    cases tok with
    | some tok => exact .refl _
    | none =>
      refine Outcome.Below.bind (.refl _) fun r => ?_
      obtain ⟨tok, lex⟩ := r
      cases tok with
      | some tok => exact .refl _
      | none =>
        refine Outcome.Below.bind (.refl _) fun r => ?_
        obtain ⟨type, lex⟩ := r
        dsimp only
        split
        · exact .refl _
        · exact (hparse lex).bind fun r => ttItems_below hparse fuel r.2 (items ++ [r.1])

theorem parseTT_below : ∀ (fuel : Nat) (unwrapped : Bool) (s : TokenStream σ Tok Ed Hyg),
    (parseTT R fuel unwrapped s).Below (parseTT R (fuel + 1) unwrapped s)
  | 0, _, _ => .inl rfl
  | fuel + 1, unwrapped, s => by
    rw [parseTT, parseTT]
    dsimp only
    split
    · exact .refl _
    · exact (ttItems_below (parseTT_below fuel false) fuel _ _).bind fun r => .refl _

/-- A source of finitely many tokens, and ends of files after them, is parsed with as much fuel as
    it has tokens: there is a tree, or a token is rejected that no tree starts with, and then the
    tokens are not those of a tree, and go on to those of no tree. -/
theorem parseTT_returns (K : Tokens Tok) (next : σ → Entry Tok Ed Hyg × σ) (unwrapped : Bool)
    (s : TokenStream σ Tok Ed Hyg) (l : List (Entry Tok Ed Hyg)) (eof : Entry Tok Ed Hyg)
    (heof : K.type eof.tok = .TOK_EOF) (hup : upcoming (K.reader next) s = l ++ₛ Stream'.const eof)
      (fuel : Nat)
    (hfuel : l.length < fuel) :
    (∃ t s', parseTT (K.reader next) fuel unwrapped s = .ok (wanted unwrapped t, s') ∧
      Formed K.type t ∧
      upcoming (K.reader next) s = t.leaves K ++ₛ upcoming (K.reader next) s') ∨
    (∃ tok, parseTT (K.reader next) fuel unwrapped s = .err (.unexpected tok) ∧
      refused (K.type tok) ∧
      ∀ t rest, Formed K.type t → upcoming (K.reader next) s ≠ t.leaves K ++ₛ rest) := by
  have hsettles := parseTT_settles (R := K.reader next) heof fuel unwrapped s l hfuel hup
  cases hres : parseTT (K.reader next) fuel unwrapped s with
  | ok r =>
    obtain ⟨t, hformed, heq, hleaves⟩ := parseTT_sound (K := K) fuel unwrapped s hres
    exact .inl ⟨t, r.2, by rw [← heq], hformed, hleaves⟩
  | err e =>
    rw [hres] at hsettles
    cases e with
    | bug check => exact hsettles.elim
    | unexpected tok =>
      refine .inr ⟨tok, rfl, hsettles, fun t rest hformed hleaves => ?_⟩
      -- with the fuel for this tree as well, both results would be the same
      obtain ⟨s', hparsed, -⟩ := hformed.parses (R := K.reader next)
        ((t.leaves K).length + fuel) unwrapped s rest
        (Nat.le_add_right _ _) hleaves
      have hends : parseTT (K.reader next) fuel unwrapped s ≠ .running := by
        rw [hres]
        intro hbad
        cases hbad
      have hsame := Outcome.Below.iterate (fun n =>
        parseTT_below (R := K.reader next) n unwrapped s)
        (Nat.le_add_left fuel (t.leaves K).length) hends
      rw [hparsed, hres] at hsame
      cases hsame
  | panic m =>
    rw [hres] at hsettles
    exact hsettles.elim
  | running =>
    rw [hres] at hsettles
    exact hsettles.elim

/-- Tokens that have a type and nothing else. -/
def typesOnly : Tokens eTokenType := ⟨id, id, .TOK_NULL, .TOK_EOF, rfl, rfl⟩

/-- `(` and `,` are a group that ends with the file. -/
def openGroup : TokenTree eTokenType Unit Unit :=
  .group () () [.token () () .TOK_PAREN_OPEN, .token () () .TOK_COMMA]

def openStream : TokenStream (TTStream eTokenType Unit Unit) eTokenType Unit Unit :=
  start (TTStream.start .TTStream () openGroup) .TOK_NULL () () fun _ => ⟨.TOK_NULL, (), ()⟩

theorem parseTT_returns_openGroup : ∃ t s',
    parseTT (TTStream.reader typesOnly .TTStream ()) 3 false openStream = .ok (t, s') := by
  obtain ⟨⟨⟩, ⟨⟩, hdrained⟩ := TTStream.drained_start typesOnly .TTStream () () openGroup
  have hup : upcoming (TTStream.reader typesOnly .TTStream ()) openStream =
      [⟨.TOK_PAREN_OPEN, (), ()⟩, ⟨.TOK_COMMA, (), ()⟩] ++ₛ Stream'.const ⟨.TOK_EOF, (), ()⟩ :=
      hdrained
  rcases parseTT_returns typesOnly _ false openStream _ ⟨.TOK_EOF, (), ()⟩ rfl hup 3
    (by decide) with
    ⟨t, s', hparse, -, -⟩ | ⟨tok, -, -, hnone⟩
  · exact ⟨_, s', hparse⟩
  · have hcomma : Formed typesOnly.type (leaf ⟨eTokenType.TOK_COMMA, (), ()⟩) := .token rfl rfl
    have hopen :
      Formed typesOnly.type (delimited ⟨.TOK_PAREN_OPEN, (), ()⟩ [leaf ⟨.TOK_COMMA, (), ()⟩]
      ⟨.TOK_EOF, (), ()⟩) :=
      .group rfl (.inr rfl) (List.forall_mem_singleton.mpr hcomma)
    refine absurd (hup.trans ?_) (hnone _ (Stream'.const ⟨.TOK_EOF, (), ()⟩) hopen)
    rw [leaves_delimited, leavesAll, leavesAll, leaves_leaf]
    conv_lhs => rw [Stream'.const_eq]
    rfl

/-! ## 7. Trees that are parsed again -/

theorem given_of_formed {kind : TreeStream} (h : Formed K.type t)
    (hkind : kind = .TTStreamO ∨ t.size ≠ 0) : TTStream.given K kind t = t.leaves K := by
  rw [TTStream.given]
  by_cases hsize : t.size = 0
  · have hkind := hkind.resolve_right (not_not.mpr hsize)
    obtain ⟨e, l, hleaves, hrefused⟩ := h.leaves_eq (K := K)
    have hentry := leaves_of_size_zero (K := K) hsize
    have htoken : t.isToken K = true := by
      rw [isToken, bne_iff_ne]
      intro hnull
      have he : t.entry K = e := List.head_eq_of_cons_eq (hentry.symm.trans hleaves)
      rw [← he, entry, hnull] at hrefused
      cases hrefused
    rw [if_pos ⟨hkind, htoken⟩, hentry]
  · rw [if_neg fun hbad => absurd hbad.2 (by rw [not_isToken hsize]; decide), leaves_of_size hsize]

/-- A stream over a tree is parsed as the same tree, to its end, exactly if the tree is one the
    parser makes, and if it is no single token when the stream is a `TTStream`. -/
theorem parseTT_again (K : Tokens Tok) (kind : TreeStream) (rust2015 : Ed) (noHygiene : Hyg)
    (t : TokenTree Tok Ed Hyg) (tok : Tok) (edition : Ed) (hygiene : Hyg)
    (slots : Fin MAX_LOOKAHEAD → Entry Tok Ed Hyg) :
    (∃ fuel s' edition' hygiene', parseTT (TTStream.reader K kind noHygiene) fuel false
      (start (TTStream.start kind rust2015 t) tok edition hygiene slots) = .ok (t, s') ∧
      upcoming (TTStream.reader K kind noHygiene) s' = Stream'.const ⟨K.eof, edition', hygiene'⟩) ↔
      Formed K.type t ∧ (kind = .TTStreamO ∨ t.size ≠ 0) := by
  obtain ⟨edition', hygiene', hdrained⟩ := TTStream.drained_start K kind noHygiene rust2015 t
  have hup : upcoming (TTStream.reader K kind noHygiene)
    (start (TTStream.start kind rust2015 t) tok edition hygiene slots) =
      TTStream.given K kind t ++ₛ Stream'.const ⟨K.eof, edition', hygiene'⟩ := hdrained
  constructor
  · rintro ⟨fuel, s', -, -, hparse, -⟩
    obtain ⟨t', hformed, heq, hleaves⟩ := parseTT_sound (K := K) fuel false _ hparse
    obtain rfl : t = t' := heq
    refine ⟨hformed, ?_⟩
    by_contra hnot
    obtain ⟨hkind, hsize⟩ := not_or.mp hnot
    -- a `TTStream` over one token is at its end
    have hnone : TTStream.given K kind t = [] := by
      rw [TTStream.given, if_neg fun hbad => hkind hbad.1,
        List.length_eq_zero_iff.mp (not_not.mp hsize), leavesAll]
    obtain ⟨e, l, hcons, hrefused⟩ := hformed.leaves_eq (K := K)
    rw [hup, hnone, hcons, Stream'.nil_append_stream, Stream'.const_eq] at hleaves
    have he : e = ⟨K.eof, edition', hygiene'⟩ := congrArg Stream'.head hleaves.symm
    have hrefused : refused (K.type e.tok) = false := hrefused
    rw [he, K.type_eof] at hrefused
    cases hrefused
  · rintro ⟨hformed, hkind⟩
    rw [given_of_formed hformed hkind] at hup
    obtain ⟨s', hparse, hend⟩ := Formed.parses (R := TTStream.reader K kind noHygiene) hformed
      _ false _ _
      (Nat.le_refl _) hup
    exact ⟨_, s', edition', hygiene', hparse, hend⟩

end Trustme.Parse
