/-
  Subject:   What a `TokenStream` is for: a place in the tokens of a source, from which a parser
             reads on, looks ahead and goes back by one token.

  * `Cursor`: the tokens to come, the current edition and hygiene, and whether the last token was
    put back;
  * `Call`, `Answer`: what a parser may ask, of a stream and of a cursor;
  * `Stands`: a stream that is at a cursor's place;
  * `Stands.call`: one call;
  * `tokenStream_refines`: all calls of a run get the same answers.
-/
import Trustme.Parse.TokenStream

namespace Trustme.Parse

open Lib
open Metadata (eTokenType)

variable {σ Tok Ed Hyg : Type}

/-! ## 1. Cursors -/

structure Cursor (Tok Ed Hyg : Type) where
  upcoming : Stream' (Entry Tok Ed Hyg)
  edition : Ed
  hygiene : Hyg
  putBack : Bool

namespace Cursor

def getToken (c : Cursor Tok Ed Hyg) : Tok × Cursor Tok Ed Hyg :=
  (c.upcoming.head.tok, ⟨c.upcoming.tail, c.upcoming.head.edition, c.upcoming.head.hygiene, false⟩)

/-- One token at a time can be put back; it takes on the edition and hygiene of the last one. -/
def putback (tok : Tok) (c : Cursor Tok Ed Hyg) : Except BugCheck (Cursor Tok Ed Hyg) :=
  if c.putBack then .error .doublePutback
  else
    .ok { c with upcoming := Stream'.cons ⟨tok, c.edition, c.hygiene⟩ c.upcoming, putBack := true }

/-- Four tokens can be seen, besides the one that was put back. -/
def lookahead (i : Nat) (c : Cursor Tok Ed Hyg) : Except BugCheck (Entry Tok Ed Hyg) :=
  if i < MAX_LOOKAHEAD + c.putBack.toNat then .ok (c.upcoming.get i) else .error .excessiveLookahead

end Cursor

/-! ## 2. Calls -/

inductive Call (Tok : Type) where
  | getToken
  | putback (tok : Tok)
  | lookahead (i : Nat)
  | lookaheadEdition (i : Nat)
  | getTokenIf (exp : eTokenType)
  | getEdition
  | getHygiene

inductive Answer (Tok Ed Hyg : Type) where
  | done
  | token (tok : Tok)
  | type (type : eTokenType)
  | edition (edition : Ed)
  | hygiene (hygiene : Hyg)
  | tokenIf (tok : Option Tok)

variable (R : Reader σ Tok Ed Hyg)

def TokenStream.call (s : TokenStream σ Tok Ed Hyg) :
    Call Tok → Except BugCheck (Answer Tok Ed Hyg × TokenStream σ Tok Ed Hyg)
  | .getToken => .ok (.token (s.getToken R).1, (s.getToken R).2)
  | .putback tok => do .ok (.done, ← s.putback tok)
  | .lookahead i => do
      let (type, s) ← s.lookahead R i
      .ok (.type type, s)
  | .lookaheadEdition i => do
      let (edition, s) ← s.lookaheadEdition R i
      .ok (.edition edition, s)
  | .getTokenIf exp => do
      let (tok, s) ← s.getTokenIf R exp
      .ok (.tokenIf tok, s)
  | .getEdition => .ok (.edition s.edition, s)
  | .getHygiene => .ok (.hygiene s.hygiene, s)

def Cursor.call (c : Cursor Tok Ed Hyg) : Call Tok →
    Except BugCheck (Answer Tok Ed Hyg × Cursor Tok Ed Hyg)
  | .getToken => .ok (.token c.getToken.1, c.getToken.2)
  | .putback tok => do .ok (.done, ← c.putback tok)
  | .lookahead i => do .ok (.type (R.type (← c.lookahead i).tok), c)
  | .lookaheadEdition i => do .ok (.edition (← c.lookahead i).edition, c)
  | .getTokenIf exp =>
    if R.type c.upcoming.head.tok = exp then .ok (.tokenIf (some c.getToken.1), c.getToken.2)
    else .ok (.tokenIf none, c)
  | .getEdition => .ok (.edition c.edition, c)
  | .getHygiene => .ok (.hygiene c.hygiene, c)

/-- The answers to one call after the other, up to a bug check. -/
def answers {S Q A E : Type} (call : S → Q → Except E (A × S)) : S → List Q → List A × Option E
  | _, [] => ([], none)
  | s, q :: qs =>
    match call s q with
    | .error e => ([], some e)
    | .ok (a, s) => ((a :: (answers call s qs).1), (answers call s qs).2)

/-! ## 3. A stream at a cursor's place -/

structure Stands (s : TokenStream σ Tok Ed Hyg) (c : Cursor Tok Ed Hyg) : Prop where
  upcoming : s.upcoming R = c.upcoming
  edition : s.edition = c.edition
  hygiene : s.hygiene = c.hygiene
  putBack : s.cacheValid = c.putBack

/-- Two results are the same error, or the same answer with the states in a relation. -/
def SameResult {S T A E : Type} (rel : S → T → Prop) : Except E (A × S) → Except E (A × T) → Prop
  | .error e, .error e' => e = e'
  | .ok (a, s), .ok (b, t) => a = b ∧ rel s t
  | _, _ => False

variable {R} {s : TokenStream σ Tok Ed Hyg} {c : Cursor Tok Ed Hyg}

theorem Stands.getToken (h : Stands R s c) :
    (s.getToken R).1 = c.getToken.1 ∧ Stands R (s.getToken R).2 c.getToken.2 := by
  obtain ⟨hup, hcache⟩ := TokenStream.upcoming_takeToken (R := R) (s := s)
  rw [h.upcoming] at hup
  have hhead := congrArg Stream'.head hup
  have htail := congrArg Stream'.tail hup
  rw [Stream'.head_cons] at hhead
  rw [Stream'.tail_cons] at htail
  refine ⟨congrArg Entry.tok hhead.symm, htail.symm, congrArg Entry.edition hhead.symm,
    congrArg Entry.hygiene hhead.symm, hcache⟩

theorem Stands.putback (h : Stands R s c) (tok : Tok) :
    (s.putback tok = .error .doublePutback ∧ c.putback tok = .error .doublePutback) ∨
      ∃ s' c', s.putback tok = .ok s' ∧ c.putback tok = .ok c' ∧ Stands R s' c' := by
  rw [TokenStream.putback, Cursor.putback, ← h.putBack]
  cases hcache : s.cacheValid with
  | true => exact .inl ⟨rfl, rfl⟩
  | false =>
    have hs : s.putback tok =
        .ok { s with cacheValid := true, cache := tok, record := s.record.map List.dropLast } :=
      if_neg (by rw [hcache]; exact Bool.false_ne_true)
    obtain ⟨hup, -⟩ := TokenStream.upcoming_putback (R := R) hs
    refine .inr ⟨_, _, rfl, rfl, ?_, h.edition, h.hygiene, rfl⟩
    rw [hup, h.upcoming, h.edition, h.hygiene]

theorem Stands.lookahead (h : Stands R s c) (i : Nat) :
    (s.lookaheadEntry R i = .error .excessiveLookahead ∧
      c.lookahead i = .error .excessiveLookahead) ∨
      ∃ e s', s.lookaheadEntry R i = .ok (e, s') ∧ c.lookahead i = .ok e ∧ Stands R s' c := by
  rw [TokenStream.lookaheadEntry, Cursor.lookahead, ← h.upcoming, ← h.putBack]
  by_cases hfirst : s.cacheValid = true ∧ i = 0
  · obtain ⟨hcache, rfl⟩ := hfirst
    have hget : (s.upcoming R).get 0 = ⟨s.cache, s.edition, s.hygiene⟩ := by
      rw [TokenStream.upcoming, TokenStream.pending, TokenStream.held, if_pos hcache]
      rfl
    rw [if_pos ⟨hcache, rfl⟩, if_pos (Nat.lt_of_lt_of_le (by decide) (Nat.le_add_right _ _)), hget]
    exact .inr ⟨_, s, rfl, rfl, h⟩
  · rw [if_neg hfirst]
    dsimp only
    obtain ⟨j, hj, hi⟩ : ∃ j, (if s.cacheValid then i - 1 else i) = j ∧
      i = (TokenStream.held s).length + j ∧
        (TokenStream.held s).length = s.cacheValid.toNat := by
      cases hcache : s.cacheValid with
      | true =>
        refine ⟨i - 1, rfl, ?_, ?_⟩
        · have hpos : i ≠ 0 := fun hzero => hfirst ⟨hcache, hzero⟩
          rw [TokenStream.held, if_pos hcache, List.length_singleton]
          omega
        · rw [TokenStream.held, if_pos hcache]
          rfl
      | false =>
        rw [TokenStream.held_of_empty hcache]
        exact ⟨i, rfl, (Nat.zero_add i).symm, rfl⟩
    obtain ⟨hi, hlen⟩ := hi
    rw [hj, hi, hlen, Nat.add_comm MAX_LOOKAHEAD]
    by_cases hmax : j < MAX_LOOKAHEAD
    · rw [if_neg (Nat.not_le.mpr hmax), if_pos (Nat.add_lt_add_left hmax _)]
      obtain ⟨hup, hquiet, hin⟩ := TokenStream.upcoming_fill (R := R) (s := s) hmax
      have hget := TokenStream.get_upcoming (R := R) hin
      rw [hup, hquiet.held, hlen] at hget
      exact .inr ⟨_, _, rfl, congrArg Except.ok hget, hup.trans h.upcoming,
        hquiet.edition.trans h.edition,
        hquiet.hygiene.trans h.hygiene, hquiet.cacheValid.trans h.putBack⟩
    · rw [if_pos (Nat.not_lt.mp hmax), if_neg fun hlt => hmax (Nat.lt_of_add_lt_add_left hlt)]
      exact .inl ⟨rfl, rfl⟩

theorem Stands.getTokenIf (h : Stands R s c) (exp : eTokenType) :
    ∃ tok s', s.getTokenIf R exp = .ok (tok, s') ∧
      if R.type c.upcoming.head.tok = exp then tok = some c.getToken.1 ∧ Stands R s' c.getToken.2
      else tok = none ∧ Stands R s' c := by
  rw [TokenStream.getTokenIf, TokenStream.lookahead]
  rcases h.lookahead 0 with ⟨-, hbad⟩ | ⟨e, s', hs, hc, h'⟩
  · rw [Cursor.lookahead, if_pos (Nat.lt_of_lt_of_le (by decide) (Nat.le_add_right _ _))] at hbad
    cases hbad
  · rw [Cursor.lookahead, if_pos (Nat.lt_of_lt_of_le (by decide) (Nat.le_add_right _ _))] at hc
    have hhead : c.upcoming.head = e := Except.ok.inj hc
    rw [hs, hhead]
    by_cases hexp : R.type e.tok = exp
    · obtain ⟨htok, hnext⟩ := h'.getToken
      refine ⟨some (s'.getToken R).1, (s'.getToken R).2, if_pos hexp, ?_⟩
      rw [if_pos hexp]
      exact ⟨congrArg some htok, hnext⟩
    · refine ⟨none, s', if_neg hexp, ?_⟩
      rw [if_neg hexp]
      exact ⟨rfl, h'⟩

/-- One call. -/
theorem Stands.call (h : Stands R s c) (q : Call Tok) :
    SameResult (Stands R) (s.call R q) (c.call R q) := by
  cases q with
  | getToken =>
    obtain ⟨htok, hnext⟩ := h.getToken
    exact ⟨congrArg Answer.token htok, hnext⟩
  | putback tok =>
    rw [TokenStream.call, Cursor.call]
    rcases h.putback tok with ⟨hs, hc⟩ | ⟨s', c', hs, hc, h'⟩
    · rw [hs, hc]
      rfl
    · rw [hs, hc]
      exact ⟨rfl, h'⟩
  | lookahead i =>
    rw [TokenStream.call, Cursor.call, TokenStream.lookahead]
    rcases h.lookahead i with ⟨hs, hc⟩ | ⟨e, s', hs, hc, h'⟩
    · rw [hs, hc]
      rfl
    · rw [hs, hc]
      exact ⟨rfl, h'⟩
  | lookaheadEdition i =>
    rw [TokenStream.call, Cursor.call, TokenStream.lookaheadEdition]
    rcases h.lookahead i with ⟨hs, hc⟩ | ⟨e, s', hs, hc, h'⟩
    · rw [hs, hc]
      rfl
    · rw [hs, hc]
      exact ⟨rfl, h'⟩
  | getTokenIf exp =>
    obtain ⟨tok, s', hs, h'⟩ := h.getTokenIf exp
    rw [TokenStream.call, Cursor.call, hs]
    split at h'
    · next hexp =>
      rw [if_pos hexp]
      exact ⟨congrArg Answer.tokenIf h'.1, h'.2⟩
    · next hexp =>
      rw [if_neg hexp]
      exact ⟨congrArg Answer.tokenIf h'.1, h'.2⟩
  | getEdition => exact ⟨congrArg Answer.edition h.edition, h⟩
  | getHygiene => exact ⟨congrArg Answer.hygiene h.hygiene, h⟩

theorem answers_same {S T Q A E : Type} {rel : S → T → Prop} {call : S → Q → Except E (A × S)}
    {call' : T → Q → Except E (A × T)} (hcall : ∀ s t q, rel s t → SameResult rel (call s q)
    (call' t q)) :
    ∀ {s : S} {t : T} (qs : List Q), rel s t → answers call s qs = answers call' t qs
  | _, _, [], _ => rfl
  | s, t, q :: qs, h => by
    have hq := hcall s t q h
    rw [answers, answers]
    cases hs : call s q with
    | error e =>
      cases ht : call' t q with
      | error e' =>
        rw [hs, ht] at hq
        have he : e = e' := hq
        rw [he]
      | ok r =>
        rw [hs, ht] at hq
        exact absurd hq id
    | ok r =>
      cases ht : call' t q with
      | error e' =>
        rw [hs, ht] at hq
        exact absurd hq id
      | ok r' =>
        rw [hs, ht] at hq
        obtain ⟨ha, hrel⟩ := hq
        dsimp only
        rw [ha, answers_same hcall qs hrel]

/-- Of a source that nothing has been read of. -/
def TokenStream.start (source : σ) (tok : Tok) (edition : Ed) (hygiene : Hyg)
    (slots : Fin MAX_LOOKAHEAD → Entry Tok Ed Hyg) : TokenStream σ Tok Ed Hyg where
  cacheValid := false
  cache := tok
  hygiene := hygiene
  edition := edition
  ahead := ⟨slots, ⟨0, by decide⟩, 0, Nat.zero_le _⟩
  record := none
  sourceRecord := none
  source := source

/-- Whatever a parser calls, in any order, the stream answers as a place in the tokens of its source
    does: looking ahead changes nothing, a token that was put back comes again, and each token is
    the current one with its own edition and hygiene; and it fails at the same call. -/
theorem tokenStream_refines (R : Reader σ Tok Ed Hyg) (source : σ) (tok : Tok) (edition : Ed)
    (hygiene : Hyg)
    (slots : Fin MAX_LOOKAHEAD → Entry Tok Ed Hyg) (calls : List (Call Tok)) :
    answers (TokenStream.call R) (TokenStream.start source tok edition hygiene slots) calls =
      answers (Cursor.call R) ⟨TokenStream.drained R source, edition, hygiene, false⟩ calls := by
  have hcall : ∀ s c q, Stands R s c → SameResult (Stands R) (TokenStream.call R s q)
    (Cursor.call R c q) :=
    fun _ _ q h => h.call q
  exact answers_same hcall calls ⟨rfl, rfl, rfl, rfl⟩

end Trustme.Parse
