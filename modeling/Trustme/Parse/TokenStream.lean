/-
  Subject:   `TokenStream` (parse_tokenstream.cpp): the tokens of a lexer or of a token tree with
             one token put back, four looked ahead at, and two records.

  * `Entry`, `TokenStream`: a token with its edition and hygiene, and the state;
  * `getToken`, `putback`, `lookahead`, `getTokenIf`, ... -- what a parser calls;
  * `upcoming`: the tokens that are still to come;
  * `upcoming_takeToken`, `upcoming_putback`, `upcoming_readAhead`: what the steps do to them.

  Where a token came from, its position in a file, is left out.
-/
import Mathlib.Data.Stream.Init
import Trustme.Lib.Ring
import Trustme.Metadata.MacroTokens

namespace Trustme.Parse

open Lib
open Metadata (eTokenType)

/-! ## 1. State -/

/-- A token with the edition and the hygiene it was read with: `LookaheadEnt`, `RecordedToken`. -/
structure Entry (Tok Ed Hyg : Type) where
  tok : Tok
  edition : Ed
  hygiene : Hyg

def MAX_LOOKAHEAD : Nat := 4

/-- The bug checks. -/
inductive BugCheck where
  | doublePutback
  | excessiveLookahead
deriving DecidableEq

/-- `TokenStream`, with the state of what it reads from. The records are vectors of the caller. -/
structure TokenStream (σ Tok Ed Hyg : Type) where
  cacheValid : Bool
  cache : Tok
  hygiene : Hyg
  edition : Ed
  ahead : Ring (Entry Tok Ed Hyg) MAX_LOOKAHEAD
  record : Option (List (Entry Tok Ed Hyg))
  sourceRecord : Option (List (Entry Tok Ed Hyg))
  source : σ

/-- What a stream reads from: `realGetToken`, with `realGetEdition` and `realGetHygiene` after it;
    the type of a token; and the tokens that stand for a fragment in a record (`fragmentTokens`,
    `Token::tokensOf`). -/
structure Reader (σ Tok Ed Hyg : Type) where
  next : σ → Entry Tok Ed Hyg × σ
  type : Tok → eTokenType
  recorded : Tok → Tok

namespace TokenStream

variable {σ Tok Ed Hyg : Type} (R : Reader σ Tok Ed Hyg)

/-- An entry as the record of the source holds it. -/
def recordedEntry (e : Entry Tok Ed Hyg) : Entry Tok Ed Hyg := { e with tok := R.recorded e.tok }

def isEof (e : Entry Tok Ed Hyg) : Bool := R.type e.tok == .TOK_EOF

/-! ## 2. Steps -/

def innerGetToken (s : TokenStream σ Tok Ed Hyg) : Entry Tok Ed Hyg × TokenStream σ Tok Ed Hyg :=
  let (e, source) := R.next s.source
  let s := { s with source := source }
  match s.sourceRecord with
  | some out =>
    (e, if isEof R e then s else { s with sourceRecord := some (out ++ [recordedEntry R e]) })
  | none => (e, s)

def takeToken (s : TokenStream σ Tok Ed Hyg) : Tok × TokenStream σ Tok Ed Hyg :=
  if s.cacheValid then (s.cache, { s with cacheValid := false })
  else if s.ahead.count ≠ 0 then
    let front := s.ahead.get 0
    (front.tok, { s with edition := front.edition, hygiene := front.hygiene, ahead := s.ahead.pop })
  else
    let (e, s) := innerGetToken R s
    (e.tok, { s with edition := e.edition, hygiene := e.hygiene })

def getToken (s : TokenStream σ Tok Ed Hyg) : Tok × TokenStream σ Tok Ed Hyg :=
  let (ret, s) := takeToken R s
  (ret, { s with record := s.record.map (· ++ [⟨ret, s.edition, s.hygiene⟩]) })

def putback (tok : Tok) (s : TokenStream σ Tok Ed Hyg) :
    Except BugCheck (TokenStream σ Tok Ed Hyg) :=
  if s.cacheValid then .error .doublePutback
  else .ok { s with cacheValid := true, cache := tok, record := s.record.map List.dropLast }

/-- One round of the loop in `lookahead`. -/
def readAhead (s : TokenStream σ Tok Ed Hyg) : TokenStream σ Tok Ed Hyg :=
  let (e, s) := innerGetToken R s
  if h : s.ahead.count < MAX_LOOKAHEAD then { s with ahead := s.ahead.push h e } else s

/-- `while (i >= lookaheadCount_)` -/
def fill (i : Nat) (s : TokenStream σ Tok Ed Hyg) : TokenStream σ Tok Ed Hyg :=
  (readAhead R)^[i + 1 - s.ahead.count] s

/-- `lookahead`, with the entry whose type it returns. -/
def lookaheadEntry (i : Nat) (s : TokenStream σ Tok Ed Hyg) :
    Except BugCheck (Entry Tok Ed Hyg × TokenStream σ Tok Ed Hyg) :=
  if s.cacheValid ∧ i = 0 then .ok (⟨s.cache, s.edition, s.hygiene⟩, s)
  else
    let i := if s.cacheValid then i - 1 else i
    if i ≥ MAX_LOOKAHEAD then .error .excessiveLookahead
    else
      let s := fill R i s
      .ok (s.ahead.get i, s)

def lookahead (i : Nat) (s : TokenStream σ Tok Ed Hyg) :
    Except BugCheck (eTokenType × TokenStream σ Tok Ed Hyg) := do
  let (e, s) ← lookaheadEntry R i s
  .ok (R.type e.tok, s)

/-- The token that was put back has the edition of the last one that was read. -/
def lookaheadEdition (i : Nat) (s : TokenStream σ Tok Ed Hyg) :
    Except BugCheck (Ed × TokenStream σ Tok Ed Hyg) := do
  let (e, s) ← lookaheadEntry R i s
  .ok (e.edition, s)

def getTokenIf (exp : eTokenType) (s : TokenStream σ Tok Ed Hyg) :
    Except BugCheck (Option Tok × TokenStream σ Tok Ed Hyg) := do
  let (type, s) ← lookahead R 0 s
  if type = exp then
    let (tok, s) := getToken R s
    .ok (some tok, s)
  else .ok (none, s)

/-! ## 3. The tokens to come -/

/-- All that a source gives. -/
def drained (source : σ) : Stream' (Entry Tok Ed Hyg) := Stream'.corec' R.next source

/-- The token that was put back. -/
def held (s : TokenStream σ Tok Ed Hyg) : List (Entry Tok Ed Hyg) :=
  if s.cacheValid then [⟨s.cache, s.edition, s.hygiene⟩] else []

/-- The tokens that have been read from the source and not been taken. -/
def pending (s : TokenStream σ Tok Ed Hyg) : List (Entry Tok Ed Hyg) := held s ++ s.ahead.toList

def upcoming (s : TokenStream σ Tok Ed Hyg) : Stream' (Entry Tok Ed Hyg) :=
  pending s ++ₛ drained R s.source

variable {R} {s : TokenStream σ Tok Ed Hyg}

theorem drained_eq (source : σ) :
    drained R source = Stream'.cons (R.next source).1 (drained R (R.next source).2) :=
  Stream'.corec'_eq R.next source

theorem innerGetToken_entry : (innerGetToken R s).1 = (R.next s.source).1 := by
  unfold innerGetToken
  dsimp only
  split <;> rfl

theorem held_of_empty (h : s.cacheValid = false) :
    held s = [] := if_neg (by rw [h]; exact Bool.false_ne_true)

theorem upcoming_of_empty (h : s.cacheValid = false) :
    upcoming R s = s.ahead.toList ++ₛ drained R s.source := by
  rw [upcoming, pending, held_of_empty h, List.nil_append]

/-- A token is read from the source, and all else stays, but for the record. -/
theorem innerGetToken_state : ∃ out,
    (innerGetToken R s).2 = { s with source := (R.next s.source).2, sourceRecord := out } := by
  unfold innerGetToken
  dsimp only
  split
  · split
    · exact ⟨s.sourceRecord, rfl⟩
    · exact ⟨_, rfl⟩
  · exact ⟨s.sourceRecord, rfl⟩

/-- The next token is taken, and its edition and hygiene are the current ones. -/
theorem upcoming_takeToken : upcoming R s =
    Stream'.cons ⟨(takeToken R s).1, (takeToken R s).2.edition, (takeToken R s).2.hygiene⟩
      (upcoming R (takeToken R s).2) ∧ (takeToken R s).2.cacheValid = false := by
  unfold takeToken
  split
  · next hcache =>
    refine ⟨?_, rfl⟩
    rw [upcoming, pending, held, if_pos hcache, List.singleton_append, Stream'.cons_append_stream]
    rfl
  · next hcache =>
    have hcache : s.cacheValid = false := Bool.eq_false_of_not_eq_true hcache
    have hafter : ∀ edition hygiene ahead source out,
        upcoming R ({ s with edition, hygiene, ahead, source, sourceRecord := out } :
          TokenStream σ Tok Ed Hyg) =
          ahead.toList ++ₛ drained R source := fun _ _ _ _ _ => upcoming_of_empty hcache
    rw [upcoming_of_empty hcache]
    split
    · next hcount =>
      refine ⟨?_, hcache⟩
      rw [s.ahead.toList_pop (Nat.pos_of_ne_zero hcount), Stream'.cons_append_stream]
      exact congrArg _ (hafter _ _ _ _ _).symm
    · next hcount =>
      obtain ⟨out, hstate⟩ := innerGetToken_state (R := R) (s := s)
      dsimp only
      rw [hstate, innerGetToken_entry, s.ahead.toList_eq_nil (not_not.mp hcount),
        Stream'.nil_append_stream,
        drained_eq]
      refine ⟨congrArg _ ?_, hcache⟩
      refine Eq.trans ?_ (hafter _ _ _ _ _).symm
      rw [s.ahead.toList_eq_nil (not_not.mp hcount), Stream'.nil_append_stream]

theorem upcoming_putback {tok : Tok} {s' : TokenStream σ Tok Ed Hyg} (h : putback tok s = .ok s') :
    upcoming R s' = Stream'.cons ⟨tok, s.edition, s.hygiene⟩ (upcoming R s) ∧ s.cacheValid = false ∧
      s'.cacheValid = true ∧ s'.edition = s.edition ∧ s'.hygiene = s.hygiene := by
  unfold putback at h
  split at h
  · cases h
  · next hcache =>
    cases h
    have hcache : s.cacheValid = false := Bool.eq_false_of_not_eq_true hcache
    refine ⟨?_, hcache, rfl, rfl, rfl⟩
    rw [upcoming, upcoming, pending, pending, held_of_empty hcache]
    rfl

/-- The parts of the state that looking ahead leaves alone. -/
structure Undisturbed (s s' : TokenStream σ Tok Ed Hyg) : Prop where
  cacheValid : s'.cacheValid = s.cacheValid
  cache : s'.cache = s.cache
  edition : s'.edition = s.edition
  hygiene : s'.hygiene = s.hygiene
  record : s'.record = s.record

theorem Undisturbed.refl (s : TokenStream σ Tok Ed Hyg) :
    Undisturbed s s := ⟨rfl, rfl, rfl, rfl, rfl⟩

theorem Undisturbed.trans {s s' s'' : TokenStream σ Tok Ed Hyg} (h : Undisturbed s s')
    (h' : Undisturbed s' s'') :
    Undisturbed s s'' :=
  ⟨h'.cacheValid.trans h.cacheValid, h'.cache.trans h.cache, h'.edition.trans h.edition,
    h'.hygiene.trans h.hygiene, h'.record.trans h.record⟩

theorem Undisturbed.held {s' : TokenStream σ Tok Ed Hyg} (h : Undisturbed s s') :
    held s' = held s := by
  rw [TokenStream.held, TokenStream.held, h.cacheValid, h.cache, h.edition, h.hygiene]

theorem upcoming_readAhead (h : s.ahead.count < MAX_LOOKAHEAD) :
    upcoming R (readAhead R s) = upcoming R s ∧ Undisturbed s (readAhead R s) ∧
      (readAhead R s).ahead.count = s.ahead.count + 1 := by
  obtain ⟨out, hstate⟩ := innerGetToken_state (R := R) (s := s)
  have hread : readAhead R s = { s with
      ahead := s.ahead.push h (R.next s.source).1, source := (R.next s.source).2, sourceRecord :=
        out } := by
    unfold readAhead
    dsimp only
    rw [hstate, innerGetToken_entry, dif_pos h]
  rw [hread]
  have hquiet : Undisturbed s { s with
      ahead := s.ahead.push h (R.next s.source).1, source := (R.next s.source).2,
        sourceRecord := out } :=
    ⟨rfl, rfl, rfl, rfl, rfl⟩
  refine ⟨?_, hquiet, rfl⟩
  rw [upcoming, upcoming, pending, pending, hquiet.held, Ring.toList_push, ← List.append_assoc,
    Stream'.append_append_stream, drained_eq s.source]
  rfl

theorem upcoming_readAheads :
    ∀ (n : Nat) (s : TokenStream σ Tok Ed Hyg), s.ahead.count + n ≤ MAX_LOOKAHEAD →
    upcoming R ((readAhead R)^[n] s) = upcoming R s ∧ Undisturbed s ((readAhead R)^[n] s) ∧
      ((readAhead R)^[n] s).ahead.count = s.ahead.count + n
  | 0, s, _ => ⟨rfl, .refl s, rfl⟩
  | n + 1, s, h => by
    obtain ⟨hup, hquiet, hcount⟩ := upcoming_readAhead (R := R) (s := s) (by omega)
    obtain ⟨hup', hquiet', hcount'⟩ := upcoming_readAheads n (readAhead R s) (by omega)
    rw [Function.iterate_succ_apply]
    exact ⟨hup'.trans hup, hquiet.trans hquiet', by omega⟩

theorem upcoming_fill {i : Nat} (h : i < MAX_LOOKAHEAD) :
    upcoming R (fill R i s) = upcoming R s ∧ Undisturbed s (fill R i s) ∧
      i < (fill R i s).ahead.count := by
  have hle := s.ahead.count_le
  obtain ⟨hup, hquiet, hcount⟩ := upcoming_readAheads (R := R) (i + 1 - s.ahead.count) s (by omega)
  refine ⟨hup, hquiet, ?_⟩
  rw [fill, hcount]
  omega

theorem get_append_stream {α : Type} :
    ∀ {l : List α} {t : Stream' α} {i : Nat} {x : α}, l[i]? = some x →
    (l ++ₛ t).get i = x
  | _ :: _, _, 0, _, h => Option.some.inj h
  | _ :: l, t, i + 1, _, h => get_append_stream (l := l) (t := t) (i := i) h

theorem get_upcoming {i : Nat} (h : i < s.ahead.count) :
    (upcoming R s).get ((held s).length + i) = s.ahead.get i := by
  refine get_append_stream ?_
  rw [pending, List.getElem?_append_right (Nat.le_add_right _ _), Nat.add_sub_cancel_left]
  exact s.ahead.getElem?_toList h

end TokenStream

end Trustme.Parse
