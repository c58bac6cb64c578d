/-
  Subject:   When `TokenStream::from_str` returns.

  * `Stuck`: a line comment without an end of line, a block comment that is not closed as it is
    counted, and a radix prefix at the end of the text;
  * `token_leaves`: from any other place a round returns, and has read a character;
  * `stuck_token`: from there it does not;
  * **`from_str_returns`** -- a text is lexed if and only if no round begins at a stuck place.
-/
import Trustme.ProcMacro.Lexer

namespace Trustme.ProcMacro.Lex

open Trustme.Lib

section Lexer

variable {U : CharTables}

/-! ## 1. Places where it is stuck -/

/-- A block comment is closed, as the loop counts: it skips a character behind each end and
    start. -/
inductive Closed : UInt32 → List Char → Prop where
  | last {level : UInt32} {text : List Char} (h : level - 1 = 0) : Closed level ('*' :: '/' :: text)
  | close {level : UInt32} {text : List Char} (h : level - 1 ≠ 0)
      (ht : Closed (level - 1) text.tail) : Closed level ('*' :: '/' :: text)
  | nest {level : UInt32} {text : List Char} (ht : Closed (level + 1) text.tail) :
      Closed level ('/' :: '*' :: text)
  | skip {level : UInt32} {c : Char} {text : List Char} (hs : ¬ (c = '*' ∧ text.head? = some '/'))
      (ho : ¬ (c = '/' ∧ text.head? = some '*')) (ht : Closed level text) : Closed level (c :: text)

/-- Places of the text from which a round does not return. -/
def Stuck : List Char → Prop
  | '/' :: '/' :: text => '\n' ∉ text
  | '/' :: '*' :: text => ¬ Closed 1 text
  | ['0', 'x'] => True
  | ['0', 'o'] => True
  | ['0', 'b'] => True
  | _ => False

/-! ## 2. Spellings -/

theorem spelled_returns (text : List Char) : (spelled text).Returns :=
  (fromSpelling_returns text).bind fun _ => Outcome.okOr_returns _ _

theorem finish_leaves (spelling it : List Char) : (finish spelling it).Leaves it.length :=
  (spelled_returns spelling).leaves fun _ => Nat.le_refl _

variable {c : Char}

theorem letter_alphabetic (h : c.isAlpha = true) : U.isAlphabetic c = true := by
  rw [CharTables.isAlphabetic, h, Bool.true_or]

theorem identNew_returns {chars : List Char} (hc : c.isAlpha = true) (hdigit : c.isDigit = false)
    (hchars : (chars.all (·.isAlpha)) = true) :
    (identNew U (c :: chars)).Returns := by
  have hfirst : ((c :: chars).all (·.isDigit)) = false := by
    rw [List.all_cons, hdigit, Bool.false_and]
  have hrest : (chars.all fun d => d == '_' || U.isAlphanumeric d) = true := by
    refine List.all_eq_true.mpr fun d hd => ?_
    rw [CharTables.isAlphanumeric, letter_alphabetic (List.all_eq_true.mp hchars d hd),
      Bool.true_or, Bool.or_true]
  have hvalid : validateIdent U (c :: chars) = .ok () := by
    rw [validateIdent, hfirst, letter_alphabetic hc, hrest]
    exact (if_neg Bool.false_ne_true).trans (if_neg (by simp))
  rw [identNew, hvalid]
  trivial

theorem getIdent_leaves (s : List Char) (c : Char) (rest : List Char) :
    (getIdent U s (c :: rest)).Leaves (rest.length + 1) :=
  List.length_dropWhile_le _ _

/-- The first character is read when it is of an identifier. -/
theorem getIdent_reads (s : List Char) (h : isIdentChar U c = true) (rest : List Char) :
    (getIdent U s (c :: rest)).Leaves rest.length := by
  change ((c :: rest).dropWhile (isIdentChar U)).length ≤ rest.length
  rw [List.dropWhile_cons_of_pos h]
  exact List.length_dropWhile_le _ _

/-! ## 3. Quotes -/

theorem charEscape_leaves (spelling rest : List Char) :
    (charEscape spelling rest).Leaves rest.length := by
  cases rest with
  | nil => trivial
  | cons escaped rest =>
    rw [charEscape]
    split_ifs
    · exact Nat.le_succ _
    · exact (unicodeEscape_leaves ..).mono (Nat.le_succ _)
    · exact (hexEscape_leaves ..).mono (Nat.le_succ _)
    · trivial

theorem byteEscape_leaves (spelling rest : List Char) :
    (byteEscape spelling rest).Leaves rest.length := by
  cases rest with
  | nil => trivial
  | cons escaped rest =>
    rw [byteEscape]
    split_ifs
    · exact Nat.le_succ _
    · exact (hexEscape_leaves ..).mono (Nat.le_succ _)
    · trivial

theorem closeQuote_leaves (eof more : LexError) (spelling rest : List Char) :
    (closeQuote eof more spelling rest).Leaves rest.length := by
  cases rest with
  | nil => trivial
  | cons d rest =>
    rw [closeQuote]
    split_ifs
    · exact (spelled_returns _).leaves fun _ => Nat.le_succ _
    · trivial

theorem charBody_leaves (c : Char) (rest : List Char) : (charBody c rest).Leaves rest.length := by
  unfold charBody
  split_ifs
  · exact charEscape_leaves ..
  · exact Nat.le_refl _

theorem charLiteral_leaves (c : Char) (rest : List Char) :
    (charLiteral c rest).Leaves rest.length :=
  (charBody_leaves c rest).bind fun _ _ hle => (closeQuote_leaves ..).mono hle

theorem lifetimeOrChar_leaves (rest : List Char) : (lifetimeOrChar U rest).Leaves rest.length := by
  cases rest with
  | nil => trivial
  | cons c rest =>
    rw [lifetimeOrChar]
    split_ifs
    · exact (getIdent_leaves [] c rest).bind fun _ _ hle => hle
    · exact (charLiteral_leaves c rest).mono (Nat.le_succ _)

theorem byteBody_leaves (c : Char) (rest : List Char) : (byteBody c rest).Leaves rest.length := by
  unfold byteBody
  split_ifs
  · exact byteEscape_leaves ..
  · exact Nat.le_refl _
  · trivial

theorem byteLiteral_leaves (rest : List Char) : (byteLiteral rest).Leaves rest.length := by
  cases rest with
  | nil => trivial
  | cons c rest =>
    exact (byteBody_leaves c rest).bind fun _ _ hle =>
      (closeQuote_leaves ..).mono (Nat.le_succ_of_le hle)

/-- By induction on the rounds of the loop. -/
theorem stringBody_leaves (spelling rest : List Char) :
    (stringBody U spelling rest).Leaves rest.length := by
  fun_induction stringBody U spelling rest with
  | case1 => trivial
  | case2 => exact Nat.le_succ _
  | case3 spelling rest _ escaped it h ih =>
    have hle := stringEscape_leaves U (spelling ++ ['\\']) rest
    rw [h] at hle
    exact ih.mono (Nat.le_succ_of_le hle)
  | case4 => trivial
  | case5 spelling rest _ m h =>
    have hle := stringEscape_leaves U (spelling ++ ['\\']) rest
    rw [h] at hle
    exact hle
  | case6 spelling rest _ h =>
    have hle := stringEscape_leaves U (spelling ++ ['\\']) rest
    rw [h] at hle
    exact hle
  | case7 spelling c rest _ _ ih => exact ih.mono (Nat.le_succ _)

theorem stringLiteral_leaves (lead : Option Char) (rest : List Char) :
    (stringLiteral U lead rest).Leaves rest.length :=
  (stringBody_leaves ..).bind fun _ _ hle => (spelled_returns _).leaves fun _ => hle

/-! ## 4. Raw strings -/

theorem countHashes_leaves (hashes : Int32) (c : Char) (rest : List Char) :
    (countHashes hashes (c :: rest)).Leaves rest.length := by
  induction rest generalizing hashes c with
  | nil =>
    rw [countHashes]
    split_ifs
    · trivial
    · exact Nat.le_refl _
  | cons d rest ih =>
    rw [countHashes]
    split_ifs
    · exact (ih _ d).mono (Nat.le_succ _)
    · exact Nat.le_refl _

theorem rawBody_leaves (reqHashes : Int32) (rawstr rest : List Char) :
    (rawBody reqHashes rawstr rest).Leaves rest.length := by
  fun_induction rawBody reqHashes rawstr rest with
  | case1 => trivial
  | case2 rawstr rest hashes d it _ h ih =>
    have hle := closeHashes_leaves reqHashes 0 '"' rest
    rw [h] at hle
    exact ih.mono (Nat.le_succ_of_le hle)
  | case3 rawstr rest hashes d it _ h =>
    have hle := closeHashes_leaves reqHashes 0 '"' rest
    rw [h] at hle
    exact Nat.le_succ_of_le hle
  | case4 => trivial
  | case5 rawstr rest m h =>
    have hle := closeHashes_leaves reqHashes 0 '"' rest
    rw [h] at hle
    exact hle
  | case6 rawstr rest h =>
    have hle := closeHashes_leaves reqHashes 0 '"' rest
    rw [h] at hle
    exact hle
  | case7 rawstr c rest _ ih => exact ih.mono (Nat.le_succ _)

theorem identStr_returns (lead : Option Char) : (identNew U (identStr lead)).Returns := by
  unfold identStr
  split
  · exact identNew_returns rfl rfl rfl
  · exact identNew_returns rfl rfl rfl
  · exact identNew_returns rfl rfl rfl

theorem rawString_leaves (lead : Option Char) (rest : List Char) :
    (rawString U lead rest).Leaves rest.length := by
  have hnew := identStr_returns (U := U) lead
  unfold rawString
  cases rest with
  | nil =>
    rw [if_pos rfl]
    exact hnew.leaves fun _ => Nat.le_refl _
  | cons c rest =>
    rw [if_neg (List.cons_ne_nil c rest)]
    refine (countHashes_leaves 0 c rest).bind ?_
    rintro ⟨hashes, d⟩ it hle
    dsimp only
    split_ifs
    · exact (getIdent_leaves (identStr lead) d it).bind fun _ _ hle' =>
        Nat.le_trans hle' (Nat.succ_le_succ hle)
    · exact hnew.leaves fun _ => Nat.succ_le_succ hle
    · exact (rawBody_leaves ..).bind fun _ _ hle' => (spelled_returns _).leaves fun _ =>
        Nat.le_succ_of_le (Nat.le_trans hle' hle)

theorem behindLead_leaves (lead : Option Char) (c : Char) (rest : List Char) :
    (behindLead U lead c rest).Leaves (rest.length + 1) := by
  unfold behindLead
  split_ifs
  · exact (rawString_leaves lead rest).mono (Nat.le_succ _)
  · exact Nat.le_refl _
  · exact (byteLiteral_leaves rest).mono (Nat.le_succ _)
  · exact (stringLiteral_leaves lead rest).mono (Nat.le_succ _)
  · exact (getIdent_leaves _ c rest).bind fun _ _ hle => hle

theorem literalOrIdent_leaves (h : c = 'b' ∨ c = 'c' ∨ c = 'r' ∨ c = '"')
    (rest : List Char) : (literalOrIdent U c rest).Leaves rest.length := by
  unfold literalOrIdent
  split_ifs with hlead
  · cases rest with
    | nil => exact Nat.le_refl _
    | cons d rest => exact behindLead_leaves (some c) d rest
  · rcases h with rfl | rfl | rfl | rfl
    · exact absurd (.inl rfl) hlead
    · exact absurd (.inr rfl) hlead
    · exact rawString_leaves none rest
    · exact stringLiteral_leaves none rest

/-! ## 5. Numbers -/

theorem fractionPart_le (spelling it : List Char) :
    (fractionPart spelling it).2.length ≤ it.length := by
  cases it with
  | nil => exact Nat.le_refl _
  | cons c rest =>
    rw [fractionPart]
    split_ifs
    · exact Nat.le_succ_of_le (List.length_dropWhile_le ..)
    · exact Nat.le_refl _

theorem signPart_le (spelling it : List Char) : (signPart spelling it).2.length ≤ it.length := by
  cases it with
  | nil => exact Nat.le_refl _
  | cons c rest =>
    rw [signPart]
    split_ifs
    · exact Nat.le_succ _
    · exact Nat.le_refl _

theorem exponentPart_leaves (spelling it : List Char) :
    (exponentPart spelling it).Leaves it.length := by
  cases it with
  | nil => exact Nat.le_refl _
  | cons c rest =>
    rw [exponentPart]
    dsimp only
    split_ifs
    · exact Nat.le_succ_of_le (Nat.le_trans (List.length_dropWhile_le ..) (signPart_le ..))
    · trivial
    · exact Nat.le_refl _

/-- A float is read up to a place behind its first character: its mark is one of a fraction, of an
    exponent or of a suffix. -/
theorem floatSuffix_leaves (spelling it : List Char) :
    (floatSuffix U spelling it).Leaves it.length := by
  cases it with
  | nil => exact Nat.le_refl _
  | cons c rest =>
    rw [floatSuffix]
    split_ifs
    · refine (getIdent_leaves [] c rest).bind fun suffix it hle => ?_
      dsimp only
      split_ifs
      · exact hle
      · trivial
    · trivial
    · exact Nat.le_refl _

theorem float_leaves (spelling it : List Char) : (float U spelling it).Leaves it.length := by
  unfold float
  have hle := fractionPart_le spelling it
  refine Outcome.Leaves.bind ((exponentPart_leaves ..).mono hle) fun _ _ hle => ?_
  exact Outcome.Leaves.bind ((floatSuffix_leaves ..).mono hle) fun _ _ hle =>
    (finish_leaves ..).mono hle

/-- By induction on the text. -/
theorem integer_leaves (base : Nat) (spelling it : List Char) :
    (integer U base spelling it).Leaves it.length := by
  induction it generalizing spelling with
  | nil => exact finish_leaves spelling []
  | cons c rest ih =>
    rw [integer]
    split_ifs
    · exact (ih _).mono (Nat.le_succ _)
    · refine (getIdent_leaves [] c rest).bind fun s it hle => ?_
      dsimp only
      split_ifs
      · exact (finish_leaves ..).mono hle
      · trivial
    · exact (ih _).mono (Nat.le_succ _)
    · exact finish_leaves ..
    · exact float_leaves ..
    · exact finish_leaves ..

/-- A digit is read. -/
theorem integer_reads (h : c.isDigit = true) (rest : List Char) :
    (integer U 10 [] (c :: rest)).Leaves rest.length := by
  have hrange : 0x30 ≤ c.toNat ∧ c.toNat ≤ 0x39 := by
    simpa [Char.isDigit, UInt32.le_iff_toNat_le] using h
  have hne : c ≠ '_' ∧ ¬ (c = 'u' ∨ c = 'i') := by
    refine ⟨?_, ?_⟩
    · rintro rfl
      exact absurd h (by decide)
    · rintro (rfl | rfl)
      · exact absurd h (by decide)
      · exact absurd h (by decide)
  have hdigit : isDigitOf 10 c = true := by
    rw [isDigitOf, if_pos h, decide_eq_true_eq]
    omega
  rw [integer, if_neg hne.1, if_neg hne.2, if_pos hdigit]
  exact integer_leaves 10 [c] rest

variable {it rest : List Char}

theorem integerFrom_leaves (base : Nat) (spelling : List Char) (h : it ≠ []) :
    (integerFrom U base spelling it).Leaves it.length := by
  cases it with
  | nil => exact absurd rfl h
  | cons c rest => exact integer_leaves base spelling (c :: rest)

theorem number_leaves (h : c.isDigit = true) (hs : ¬ Stuck (c :: rest)) :
    (number U c rest).Leaves rest.length := by
  unfold number
  split_ifs with hc
  · subst hc
    cases rest with
    | nil => exact finish_leaves ..
    | cons d rest =>
      have hstuck : d = 'x' ∨ d = 'o' ∨ d = 'b' → rest ≠ [] := by
        rintro (rfl | rfl | rfl) rfl
        · exact hs trivial
        · exact hs trivial
        · exact hs trivial
      dsimp only
      split_ifs with hx ho hb
      · exact (integerFrom_leaves _ _ (hstuck (.inl hx))).mono (Nat.le_succ _)
      · exact (integerFrom_leaves _ _ (hstuck (.inr (.inl ho)))).mono (Nat.le_succ _)
      · exact (integerFrom_leaves _ _ (hstuck (.inr (.inr hb)))).mono (Nat.le_succ _)
      · exact integerFrom_leaves _ _ (List.cons_ne_nil d rest)
  · exact integer_reads h rest

/-! ## 6. Operators -/

/-- What may go on from an entry of one character. -/
def goesOn (start : Nat) (syms : List (List UInt8)) (b : UInt8) : Bool :=
  match positionAt 1 b (syms.drop 1) with
  | .ok none => true
  | .ok (some s) =>
    SYMS[start + (s + 1)]?.map List.length == some 2 && (syms.drop (start + (s + 1) + 1)).isEmpty
  | _ => false

/-- What the search has at an entry of one character: two of them have one length. -/
def entryFound (b : UInt8) : Bool :=
  match positionAt 0 b SYMS with
  | .ok none => true
  | .ok (some start) =>
    match extendEnd 0 b (start + 1) (SYMS.drop (start + 1)) with
    | .ok stop =>
      match candidates start stop 1 with
      | .ok syms => SYMS[start]?.map List.length == some 1 &&
          (syms.drop 1).all fun v => v[1]?.any (goesOn start syms)
      | _ => false
    | _ => false
  | _ => false

/-- A byte is found by the search only if an entry has it at the place. -/
theorem positionAt_cases {ofs : Nat} {b : UInt8} : ∀ {vs : List (List UInt8)},
    (∀ v ∈ vs, ofs < v.length) → positionAt ofs b vs = .ok none ∨ ∃ v ∈ vs, v[ofs]? = some b
  | [], _ => .inl rfl
  | v :: vs, h => by
    have hlt := h v List.mem_cons_self
    have hx := List.getElem?_eq_getElem hlt
    by_cases hb : v[ofs] = b
    · exact .inr ⟨v, List.mem_cons_self, hb ▸ hx⟩
    · rcases positionAt_cases fun w hw => h w (List.mem_cons_of_mem v hw) with hnone | ⟨w,
        hw, hfound⟩
      · left
        rw [positionAt, index, hx]
        dsimp only
        rw [Outcome.ok_bind, if_neg hb, hnone]
        rfl
      · exact .inr ⟨w, List.mem_cons_of_mem v hw, hfound⟩

/-- What holds of the bytes the entries have at a place, and of those the search does not find
    there, holds of all bytes. -/
theorem forall_of_found {ofs : Nat} {vs : List (List UInt8)} {f : UInt8 → Bool}
    (hother : ∀ b, positionAt ofs b vs = .ok none → f b = true)
    (h : ∀ v ∈ vs, v[ofs]?.any f = true) (b : UInt8) : f b = true := by
  have hlong : ∀ v ∈ vs, ofs < v.length := by
    intro v hv
    obtain ⟨x, hx, -⟩ := (Option.any_eq_true _ _).mp (h v hv)
    exact (List.getElem?_eq_some_iff.mp hx).1
  rcases positionAt_cases hlong with hnone | ⟨v, hv, hfound⟩
  · exact hother b hnone
  · have hf := h v hv
    rwa [hfound, Option.any_some] at hf

variable {start fuel : Nat}

theorem goesOn_of_entries {syms : List (List UInt8)}
    (h : ∀ v ∈ syms.drop 1, v[1]?.any (goesOn start syms) = true) (b : UInt8) :
    goesOn start syms b = true :=
  forall_of_found (fun b hnone => by rw [goesOn, hnone]) h b

theorem entries_found (b : UInt8) : entryFound b = true := by
  have hentries : ∀ v ∈ SYMS, v[0]?.any entryFound = true := by decide +kernel
  exact forall_of_found (fun b hnone => by rw [entryFound, hnone]) hentries b

/-- An entry of two characters is the only one left. -/
theorem operatorLoop_two (h : SYMS[start]?.map List.length = some 2) (c : Char)
    (rest : List Char) : ∃ d it, operatorLoop start (start + 1) 2 c rest = .ok ((start, 2, d), it) ∧
      it.length ≤ rest.length := by
  obtain ⟨v, hv, hlen⟩ := Option.map_eq_some_iff.mp h
  have hlt : start < SYMS.length := (List.getElem?_eq_some_iff.mp hv).1
  have htake : (SYMS.drop start).take (start + 1 - start) = [v] := by
    rw [Nat.add_sub_cancel_left, List.drop_eq_getElem_cons hlt, (List.getElem?_eq_some_iff.mp hv).2]
    rfl
  have hcand : candidates start (start + 1) 2 = .ok [v] := by
    rw [candidates, subslice, if_pos ⟨Nat.le_succ _, hlt⟩, htake]
    exact if_neg (not_not.mpr hlen.symm)
  cases rest with
  | nil =>
    refine ⟨c, [], ?_, Nat.le_refl _⟩
    rw [operatorLoop, hcand]
    rfl
  | cons d rest =>
    refine ⟨d, d :: rest, ?_, Nat.le_refl _⟩
    rw [operatorLoop, hcand]
    rfl

theorem operatorLoop_one {stop : Nat} {syms : List (List UInt8)}
    (hcand : candidates start stop 1 = .ok syms) (hone : SYMS[start]?.map List.length = some 1)
    (hgoes : ∀ b, goesOn start syms b = true) (c : Char) (rest : List Char) :
    ∃ place ofs d it, operatorLoop start stop 1 c rest = .ok ((place, ofs, d), it) ∧
      SYMS[place]?.map List.length = some ofs ∧ it.length ≤ rest.length := by
  cases rest with
  | nil =>
    refine ⟨start, 1, c, [], ?_, hone, Nat.le_refl _⟩
    rw [operatorLoop, hcand]
    rfl
  | cons d rest =>
    have hd := hgoes (asU8 d)
    rw [goesOn] at hd
    rw [operatorLoop, hcand, Outcome.ok_bind]
    split at hd
    · next hnone =>
      refine ⟨start, 1, d, d :: rest, ?_, hone, Nat.le_refl _⟩
      rw [hnone]
      rfl
    · next s hsome =>
      rw [Bool.and_eq_true, beq_iff_eq, List.isEmpty_iff] at hd
      obtain ⟨e, it, hloop, hle⟩ := operatorLoop_two hd.1 d rest
      refine ⟨start + (s + 1), 2, e, it, ?_, hd.1, Nat.le_succ_of_le hle⟩
      rw [hsome, Outcome.ok_bind]
      dsimp only
      rw [hd.2]
      exact hloop
    · cases hd

theorem operator_leaves (c : Char) (rest : List Char) : (operator c rest).Leaves rest.length := by
  have hfound := entries_found (asU8 c)
  rw [entryFound] at hfound
  unfold operator
  split at hfound
  · next hnone =>
    rw [hnone]
    trivial
  · next start hstart =>
    rw [hstart, Outcome.ok_bind]
    split at hfound
    · next stop hstop =>
      dsimp only
      rw [hstop, Outcome.ok_bind]
      split at hfound
      · next syms hcand =>
        rw [Bool.and_eq_true, beq_iff_eq] at hfound
        have hgoes := goesOn_of_entries (List.all_eq_true.mp hfound.2)
        obtain ⟨place, ofs, d, it, hloop, hplace, hle⟩ :=
          operatorLoop_one hcand hfound.1 hgoes c rest
        obtain ⟨op, hop, hlen⟩ := Option.map_eq_some_iff.mp hplace
        rw [hloop, Outcome.ok_bind]
        dsimp only
        rw [index, hop]
        dsimp only
        rw [Outcome.ok_bind, if_neg (not_not.mpr hlen)]
        exact hle
      · cases hfound
    · cases hfound
  · cases hfound

/-! ## 7. Comments -/

theorem lineComment_leaves (h : '\n' ∈ it.tail) (hfuel : it.length ≤ fuel) :
    ∃ it', lineComment fuel it = .ok it' ∧ it'.length ≤ it.tail.length := by
  induction fuel generalizing it with
  | zero =>
    exact absurd (List.length_eq_zero_iff.mp (Nat.le_zero.mp hfuel)) (by rintro rfl; cases h)
  | succ fuel ih =>
    cases it with
    | nil => cases h
    | cons c it =>
      rw [lineComment]
      split_ifs with hend
      · exact ⟨it, rfl, Nat.le_refl _⟩
      · cases it with
        | nil => cases h
        | cons d it =>
          have hd : '\n' ∈ (d :: it).tail := by
            rcases List.mem_cons.mp h with rfl | h
            · exact absurd rfl hend
            · exact h
          obtain ⟨it', hrun, hle⟩ := ih hd (Nat.le_of_succ_le_succ hfuel)
          exact ⟨it', hrun, Nat.le_succ_of_le hle⟩

/-- Without an end of line the loop goes on for ever. -/
theorem lineComment_running (h : '\n' ∉ it.tail) (fuel : Nat) :
    lineComment fuel it = .running := by
  induction fuel generalizing it with
  | zero => rfl
  | succ fuel ih =>
    have hend : it.tail.head? ≠ some '\n' := fun hhead => h (List.mem_of_head? hhead)
    rw [lineComment, if_neg hend]
    exact ih fun hmem => h (List.mem_of_mem_tail hmem)

/-- With more fuel it ends where it did. -/
theorem lineComment_agrees {it' : List Char} (h : lineComment fuel it = .ok it')
    (more : Nat) : lineComment more it = .ok it' ∨ lineComment more it = .running := by
  induction fuel generalizing it more with
  | zero => cases h
  | succ fuel ih =>
    cases more with
    | zero => exact .inr rfl
    | succ more =>
      rw [lineComment] at h ⊢
      split_ifs at h ⊢
      · exact .inl h
      · exact ih h more

theorem blockComment_leaves {level : UInt32} (h : Closed level it) :
    ∃ it', blockComment level it = .ok it' ∧ it'.length ≤ it.length := by
  induction h with
  | @last level text h =>
    refine ⟨text, ?_, Nat.le_succ_of_le (Nat.le_succ _)⟩
    rw [blockComment, if_pos ⟨rfl, rfl⟩, if_pos h]
    rfl
  | @close level text h _ ih =>
    obtain ⟨it', hrun, hle⟩ := ih
    refine ⟨it', ?_, ?_⟩
    · rw [blockComment, if_pos ⟨rfl, rfl⟩, if_neg h]
      exact hrun
    · rw [List.length_tail] at hle
      simp only [List.length_cons]
      omega
  | @nest level text _ ih =>
    obtain ⟨it', hrun, hle⟩ := ih
    refine ⟨it', ?_, ?_⟩
    · rw [blockComment, if_neg fun hc => absurd hc.1 (by decide), if_pos ⟨rfl, rfl⟩]
      exact hrun
    · rw [List.length_tail] at hle
      simp only [List.length_cons]
      omega
  | @skip level c text hs ho _ ih =>
    obtain ⟨it', hrun, hle⟩ := ih
    refine ⟨it', ?_, Nat.le_succ_of_le hle⟩
    rw [blockComment, if_neg hs, if_neg ho]
    exact hrun

/-- A comment that is not closed ends in a panic: by induction on the rounds of the loop. -/
theorem blockComment_panics {level : UInt32} (h : ¬ Closed level it) :
    blockComment level it = .panic "Unexpected EOF in block comment" := by
  fun_induction blockComment level it with
  | case1 => rfl
  | case2 level c rest hc hlevel =>
    obtain ⟨rfl, hhead⟩ := hc
    obtain ⟨text, rfl⟩ := List.head?_eq_some_iff.mp hhead
    exact absurd (.last hlevel) h
  | case3 level c rest hc hlevel ih =>
    obtain ⟨rfl, hhead⟩ := hc
    obtain ⟨text, rfl⟩ := List.head?_eq_some_iff.mp hhead
    exact ih fun hclosed => h (.close hlevel hclosed)
  | case4 level c rest _ hc ih =>
    obtain ⟨rfl, hhead⟩ := hc
    obtain ⟨text, rfl⟩ := List.head?_eq_some_iff.mp hhead
    exact ih fun hclosed => h (.nest hclosed)
  | case5 level c rest hs ho ih => exact ih fun hclosed => h (.skip hs ho hclosed)

/-! ## 8. A round -/

theorem isIdentChar_of (h : U.isAlphabetic c = true ∨ c = '_') : isIdentChar U c = true := by
  rcases h with h | rfl
  · rw [isIdentChar, CharTables.isAlphanumeric, h, Bool.true_or, Bool.or_true, Bool.true_or]
  · rfl

/-- From a place that is not stuck a round returns, and has read a character. -/
theorem token_leaves (hs : ¬ Stuck (c :: rest))
    (hfuel : rest.length < fuel) : (token U fuel c rest).Leaves rest.length := by
  unfold token
  split_ifs with _ _ hline hblock hlit hident hdigit
  · exact Nat.le_refl _
  · exact lifetimeOrChar_leaves rest
  · obtain ⟨rfl, hhead⟩ := hline
    obtain ⟨text, rfl⟩ := List.head?_eq_some_iff.mp hhead
    have hend : '\n' ∈ ('/' :: '/' :: text).tail := List.mem_cons_of_mem _ (not_not.mp hs)
    obtain ⟨it, hrun, hle⟩ := lineComment_leaves hend hfuel
    rw [hrun]
    exact hle
  · obtain ⟨rfl, hhead⟩ := hblock
    obtain ⟨text, rfl⟩ := List.head?_eq_some_iff.mp hhead
    have hclosed : Closed 1 text := not_not.mp hs
    obtain ⟨it, hrun, hle⟩ := blockComment_leaves hclosed
    rw [List.tail_cons, hrun]
    exact Nat.le_succ_of_le hle
  · exact literalOrIdent_leaves hlit rest
  · exact (getIdent_reads [] (isIdentChar_of hident) rest).bind fun _ _ hle => hle
  · exact number_leaves hdigit hs
  · exact operator_leaves c rest
  · trivial

theorem not_whitespace (h : 0x20 < c.toNat ∧ c.toNat ≤ 0x7F) : U.isWhitespace c = false := by
  have hblank : (c == ' ') = false := by
    rw [beq_eq_false_iff_ne]
    rintro rfl
    exact absurd h.1 (by decide)
  rw [CharTables.isWhitespace, hblank, decide_eq_false (show ¬ c.toNat ≤ 0x0D by omega),
    decide_eq_false (show ¬ 0x7F < c.toNat by omega), Bool.and_false, Bool.false_and]
  rfl

theorem token_line (fuel : Nat) (text : List Char) : token U fuel '/' ('/' :: text) =
    (lineComment fuel ('/' :: '/' :: text) >>= fun it => pure ([], it)) := by
  rw [token, not_whitespace (by decide), if_neg Bool.false_ne_true, if_neg (by decide),
    if_pos ⟨rfl, rfl⟩]

theorem token_block (fuel : Nat) (text : List Char) : token U fuel '/' ('*' :: text) =
    (blockComment 1 text >>= fun it => pure ([], it)) := by
  have hline : ¬ ('/' = '/' ∧ ('*' :: text).head? = some '/') := fun h =>
    absurd (Option.some.inj h.2) (by decide)
  rw [token, not_whitespace (by decide), if_neg Bool.false_ne_true, if_neg (by decide),
    if_neg hline,
    if_pos ⟨rfl, rfl⟩]
  rfl

theorem token_radix (fuel : Nat) {d : Char} (h : d = 'x' ∨ d = 'o' ∨ d = 'b') :
    token U fuel '0' [d] = .panic "CharStream::cur called with no current" := by
  have hletter : ¬ (U.isAlphabetic '0' = true ∨ '0' = '_') := by
    rintro (h | h)
    · cases h
    · cases h
  have hslash : ∀ {p : Prop}, ¬ ('0' = '/' ∧ p) := fun h => absurd h.1 (by decide)
  rw [token, not_whitespace (by decide), if_neg Bool.false_ne_true, if_neg (by decide),
    if_neg hslash, if_neg hslash, if_neg (by decide), if_neg hletter, if_pos (by decide)]
  rcases h with rfl | rfl | rfl
  · rfl
  · rfl
  · rfl

/-- From a stuck place it does not return. -/
theorem stuck_token (h : Stuck it) :
    ∃ c rest, it = c :: rest ∧ ∀ fuel, ¬ (token U fuel c rest).Returns := by
  unfold Stuck at h
  split at h
  · next text =>
    refine ⟨'/', '/' :: text, rfl, fun fuel hreturns => ?_⟩
    have hend : '\n' ∉ ('/' :: '/' :: text).tail := by
      rw [List.tail_cons, List.mem_cons, not_or]
      exact ⟨by decide, h⟩
    rw [token_line, lineComment_running hend] at hreturns
    exact hreturns
  · next text =>
    refine ⟨'/', '*' :: text, rfl, fun fuel hreturns => ?_⟩
    rw [token_block, blockComment_panics h] at hreturns
    exact hreturns
  · refine ⟨'0', ['x'], rfl, fun fuel hreturns => ?_⟩
    rw [token_radix fuel (.inl rfl)] at hreturns
    exact hreturns
  · refine ⟨'0', ['o'], rfl, fun fuel hreturns => ?_⟩
    rw [token_radix fuel (.inr (.inl rfl))] at hreturns
    exact hreturns
  · refine ⟨'0', ['b'], rfl, fun fuel hreturns => ?_⟩
    rw [token_radix fuel (.inr (.inr rfl))] at hreturns
    exact hreturns
  · exact h.elim

/-- Rounds differ by their fuel in nothing but the end of a line comment. -/
theorem token_agrees {trees : List TokenTree} (h : token U fuel c rest = .ok (trees, it))
    (more : Nat) :
    token U more c rest = .ok (trees, it) ∨ token U more c rest = .running := by
  by_cases hline : c = '/' ∧ rest.head? = some '/'
  · obtain ⟨rfl, hhead⟩ := hline
    obtain ⟨text, rfl⟩ := List.head?_eq_some_iff.mp hhead
    rw [token_line] at h ⊢
    cases hrun : lineComment fuel ('/' :: '/' :: text) with
    | ok it' =>
      rw [hrun] at h
      rcases lineComment_agrees hrun more with hmore | hmore
      · rw [hmore]
        exact .inl h
      · rw [hmore]
        exact .inr rfl
    | err e => rw [hrun] at h; cases h
    | panic m => rw [hrun] at h; cases h
    | running => rw [hrun] at h; cases h
  · unfold token at h ⊢
    rw [if_neg hline] at h ⊢
    exact .inl h

/-! ## 9. The run -/

theorem groupDelimiters_returns (groups : List (UInt8 × List TokenTree))
    (current tokens : List TokenTree) :
    (groupDelimiters groups current tokens).Returns := by
  induction tokens generalizing groups current with
  | nil =>
    rw [groupDelimiters]
    split_ifs
    · trivial
    · trivial
  | cons token tokens ih =>
    cases token with
    | Punct ch joint =>
      unfold groupDelimiters
      split_ifs
      · exact ih _ _
      · split
        · trivial
        · split
          · trivial
          · exact ih _ _
      · exact ih _ _
    | Group delimiter stream => exact ih _ _
    | Ident sym isRaw => exact ih _ _
    | Literal literal => exact ih _ _

variable (U) in
/-- Where the rounds on a text begin. -/
inductive Reached (src : List Char) : List Char → Prop where
  | start : Reached src (' ' :: src)
  | round {fuel : Nat} {c : Char} {rest it : List Char} {trees : List TokenTree}
      (h : Reached src (c :: rest)) (ht : token U fuel c rest = .ok (trees, it)) : Reached src it

/-- By induction on what is left. -/
theorem tokens_returns {src : List Char} (hs : ∀ it, Reached U src it → ¬ Stuck it)
    (h : Reached U src it) (hfuel : it.length < fuel) (rv : List TokenTree) :
    (tokens U fuel it rv).Returns := by
  induction fuel generalizing it rv with
  | zero => exact absurd hfuel (Nat.not_lt_zero _)
  | succ fuel ih =>
    cases it with
    | nil => trivial
    | cons c rest =>
      have hleaves := token_leaves (U := U) (hs _ h) (Nat.lt_of_succ_lt_succ hfuel)
      rw [tokens]
      cases ht : token U fuel c rest with
      | ok next =>
        rw [ht] at hleaves
        have hle : next.2.length ≤ rest.length := hleaves
        have hlt : rest.length < fuel := Nat.lt_of_succ_lt_succ hfuel
        exact ih (h.round ht) (Nat.lt_of_le_of_lt hle hlt) _
      | err e => trivial
      | panic m => rw [ht] at hleaves; exact hleaves
      | running => rw [ht] at hleaves; exact hleaves

/-- A run that returns goes through every place that is reached. -/
theorem tokens_reached {src : List Char} (h : Reached U src it)
    (hrun : ∃ fuel rv, (tokens U fuel (' ' :: src) rv).Returns) :
    ∃ fuel rv, (tokens U fuel it rv).Returns := by
  induction h with
  | start => exact hrun
  | @round _ c rest it trees _ ht ih =>
    obtain ⟨fuel, rv, hreturns⟩ := ih
    cases fuel with
    | zero => exact hreturns.elim
    | succ fuel =>
      rw [tokens] at hreturns
      rcases token_agrees ht fuel with hmore | hmore
      · rw [hmore] at hreturns
        exact ⟨fuel, _, hreturns⟩
      · rw [hmore] at hreturns
        exact hreturns.elim

/-- **When lexing returns.** A text is lexed, be it with an error, if and only if no round begins at
    a place that is stuck. -/
theorem from_str_returns (U : CharTables) (src : List Char) :
    (∃ fuel, (fromStr U fuel src).Returns) ↔ ∀ it, Reached U src it → ¬ Stuck it := by
  constructor
  · rintro ⟨fuel, hreturns⟩ it h hstuck
    have hrun : (tokens U fuel (' ' :: src) []).Returns := by
      unfold fromStr at hreturns
      cases ht : tokens U fuel (' ' :: src) [] with
      | ok rv => trivial
      | err e => trivial
      | panic m => rw [ht] at hreturns; exact hreturns
      | running => rw [ht] at hreturns; exact hreturns
    obtain ⟨fuel', rv, hreached⟩ := tokens_reached h ⟨fuel, [], hrun⟩
    obtain ⟨c, rest, rfl, hnot⟩ := stuck_token (U := U) hstuck
    cases fuel' with
    | zero => exact hreached
    | succ fuel' =>
      refine hnot fuel' ?_
      rw [tokens] at hreached
      cases ht : token U fuel' c rest with
      | ok next => trivial
      | err e => trivial
      | panic m => rw [ht] at hreached; exact hreached
      | running => rw [ht] at hreached; exact hreached
  · intro hs
    have hrun := tokens_returns hs .start (Nat.lt_succ_self _) []
    exact ⟨_, hrun.bind fun rv => groupDelimiters_returns [] [] rv⟩

end Lexer

/-! ## 10. Texts that are not lexed -/

/-- The tables as far as ASCII goes. -/
def asciiTables : CharTables where
  alphabetic _ := false
  numeric _ := false
  whiteSpace _ := false

/-- A line comment at the end of the text is skipped for ever; a comment that is not closed and a
    radix without digits panic. -/
theorem comment_not_lexed : (¬ ∃ fuel, (fromStr asciiTables fuel ['/', '/']).Returns) ∧
    (¬ ∃ fuel, (fromStr asciiTables fuel ['/', '*']).Returns) ∧
    ¬ ∃ fuel, (fromStr asciiTables fuel ['0', 'x']).Returns := by
  have hreached : ∀ src, Reached asciiTables src src := fun src =>
    @Reached.round asciiTables src 0 ' ' src src [] .start rfl
  have hstuck : ∀ src, Stuck src → ¬ ∃ fuel, (fromStr asciiTables fuel src).Returns :=
    fun src h hrun =>
    (from_str_returns asciiTables src).mp hrun src (hreached src) h
  refine ⟨hstuck _ List.not_mem_nil, hstuck _ ?_, hstuck _ trivial⟩
  intro hclosed
  cases hclosed

end Trustme.ProcMacro.Lex
