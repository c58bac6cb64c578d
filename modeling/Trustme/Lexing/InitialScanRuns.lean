/-
  Subject:   What the token loop gets of a text behind the two initial scans.

  * `checkInitialShebang_run`: the text from the end of the shebang on;
  * `trySkipInitialFrontmatter_fence`: the text behind a frontmatter, or what was read put in
    front of the source;
  * `tokens_run`: the whole loop up to the first token and behind it;
  * `seen_right`, `lostComment_seen`: it gets the text without shebang and frontmatter just where
    no look-ahead is left behind one of the other scan.
-/
import Trustme.Lexing.InitialScanSteps

namespace Trustme.Lexing

open Lexed

variable {base lx : Lexer} {n : Nat} {p s : List Codepoint} {sc : Scan} {t : List Codepoint}

/-! ## 1. Fuel and replay -/

theorem folded_length_le : ∀ text : List Char, (folded text).length ≤ text.length
  | [] => by simp [folded]
  | [c] => by rw [folded_cons (by simp)]; simp [folded]
  | c :: d :: text => by
    by_cases h : c = '\r' → (d :: text).head? ≠ some '\n'
    · rw [folded_cons h]
      simpa using folded_length_le (d :: text)
    · simp only [List.head?_cons, ne_eq, Option.some.injEq, Classical.not_imp, not_not] at h
      obtain ⟨rfl, rfl⟩ := h
      have := folded_length_le text
      simp only [folded, List.length_cons]
      omega

theorem length_le_encoded : ∀ text : List Char, text.length ≤ (encoded text).length
  | [] => by simp
  | c :: text => by
    have ih := length_le_encoded text
    have : 0 < (String.utf8EncodeChar c).length := by
      rw [String.length_utf8EncodeChar]
      exact Char.utf8Size_pos c
    simp only [encoded, List.flatMap_cons, List.length_append, List.length_cons] at ih ⊢
    omega

/-- The bound of the loops is one. -/
theorem Before.length_lt (h : Before lx n p s) : (p ++ s).length < lx.unread := by
  obtain ⟨text, hd, rfl⟩ := h.coming
  have h₁ := folded_length_le text
  have h₂ := length_le_encoded text
  have h₃ := congrArg List.length hd
  have h₄ := congrArg List.length h.held
  rw [List.length_drop] at h₃
  simp only [Lexer.held, List.length_append, List.length_drop] at h₄
  have h₅ : (if lx.lastCharValid = true then [lx.lastChar] else []).length ≤ 1 := by split <;> simp
  rw [Lexer.unread, List.length_append]
  omega

/-- What `restore` leaves: the characters read from `start` on, and the source where it is. -/
theorem restore_before (h : Stands base n p s lx sc t) (ofs start : Nat) :
    ∃ lx', (restore n ofs sc start).run lx = (.ok (), lx') ∧ SameFlags lx lx' ∧
      Before lx' n (sc.consumed.drop start) (s.drop (sc.consumed.length - p.length)) :=
  ⟨_, rfl, ⟨rfl, rfl, rfl⟩, rfl, h.before.coming, rfl⟩

theorem Before.line_eq (h : Before lx n [] t) : lx.line = n := by
  have hheld := h.held
  have hline := h.line
  unfold Lexer.held at hheld
  cases hv : lx.lastCharValid with
  | false => simpa [hv] using hline
  | true => simp [hv] at hheld

/-! ## 2. Behind the shebang -/

/-- The text that the first scan leaves. -/
def shebangRest (t : List Codepoint) : List Codepoint :=
  if hasShebang t then t.dropWhile (fun c => !endsShebang c) else t

/-- Of what a scan of `V` characters from the end has left, a lexer holds what is in front of them,
    or it holds one character at most. -/
structure Ahead (V : Nat) (p s : List Codepoint) : Prop where
  le : s.length ≤ V
  or : s.length = V ∨ p.length ≤ 1

variable {c : Codepoint} {lx' : Lexer}

theorem Stands.of_took (h : Took lx lx' n c [] t) :
    Stands lx n [] (c :: t) lx' ⟨[c], false⟩ t where
  split := rfl
  before := by simpa using h.before
  same := h.same
  eof h := by cases h

private theorem drop_of_findIdx? {w : List Codepoint} {i : Nat}
    (h : w.findIdx? endsShebang = some i)
    (v : List Codepoint) : w.drop i ++ v = (w ++ v).dropWhile fun c => !endsShebang c := by
  induction w generalizing i with
  | nil => cases h
  | cons c w ih =>
    rw [List.findIdx?_cons] at h
    by_cases hc : endsShebang c = true
    · obtain rfl : 0 = i := by simpa [hc] using h
      rw [List.cons_append, List.dropWhile_cons_of_neg (by simp [hc])]
      rfl
    · obtain ⟨j, hj, rfl⟩ : ∃ j, w.findIdx? endsShebang = some j ∧
        j + 1 = i := by simpa [hc] using h
      rw [List.cons_append, List.dropWhile_cons_of_pos (by simp [hc])]
      exact ih hj

private theorem dropWhile_of_findIdx? {w : List Codepoint} (h : w.findIdx? endsShebang = none)
    (v : List Codepoint) :
    (w ++ v).dropWhile (fun c => !endsShebang c) = v.dropWhile fun c => !endsShebang c := by
  rw [List.dropWhile_append_of_pos]
  intro c hc
  rw [List.findIdx?_eq_none_iff] at h
  simpa using h c hc

/-- What the first scan of `t` leaves in the lexer and in front of it. -/
structure Replayed (lx lx' : Lexer) (n : Nat) (t p s : List Codepoint) : Prop where
  same : SameFlags lx lx'
  before : Before lx' n p s
  rest : p ++ s = shebangRest t
  held : if hasShebang t then Ahead (shebangUnread t).length p s
    else p.length ≤ 1 ∨ t.head? = some '#'.toNat

/-- The read that the first scan begins with. -/
theorem first_coming (h : Took lx lx' n c p s) :
    (catchEnd (do let ch ← getc; pure (some ch)) (pure none)).run lx = (.ok (some c), lx') := by
  simp only [catchEnd]
  rw [run_bind h.run]
  rfl

theorem first_end (h : Before lx n [] []) : ∃ lx',
    (catchEnd (do let ch ← getc; pure (some ch)) (pure none)).run lx = (.ok none, lx') ∧
      SameFlags lx lx' ∧ Before lx' n [] [] := by
  obtain ⟨lx', hrun, hbefore, hsame, -⟩ := getc_end h
  refine ⟨lx', ?_, hsame, hbefore⟩
  simp only [catchEnd]
  rw [run_bind_error hrun]
  rfl

/-- Another first character is put back. -/
theorem replayed_other {lx₁ : Lexer} (h : Took lx lx₁ n c [] t) (hc : c ≠ '#'.toNat) :
    ∃ lx' p s, ungetc.run lx₁ = (.ok (), lx') ∧ Replayed lx lx' n (c :: t) p s := by
  obtain ⟨hunget, hbefore⟩ := ungetc_before h.before h.lastChar h.free
  have hno : hasShebang (c :: t) = false := by
    cases t with
    | nil => rfl
    | cons d t => rw [hasShebang, decide_eq_false hc, Bool.false_and, Bool.false_and]
  refine ⟨_, [c], t, hunget, ⟨h.same.1, h.same.2, h.same.3⟩, hbefore, ?_, ?_⟩
  · rw [shebangRest, hno]
    rfl
  · rw [hno]
    exact .inl (by simp)

section Replays

variable {lx₁ : Lexer} {u : List Codepoint}

/-- Without a shebang, what was read stands before the source again. -/
theorem replayed_whole (hs : Stands lx n [] t lx₁ sc u) (hno : hasShebang t = false)
    (hhash : t.head? = some '#'.toNat) (ofs : Nat) :
    ∃ lx' p s, (restore n ofs sc 0).run lx₁ = (.ok (), lx') ∧ Replayed lx lx' n t p s := by
  obtain ⟨lx', hrun, hsame, hbefore⟩ := restore_before hs ofs 0
  have hahead := hs.ahead
  rw [List.drop_nil, List.nil_append] at hahead
  refine ⟨lx', _, _, hrun, hs.same.trans hsame, hbefore, ?_, ?_⟩
  · rw [List.drop_zero, hahead, hs.split, shebangRest, hno]
    rfl
  · rw [hno]
    exact .inr hhash

variable (hs : Stands lx n [] t lx₁ sc (shebangUnread t)) (hyes : hasShebang t = true)

include hs hyes

/-- The end of the shebang is in what was read. -/
theorem replayed_inside {start : Nat} (hfind : sc.consumed.findIdx? endsShebang = some start)
    (ofs : Nat) :
    ∃ lx' p s, (restore n ofs sc start).run lx₁ = (.ok (), lx') ∧ Replayed lx lx' n t p s := by
  obtain ⟨lx', hrun, hsame, hbefore⟩ := restore_before hs ofs start
  have hahead := hs.ahead
  rw [List.drop_nil, List.nil_append] at hahead
  refine ⟨lx', _, _, hrun, hs.same.trans hsame, hbefore, ?_, ?_⟩
  · rw [hahead, drop_of_findIdx? hfind, hs.split, shebangRest, if_pos hyes]
    rfl
  · rw [hahead, if_pos hyes]
    exact ⟨Nat.le_refl _, .inl rfl⟩

/-- The line goes on behind what was read. -/
theorem replayed_behind (hfind : sc.consumed.findIdx? endsShebang = none) {fuel : Nat}
    (hf : t.length < fuel) (ofs : Nat) : ∃ start sc' lx₂ lx' p s,
      (shebangEnd fuel sc).run lx₁ = (.ok (start, sc'), lx₂) ∧
        (restore n ofs sc' start).run lx₂ = (.ok (), lx') ∧ Replayed lx lx' n t p s := by
  have hlen : (shebangUnread t).length < fuel := by
    have := congrArg List.length hs.split
    simp only [List.length_append, List.length_nil] at this
    omega
  obtain ⟨start, sc', lx₂, t', hend, hs', hrest, hle⟩ := shebangEnd_stands fuel hs hlen
  obtain ⟨lx', hrun, hsame, hbefore⟩ := restore_before hs' ofs start
  have hahead := hs'.ahead
  rw [List.drop_nil, List.nil_append] at hahead
  refine ⟨start, sc', lx₂, lx', _, _, hend, hrun, hs'.same.trans hsame, hbefore, ?_, ?_⟩
  · rw [hahead, hrest, ← dropWhile_of_findIdx? hfind, hs.split, shebangRest, if_pos hyes]
    rfl
  · rw [hahead, if_pos hyes]
    refine ⟨?_, .inr hle⟩
    have h₁ := congrArg List.length hrest
    have h₂ := (List.dropWhile_sublist (fun c => !endsShebang c) (l := shebangUnread t)).length_le
    rw [List.length_append] at h₁
    omega

end Replays

/-- **The first scan leaves the text from the end of the shebang on.** -/
theorem checkInitialShebang_run (h : Before lx n [] t) : ∃ lx' p s,
    checkInitialShebang.run lx = (.ok (), lx') ∧
      Replayed { lx with initialShebangChecked := true } lx' n t p s := by
  have h₀ : Before { lx with initialShebangChecked := true } n [] t := ⟨h.held, h.coming, h.line⟩
  rw [checkInitialShebang, run_change_bind]
  generalize { lx with initialShebangChecked := true } = lx₀ at h₀ ⊢
  simp only [run_look_bind, h₀.line_eq]
  have hfuel : t.length < lx₀.unread := h₀.length_lt
  generalize lx₀.lineOfs = ofs
  generalize lx₀.unread = fuel at hfuel ⊢
  rcases t with _ | ⟨c, t⟩
  · obtain ⟨lx₁, hrun, hsame, hbefore⟩ := first_end h₀
    rw [run_bind hrun]
    exact ⟨lx₁, [], [], rfl, hsame, hbefore, rfl, .inl (by simp)⟩
  obtain ⟨lx₁, htook⟩ := getc_coming h₀
  rw [run_bind (first_coming htook)]
  dsimp only
  by_cases hhash : c ≠ '#'.toNat
  · rw [if_pos hhash]
    exact replayed_other htook hhash
  have hhash : c = '#'.toNat := not_not.1 hhash
  have hhead {v : List Codepoint} : (c :: v).head? = some '#'.toNat := congrArg some hhash
  rw [if_neg (by simp [hhash])]
  obtain ⟨d, sc₂, lx₂, hrun₂, hp₂⟩ := read_pending (Stands.of_took htook) rfl
  rw [run_bind hrun₂]
  dsimp only
  rcases t with _ | ⟨d', t⟩
  · rw [if_pos (.inr hp₂.1)]
    exact replayed_whole hp₂.2 rfl hhead ofs
  obtain ⟨he₂, rfl, hs₂⟩ := hp₂
  by_cases hbang : d = '!'.toNat
  swap
  · have hno : hasShebang (c :: d :: t) = false := by
      rw [hasShebang, decide_eq_false hbang, Bool.and_false, Bool.false_and]
    rw [if_pos (.inl hbang)]
    exact replayed_whole hs₂ hno hhead ofs
  rw [if_neg (by rintro (e | e); exacts [e hbang, by simp [he₂] at e])]
  obtain ⟨sc₃, lx₃, hrun₃, hs₃⟩ := classify_stands fuel hs₂ (by simp at hfuel; omega)
  have hhas : hasShebang (c :: d :: t) = decide ((afterTrivia t).head? ≠ some '['.toNat) := by
    rw [hasShebang, decide_eq_true hhash, decide_eq_true hbang, Bool.true_and, Bool.true_and]
  rw [run_bind hrun₃]
  by_cases hopen : (afterTrivia t).head? = some '['.toNat
  · simp only [classified, if_pos hopen]
    exact replayed_whole hs₃ (by rw [hhas]; simpa using hopen) hhead ofs
  simp only [classified, if_neg hopen]
  have hyes : hasShebang (c :: d :: t) = true := hhas.trans (decide_eq_true hopen)
  rcases hfind : sc₃.consumed.findIdx? endsShebang with _ | start
  · obtain ⟨start, sc₄, lx₄, lx', p, s, hend, hrun, hleft⟩ :=
      replayed_behind hs₃ hyes hfind hfuel ofs
    refine ⟨lx', p, s, ?_, hleft⟩
    dsimp only
    rw [run_bind hend]
    exact hrun
  · exact replayed_inside hs₃ hyes hfind ofs

/-! ## 3. Behind the frontmatter -/

/-- A character is read, from wherever it comes. -/
theorem getc_next (h : Before lx n p s) (ht : p ++ s = c :: t) :
    ∃ lx' p' s', Took lx lx' n c p' s' ∧ p' ++ s' = t ∧ ∀ V, Ahead V p s →
      Ahead V (c :: p') s' := by
  rcases p with _ | ⟨c', p⟩
  · rw [List.nil_append] at ht
    subst ht
    obtain ⟨lx', htook⟩ := getc_coming h
    refine ⟨lx', [], t, htook, rfl, fun V hV => ⟨?_, .inr (by simp)⟩⟩
    have := hV.le
    rw [List.length_cons] at this
    omega
  · obtain ⟨rfl, rfl⟩ : c' = c ∧ p ++ s = t := by simpa using ht
    obtain ⟨lx', htook⟩ := getc_held h
    exact ⟨lx', p, s, htook, rfl, fun V hV => hV⟩

theorem Ahead.tail {V : Nat} {c : Codepoint} (h : Ahead V (c :: p) s) : Ahead V p s :=
  ⟨h.le, h.or.imp_right fun hp => by rw [List.length_cons] at hp; omega⟩

theorem Before.of_nil (h : Before lx n p s) (ht : p ++ s = []) : Before lx n [] [] := by
  obtain ⟨rfl, rfl⟩ := List.append_eq_nil_iff.1 ht
  exact h

/-- A line begins with the number it is given, unless its newline was put back. -/
theorem Before.line_of_head (h : Before lx n p s) (ht : p ++ s = c :: t) (hc : c ≠ '\n'.toNat) :
    lx.line = n := by
  have hheld := h.held
  have hline := h.line
  unfold Lexer.held at hheld
  cases hv : lx.lastCharValid with
  | false => simpa [hv] using hline
  | true =>
    rw [hv, if_pos rfl] at hheld hline
    have hlast : lx.lastChar = c := by
      rw [← hheld] at ht
      simpa using congrArg List.head? ht
    rw [hline, newlines, if_neg (by rwa [hlast]), Nat.add_zero]

theorem closed_length_le (k : Nat) (t : List Codepoint) : (closed k t).2.length ≤ t.length := by
  induction t using closed.induct (n := k) with
  | case1 => simp [closed_nil]
  | case2 t ht hlike =>
    rw [closed, if_neg ht, if_pos hlike]
    exact (nextLine_length_lt ht).le
  | case3 t ht hlike ih =>
    rw [closed, if_neg ht, if_neg hlike]
    exact ih.trans (nextLine_length_lt ht).le

theorem frontmatterEnd_some {rest : List Codepoint} : frontmatterEnd t = some rest ↔
    3 ≤ dashes t ∧ labelled ((line t).drop (dashes t)) = true ∧ closed (dashes t) (nextLine t) =
    (true, rest) := by
  rw [frontmatterEnd]
  split
  · rename_i h
    rcases hc : closed (dashes t) (nextLine t) with ⟨_ | _, rest'⟩ <;> simp [h]
  · rename_i h
    simp only [reduceCtorEq, false_iff]
    rintro ⟨h₁, h₂, -⟩
    exact h ⟨h₁, h₂⟩

theorem frontmatterEnd_none : frontmatterEnd t = none ↔
    dashes t < 3 ∨ labelled ((line t).drop (dashes t)) = false ∨
      (closed (dashes t) (nextLine t)).1 = false := by
  rw [frontmatterEnd]
  split
  · rename_i h
    rcases hc : closed (dashes t) (nextLine t) with ⟨_ | _, rest'⟩ <;> simp [h]
  · rename_i h
    simp only [true_iff]
    by_cases h₁ : dashes t < 3
    · exact .inl h₁
    · exact .inr (.inl (Bool.eq_false_iff.2 fun h₂ => h ⟨by omega, h₂⟩))

/-- Nothing is read if the frontmatter is no longer allowed. -/
theorem trySkipInitialFrontmatter_done (ha : lx.initialFrontmatterAllowed = false) :
    trySkipInitialFrontmatter.run lx = (.ok false, lx) := by
  rw [trySkipInitialFrontmatter]
  simp [ha]

/-- The flags that the second scan sets. -/
structure Flagged (lx lx' : Lexer) (allowed preceded : Bool) : Prop where
  shebang : lx'.initialShebangChecked = lx.initialShebangChecked
  allowed : lx'.initialFrontmatterAllowed = allowed
  preceded : lx'.initialFrontmatterPrecededByWhitespace = preceded

/-- The first character of the second scan. -/
theorem read_start (h : Took lx lx' n c p s) :
    (read .start).run lx = (.ok (c, ⟨[c], false⟩), lx') := by
  simp only [read, catchEnd]
  rw [run_bind h.run]
  rfl

/-- At the end of the file there is no frontmatter. -/
theorem trySkipInitialFrontmatter_end (h : Before lx n p s) (ht : p ++ s = [])
    (ha : lx.initialFrontmatterAllowed = true) :
    ∃ lx', trySkipInitialFrontmatter.run lx = (.ok false, lx') ∧ Before lx' n [] [] := by
  obtain ⟨lx₁, hrun, hbefore, hsame, -⟩ := getc_end (h.of_nil ht)
  have hread : (read .start).run lx = (.ok (0, ⟨[], true⟩), lx₁) := by
    simp only [read, catchEnd]
    rw [run_bind_error hrun]
    rfl
  rw [trySkipInitialFrontmatter]
  simp only [run_look_bind, ha, not_true_eq_false, if_false]
  rw [run_bind hread]
  exact ⟨_, rfl, hbefore.held, hbefore.coming, hbefore.line⟩

/-- White space is left to the token loop. -/
theorem trySkipInitialFrontmatter_space (h : Before lx n p s) (ht : p ++ s = c :: t)
    (ha : lx.initialFrontmatterAllowed = true) (hc : isspace c = true) :
    ∃ lx' p' s', trySkipInitialFrontmatter.run lx = (.ok false, lx') ∧ Before lx' n p' s' ∧
      p' ++ s' = c :: t ∧
      (∀ V, Ahead V p s → Ahead V p' s') ∧ Flagged lx lx' true (c ≠ '\n'.toNat) := by
  obtain ⟨lx₁, p', s', htook, ht', hahead⟩ := getc_next h ht
  rw [trySkipInitialFrontmatter]
  simp only [run_look_bind, ha, not_true_eq_false, if_false]
  rw [run_bind (read_start htook)]
  simp only [Bool.false_eq_true, if_false, hc, if_true, run_change_bind]
  obtain ⟨hunget, hbefore⟩ := @ungetc_before
    { lx₁ with initialFrontmatterPrecededByWhitespace := decide (c ≠ '\n'.toNat) } _ _ _ _
    ⟨htook.before.held, htook.before.coming, htook.before.line⟩ htook.lastChar htook.free
  rw [run_bind hunget]
  exact ⟨_, c :: p', s', rfl, hbefore, by rw [List.cons_append, ht'], hahead, htook.same.1,
    htook.same.2.trans ha, rfl⟩

/-- Behind other characters, and behind white space in the same line, there is no frontmatter. -/
theorem trySkipInitialFrontmatter_other (h : Before lx n p s) (ht : p ++ s = c :: t)
    (ha : lx.initialFrontmatterAllowed = true) (hc : ¬ isspace c = true)
    (hno : c ≠ '-'.toNat ∨ lx.initialFrontmatterPrecededByWhitespace = true) :
    ∃ lx' p' s', trySkipInitialFrontmatter.run lx = (.ok false, lx') ∧ Before lx' n p' s' ∧
      p' ++ s' = c :: t ∧
      lx'.initialShebangChecked = lx.initialShebangChecked ∧ lx'.initialFrontmatterAllowed =
        false := by
  obtain ⟨lx₁, p', s', htook, ht', -⟩ := getc_next h ht
  have hno' : c ≠ '-'.toNat ∨ lx₁.initialFrontmatterPrecededByWhitespace = true := by
    rwa [htook.same.preceded]
  rw [trySkipInitialFrontmatter]
  simp only [run_look_bind, ha, not_true_eq_false, if_false]
  rw [run_bind (read_start htook)]
  simp only [Bool.false_eq_true, if_false, hc, run_look_bind, hno', if_true, forbidFrontmatter,
    run_change_bind]
  obtain ⟨hunget, hbefore⟩ := @ungetc_before { lx₁ with initialFrontmatterAllowed := false } _ _ _ _
    ⟨htook.before.held, htook.before.coming, htook.before.line⟩ htook.lastChar htook.free
  rw [run_bind hunget]
  exact ⟨_, c :: p', s', rfl, hbefore, by rw [List.cons_append, ht'], htook.same.1, rfl⟩

/-- Behind its first character, the second scan stands in the text. -/
theorem Stands.of_next {p' s' : List Codepoint} (h : Before lx n p s)
    (htook : Took lx lx' n c p' s')
    (ht : p ++ s = c :: t) : Stands lx n p s lx' ⟨[c], false⟩ t := by
  obtain ⟨ch, sc, lx'', hrun, hp⟩ := read_pending (Stands.start h) rfl
  rw [ht] at hp
  obtain ⟨-, -, hs⟩ := hp
  rw [read_start htook] at hrun
  obtain ⟨⟨-, rfl⟩, rfl⟩ : (c = ch ∧ (⟨[c], false⟩ : Scan) = sc) ∧ lx' = lx'' := by simpa using hrun
  exact hs

theorem labelled_drop (t : List Codepoint) :
    labelled ((line t).drop (dashes t)) = labelled (line (t.drop (dashes t))) := by
  rw [(line_drop_dashes t).2.1]

/-- Where the text is rejected, `restore` puts what was read before the source. -/
theorem Stands.put_back {sc : Scan} {v : List Codepoint} (hs : Stands lx n p s lx' sc v)
    (ht : p ++ s = c :: t) (hv : v = fenceUnread (c :: t)) :
    ∃ lx'' w, (do forbidFrontmatter; restore n lx.lineOfs sc 0; (pure false : Lexed Bool)).run
      lx' = (.ok false, lx'') ∧
      w ++ fenceUnread (c :: t) = c :: t ∧ Before lx'' n w (s.drop (w.length - p.length)) ∧
      lx''.initialShebangChecked = lx.initialShebangChecked ∧
        lx''.initialFrontmatterAllowed = false :=
  ⟨_, sc.consumed, rfl, by rw [← hv, hs.split, ht], ⟨rfl, hs.before.coming, rfl⟩,
    hs.same.shebang, rfl⟩

/-- Where a frontmatter may be, it is skipped if there is one; else what was read stands before the
    source again, in the place of what the lexer held. -/
theorem trySkipInitialFrontmatter_fence (h : Before lx n p s) (ht : p ++ s = c :: t)
    (ha : lx.initialFrontmatterAllowed = true) (hc : c = '-'.toNat)
    (hp : lx.initialFrontmatterPrecededByWhitespace = false) :
    match frontmatterEnd (c :: t) with
    | some rest => ∃ lx' p' s' w, trySkipInitialFrontmatter.run lx = (.ok true, lx') ∧
        w ++ rest = c :: t ∧ Before lx' (n + lineCount w) p' s' ∧ p' ++ s' = rest ∧
        lx'.initialShebangChecked = lx.initialShebangChecked ∧ lx'.initialFrontmatterAllowed = false
    | none =>
      ∃ lx' w, trySkipInitialFrontmatter.run lx = (.ok false, lx') ∧
        w ++ fenceUnread (c :: t) = c :: t ∧
        Before lx' n w (s.drop (w.length - p.length)) ∧
        lx'.initialShebangChecked = lx.initialShebangChecked ∧ lx'.initialFrontmatterAllowed =
          false := by
  obtain ⟨lx₁, p', s', htook, ht', -⟩ := getc_next h ht
  have hspace : ¬ isspace c = true := by
    rw [hc]
    decide
  have hline : lx.line = n := h.line_of_head ht (dash_ne_newline hc)
  have hfuel : t.length < lx.unread := by
    have := h.length_lt
    rw [ht, List.length_cons] at this
    omega
  have hs₁ := Stands.of_next h htook ht
  have hdash : dashes (c :: t) = 1 + dashes t := by rw [dashes_dash hc, Nat.add_comm]
  have hdrop : (c :: t).drop (dashes (c :: t)) = t.drop (dashes t) := by
    rw [hdash, Nat.add_comm, List.drop_succ_cons]
  have hnext : nextLine (t.drop (dashes t)) = nextLine (c :: t) := by
    rw [(line_drop_dashes t).2.2, nextLine_cons (dash_ne_newline hc)]
  obtain ⟨R, hR₀⟩ : ∃ R, trySkipInitialFrontmatter.run lx = R := ⟨_, rfl⟩
  have hR := hR₀
  obtain ⟨ch₂, sc₂, lx₂, hrun₂, hp₂⟩ := dashRun_pending lx.unread 1 c hs₁ rfl hfuel
  have hcond : ¬ (c ≠ '-'.toNat ∨ lx₁.initialFrontmatterPrecededByWhitespace = true) := by
    rw [htook.same.preceded, hp]
    simp [hc]
  rw [trySkipInitialFrontmatter] at hR
  simp only [run_look_bind, ha, not_true_eq_false, if_false, hline] at hR
  rw [run_bind (read_start htook)] at hR
  dsimp only at hR
  rw [if_neg (by simp), if_neg hspace, run_look_bind, if_neg hcond, run_bind hrun₂, ← hdash] at hR
  dsimp only at hR
  have hlen : (t.drop (dashes t)).length < lx.unread := by
    rw [List.length_drop]
    omega
  by_cases hthree : dashes (c :: t) < 3
  · -- too few dashes
    rw [frontmatterEnd_none.2 (.inl hthree)]
    dsimp only
    rw [if_pos hthree] at hR
    rw [hR₀, ← hR]
    refine hp₂.stands.put_back ht ?_
    rw [fenceUnread, if_pos hthree, hdrop]
  obtain ⟨sc₃, lx₃, hrun₃, hs₃⟩ := opening_stands hp₂ hlen
  rw [if_neg hthree, run_bind hrun₃] at hR
  dsimp only at hR
  have hl : labelled ((line (c :: t)).drop (dashes (c :: t))) =
    labelled (line (t.drop (dashes t))) := by
    rw [labelled_drop, hdrop]
  by_cases hlab : labelled (line (t.drop (dashes t))) = true
  swap
  · -- no opening fence
    have hlab' := Bool.eq_false_iff.2 hlab
    rw [frontmatterEnd_none.2 (.inr (.inl (hl.trans hlab')))]
    dsimp only
    rw [if_pos hlab] at hR
    rw [if_neg hlab] at hs₃
    rw [hR₀, ← hR]
    refine hs₃.put_back ht ?_
    rw [fenceUnread, if_neg hthree, if_neg (by rw [hl]; exact hlab), hdrop]
    rfl
  rw [if_neg (by rw [hlab]; simp)] at hR
  rw [if_pos hlab, hnext] at hs₃
  have hbody : (nextLine (c :: t)).length < lx.unread := by
    have := nextLine_length_lt (List.cons_ne_nil c t)
    have := h.length_lt
    rw [ht] at this
    omega
  obtain ⟨sc₄, lx₄, hrun₄, hs₄⟩ := body_stands (k := dashes (c :: t))
    (by omega) lx.unread true false hs₃ hbody
  rw [bodyEnd_start] at hrun₄ hs₄
  rw [run_bind hrun₄] at hR
  dsimp only at hR
  rcases hclosed : closed (dashes (c :: t)) (nextLine (c :: t)) with ⟨_ | _, rest⟩
  · -- no closing fence
    rw [frontmatterEnd_none.2 (.inr (.inr (by rw [hclosed])))]
    dsimp only
    rw [hclosed] at hR hs₄
    rw [if_neg (by simp)] at hR
    rw [hR₀, ← hR]
    refine hs₄.put_back ht ?_
    rw [fenceUnread, if_neg hthree, if_pos (hl.trans hlab), hclosed]
  · rw [frontmatterEnd_some.2 ⟨by omega, hl.trans hlab, hclosed⟩]
    dsimp only
    rw [hclosed] at hR hs₄
    rw [if_pos rfl] at hR
    rw [hR₀, ← hR]
    exact ⟨_, _, _, sc₄.consumed, rfl, by rw [hs₄.split, ht],
      ⟨hs₄.before.held, hs₄.before.coming, hs₄.before.line⟩, hs₄.ahead, hs₄.same.shebang, rfl⟩

/-! ## 4. The token loop -/

theorem lineCount_cons (c : Codepoint) (w : List Codepoint) :
    lineCount (c :: w) = newlines c + lineCount w := by
  rw [← List.singleton_append, lineCount_append, lineCount_singleton]

theorem numbered_append : ∀ (a b : List Codepoint) (n : Nat),
    numbered n (a ++ b) = numbered n a ++ numbered (n + lineCount a) b
  | [], b, n => by simp [numbered, lineCount]
  | c :: a, b, n => by
    rw [List.cons_append, numbered, numbered_append a b, numbered, lineCount_cons, List.cons_append,
      Nat.add_assoc]

@[simp] theorem numbered_length : ∀ (t : List Codepoint) (n : Nat), (numbered n t).length = t.length
  | [], _ => rfl
  | _ :: t, _ => by rw [numbered, List.length_cons, numbered_length t, List.length_cons]

theorem line_newlines (h : Took lx lx' n c p s) : lx'.line = n + newlines c := by
  have := h.before.line
  simpa [h.free] using this

/-- Without the scans all characters come in their order, with their lines. -/
theorem remaining_run :
    ∀ (fuel : Nat) {lx : Lexer} {n : Nat} {p s : List Codepoint}, Before lx n p s →
    (p ++ s).length < fuel → remaining fuel lx = numbered n (p ++ s)
  | 0, _, _, _, _, _, hf => absurd hf (Nat.not_lt_zero _)
  | fuel + 1, lx, n, p, s, h, hf => by
    rw [remaining]
    rcases ht : p ++ s with _ | ⟨c, t⟩
    · obtain ⟨lx', hrun, -⟩ := getc_end (h.of_nil ht)
      rw [hrun]
      rfl
    · obtain ⟨lx', p', s', htook, ht', -⟩ := getc_next h ht
      rw [ht, List.length_cons] at hf
      rw [htook.run, numbered]
      dsimp only
      rw [remaining_run fuel htook.before (by rw [ht']; omega), line_newlines htook, ht']

theorem newlines_blank (h : blank c = true) : newlines c = 0 := by
  rw [newlines, if_neg (blank_iff.1 h).1]

/-- A token of white space takes the blanks and puts the character behind them back. -/
theorem whitespace_run :
    ∀ (fuel : Nat) {lx : Lexer} {n : Nat} {p s : List Codepoint}, Before lx n p s →
    (p ++ s).length < fuel → ∃ lx' p' s',
      whitespace fuel lx = (numbered n ((p ++ s).takeWhile blank), lx') ∧ Before lx' n p' s' ∧
      p' ++ s' = (p ++ s).dropWhile blank ∧ (∀ V, Ahead V p s → Ahead V p' s') ∧ SameFlags lx lx'
  | 0, _, _, _, _, _, hf => absurd hf (Nat.not_lt_zero _)
  | fuel + 1, lx, n, p, s, h, hf => by
    rw [whitespace]
    rcases ht : p ++ s with _ | ⟨c, t⟩
    · obtain ⟨lx', hrun, hbefore, hsame, -⟩ := getc_end (h.of_nil ht)
      obtain ⟨rfl, rfl⟩ := List.append_eq_nil_iff.1 ht
      rw [hrun]
      exact ⟨lx', [], [], rfl, hbefore, rfl, fun V hV => hV, hsame⟩
    · obtain ⟨lx', p', s', htook, ht', hahead⟩ := getc_next h ht
      rw [ht, List.length_cons] at hf
      rw [htook.run]
      dsimp only
      by_cases hb : blank c = true
      · have hbefore := htook.before
        rw [newlines_blank hb, Nat.add_zero] at hbefore
        obtain ⟨lx'', p'', s'', hrun, hbefore', ht'', hahead', hsame⟩ :=
          whitespace_run fuel hbefore (by rw [ht']; omega)
        rw [if_pos ⟨(blank_iff.1 hb).2, (blank_iff.1 hb).1⟩, hrun, ht', line_newlines htook]
        refine ⟨lx'', p'', s'', ?_, hbefore', ?_, fun V hV => hahead' V (hahead V hV).tail,
          htook.same.trans hsame⟩
        · rw [List.takeWhile_cons_of_pos hb, numbered, newlines_blank hb, Nat.add_zero]
        · rw [ht'', ht', List.dropWhile_cons_of_pos hb]
      · obtain ⟨hunget, hbefore⟩ := ungetc_before htook.before htook.lastChar htook.free
        have hb' : ¬ (isspace c = true ∧ c ≠ '\n'.toNat) := fun hc => hb (blank_iff.2 ⟨hc.2, hc.1⟩)
        rw [if_neg hb', hunget]
        refine ⟨_, c :: p', s', ?_, hbefore, ?_, hahead, ⟨htook.same.1, htook.same.2, htook.same.3⟩⟩
        · rw [List.takeWhile_cons_of_neg hb]
          rfl
        · rw [List.dropWhile_cons_of_neg hb, List.cons_append, ht']

theorem lineCount_blanks (t : List Codepoint) : lineCount (t.takeWhile blank) = 0 := by
  rw [lineCount, List.count_eq_zero]
  intro hmem
  exact absurd (List.all_eq_true.1 List.all_takeWhile _ hmem) (by decide)

theorem beforeToken_checked (h : lx.initialShebangChecked = true) :
    beforeToken.run lx = trySkipInitialFrontmatter.run lx := by
  rw [beforeToken]
  simp [h]

theorem numbered_blanks (t : List Codepoint) (n : Nat) :
    numbered n (t.takeWhile blank) ++ numbered n (t.dropWhile blank) = numbered n t := by
  conv_rhs => rw [← List.takeWhile_append_dropWhile (p := blank) (l := t), numbered_append,
    lineCount_blanks]
  rw [Nat.add_zero]

/-- Once there is no frontmatter any more, all characters come. -/
theorem tokens_settled :
    ∀ (fuel : Nat) {lx : Lexer} {n : Nat} {p s : List Codepoint}, Before lx n p s →
    lx.initialShebangChecked = true → lx.initialFrontmatterAllowed = false →
      (p ++ s).length + 1 < fuel →
    tokens fuel lx = numbered n (p ++ s)
  | 0, _, _, _, _, _, _, _, hf => absurd hf (Nat.not_lt_zero _)
  | fuel + 1, lx, n, p, s, h, hc, ha, hf => by
    rw [tokens, beforeToken_checked hc, trySkipInitialFrontmatter_done ha]
    dsimp only
    rcases ht : p ++ s with _ | ⟨c, t⟩
    · obtain ⟨lx', hrun, -⟩ := getc_end (h.of_nil ht)
      rw [hrun]
      rfl
    · obtain ⟨lx', p', s', htook, ht', -⟩ := getc_next h ht
      rw [ht, List.length_cons] at hf
      have hc' := htook.same.shebang.trans hc
      have ha' := htook.same.allowed.trans ha
      rw [htook.run]
      dsimp only
      split
      · rw [tokens_settled fuel htook.before hc' ha' (by rw [ht']; omega), numbered,
          line_newlines htook, ht']
      split
      · next hn hspace =>
          obtain ⟨lx'', p'', s'', hrun, hbefore, ht'', -, hsame⟩ :=
            whitespace_run fuel htook.before (by rw [ht']; omega)
          have hlen : (p'' ++ s'').length ≤ t.length := by
            rw [ht'', ht']
            exact (List.dropWhile_sublist blank).length_le
          rw [hrun]
          dsimp only
          rw [tokens_settled fuel hbefore (hsame.shebang.trans hc') (hsame.allowed.trans ha')
            (by omega), ht'', ht',
            line_newlines htook, List.cons_append, numbered_blanks, numbered]
      · obtain ⟨hunget, hbefore⟩ := ungetc_before htook.before htook.lastChar htook.free
        rw [hunget]
        dsimp only
        rw [remaining_run fuel hbefore (by rw [List.cons_append, ht', List.length_cons]; omega),
          List.cons_append, ht']

/-- Whether there is something in front of the first token in its line. -/
def preceded (b : Bool) (lead : List Codepoint) : Bool :=
  match lead.getLast? with
  | none => b
  | some c => c ≠ '\n'.toNat

theorem preceded_append (b : Bool) (c : Codepoint) (w v : List Codepoint)
    (hw : ∀ d ∈ c :: w, d ≠ '\n'.toNat) :
    preceded b (c :: w ++ v) = preceded true v := by
  rcases hv : v.getLast? with _ | d
  · obtain rfl := List.getLast?_eq_none_iff.1 hv
    rw [List.append_nil, preceded, preceded, List.getLast?_eq_some_getLast (List.cons_ne_nil c w)]
    exact decide_eq_true (hw _ (List.getLast_mem _))
  · rw [preceded, preceded, List.getLast?_append, hv]
    rfl

theorem preceded_newline (b : Bool) (v : List Codepoint) (hc : c = '\n'.toNat) :
    preceded b (c :: v) = preceded false v := by
  rcases hv : v.getLast? with _ | d
  · obtain rfl := List.getLast?_eq_none_iff.1 hv
    simp [preceded, hc]
  · rw [preceded, preceded, ← List.singleton_append, List.getLast?_append, hv]
    rfl

theorem fenceUnread_length_lt (hc : c = '-'.toNat) :
    (fenceUnread (c :: t)).length < (c :: t).length := by
  have hdash : 0 < dashes (c :: t) := by
    rw [dashes_dash hc]
    omega
  have hdrop : ((c :: t).drop (dashes (c :: t))).length < (c :: t).length := by
    rw [List.length_drop, List.length_cons]
    omega
  rw [fenceUnread]
  split
  · rw [List.length_tail]
    omega
  split
  · exact (closed_length_le _ _).trans_lt (nextLine_length_lt (List.cons_ne_nil c t))
  have hspace := (List.dropWhile_sublist isspace (l := (c :: t).drop (dashes (c :: t)))).length_le
  split
  · simp
  · next d u heq =>
      rw [heq, List.length_cons] at hspace
      split
      · rw [List.length_tail]
        have h₁ :=
          (List.dropWhile_sublist isspace (l := u.dropWhile fun ch =>
          issym ch || ch = '.'.toNat)).length_le
        have h₂ := (List.dropWhile_sublist (fun ch => issym ch || ch = '.'.toNat)
          (l := u)).length_le
        omega
      · omega

theorem frontmatterEnd_other (hc : c ≠ '-'.toNat) : frontmatterEnd (c :: t) = none := by
  rw [frontmatterEnd_none, dashes_cons hc]
  exact .inl (by decide)

/-- What the loop makes of the text from its first token on: it takes a frontmatter off, and loses
    characters where the second scan rejects the text in front of the last `V` of its characters. -/
def Behind (b : Bool) (V n : Nat) (r : List Codepoint) (chars : List (Codepoint × Nat)) : Prop :=
  match if b then none else frontmatterEnd r with
  | some rest => ∃ w, w ++ rest = r ∧ chars = numbered (n + lineCount w) rest
  | none =>
    if b = false ∧ r.head? = some '-'.toNat ∧
      V < (fenceUnread r).length then chars.length < r.length
    else chars = numbered n r

/-- The characters that stand before the source again are all there, unless the lexer held more of
    them. -/
theorem restored {V : Nat} {w u : List Codepoint} (hA : Ahead V p s) (hw : w ++ u = p ++ s)
    (hne : w ≠ []) :
    if V < u.length then (w ++ s.drop (w.length - p.length)).length < (p ++ s).length
    else w ++ s.drop (w.length - p.length) = p ++ s := by
  have hlen := congrArg List.length hw
  have hpos := List.length_pos_of_ne_nil hne
  have hle := hA.le
  have hor := hA.or
  simp only [List.length_append] at hlen
  split
  · rw [List.length_append, List.length_append, List.length_drop]
    omega
  · have hp : p.length ≤ w.length := by omega
    have hu : s.drop (w.length - p.length) = u := by
      have := congrArg (List.drop w.length) hw
      rw [List.drop_left, List.drop_append, List.drop_eq_nil_of_le hp, List.nil_append] at this
      exact this.symm
    rw [hu, hw]

/-- The loop before the first token, with its second scan still to come. -/
structure Waits (V : Nat) (lx : Lexer) (n : Nat) (p s : List Codepoint) : Prop where
  before : Before lx n p s
  checked : lx.initialShebangChecked = true
  allowed : lx.initialFrontmatterAllowed = true
  ahead : Ahead V p s

/-- The loop gets the white space that leads `t`, and behind it what `Behind` says. -/
def Shows (V fuel : Nat) (lx : Lexer) (n : Nat) (t : List Codepoint) : Prop :=
  ∃ chars, tokens fuel lx = numbered n (lead t) ++ chars ∧
    Behind (preceded lx.initialFrontmatterPrecededByWhitespace (lead t)) V (n + lineCount (lead t))
      (afterLead t) chars

section Leads

theorem lead_space (h : isspace c = true) :
    lead (c :: t) = c :: lead t := List.takeWhile_cons_of_pos h

theorem lead_other (h : ¬ isspace c = true) : lead (c :: t) = [] := List.takeWhile_cons_of_neg h

theorem afterLead_space (h : isspace c = true) : afterLead (c :: t) = afterLead t :=
  List.dropWhile_cons_of_pos h

theorem afterLead_other (h : ¬ isspace c = true) : afterLead (c :: t) = c :: t :=
  List.dropWhile_cons_of_neg h

theorem blank_of_takeWhile (h : c ∈ t.takeWhile blank) : c ≠ '\n'.toNat ∧ isspace c = true :=
  blank_iff.1 (List.all_eq_true.1 List.all_takeWhile c h)

theorem lead_blanks (t : List Codepoint) :
    lead t = t.takeWhile blank ++ lead (t.dropWhile blank) := by
  conv_lhs => rw [← List.takeWhile_append_dropWhile (p := blank) (l := t)]
  exact List.takeWhile_append_of_pos fun d hd => (blank_of_takeWhile hd).2

theorem afterLead_blanks (t : List Codepoint) : afterLead t = afterLead (t.dropWhile blank) := by
  conv_lhs => rw [← List.takeWhile_append_dropWhile (p := blank) (l := t)]
  exact List.dropWhile_append_of_pos fun d hd => (blank_of_takeWhile hd).2

end Leads

section Shown

variable {V fuel : Nat}

/-- At the end there is nothing to show. -/
theorem shows_end (h : Waits V lx n p s) (ht : p ++ s = []) : Shows V (fuel + 1) lx n [] := by
  obtain ⟨lx', hrun, hbefore⟩ := trySkipInitialFrontmatter_end h.before ht h.allowed
  obtain ⟨lx'', hrun', -⟩ := getc_end hbefore
  refine ⟨[], ?_, by simp [Behind, afterLead, frontmatterEnd, numbered]⟩
  rw [tokens, beforeToken_checked h.checked, hrun]
  dsimp only
  rw [hrun']
  rfl

variable (h : Waits V lx n p s) (ht : p ++ s = c :: t)

include h ht

/-- White space is read behind the scan, and the loop waits again. -/
theorem Waits.space (hc : isspace c = true) : ∃ lx₀ lx₁ p₁ s₁,
    beforeToken.run lx = (.ok false, lx₀) ∧ Took lx₀ lx₁ n c p₁ s₁ ∧ p₁ ++ s₁ = t ∧
      Waits V lx₁ (n + newlines c) p₁ s₁ ∧
      lx₁.initialFrontmatterPrecededByWhitespace = decide (c ≠ '\n'.toNat) := by
  obtain ⟨lx₀, p', s', hrun, hbefore, ht', hahead, hflag⟩ :=
    trySkipInitialFrontmatter_space h.before ht h.allowed hc
  obtain ⟨lx₁, p₁, s₁, htook, ht₁, hahead₁⟩ := getc_next hbefore ht'
  refine ⟨lx₀, lx₁, p₁, s₁, (beforeToken_checked h.checked).trans hrun, htook, ht₁,
    ⟨htook.before, ?_, ?_, ?_⟩, ?_⟩
  · exact htook.same.shebang.trans (hflag.shebang.trans h.checked)
  · exact htook.same.allowed.trans hflag.allowed
  · exact (hahead₁ V (hahead V h.ahead)).tail
  · exact htook.same.preceded.trans hflag.preceded

theorem shows_newline (hc : c = '\n'.toNat)
    (ih : ∀ {lx n p s}, Waits V lx n p s → p ++ s = t → Shows V fuel lx n t) :
    Shows V (fuel + 1) lx n (c :: t) := by
  have hspace := isspace_newline hc
  obtain ⟨lx₀, lx₁, p₁, s₁, hrun, htook, ht₁, hwaits, hpre⟩ := h.space ht hspace
  obtain ⟨chars, hchars, hbehind⟩ := ih hwaits ht₁
  rw [hpre, decide_eq_false (not_not.2 hc)] at hbehind
  refine ⟨chars, ?_, ?_⟩
  · rw [tokens, hrun]
    dsimp only
    rw [htook.run]
    dsimp only
    rw [if_pos hc, hchars, line_newlines htook, lead_space hspace, numbered]
    rfl
  · rw [lead_space hspace, afterLead_space hspace, lineCount_cons, ← Nat.add_assoc,
      preceded_newline _ _ hc]
    exact hbehind

theorem shows_blank (hc : blank c = true) (hf : t.length < fuel)
    (ih : ∀ {lx p s}, Waits V lx n p s → p ++ s = t.dropWhile blank →
      Shows V fuel lx n (t.dropWhile blank)) : Shows V (fuel + 1) lx n (c :: t) := by
  obtain ⟨hn, hspace⟩ := blank_iff.1 hc
  obtain ⟨lx₀, lx₁, p₁, s₁, hrun, htook, ht₁, hwaits, hpre⟩ := h.space ht hspace
  rw [newlines_blank hc, Nat.add_zero] at hwaits
  obtain ⟨lx₂, p₂, s₂, hrun₂, hbefore₂, ht₂, hahead₂, hsame⟩ :=
    whitespace_run fuel hwaits.before (by rwa [ht₁])
  rw [ht₁] at hrun₂ ht₂
  obtain ⟨chars, hchars, hbehind⟩ := ih ⟨hbefore₂, hsame.shebang.trans hwaits.checked,
    hsame.allowed.trans hwaits.allowed, hahead₂ V hwaits.ahead⟩ ht₂
  rw [hsame.preceded, hpre, decide_eq_true hn] at hbehind
  rw [Shows, lead_space hspace, afterLead_space hspace, lead_blanks t, afterLead_blanks t]
  refine ⟨chars, ?_, ?_⟩
  · rw [tokens, hrun]
    dsimp only
    rw [htook.run]
    dsimp only
    rw [if_neg hn, if_pos hspace, hrun₂]
    dsimp only
    rw [hchars, line_newlines htook, numbered, numbered_append, lineCount_blanks]
    simp only [newlines_blank hc, Nat.add_zero, List.cons_append, List.append_assoc]
  · have hnone : ∀ d ∈ c :: t.takeWhile blank, d ≠ '\n'.toNat := by
      intro d hd
      rcases List.mem_cons.1 hd with rfl | hd
      · exact hn
      · exact (blank_of_takeWhile hd).1
    rw [lineCount_cons, newlines_blank hc, lineCount_append, lineCount_blanks, Nat.zero_add,
      Nat.zero_add, ← List.cons_append, preceded_append _ _ _ _ hnone]
    exact hbehind

omit h ht in
/-- Where the scan leaves the first token, all that begins with it comes. -/
theorem tokens_first (hrun : beforeToken.run lx = (.ok false, lx')) (h : Before lx' n p s)
    (ht : p ++ s = c :: t) (hc : ¬ isspace c = true) (hf : (c :: t).length < fuel) :
    tokens (fuel + 1) lx = numbered n (c :: t) := by
  obtain ⟨lx₁, p₁, s₁, htook, ht₁, -⟩ := getc_next h ht
  obtain ⟨hunget, hbefore⟩ := ungetc_before htook.before htook.lastChar htook.free
  rw [tokens, hrun]
  dsimp only
  rw [htook.run]
  dsimp only
  rw [if_neg fun e => hc (isspace_newline e), if_neg hc, hunget]
  dsimp only
  rw [remaining_run fuel hbefore (by rwa [List.cons_append, ht₁]), List.cons_append, ht₁]

variable (hc : ¬ isspace c = true)

include hc

theorem shows_token (hf : (c :: t).length < fuel)
    (hno : c ≠ '-'.toNat ∨ lx.initialFrontmatterPrecededByWhitespace = true) :
    Shows V (fuel + 1) lx n (c :: t) := by
  obtain ⟨lx', p', s', hrun, hbefore, ht', -⟩ :=
    trySkipInitialFrontmatter_other h.before ht h.allowed hc hno
  refine ⟨numbered n (c :: t), ?_, ?_⟩
  · rw [lead_other hc,
      tokens_first ((beforeToken_checked h.checked).trans hrun) hbefore ht' hc hf]
    rfl
  · rw [lead_other hc, afterLead_other hc]
    rcases hno with hd | hb
    · rw [Behind, frontmatterEnd_other hd, ite_self]
      dsimp only
      rw [if_neg (fun hn => hd (Option.some.inj hn.2.1))]
      rfl
    · simp only [Behind, preceded, List.getLast?_nil, hb, if_true]
      rfl

variable (hd : c = '-'.toNat) (hb : lx.initialFrontmatterPrecededByWhitespace = false)

include hd hb

/-- Behind a fence without an end, the text comes as it is restored. -/
theorem shows_unclosed (hf : (c :: t).length < fuel) (hend : frontmatterEnd (c :: t) = none) :
    Shows V (fuel + 1) lx n (c :: t) := by
  have hfence := trySkipInitialFrontmatter_fence h.before ht h.allowed hd hb
  rw [hend] at hfence
  obtain ⟨lx', w, hrun, hw, hbefore, -⟩ := hfence
  have hshort := fenceUnread_length_lt (t := t) hd
  obtain ⟨w', rfl⟩ : ∃ w', w = c :: w' := by
    rcases w with _ | ⟨d, w⟩
    · rw [List.nil_append] at hw
      rw [hw] at hshort
      exact absurd hshort (Nat.lt_irrefl _)
    · exact ⟨w, by rw [List.cons_append, List.cons.injEq] at hw; rw [hw.1]⟩
  have hres := restored (u := fenceUnread (c :: t)) h.ahead (by rw [hw, ht]) (List.cons_ne_nil c w')
  rw [ht] at hres
  have hle : (c :: (w' ++ s.drop ((c :: w').length - p.length))).length ≤ (c :: t).length := by
    split at hres
    · exact hres.le
    · exact (congrArg List.length hres).le
  refine ⟨numbered n (c :: (w' ++ s.drop ((c :: w').length - p.length))), ?_, ?_⟩
  · rw [lead_other hc, tokens_first ((beforeToken_checked h.checked).trans hrun) hbefore
      (List.cons_append ..) hc (hle.trans_lt hf)]
    rfl
  · rw [lead_other hc, afterLead_other hc]
    simp only [Behind, preceded, List.getLast?_nil, hb, Bool.false_eq_true, if_false, hend]
    split at hres
    · next hV =>
        rw [if_pos ⟨trivial, by rw [hd]; rfl, hV⟩, numbered_length]
        exact hres
    · next hV =>
        rw [if_neg (fun hn => hV hn.2.2)]
        rw [List.cons_append] at hres
        rw [hres]
        rfl

/-- A frontmatter is skipped. -/
theorem shows_skipped (hf : (c :: t).length + 1 < fuel) {rest : List Codepoint}
    (hend : frontmatterEnd (c :: t) = some rest) : Shows V (fuel + 1) lx n (c :: t) := by
  have hfence := trySkipInitialFrontmatter_fence h.before ht h.allowed hd hb
  rw [hend] at hfence
  obtain ⟨lx', p', s', w, hrun, hw, hbefore, ht', hchk', ha'⟩ := hfence
  have hlen := congrArg List.length hw
  rw [List.length_append] at hlen
  refine ⟨numbered (n + lineCount w) rest, ?_, ?_⟩
  · rw [tokens, beforeToken_checked h.checked, hrun]
    dsimp only
    rw [tokens_settled fuel hbefore (hchk'.trans h.checked) ha' (by rw [ht']; omega), ht',
      lead_other hc]
    rfl
  · rw [lead_other hc, afterLead_other hc]
    simp only [Behind, preceded, List.getLast?_nil, hb, Bool.false_eq_true, if_false, hend]
    exact ⟨w, hw, rfl⟩

end Shown

/-- **The token loop gets the white space before the first token, and then the text behind a
    frontmatter.** -/
theorem tokens_run {V : Nat} : ∀ (fuel : Nat) {lx : Lexer} {n : Nat} {p s : List Codepoint},
    Waits V lx n p s → (p ++ s).length + 2 < fuel → Shows V fuel lx n (p ++ s)
  | 0, _, _, _, _, _, hf => absurd hf (Nat.not_lt_zero _)
  | fuel + 1, lx, n, p, s, h, hf => by
    rcases ht : p ++ s with _ | ⟨c, t⟩
    · exact shows_end h ht
    rw [ht, List.length_cons] at hf
    by_cases hspace : isspace c = true
    · by_cases hn : c = '\n'.toNat
      · exact shows_newline h ht hn fun hw hps => hps ▸ tokens_run fuel hw (by rw [hps]; omega)
      · have hlen := (List.dropWhile_sublist blank (l := t)).length_le
        exact shows_blank h ht (blank_iff.2 ⟨hn, hspace⟩) (by omega) fun hw hps =>
          hps ▸ tokens_run fuel hw (by rw [hps]; omega)
    have hlt : (c :: t).length < fuel := by
      rw [List.length_cons]
      omega
    by_cases hno : c ≠ '-'.toNat ∨ lx.initialFrontmatterPrecededByWhitespace = true
    · exact shows_token h ht hspace hlt hno
    obtain ⟨hc, hb⟩ := not_or.1 hno
    have hc : c = '-'.toNat := not_not.1 hc
    have hb := Bool.eq_false_iff.2 hb
    rcases hend : frontmatterEnd (c :: t) with _ | rest
    · exact shows_unclosed h ht hspace hc hb hlt hend
    · exact shows_skipped h ht hspace hc hb (by rw [List.length_cons]; omega) hend

/-! ## 5. The constructors -/

/-- The characters of a text; the byte order mark of a file is none of them. -/
def sourceText (origin : Origin) (text : List Char) : List Codepoint :=
  if origin = .file ∧ text.head? = some '\uFEFF' then folded text.tail else folded text

/-- A first byte that makes the constructor for files look for a byte order mark. -/
def MarkLike (c : Char) : Prop := 0xF000 ≤ c.toNat ∧ c.toNat ≤ 0xFFFF

theorem utf8EncodeChar_three {c : Char} (h : 0x800 ≤ c.toNat) (h' : c.toNat ≤ 0xFFFF) :
    String.utf8EncodeChar c = [UInt8.ofNat (c.toNat / 4096 % 0x10 + 0xE0),
      UInt8.ofNat (c.toNat / 64 % 0x40 + 0x80),
      UInt8.ofNat (c.toNat % 0x40 + 0x80)] := by
  rw [String.utf8EncodeChar]
  simp only [Char.toNat_val, show ¬ c.toNat ≤
    0x7f by omega, show ¬ c.toNat ≤ 0x7ff by omega, h', if_false, if_true]

private theorem ofNat_inj {a b : Nat} (ha : a < 256) (hb : b < 256) :
    UInt8.ofNat a = UInt8.ofNat b ↔ a = b := by
  constructor
  · intro h
    have := congrArg UInt8.toNat h
    rwa [UInt8.toNat_ofNat', UInt8.toNat_ofNat', Nat.mod_eq_of_lt ha, Nat.mod_eq_of_lt hb] at this
  · exact congrArg UInt8.ofNat

/-- The first byte of a character tells three things of it. -/
theorem encoded_head (c : Char) (text : List Char) :
    ∃ b r, encoded (c :: text) = b :: r ∧ (b = 0xEF ↔ MarkLike c) ∧
    (b = 0x0A ↔ c = '\n') ∧ (b = 0x0D ↔ c = '\r') := by
  have hnl : c = '\n' ↔ c.toNat = 0x0A := Char.toNat_inj.symm
  have hcr : c = '\r' ↔ c.toNat = 0x0D := Char.toNat_inj.symm
  have hlt : c.toNat < 0x110000 := by
    have := c.valid
    simp only [UInt32.isValidChar, Nat.isValidChar] at this
    change c.val.toNat < _
    omega
  simp only [encoded, List.flatMap_cons, String.utf8EncodeChar, Char.toNat_val, MarkLike, hnl, hcr]
  have key (k : Nat) (hk : k < 256) (hEF : k = 0xEF ↔ 0xF000 ≤ c.toNat ∧ c.toNat ≤ 0xFFFF)
      (h0A : k = 0x0A ↔ c.toNat = 0x0A) (h0D : k = 0x0D ↔ c.toNat = 0x0D) (r : List UInt8) :
      ∃ b r', UInt8.ofNat k :: r = b :: r' ∧ (b = 0xEF ↔ 0xF000 ≤ c.toNat ∧ c.toNat ≤ 0xFFFF) ∧
        (b = 0x0A ↔ c.toNat = 0x0A) ∧ (b = 0x0D ↔ c.toNat = 0x0D) :=
    ⟨_, r, rfl, (ofNat_inj (b := 0xEF) hk (by decide)).trans hEF,
    (ofNat_inj (b := 0x0A) hk (by decide)).trans h0A,
      (ofNat_inj (b := 0x0D) hk (by decide)).trans h0D⟩
  split
  · exact key _ (by omega) (by omega) (by omega) (by omega) _
  · split
    · exact key _ (by omega) (by omega) (by omega) (by omega) _
    · split
      · exact key _ (by omega) (by omega) (by omega) (by omega) _
      · exact key _ (by omega) (by omega) (by omega) (by omega) _

theorem folded_head {c : Char} {text : List Char} : (folded (c :: text)).head? = some '\n'.toNat ↔
    c = '\n' ∨ (c = '\r' ∧ text.head? = some '\n') := by
  by_cases h : c = '\r' → text.head? ≠ some '\n'
  · rw [folded_cons h, List.head?_cons, Option.some.injEq, Char.toNat_inj]
    constructor
    · exact .inl
    · rintro (hc | ⟨hc, ht⟩)
      · exact hc
      · exact absurd ht (h hc)
  · simp only [Classical.not_imp, ne_eq, not_not] at h
    obtain ⟨rfl, ht⟩ := h
    obtain ⟨text, rfl⟩ : ∃ text', text = '\n' :: text' :=
      ⟨text.tail, (List.cons_head?_tail ht).symm⟩
    simp [folded]

/-- The line on which a lexer begins: the constructor for files has counted a newline that it puts
    back. -/
def firstLine (origin : Origin) (text : List Char) : Nat :=
  if origin = .file ∧ (folded text).head? = some '\n'.toNat then 2 else 1

theorem fresh_before {source : List UInt8} {text : List Char} (n pos ofs : Nat)
    (h : source.drop pos = encoded text) :
    Before ((fresh source).moved pos n ofs) n [] (folded text) :=
  ⟨rfl, ⟨text, h, rfl⟩, rfl⟩

/-- What a constructor leaves has not scanned anything. -/
structure Fresh (lx : Lexer) : Prop where
  shebang : lx.initialShebangChecked = false
  allowed : lx.initialFrontmatterAllowed = true
  preceded : lx.initialFrontmatterPrecededByWhitespace = false

theorem skipMark_other {source : List UInt8} {lx : Lexer} {b : UInt8} (hb : b ≠ 0xEF)
    (h : getcByte.run (fresh source) = (.ok b, lx)) :
    skipMark.run (fresh source) = (.ok (), { lx with sourcePos := lx.sourcePos - 1 }) := by
  rw [skipMark, run_bind h, if_neg hb]
  rfl

/-- Three bytes that begin as a byte order mark does are one, or the constructor throws. -/
theorem skipMark_marked {b₂ b₃ : UInt8} (r : List UInt8) (h₂ : b₂ ≠ 0x0D ∧ b₂ ≠ 0x0A)
    (h₃ : b₃ ≠ 0x0D ∧ b₃ ≠ 0x0A) :
    if b₂ = 0xBB ∧ b₃ = 0xBF then
      skipMark.run (fresh (0xEF :: b₂ :: b₃ :: r)) =
        (.ok (), (fresh (0xEF :: b₂ :: b₃ :: r)).moved 3 1 0)
    else ∃ e lx, skipMark.run (fresh (0xEF :: b₂ :: b₃ :: r)) = (.error e, lx) := by
  let lx₀ := fresh (0xEF :: b₂ :: b₃ :: r)
  have hget₁ : getcByte.run lx₀ = (.ok 0xEF, lx₀.moved 1 1 0) := getcByte_other rfl (by decide)
    (by decide)
  have hget₂ : getcByte.run (lx₀.moved 1 1 0) = (.ok b₂, lx₀.moved 2 1 0) :=
    getcByte_other rfl h₂.1 h₂.2
  have hget₃ : getcByte.run (lx₀.moved 2 1 0) = (.ok b₃, lx₀.moved 3 1 0) :=
    getcByte_other rfl h₃.1 h₃.2
  rw [skipMark, run_bind hget₁, if_pos rfl, run_bind hget₂]
  by_cases hb₂ : b₂ = 0xBB
  · rw [if_neg (not_not.2 hb₂), run_bind hget₃]
    by_cases hb₃ : b₃ = 0xBF
    · rw [if_neg (not_not.2 hb₃), if_pos ⟨hb₂, hb₃⟩]
      rfl
    · rw [if_pos hb₃, if_neg (fun h => hb₃ h.2)]
      exact ⟨_, _, rfl⟩
  · rw [if_pos hb₂, if_neg (fun h => hb₂ h.1)]
    exact ⟨_, _, rfl⟩

theorem opened_run {origin : Origin} {text : List Char}
    (h : origin = .file → ∀ c, text.head? = some c → c = '\uFEFF' ∨ ¬ MarkLike c) :
    ∃ lx, opened origin (encoded text) = (.ok (), lx) ∧
      Before lx (firstLine origin text) [] (sourceText origin text) ∧ Fresh lx := by
  rcases origin with _ | _
  swap
  · exact ⟨fresh (encoded text), rfl, fresh_before 1 0 0 rfl, ⟨rfl, rfl, rfl⟩⟩
  rcases text with _ | ⟨c, text⟩
  · exact ⟨fresh [], rfl, fresh_before 1 0 0 rfl, ⟨rfl, rfl, rfl⟩⟩
  obtain ⟨b, r, hbytes, hmark, hnl, hcr⟩ := encoded_head c text
  have hopen : opened .file (encoded (c :: text)) = skipMark.run (fresh (encoded (c :: text))) := by
    rw [opened, hbytes]
    rfl
  rw [hopen]
  have hdrop : (fresh (encoded (c :: text))).source.drop (fresh (encoded (c :: text))).sourcePos =
    b :: r := by
    rw [← hbytes]
    rfl
  by_cases hbom : c = '\uFEFF'
  · -- a byte order mark
    subst hbom
    have hbytes' : encoded ('\uFEFF' :: text) = 0xEF :: 0xBB :: 0xBF :: encoded text := by
      simp only [encoded, List.flatMap_cons, utf8EncodeChar_three (c := '\uFEFF') (by decide)
        (by decide)]
      rfl
    have hn : (folded ('\uFEFF' :: text)).head? ≠ some '\n'.toNat := by
      rw [ne_eq, folded_head]
      simp
    have hrun := @skipMark_marked 0xBB 0xBF (encoded text) (by decide) (by decide)
    rw [if_pos ⟨rfl, rfl⟩, ← hbytes'] at hrun
    rw [firstLine, if_neg (fun e => hn e.2), sourceText, if_pos ⟨rfl, rfl⟩, hrun]
    exact ⟨_, rfl, fresh_before 1 3 0 (by rw [hbytes']; rfl), ⟨rfl, rfl, rfl⟩⟩
  have hb : b ≠ 0xEF := fun e => (h rfl c rfl).elim hbom fun hno => hno (hmark.1 e)
  have htext : sourceText .file (c :: text) = folded (c :: text) := by
    rw [sourceText, if_neg]
    rintro ⟨-, e⟩
    exact hbom (Option.some.inj e)
  rw [htext]
  by_cases hn : b = 0x0A
  · -- a newline is counted and put back
    have hline : firstLine .file (c :: text) = 2 := by
      rw [firstLine, if_pos ⟨rfl, folded_head.2 (.inl (hnl.1 hn))⟩]
    rw [skipMark_other (by rw [← hn]; exact hb) (getcByte_newline (by rw [hdrop, hn])), hline]
    exact ⟨_, rfl, fresh_before 2 0 0 rfl, ⟨rfl, rfl, rfl⟩⟩
  by_cases hr : b = 0x0D
  · have hcr' : c = '\r' := hcr.1 hr
    have hr' : r = encoded text := by
      rw [hcr'] at hbytes
      exact (List.cons.inj hbytes).2.symm
    rcases text with _ | ⟨d, text⟩
    · have hline : firstLine .file [c] = 1 := by
        rw [firstLine, if_neg]
        rintro ⟨-, e⟩
        rcases folded_head.1 e with e | ⟨-, e⟩
        · exact hn (hnl.2 e)
        · cases e
      have hget := @getcByte_return (fresh (encoded [c])) r (by rw [hdrop, hr])
        (by rw [hr']; simp [encoded])
      rw [skipMark_other (by rw [← hr]; exact hb) hget, hline]
      exact ⟨_, rfl, fresh_before 1 0 0 rfl, ⟨rfl, rfl, rfl⟩⟩
    · by_cases hd : d = '\n'
      · -- of a CR LF the LF is put back, and it is counted
        subst hd hcr'
        have hline : firstLine .file ('\r' :: '\n' :: text) = 2 := by
          rw [firstLine, if_pos ⟨rfl, folded_head.2 (.inr ⟨rfl, rfl⟩)⟩]
        have hget := @getcByte_folded (fresh (encoded ('\r' :: '\n' :: text))) (encoded text) rfl
        rw [skipMark_other (by decide) hget, hline]
        exact ⟨_, rfl, @fresh_before _ ('\n' :: text) 2 1 0 rfl, ⟨rfl, rfl, rfl⟩⟩
      · have hline : firstLine .file (c :: d :: text) = 1 := by
          rw [firstLine, if_neg]
          rintro ⟨-, e⟩
          rcases folded_head.1 e with e | ⟨-, e⟩
          · exact hn (hnl.2 e)
          · exact hd (Option.some.inj e)
        have hhead : r.head? ≠ some 0x0A := by
          rw [hr']
          obtain ⟨b', r'', hbytes', -, hnl', -⟩ := encoded_head d text
          rw [hbytes', List.head?_cons]
          exact fun e => hd (hnl'.1 (Option.some.inj e))
        have hget := @getcByte_return (fresh (encoded (c :: d :: text))) r (by rw [hdrop, hr]) hhead
        rw [skipMark_other (by rw [← hr]; exact hb) hget, hline]
        exact ⟨_, rfl, fresh_before 1 0 0 rfl, ⟨rfl, rfl, rfl⟩⟩
  · have hline : firstLine .file (c :: text) = 1 := by
      rw [firstLine, if_neg]
      rintro ⟨-, e⟩
      rcases folded_head.1 e with e | ⟨e, -⟩
      · exact hn (hnl.2 e)
      · exact hr (hcr.2 e)
    rw [skipMark_other hb (getcByte_other hdrop hr hn), hline]
    exact ⟨_, rfl, fresh_before 1 0 0 rfl, ⟨rfl, rfl, rfl⟩⟩

/-- What only looks like a byte order mark is refused. -/
theorem opened_refused {c : Char} {text : List Char} (hc : MarkLike c) (hbom : c ≠ '\uFEFF') :
    ∃ e lx, opened .file (encoded (c :: text)) = (.error e, lx) := by
  obtain ⟨hlo, hhi⟩ := hc
  have hbytes : encoded (c :: text) = 0xEF :: UInt8.ofNat (c.toNat / 64 % 0x40 + 0x80) ::
      UInt8.ofNat (c.toNat % 0x40 + 0x80) :: encoded text := by
    simp only [encoded, List.flatMap_cons, utf8EncodeChar_three (by omega : 0x800 ≤ c.toNat) hhi]
    rw [show c.toNat / 4096 % 0x10 = 15 by omega]
    rfl
  have hopen : opened .file (encoded (c :: text)) = skipMark.run (fresh (encoded (c :: text))) := by
    rw [opened, hbytes]
    rfl
  obtain ⟨-, -, e₃, e₄⟩ := continuation (c.toNat / 64 % 0x40) (by omega)
  obtain ⟨-, -, f₃, f₄⟩ := continuation (c.toNat % 0x40) (by omega)
  have hrun := skipMark_marked (encoded text) ⟨e₃, e₄⟩ ⟨f₃, f₄⟩
  rw [← hbytes, if_neg] at hrun
  · rw [hopen]
    exact hrun
  · rintro ⟨h₂, h₃⟩
    rw [show (0xBB : UInt8) = UInt8.ofNat 0xBB from rfl, ofNat_inj (by omega) (by decide)] at h₂
    rw [show (0xBF : UInt8) = UInt8.ofNat 0xBF from rfl, ofNat_inj (by omega) (by decide)] at h₃
    have : c.toNat = 0xFEFF := by omega
    exact hbom (Char.toNat_inj.1 this)

/-! ## 6. What the token loop sees -/

/-- A text that a constructor takes as it is: a file does not begin with a newline, which would be
    counted twice, nor with a character that has the first byte of a byte order mark in common. -/
def Opens (origin : Origin) (text : List Char) : Prop :=
  origin = .file → (∀ c, text.head? = some c → c = '\uFEFF' ∨ ¬ MarkLike c) ∧
    (folded text).head? ≠ some '\n'.toNat

/-- Where a shebang is followed by what begins as a frontmatter does and is none, the test for the
    frontmatter reads at least as far as the test for the shebang did. -/
def LookaheadSpent (t : List Codepoint) : Prop :=
  hasShebang t = true → beginsLine (lead (t.drop (shebangLine t).length)) = true →
    frontmatterEnd (afterLead (t.drop (shebangLine t).length)) = none →
    (afterLead (t.drop (shebangLine t).length)).head? = some '-'.toNat →
    (fenceUnread (afterLead (t.drop (shebangLine t).length))).length ≤ (shebangUnread t).length

theorem numbered_drop (w v : List Codepoint) (n : Nat) :
    (numbered n (w ++ v)).drop w.length = numbered (n + lineCount w) v := by
  rw [numbered_append, ← numbered_length w n, List.drop_left]

theorem beginsLine_eq (w : List Codepoint) : preceded false w = !beginsLine w := by
  rw [preceded, beginsLine]
  cases w.getLast? <;> simp

/-- The loop makes of the text what it should, unless characters are lost. -/
theorem Behind.right {V : Nat} {rest : List Codepoint} {chars : List (Codepoint × Nat)}
    (h : Behind (preceded false (lead rest)) V n (afterLead rest) chars) :
    chars = (numbered n (afterLead rest)).drop (frontmatter rest) ↔
      ¬ (beginsLine (lead rest) = true ∧ frontmatterEnd (afterLead rest) = none ∧
        (afterLead rest).head? = some '-'.toNat ∧ V < (fenceUnread (afterLead rest)).length) := by
  rw [beginsLine_eq] at h
  rw [Behind] at h
  rw [frontmatter]
  cases hb : beginsLine (lead rest) with
  | false =>
    rw [hb] at h
    simpa using h
  | true =>
    rw [hb] at h
    simp only [Bool.not_true, Bool.false_eq_true, if_false] at h
    rcases hend : frontmatterEnd (afterLead rest) with _ | v
    · rw [hend] at h
      dsimp only at h
      simp only [if_true, List.drop_zero, true_and]
      split at h
      · next hloss =>
          constructor
          · intro e
            rw [e, numbered_length] at h
            exact absurd h (Nat.lt_irrefl _)
          · exact fun hno => absurd hloss.2 hno
      · next hloss => exact ⟨fun _ hc => hloss ⟨trivial, hc⟩, fun _ => h⟩
    · rw [hend] at h
      obtain ⟨w, hw, hchars⟩ := h
      have hlen : (afterLead rest).length - v.length = w.length := by
        rw [← hw, List.length_append]
        omega
      simp only [if_true, hlen, reduceCtorEq, false_and, and_false, not_false_eq_true, iff_true]
      rw [hchars, ← hw, numbered_drop]

theorem line_free (t : List Codepoint) : '\n'.toNat ∉ line t := by
  intro h
  have := List.all_eq_true.1 List.all_takeWhile _ h
  simp at this

theorem lineCount_line (t : List Codepoint) :
    lineCount (line t) = 0 := List.count_eq_zero.2 (line_free t)

theorem shebangLine_take (t : List Codepoint) :
    shebangLine t ++ t.drop (shebangLine t).length = t ∧ lineCount (shebangLine t) = 0 := by
  rw [shebangLine]
  split
  · have hdrop : t.drop (line t).length = lineEnd t := by
      conv_lhs => rw [← line_append_lineEnd t]
      rw [line_append_lineEnd]
      nth_rewrite 2 [← line_append_lineEnd t]
      rw [List.drop_left]
    rw [hdrop, line_append_lineEnd]
    exact ⟨rfl, lineCount_line t⟩
  · exact ⟨rfl, rfl⟩

/-- The text that is to be seen, in the parts that the loop meets. -/
theorem visible_eq (t : List Codepoint) :
    let rest := t.drop (shebangLine t).length
    visible t = numbered 1 (lead rest) ++ (numbered (1 + lineCount (lead rest))
      (afterLead rest)).drop (frontmatter rest) := by
  obtain ⟨hsplit, hcount⟩ := shebangLine_take t
  have hchars : (numbered 1 t).drop (shebangLine t).length =
    numbered 1 (t.drop (shebangLine t).length) := by
    have := numbered_drop (shebangLine t) (t.drop (shebangLine t).length) 1
    rwa [hsplit, hcount, Nat.add_zero] at this
  rw [visible]
  simp only [hchars]
  generalize t.drop (shebangLine t).length = rest
  have hrest : numbered 1 rest = numbered 1 (lead rest) ++ numbered (1 + lineCount (lead rest))
    (afterLead rest) := by
    rw [← numbered_append, lead, afterLead, List.takeWhile_append_dropWhile]
  rw [hrest, List.take_append_of_le_length (by rw [numbered_length]),
    List.take_of_length_le (by rw [numbered_length]),
    ← List.drop_drop, ← numbered_length (lead rest) 1, List.drop_left]

theorem tokens_scanned {fuel : Nat} (h : checkInitialShebang.run lx = (.ok (), lx'))
    (hf : lx.initialShebangChecked = false) (hf' : lx'.initialShebangChecked = true) :
    tokens (fuel + 1) lx = tokens (fuel + 1) lx' := by
  have hbefore : beforeToken.run lx = beforeToken.run lx' := by
    rw [beforeToken_checked hf', beforeToken]
    simp only [run_look_bind, hf, Bool.false_eq_true, not_false_eq_true, if_true]
    rw [run_bind h]
  rw [tokens, tokens, hbefore]

/-- The loop from the beginning. -/
theorem tokens_fresh {fuel : Nat} (h : Before lx n [] t) (hfresh : Fresh lx)
    (hf : t.length + 2 < fuel) :
    ∃ p s chars, p ++ s = shebangRest t ∧
      tokens fuel lx = numbered n (lead (shebangRest t)) ++ chars ∧
      (if hasShebang t then Ahead (shebangUnread t).length p s else p.length ≤ 1 ∨
        t.head? = some '#'.toNat) ∧
      ∀ V, Ahead V p s → Behind (preceded false (lead (shebangRest t))) V
        (n + lineCount (lead (shebangRest t)))
        (afterLead (shebangRest t)) chars := by
  obtain ⟨lx', p, s, hrun, hsame, hbefore, hps, hif⟩ := checkInitialShebang_run h
  obtain ⟨fuel, rfl⟩ : ∃ k, fuel = k + 1 := ⟨fuel - 1, by omega⟩
  have hlen : (p ++ s).length ≤ t.length := by
    rw [hps, shebangRest]
    split
    · exact (List.dropWhile_sublist _).length_le
    · exact Nat.le_refl _
  have hpre : lx'.initialFrontmatterPrecededByWhitespace = false :=
    hsame.preceded.trans hfresh.preceded
  have hall := hsame.allowed.trans hfresh.allowed
  -- the characters do not depend on `V`
  obtain ⟨chars, hchars, -⟩ := tokens_run (V := s.length) (fuel + 1)
    ⟨hbefore, hsame.shebang, hall, Nat.le_refl _, .inl rfl⟩ (by omega)
  rw [tokens_scanned hrun hfresh.shebang hsame.shebang]
  refine ⟨p, s, chars, hps, by rw [hchars, hps], hif, fun V hV => ?_⟩
  obtain ⟨chars', hchars', hbehind⟩ := tokens_run (fuel + 1) ⟨hbefore, hsame.shebang, hall, hV⟩
    (by omega)
  rw [hpre, hps] at hbehind
  rw [List.append_cancel_left (hchars.symm.trans hchars')]
  exact hbehind

theorem endsShebang_iff : endsShebang c = true ↔ c = '\n'.toNat ∨ c = '\r'.toNat := by
  rw [endsShebang, Bool.or_eq_true, decide_eq_true_eq, decide_eq_true_eq]

/-- A CR ends the shebang for the code. -/
theorem dropWhile_return : ∀ {t : List Codepoint}, '\r'.toNat ∈ line t →
    (t.dropWhile fun c => !endsShebang c).head? = some '\r'.toNat
  | [], h => by cases h
  | c :: t, h => by
    by_cases hn : c = '\n'.toNat
    · rw [line_newline hn] at h
      cases h
    · by_cases hr : c = '\r'.toNat
      · rw [List.dropWhile_cons_of_neg (by rw [endsShebang_iff.2 (.inr hr)]; simp), hr]
        rfl
      · have hend : endsShebang c = false := Bool.eq_false_iff.2 fun h =>
          (endsShebang_iff.1 h).elim hn hr
        rw [List.dropWhile_cons_of_pos (by rw [hend]; rfl)]
        rw [line_cons hn] at h
        exact dropWhile_return ((List.mem_cons.1 h).resolve_left fun e => hr e.symm)

theorem dropWhile_newline : ∀ {t : List Codepoint}, '\r'.toNat ∉ line t →
    (t.dropWhile fun c => !endsShebang c) = lineEnd t
  | [], _ => rfl
  | c :: t, h => by
    rw [lineEnd]
    by_cases hn : c = '\n'.toNat
    · rw [List.dropWhile_cons_of_neg (by rw [endsShebang_iff.2 (.inl hn)]; simp),
        List.dropWhile_cons_of_neg (by simp [hn])]
    · rw [line_cons hn, List.mem_cons, not_or] at h
      have hend : endsShebang c = false :=
        Bool.eq_false_iff.2 fun e => (endsShebang_iff.1 e).elim hn fun e => h.1 e.symm
      rw [List.dropWhile_cons_of_pos (by rw [hend]; rfl),
        List.dropWhile_cons_of_pos (by simpa using hn)]
      exact dropWhile_newline h.2

theorem lineEnd_head (t : List Codepoint) :
    (lineEnd t).head? = none ∨ (lineEnd t).head? = some '\n'.toNat := by
  rcases h : lineEnd t with _ | ⟨c, u⟩
  · exact .inl rfl
  · right
    have := List.head?_dropWhile_not (fun c => decide (c ≠ '\n'.toNat)) t
    rw [lineEnd] at h
    rw [h, List.head?_cons] at this
    simpa using this

theorem drop_shebangLine (h : hasShebang t = true) : t.drop (shebangLine t).length = lineEnd t := by
  have := (shebangLine_take t).1
  rw [shebangLine, if_pos h] at this ⊢
  exact List.append_cancel_left (this.trans (line_append_lineEnd t).symm)

/-- The first character of white space is seen first. -/
theorem seen_head {m : Nat} {u : List Codepoint} {chars : List (Codepoint × Nat)}
    (hc : isspace c = true) :
    (numbered m (lead (c :: u)) ++ chars).head? = some (c, m + newlines c) := by
  rw [lead, List.takeWhile_cons_of_pos hc]
  rfl

/-- A lexer on the first line sees what it should just where the shebang has no CR and nothing of
    its look-ahead is left. -/
theorem tokens_right {fuel : Nat} (h : Before lx 1 [] t) (hfresh : Fresh lx)
    (hf : t.length + 2 < fuel) :
    tokens fuel lx = visible t ↔ '\r'.toNat ∉ shebangLine t ∧ LookaheadSpent t := by
  obtain ⟨p, s, chars, hps, htokens, hif, hbehind⟩ := tokens_fresh h hfresh hf
  rw [htokens, visible_eq]
  cases hsb : hasShebang t with
  | false =>
    have hrest : shebangRest t = t := by
      rw [shebangRest, hsb]
      rfl
    have hline : shebangLine t = [] := by
      rw [shebangLine, hsb]
      rfl
    rw [hsb] at hif
    rw [hrest] at hbehind hps ⊢
    rw [hline]
    have hV := hbehind s.length ⟨Nat.le_refl _, .inl rfl⟩
    have hno : ¬ (beginsLine (lead t) = true ∧ frontmatterEnd (afterLead t) = none ∧
        (afterLead t).head? = some '-'.toNat ∧ s.length < (fenceUnread (afterLead t)).length) := by
      rintro ⟨-, -, hhead, hlt⟩
      rcases hif with hp | hp
      · obtain ⟨u, hu⟩ : ∃ u, afterLead t = '-'.toNat :: u := ⟨_, (List.cons_head?_tail hhead).symm⟩
        have h₁ := fenceUnread_length_lt (t := u) rfl
        have h₂ := (List.dropWhile_sublist isspace (l := t)).length_le
        have h₃ := congrArg List.length hps
        rw [← hu] at h₁
        rw [List.length_append] at h₃
        rw [afterLead] at h₁ hlt
        omega
      · obtain ⟨u, hu⟩ : ∃ u, t = '#'.toNat :: u := ⟨_, (List.cons_head?_tail hp).symm⟩
        rw [hu, afterLead, List.dropWhile_cons_of_neg (by decide)] at hhead
        simp at hhead
    simp only [List.length_nil, List.drop_zero, List.not_mem_nil, not_false_eq_true, true_and,
      LookaheadSpent, hsb,
      Bool.false_eq_true, false_implies, iff_true]
    rw [hV.right.2 hno]
  | true =>
    rw [hsb] at hif
    have hline : shebangLine t = line t := by
      rw [shebangLine, hsb]
      rfl
    have hdrop := drop_shebangLine hsb
    have hrest : shebangRest t = t.dropWhile fun c => !endsShebang c := by
      rw [shebangRest, hsb]
      rfl
    by_cases hcr : '\r'.toNat ∈ shebangLine t
    · -- the code goes on with the CR, where the text goes on with a newline or not at all
      simp only [hcr, not_true_eq_false, false_and, iff_false]
      intro e
      have hret := dropWhile_return (by rwa [hline] at hcr)
      obtain ⟨u, hu⟩ : ∃ u, shebangRest t = '\r'.toNat :: u :=
        ⟨_, by rw [hrest]; exact (List.cons_head?_tail hret).symm⟩
      have hl := congrArg List.head? e
      rw [hu, seen_head (by decide), hdrop] at hl
      rcases hend : lineEnd t with _ | ⟨d, v⟩
      · rw [hend] at hl
        simp [lead, afterLead, numbered] at hl
      · rw [hend, seen_head, Option.some.injEq, Prod.mk.injEq] at hl
        · have := lineEnd_head t
          rw [hend] at this
          simp at this
          rw [this] at hl
          exact absurd hl.1 (by decide)
        · have := lineEnd_head t
          rw [hend] at this
          exact isspace_newline (by simpa using this)
    · rw [dropWhile_newline (by rwa [hline] at hcr), ← hdrop] at hrest
      rw [hrest] at hbehind ⊢
      rw [List.append_cancel_left_eq, (hbehind _ hif).right]
      simp only [hcr, not_false_eq_true, true_and, LookaheadSpent, hsb, forall_const,
        not_and, not_lt]

/-- A lexer that has counted the newline that the text begins with does not. -/
theorem tokens_miscounted {fuel : Nat} {u : List Codepoint} (h : Before lx 2 [] ('\n'.toNat :: u))
    (hfresh : Fresh lx)
    (hf : ('\n'.toNat :: u).length + 2 < fuel) : tokens fuel lx ≠ visible ('\n'.toNat :: u) := by
  obtain ⟨p, s, chars, -, htokens, -⟩ := tokens_fresh h hfresh hf
  have hsb : hasShebang ('\n'.toNat :: u) = false := by
    cases u with
    | nil => rfl
    | cons d u => simp [hasShebang]
  have hrest : shebangRest ('\n'.toNat :: u) = '\n'.toNat :: u := by
    rw [shebangRest, hsb]
    rfl
  have hline : shebangLine ('\n'.toNat :: u) = [] := by
    rw [shebangLine, hsb]
    rfl
  intro e
  have hl := congrArg List.head? e
  rw [htokens, visible_eq, hrest, hline, List.length_nil, List.drop_zero, seen_head (by decide),
    seen_head (by decide),
    Option.some.injEq, Prod.mk.injEq] at hl
  simp at hl

/-- **The token loop sees the text without its shebang and its frontmatter, each character on its
    line, just where** the constructor takes the text as it is, the shebang holds no CR, and the
    test for the frontmatter has read all that the test for the shebang has read behind the line. -/
theorem seen_right (origin : Origin) (text : List Char) :
    seen origin (encoded text) = some (visible (sourceText origin text)) ↔
      Opens origin text ∧ '\r'.toNat ∉ shebangLine (sourceText origin text) ∧
        LookaheadSpent (sourceText origin text) := by
  by_cases hmark : origin = .file → ∀ c, text.head? = some c → c = '\uFEFF' ∨ ¬ MarkLike c
  · obtain ⟨lx, hopen, hbefore, hfresh⟩ := opened_run hmark
    have hseen : seen origin (encoded text) = some (tokens (lx.unread + 2) lx) := by
      rw [seen, hopen]
    have hfuel : (sourceText origin text).length + 2 < lx.unread + 2 := by
      have := hbefore.length_lt
      rw [List.nil_append] at this
      omega
    rw [hseen, Option.some.injEq]
    by_cases hcount : origin = .file ∧ (folded text).head? = some '\n'.toNat
    · obtain ⟨rfl, hhead⟩ := hcount
      have htext : sourceText .file text = folded text := by
        rw [sourceText, if_neg]
        rintro ⟨-, e⟩
        obtain ⟨text, rfl⟩ : ∃ u, text = '\uFEFF' :: u := ⟨_, (List.cons_head?_tail e).symm⟩
        have := folded_head.1 hhead
        simp at this
      obtain ⟨u, hu⟩ : ∃ u, folded text = '\n'.toNat :: u := ⟨_, (List.cons_head?_tail hhead).symm⟩
      have hno : ¬ Opens .file text := fun ho => (ho rfl).2 hhead
      rw [firstLine, if_pos ⟨rfl, hhead⟩, htext, hu] at hbefore
      rw [htext, hu] at hfuel ⊢
      simp only [hno, false_and, iff_false]
      exact tokens_miscounted hbefore hfresh hfuel
    · have hopens : Opens origin text := fun ho => ⟨hmark ho, fun hh => hcount ⟨ho, hh⟩⟩
      rw [firstLine, if_neg hcount] at hbefore
      simp only [hopens, true_and]
      exact tokens_right hbefore hfresh hfuel
  · simp only [Classical.not_imp, not_forall, not_or, not_not] at hmark
    obtain ⟨rfl, c, hc, hbom, hlike⟩ := hmark
    obtain ⟨text, rfl⟩ : ∃ u, text = c :: u := ⟨_, (List.cons_head?_tail hc).symm⟩
    obtain ⟨e, lx, hopen⟩ := @opened_refused _ text hlike hbom
    have hno : ¬ Opens .file (c :: text) := fun ho => ((ho rfl).1 c rfl).elim hbom fun h => h hlike
    simp only [seen, hopen, reduceCtorEq, hno, false_and]

/-- A shebang whose comment goes on in the next line, which begins with a dash. -/
def lostComment : List Char :=
  ['#', '!', '/', '*', '\n', '-', '-', 'x', ' ', '*', '/', 'f']

/-- Behind `--x` the look-ahead of the first scan is lost: the space and the comment's end are not
    seen. -/
theorem lostComment_seen : seen .stream (encoded lostComment) =
      some [('\n'.toNat, 2), ('-'.toNat, 2), ('-'.toNat, 2), ('x'.toNat, 2)] ∧
    seen .stream (encoded lostComment) ≠ some (visible (sourceText .stream lostComment)) := by
  have hseen : seen .stream (encoded lostComment) =
      some [('\n'.toNat, 2), ('-'.toNat, 2), ('-'.toNat, 2), ('x'.toNat, 2)] := by decide
  refine ⟨hseen, ?_⟩
  have htext : sourceText .stream lostComment =
      [0x23, 0x21, 0x2F, 0x2A, 0x0A, 0x2D, 0x2D, 0x78, 0x20, 0x2A, 0x2F, 0x66] := by decide
  have htrivia : afterTrivia [0x2F, 0x2A, 0x0A, 0x2D, 0x2D, 0x78, 0x20, 0x2A, 0x2F, 0x66] =
    [0x66] := by
    rw [afterTrivia, if_neg (by decide), if_neg (by decide), if_pos (by decide),
      show commentEnd 1 [0x0A, 0x2D, 0x2D, 0x78, 0x20, 0x2A, 0x2F, 0x66] =
        [0x66] by decide, afterTrivia,
      if_neg (by decide)]
  have hline : shebangLine (sourceText .stream lostComment) = [0x23, 0x21, 0x2F, 0x2A] := by
    rw [htext, shebangLine, if_pos (by rw [hasShebang, htrivia]; decide)]
    decide
  intro e
  rw [hseen, visible_eq, hline, htext] at e
  have hlen := congrArg (Option.map List.length) e
  exact absurd hlen (by decide)

end Trustme.Lexing
