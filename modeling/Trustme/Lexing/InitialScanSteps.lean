/-
  Subject:   What each loop of the two initial scans reads.

  * `Stands`: a scan that has read some characters, and those before it: `read_pending`;
  * `classify_stands`: the first token behind `#!`, by its loops over comments;
  * `opening_stands`, `body_stands`: the lines of a frontmatter, by their loops over dashes and
    blanks.
-/
import Trustme.Lexing.InitialScans
import Trustme.Lexing.LeadingText

namespace Trustme.Lexing

open Lexed

/-! ## 1. A scan and its text -/

def lineCount (w : List Codepoint) : Nat := w.count '\n'.toNat

@[simp] theorem lineCount_append (w v : List Codepoint) :
    lineCount (w ++ v) = lineCount w + lineCount v :=
  List.count_append

@[simp] theorem lineCount_singleton (c : Codepoint) : lineCount [c] = newlines c := by
  simp only [lineCount, newlines, List.count_singleton, beq_iff_eq]

/-- A scan that began on a line before the characters `p`, which the lexer held, and `s`, which it
    had to read, has read some of them and stands before the others. -/
structure Stands (base : Lexer) (n : Nat) (p s : List Codepoint) (lx : Lexer) (sc : Scan)
    (t : List Codepoint) : Prop where
  split : sc.consumed ++ t = p ++ s
  before : Before lx (n + lineCount sc.consumed) (p.drop sc.consumed.length)
    (s.drop (sc.consumed.length - p.length))
  same : SameFlags base lx
  eof : sc.eof = true → t = []

/-- Such a scan whose last character is still to be looked at, unless there was none. -/
def Pending (base : Lexer) (n : Nat) (p s : List Codepoint) (lx : Lexer) (sc : Scan)
    (ch : Codepoint) :
    List Codepoint → Prop
  | [] => sc.eof = true ∧ Stands base n p s lx sc []
  | c :: t => sc.eof = false ∧ ch = c ∧ Stands base n p s lx sc t

variable {base lx : Lexer} {n : Nat} {p s : List Codepoint} {sc : Scan} {t u : List Codepoint}
  {ch : Codepoint} {fuel : Nat}

theorem Stands.ahead (h : Stands base n p s lx sc t) :
    p.drop sc.consumed.length ++ s.drop (sc.consumed.length - p.length) = t := by
  rw [← List.drop_append, ← h.split, List.drop_left]

theorem Stands.start (h : Before lx n p s) : Stands lx n p s lx .start (p ++ s) where
  split := rfl
  before := by simpa [Scan.start, lineCount] using h
  same := SameFlags.refl lx
  eof h := by cases h

/-- **Every scan reads the characters in their order.** -/
theorem read_pending (h : Stands base n p s lx sc t) (he : sc.eof = false) :
    ∃ ch sc' lx', (read sc).run lx = (.ok (ch, sc'), lx') ∧ Pending base n p s lx' sc' ch t := by
  have hahead := h.ahead
  rcases hp : p.drop sc.consumed.length with _ | ⟨c, p'⟩
  · have hle : p.length ≤ sc.consumed.length := List.drop_eq_nil_iff.1 hp
    rw [hp, List.nil_append] at hahead
    have hb := h.before
    rw [hp, hahead] at hb
    rcases t with _ | ⟨c, t⟩
    · obtain ⟨lx', hrun, hbefore, hsame, -⟩ := getc_end hb
      refine ⟨0, { sc with eof := true }, lx', ?_,
        ⟨rfl, h.split, ?_, h.same.trans hsame, fun _ => rfl⟩⟩
      · simp only [read, catchEnd]
        rw [run_bind_error hrun]
        rfl
      · rw [hp, hahead]
        exact hbefore
    · obtain ⟨lx', htook⟩ := getc_coming hb
      refine ⟨c, { sc with consumed := sc.consumed ++ [c] }, lx', ?_, he, rfl, ?_⟩
      · simp only [read, catchEnd]
        rw [run_bind htook.run]
        rfl
      · refine ⟨by simpa using h.split, ?_, h.same.trans htook.same,
          fun e => absurd (he.symm.trans e) (by simp)⟩
        have hs : s.drop (sc.consumed.length + 1 - p.length) = t := by
          rw [Nat.succ_sub hle, ← List.tail_drop, hahead, List.tail_cons]
        simp only [lineCount_append, lineCount_singleton, List.length_append,
          List.length_singleton, hs,
          List.drop_eq_nil_of_le (Nat.le_succ_of_le hle), ← Nat.add_assoc]
        exact htook.before
  · have hlt : sc.consumed.length < p.length := by
      by_contra hge
      rw [List.drop_eq_nil_of_le (by omega)] at hp
      cases hp
    have h0 : sc.consumed.length - p.length = 0 := by omega
    have h0' : sc.consumed.length + 1 - p.length = 0 := by omega
    have hb := h.before
    rw [hp, h0, List.drop_zero] at hb
    rw [hp, h0, List.drop_zero, List.cons_append] at hahead
    subst hahead
    obtain ⟨lx', htook⟩ := getc_held hb
    refine ⟨c, { sc with consumed := sc.consumed ++ [c] }, lx', ?_, he, rfl, ?_⟩
    · simp only [read, catchEnd]
      rw [run_bind htook.run]
      rfl
    · refine ⟨by simpa using h.split, ?_, h.same.trans htook.same,
        fun e => absurd (he.symm.trans e) (by simp)⟩
      have hp' : p.drop (sc.consumed.length + 1) = p' := by
        rw [← List.tail_drop, hp, List.tail_cons]
      simp only [lineCount_append, lineCount_singleton, List.length_append,
        List.length_singleton, h0', hp',
        List.drop_zero, ← Nat.add_assoc]
      exact htook.before

theorem Pending.stands (h : Pending base n p s lx sc ch t) : Stands base n p s lx sc t.tail := by
  cases t with
  | nil => exact h.2
  | cons c t => exact h.2.2

/-- What was read between two places. -/
theorem Stands.consumed_eq {lx' : Lexer} {sc' : Scan} {r t' : List Codepoint}
    (h : Stands base n p s lx sc t) (h' : Stands base n p s lx' sc' t') (hr : r ++ t' = t) :
    sc'.consumed = sc.consumed ++ r := by
  have := h'.split.trans h.split.symm
  rw [← hr, ← List.append_assoc] at this
  exact List.append_cancel_right this

/-! ## 2. Lines and runs -/

@[simp] theorem line_nil : line [] = [] := rfl

@[simp] theorem nextLine_nil : nextLine [] = [] := rfl

theorem line_newline (h : ch = '\n'.toNat) : line (ch :: t) = [] := by simp [line, h]

theorem nextLine_newline (h : ch = '\n'.toNat) :
    nextLine (ch :: t) = t := by simp [nextLine, lineEnd, h]

theorem line_cons (h : ch ≠ '\n'.toNat) : line (ch :: t) = ch :: line t := by
  simp only [line, List.takeWhile_cons, h, ne_eq, not_false_eq_true, decide_true, if_true]

theorem nextLine_cons (h : ch ≠ '\n'.toNat) : nextLine (ch :: t) = nextLine t := by
  simp only [nextLine, lineEnd, List.dropWhile_cons, h, ne_eq, not_false_eq_true,
    decide_true, if_true]

@[simp] theorem dashes_nil : dashes [] = 0 := rfl

theorem dashes_dash (h : ch = '-'.toNat) : dashes (ch :: t) = dashes t + 1 := by simp [dashes, h]

theorem dashes_cons (h : ch ≠ '-'.toNat) : dashes (ch :: t) = 0 := by
  simp only [dashes, List.takeWhile_cons, h, decide_false, Bool.false_eq_true, if_false,
    List.length_nil]

theorem dash_ne_newline (h : ch = '-'.toNat) : ch ≠ '\n'.toNat := by
  rw [h]
  decide

/-- The run of dashes at the beginning of a text belongs to its first line. -/
theorem line_drop_dashes :
    ∀ t, dashes (line t) = dashes t ∧ (line t).drop (dashes t) = line (t.drop (dashes t)) ∧
    nextLine (t.drop (dashes t)) = nextLine t
  | [] => by simp
  | c :: t => by
    obtain ⟨ih₁, ih₂, ih₃⟩ := line_drop_dashes t
    by_cases hc : c = '-'.toNat
    · have hn := dash_ne_newline hc
      rw [line_cons hn, nextLine_cons hn, dashes_dash hc, dashes_dash hc, ih₁]
      exact ⟨rfl, ih₂, ih₃⟩
    · rw [dashes_cons hc]
      refine ⟨?_, by simp, by simp⟩
      by_cases hn : c = '\n'.toNat
      · rw [line_newline hn, dashes_nil]
      · rw [line_cons hn, dashes_cons hc]

/-- White space inside a line. -/
def blank (ch : Codepoint) : Bool := ch ≠ '\n'.toNat && isspace ch

theorem blank_iff : blank ch = true ↔ ch ≠ '\n'.toNat ∧ isspace ch = true := by
  simp only [blank, Bool.and_eq_true, decide_eq_true_eq]

theorem isspace_newline (h : ch = '\n'.toNat) : isspace ch = true := by
  rw [h]
  decide

/-- What is skipped inside a line is skipped in its text. -/
theorem dropWhile_line {q q' : Codepoint → Bool} (hn : q '\n'.toNat = false)
    (hq : ∀ c, c ≠ '\n'.toNat → q' c = q c) : ∀ t, (line t).dropWhile q' = line (t.dropWhile q) ∧
    nextLine (t.dropWhile q) = nextLine t
  | [] => by simp
  | c :: t => by
    obtain ⟨ih₁, ih₂⟩ := dropWhile_line hn hq t
    by_cases hc : c = '\n'.toNat
    · rw [List.dropWhile_cons_of_neg (by simp only [hc, hn, Bool.false_eq_true, not_false_eq_true]),
        line_newline hc]
      exact ⟨rfl, rfl⟩
    · by_cases hs : q c = true
      · rw [line_cons hc, nextLine_cons hc, List.dropWhile_cons_of_pos ((hq c hc).trans hs),
          List.dropWhile_cons_of_pos hs]
        exact ⟨ih₁, ih₂⟩
      · rw [line_cons hc, List.dropWhile_cons_of_neg (by rwa [hq c hc]),
          List.dropWhile_cons_of_neg hs,
          line_cons hc]
        exact ⟨rfl, rfl⟩

theorem isspace_eq_blank (c : Codepoint) (h : c ≠ '\n'.toNat) : isspace c = blank c := by
  simp only [blank, h, ne_eq, not_false_eq_true, decide_true, Bool.true_and]

theorem dropWhile_blank (t : List Codepoint) :
    (line t).dropWhile isspace = line (t.dropWhile blank) ∧
    nextLine (t.dropWhile blank) = nextLine t :=
  dropWhile_line (by decide) isspace_eq_blank t

/-- Where something is on the line behind its white space, the white space ends there. -/
theorem dropWhile_blank_eq : ∀ {t : List Codepoint}, line (t.dropWhile blank) ≠ [] →
    t.dropWhile blank = t.dropWhile isspace
  | [], _ => rfl
  | c :: t, h => by
    by_cases hc : c = '\n'.toNat
    · rw [List.dropWhile_cons_of_neg (fun hb => (blank_iff.1 hb).1 hc), line_newline hc] at h
      exact absurd rfl h
    · by_cases hs : blank c = true
      · rw [List.dropWhile_cons_of_pos hs] at h ⊢
        rw [List.dropWhile_cons_of_pos (blank_iff.1 hs).2]
        exact dropWhile_blank_eq h
      · rw [List.dropWhile_cons_of_neg hs, List.dropWhile_cons_of_neg
          (by rwa [isspace_eq_blank c hc])]

theorem all_iff_dropWhile {q : Codepoint → Bool} :
    ∀ l : List Codepoint, l.all q = (l.dropWhile q).isEmpty
  | [] => rfl
  | c :: l => by
    by_cases hc : q c = true
    · rw [List.dropWhile_cons_of_pos hc, List.all_cons, hc, Bool.true_and, all_iff_dropWhile l]
    · rw [List.dropWhile_cons_of_neg hc, List.all_cons, Bool.eq_false_iff.2 hc]
      rfl

/-- Nothing but white space is left of a line, if the white space ends with the line or the text. -/
theorem all_line (t : List Codepoint) :
    (line t).all isspace = (line (t.dropWhile blank)).isEmpty := by
  rw [all_iff_dropWhile, (dropWhile_blank t).1]

/-! ## 3. The frontmatter's loops -/

theorem dashRun_pending :
    ∀ (fuel : Nat) {lx : Lexer} {sc : Scan} {t : List Codepoint} (length : Nat) (ch : Codepoint),
    Stands base n p s lx sc t → sc.eof = false → t.length < fuel →
    ∃ ch' sc' lx', (dashRun fuel length ch sc).run lx = (.ok (length + dashes t, ch', sc'), lx') ∧
      Pending base n p s lx' sc' ch' (t.drop (dashes t))
  | 0, _, _, _, _, _, _, _, hf => absurd hf (Nat.not_lt_zero _)
  | fuel + 1, lx, sc, t, length, ch, h, he, hf => by
    obtain ⟨ch', sc', lx', hrun, hp⟩ := read_pending h he
    rw [dashRun, if_neg (by simp [he]), run_bind hrun]
    rcases t with _ | ⟨c, t⟩
    · exact ⟨ch', sc', lx', by simp [hp.1], hp⟩
    obtain ⟨he', rfl, hs⟩ := hp
    by_cases hd : ch' = '-'.toNat
    · obtain ⟨ch'', sc'', lx'', hrun', hp'⟩ :=
        dashRun_pending fuel (length + 1) ch' hs he' (by simpa using hf)
      refine ⟨ch'', sc'', lx'', ?_, by rwa [dashes_dash hd]⟩
      simp only [he', hd, Bool.false_eq_true, not_false_eq_true, and_self, if_true]
      rw [← hd, hrun', dashes_dash hd, Nat.add_assoc, Nat.add_comm 1]
    · refine ⟨ch', sc', lx', ?_, ?_⟩
      · simp only [hd, and_false, if_false, run_pure, dashes_cons hd, Nat.add_zero]
      · rw [dashes_cons hd]
        exact ⟨he', rfl, hs⟩

theorem blanks_pending :
    ∀ (fuel : Nat) {lx : Lexer} {sc : Scan} {ch : Codepoint} {u : List Codepoint},
    Pending base n p s lx sc ch u → u.length < fuel →
    ∃ ch' sc' lx', (blanks fuel ch sc).run lx = (.ok (ch', sc'), lx') ∧
      Pending base n p s lx' sc' ch' (u.dropWhile blank)
  | 0, _, _, _, _, _, hf => absurd hf (Nat.not_lt_zero _)
  | fuel + 1, lx, sc, ch, u, h, hf => by
    rcases u with _ | ⟨c, u⟩
    · exact ⟨ch, sc, lx, by simp [blanks, h.1], h⟩
    obtain ⟨he, rfl, hs⟩ := h
    by_cases hb : blank ch = true
    · obtain ⟨ch', sc', lx', hrun, hp⟩ := read_pending hs he
      have hb' := blank_iff.1 hb
      obtain ⟨ch'', sc'', lx'', hrun', hp'⟩ := blanks_pending fuel hp (by simpa using hf)
      refine ⟨ch'', sc'', lx'', ?_, by rwa [List.dropWhile_cons_of_pos hb]⟩
      rw [blanks, if_pos ⟨by simp [he], hb'.1, hb'.2⟩, run_bind hrun]
      exact hrun'
    · refine ⟨ch, sc, lx, ?_, ?_⟩
      · rw [blanks, if_neg]
        · rfl
        · rintro ⟨-, h₁, h₂⟩
          exact hb (blank_iff.2 ⟨h₁, h₂⟩)
      · rw [List.dropWhile_cons_of_neg hb]
        exact ⟨he, rfl, hs⟩

theorem label_pending : ∀ (fuel : Nat) {lx : Lexer} {sc : Scan} {t : List Codepoint},
    Stands base n p s lx sc t → sc.eof = false → t.length < fuel →
    ∃ ch' sc' lx', (label fuel sc).run lx = (.ok (ch', sc'), lx') ∧
      Pending base n p s lx' sc' ch' (t.dropWhile labelChar)
  | 0, _, _, _, _, _, hf => absurd hf (Nat.not_lt_zero _)
  | fuel + 1, lx, sc, t, h, he, hf => by
    obtain ⟨ch', sc', lx', hrun, hp⟩ := read_pending h he
    rw [label, run_bind hrun]
    rcases t with _ | ⟨c, t⟩
    · exact ⟨ch', sc', lx', by simp [hp.1], hp⟩
    obtain ⟨he', rfl, hs⟩ := hp
    by_cases hl : labelChar ch' = true
    · obtain ⟨ch'', sc'', lx'', hrun', hp'⟩ := label_pending fuel hs he' (by simpa using hf)
      refine ⟨ch'', sc'', lx'', ?_, by rwa [List.dropWhile_cons_of_pos hl]⟩
      simp only [he', hl, Bool.false_eq_true, not_false_eq_true, and_self, if_true]
      exact hrun'
    · refine ⟨ch', sc', lx', by simp [hl], ?_⟩
      rw [List.dropWhile_cons_of_neg hl]
      exact ⟨he', rfl, hs⟩

/-- Where the opening line is none, reading ended behind the character that is in the way. -/
def openingUnread (u : List Codepoint) : List Codepoint :=
  match u.dropWhile isspace with
  | [] => []
  | c :: v => if labelStart c then ((v.dropWhile labelChar).dropWhile isspace).tail else v

theorem labelled_of_nil {u : List Codepoint} (h : line (u.dropWhile blank) = []) :
    labelled (line u) = true := by
  rw [labelled, (dropWhile_blank u).1, h]

theorem labelled_of_cons {u v : List Codepoint} {c : Codepoint} (h : u.dropWhile blank = c :: v)
    (hc : c ≠ '\n'.toNat) :
    labelled (line u) =
      (labelStart c && (line ((v.dropWhile labelChar).dropWhile blank)).isEmpty) := by
  rw [← all_line, ← (dropWhile_line (q := labelChar) (by decide) (fun _ _ => rfl) v).1, labelled,
    (dropWhile_blank u).1, h, line_cons hc]
  rfl

theorem opening_stands {u : List Codepoint} (h : Pending base n p s lx sc ch u)
    (hf : u.length < fuel) :
    ∃ sc' lx', (opening fuel ch sc).run lx = (.ok (labelled (line u), sc'), lx') ∧
      Stands base n p s lx' sc' (if labelled (line u) then nextLine u else openingUnread u) := by
  obtain ⟨ch₁, sc₁, lx₁, hrun₁, hp₁⟩ := blanks_pending fuel h hf
  rw [opening, run_bind hrun₁, ← (dropWhile_blank u).2]
  rcases hv : u.dropWhile blank with _ | ⟨c, v⟩
  · rw [hv] at hp₁
    refine ⟨sc₁, lx₁, ?_, ?_⟩
    · simp [hp₁.1, labelled_of_nil (u := u) (by rw [hv]; rfl)]
    · rw [if_pos (labelled_of_nil (by rw [hv]; rfl))]
      exact hp₁.2
  rw [hv] at hp₁
  obtain ⟨he₁, rfl, hs₁⟩ := hp₁
  by_cases hn : ch₁ = '\n'.toNat
  · -- the line ends behind its dashes
    have hl : labelled (line u) = true := labelled_of_nil (by rw [hv, line_newline hn])
    refine ⟨sc₁, lx₁, ?_, ?_⟩
    · simp only [hn, ne_eq, not_true_eq_false, and_false, if_false, run_pure, hl]
    · rw [if_pos hl, nextLine_newline hn]
      exact hs₁
  have hne : line (u.dropWhile blank) ≠ [] := by simp [hv, line_cons hn]
  have hunread := dropWhile_blank_eq hne
  rw [hv] at hunread
  have hl := labelled_of_cons hv hn
  simp only [he₁, hn, Bool.false_eq_true, not_false_eq_true, ne_eq, and_self, if_true]
  have hvu : v.length < fuel := by
    have := (List.dropWhile_sublist blank (l := u)).length_le
    rw [hv, List.length_cons] at this
    omega
  by_cases hstart : labelStart ch₁ = true
  · rw [hstart, Bool.true_and] at hl
    obtain ⟨ch₂, sc₂, lx₂, hrun₂, hp₂⟩ := label_pending fuel hs₁ he₁ hvu
    obtain ⟨ch₃, sc₃, lx₃, hrun₃, hp₃⟩ := blanks_pending fuel hp₂
      ((List.dropWhile_sublist labelChar).length_le.trans_lt hvu)
    refine ⟨sc₃, lx₃, ?_, ?_⟩
    · simp only [hstart, not_true_eq_false, if_false]
      rw [run_bind hrun₂]
      dsimp only
      rw [run_bind hrun₃, hl]
      rcases hx : (v.dropWhile labelChar).dropWhile blank with _ | ⟨d, x⟩
      · rw [hx] at hp₃
        simp [hp₃.1]
      · rw [hx] at hp₃
        obtain ⟨he₃, rfl, -⟩ := hp₃
        by_cases hd : ch₃ = '\n'.toNat
        · simp only [he₃, hd, line_newline rfl, decide_true, Bool.or_true, run_pure,
            List.isEmpty_nil]
        · simp only [he₃, hd, line_cons hd, decide_false, Bool.or_self, run_pure, List.isEmpty_cons]
    · rw [hl, nextLine_cons hn, ← (dropWhile_line (q := labelChar) (by decide)
        (fun _ _ => rfl) v).2,
        ← (dropWhile_blank (v.dropWhile labelChar)).2, openingUnread, ← hunread]
      simp only [hstart, if_true]
      have hs₃ := hp₃.stands
      rcases hx : (v.dropWhile labelChar).dropWhile blank with _ | ⟨d, x⟩
      · rw [hx] at hs₃
        simpa using hs₃
      · by_cases hd : d = '\n'.toNat
        · rw [hx] at hs₃
          simpa only [line_newline hd, nextLine_newline hd, List.isEmpty_nil, if_true,
            List.tail_cons] using hs₃
        · rw [← dropWhile_blank_eq (by rw [hx, line_cons hd]; simp), hx]
          rw [hx] at hs₃
          simpa only [line_cons hd, List.isEmpty_cons, Bool.false_eq_true, if_false,
            List.tail_cons] using hs₃
  · rw [Bool.eq_false_iff.2 hstart, Bool.false_and] at hl
    refine ⟨sc₁, lx₁, ?_, ?_⟩
    · simp only [hstart, not_false_eq_true, if_true, run_pure, hl, Bool.false_eq_true]
    · rw [hl, openingUnread, ← hunread]
      simpa [hstart] using hs₁

theorem closing_stands :
    ∀ (fuel : Nat) {lx : Lexer} {sc : Scan} {ch : Codepoint} {u : List Codepoint} (valid : Bool),
    Pending base n p s lx sc ch u → u.length < fuel →
    ∃ sc' lx', (closing fuel valid ch sc).run lx = (.ok (valid && (line u).all isspace, sc'), lx') ∧
      Stands base n p s lx' sc' (nextLine u)
  | 0, _, _, _, _, _, _, hf => absurd hf (Nat.not_lt_zero _)
  | fuel + 1, lx, sc, ch, u, valid, h, hf => by
    rcases u with _ | ⟨c, u⟩
    · exact ⟨sc, lx, by simp [closing, h.1], h.2⟩
    obtain ⟨he, rfl, hs⟩ := h
    by_cases hn : ch = '\n'.toNat
    · refine ⟨sc, lx, ?_, by rwa [nextLine_newline hn]⟩
      rw [closing, if_neg (fun hc => hc.2 hn), line_newline hn]
      simp
    · obtain ⟨ch', sc', lx', hrun, hp⟩ := read_pending hs he
      obtain ⟨sc'', lx'', hrun', hs'⟩ := closing_stands fuel (valid && isspace ch) hp
        (by simpa using hf)
      refine ⟨sc'', lx'', ?_, by rwa [nextLine_cons hn]⟩
      rw [closing, if_pos ⟨by simp [he], hn⟩, run_bind hrun]
      dsimp only
      rw [hrun', line_cons hn, List.all_cons, Bool.and_assoc]

/-- The search for the closing fence from inside a line: with dashes or other characters read
    already, or behind nothing but white space, of which there may have been some. -/
def bodyEnd (k : Nat) (isWhitespace hasWhitespace : Bool) (t : List Codepoint) :
    Bool × List Codepoint :=
  if t = [] then (false, [])
  else if isWhitespace ∧ fenceLike k (line t) then (closes k (line t) && !hasWhitespace, nextLine t)
  else closed k (nextLine t)

theorem bodyEnd_start (k : Nat) (t : List Codepoint) : bodyEnd k true false t = closed k t := by
  rw [closed.eq_def, bodyEnd]
  simp

theorem closed_nil (k : Nat) : closed k [] = (false, []) := by rw [closed, if_pos rfl]

@[simp] theorem bodyEnd_nil (k : Nat) (a b : Bool) : bodyEnd k a b [] = (false, []) := if_pos rfl

theorem bodyEnd_newline {k : Nat} (hk : 0 < k) (a b : Bool) (hn : ch = '\n'.toNat) :
    bodyEnd k a b (ch :: t) = closed k t := by
  rw [bodyEnd, if_neg (by simp), line_newline hn, nextLine_newline hn, if_neg]
  rintro ⟨-, h⟩
  have : k ≤ 0 := by simpa [fenceLike] using h
  omega

theorem bodyEnd_inside {k : Nat} (b : Bool) (t : List Codepoint) :
    bodyEnd k false b t = closed k (nextLine t) := by
  rcases t with _ | ⟨c, t⟩
  · rw [bodyEnd_nil, nextLine_nil, closed_nil]
  · rw [bodyEnd, if_neg (by simp), if_neg (by simp)]

theorem bodyEnd_blank {k : Nat} (hk : 0 < k) (a b : Bool) (hs : blank ch = true) :
    bodyEnd k a b (ch :: t) = bodyEnd k a true t := by
  obtain ⟨hn, hspace⟩ := blank_iff.1 hs
  have hdash : ch ≠ '-'.toNat := by
    intro e
    rw [e] at hspace
    exact absurd hspace (by decide)
  have hcloses : closes k (ch :: line t) = false := by
    have : ¬ 0 = k := by omega
    rw [closes, dashes_cons hdash, decide_eq_false this, Bool.false_and]
  rw [bodyEnd, if_neg (by simp), line_cons hn, nextLine_cons hn, hcloses, fenceLike,
    List.dropWhile_cons_of_pos hspace]
  rcases t with _ | ⟨c, t⟩
  · have : ¬ k ≤ 0 := by omega
    simp [closed_nil, this]
  · simp [bodyEnd, fenceLike]

/-- Behind dashes at the beginning of a line, the line is a closing fence or there is none, if they
    are as many as the opening fence has; else the line is as any other. -/
theorem bodyEnd_dashes {k : Nat} (b : Bool) (hd : ch = '-'.toNat) :
    bodyEnd k true b (ch :: t) =
      if k ≤ 1 + dashes t then
        ((1 + dashes t = k && !b) && (line (t.drop (dashes t))).all isspace,
          nextLine (t.drop (dashes t)))
      else closed k (nextLine (t.drop (dashes t))) := by
  have hn := dash_ne_newline hd
  have hspace : ¬ isspace ch = true := by
    rw [hd]
    decide
  obtain ⟨h₁, h₂, h₃⟩ := line_drop_dashes t
  rw [bodyEnd, if_neg (by simp), line_cons hn, nextLine_cons hn, fenceLike,
    List.dropWhile_cons_of_neg hspace, closes,
    dashes_dash hd, h₁, h₃, Nat.add_comm 1]
  by_cases hk : k ≤ dashes t + 1
  · rw [if_pos hk, if_pos ⟨rfl, by simpa using hk⟩]
    by_cases he : dashes t + 1 = k
    · rw [← he, List.drop_succ_cons, h₂]
      simp [Bool.and_comm]
    · simp [he]
  · rw [if_neg hk, if_neg (fun h => hk (by simpa using h.2))]

theorem body_stands {k : Nat} (hk : 0 < k) :
    ∀ (fuel : Nat) {lx : Lexer} {sc : Scan} {t : List Codepoint} (a b : Bool),
    Stands base n p s lx sc t → t.length < fuel →
    ∃ sc' lx', (body k fuel a b sc).run lx = (.ok ((bodyEnd k a b t).1, sc'), lx') ∧
      Stands base n p s lx' sc' (bodyEnd k a b t).2
  | 0, _, _, _, _, _, _, hf => absurd hf (Nat.not_lt_zero _)
  | fuel + 1, lx, sc, t, a, b, h, hf => by
    rw [body]
    by_cases he : sc.eof = true
    · obtain rfl := h.eof he
      exact ⟨sc, lx, by simp [he], by simpa using h⟩
    have he : sc.eof = false := Bool.eq_false_iff.2 he
    obtain ⟨c, sc₁, lx₁, hrun, hp⟩ := read_pending h he
    rw [if_neg (by simp [he]), run_bind hrun]
    rcases t with _ | ⟨c', t⟩
    · exact ⟨sc₁, lx₁, by simp [hp.1], by simpa using hp.2⟩
    obtain ⟨he₁, rfl, hs⟩ := hp
    have hf' : t.length < fuel := by simpa using hf
    simp only [he₁, Bool.false_eq_true, if_false]
    by_cases hn : c = '\n'.toNat
    · obtain ⟨sc₂, lx₂, hrun₂, hs₂⟩ := body_stands hk fuel true false hs hf'
      rw [bodyEnd_start] at hrun₂ hs₂
      rw [if_pos hn, bodyEnd_newline hk a b hn]
      exact ⟨sc₂, lx₂, hrun₂, hs₂⟩
    rw [if_neg hn]
    by_cases hspace : isspace c = true
    · rw [if_pos hspace, bodyEnd_blank hk a b (blank_iff.2 ⟨hn, hspace⟩)]
      exact body_stands hk fuel a true hs hf'
    rw [if_neg hspace]
    by_cases hother : c ≠ '-'.toNat ∨ ¬ a = true
    · -- the line is no fence
      obtain ⟨sc₂, lx₂, hrun₂, hs₂⟩ := body_stands hk fuel false b hs hf'
      rw [bodyEnd_inside] at hrun₂ hs₂
      have hmid : bodyEnd k a b (c :: t) = closed k (nextLine t) := by
        rw [bodyEnd, if_neg (by simp), if_neg, nextLine_cons hn]
        rintro ⟨ha, hlike⟩
        rcases hother with hc | hc
        · rw [line_cons hn, fenceLike, List.dropWhile_cons_of_neg hspace, dashes_cons hc] at hlike
          exact absurd hk (by simpa using hlike)
        · exact hc ha
      rw [if_pos hother, hmid]
      exact ⟨sc₂, lx₂, hrun₂, hs₂⟩
    obtain ⟨hd, rfl⟩ : c = '-'.toNat ∧ a = true := by
      constructor
      · by_contra hd
        exact hother (.inl hd)
      · by_contra ha
        exact hother (.inr ha)
    obtain ⟨ch₂, sc₂, lx₂, hrun₂, hp₂⟩ := dashRun_pending fuel 1 c hs he₁ hf'
    have hlen : (t.drop (dashes t)).length < fuel := by
      rw [List.length_drop]
      omega
    rw [if_neg hother, run_bind hrun₂, bodyEnd_dashes b hd]
    dsimp only
    by_cases hle : k ≤ 1 + dashes t
    · rw [if_pos hle, if_pos hle]
      exact closing_stands fuel _ hp₂ hlen
    rw [if_neg hle, if_neg hle]
    rcases hu : t.drop (dashes t) with _ | ⟨d, u⟩
    · rw [hu] at hp₂
      obtain ⟨sc₃, lx₃, hrun₃, hs₃⟩ := body_stands hk fuel false b hp₂.2 (by simp; omega)
      refine ⟨sc₃, lx₃, ?_, ?_⟩
      · simp only [hp₂.1, not_true_eq_false, false_and, if_false]
        rw [hrun₃, bodyEnd_nil, nextLine_nil, closed_nil]
      · rwa [bodyEnd_nil, ← closed_nil k, ← nextLine_nil] at hs₃
    · rw [hu] at hp₂ hlen
      obtain ⟨he₂, rfl, hs₂⟩ := hp₂
      rw [List.length_cons] at hlen
      by_cases hd' : ch₂ = '\n'.toNat
      · obtain ⟨sc₃, lx₃, hrun₃, hs₃⟩ := body_stands hk fuel true false hs₂ (by omega)
        rw [bodyEnd_start] at hrun₃ hs₃
        rw [if_pos ⟨by simp [he₂], hd'⟩, nextLine_newline hd']
        exact ⟨sc₃, lx₃, hrun₃, hs₃⟩
      · obtain ⟨sc₃, lx₃, hrun₃, hs₃⟩ := body_stands hk fuel false b hs₂ (by omega)
        rw [bodyEnd_inside] at hrun₃ hs₃
        rw [if_neg (fun h => hd' h.2), nextLine_cons hd']
        exact ⟨sc₃, lx₃, hrun₃, hs₃⟩

/-! ## 4. The shebang's loops -/

theorem lineComment_stands :
    ∀ (fuel : Nat) {lx : Lexer} {sc : Scan} {t : List Codepoint} (last : Codepoint),
    Stands base n p s lx sc t → sc.consumed.getLast? = some last → t.length < fuel →
    ∃ sc' lx', (lineComment fuel sc).run lx = (.ok sc', lx') ∧
      Stands base n p s lx' sc' (nextLine (last :: t))
  | 0, _, _, _, _, _, _, hf => absurd hf (Nat.not_lt_zero _)
  | fuel + 1, lx, sc, t, last, h, hlast, hf => by
    rw [lineComment]
    by_cases he : sc.eof = true
    · obtain rfl := h.eof he
      refine ⟨sc, lx, by simp [he], ?_⟩
      by_cases hn : last = '\n'.toNat
      · rwa [nextLine_newline hn]
      · rwa [nextLine_cons hn, nextLine_nil]
    have he : sc.eof = false := Bool.eq_false_iff.2 he
    by_cases hn : last = '\n'.toNat
    · rw [nextLine_newline hn, if_neg (fun hc => hc.2 (by rw [hlast, hn]))]
      exact ⟨sc, lx, rfl, h⟩
    · obtain ⟨c, sc₁, lx₁, hrun, hp⟩ := read_pending h he
      rw [if_pos ⟨by simp [he], by rw [hlast]; exact fun e => hn (Option.some.inj e)⟩,
        run_bind hrun, nextLine_cons hn]
      rcases t with _ | ⟨c', t⟩
      · refine ⟨sc₁, lx₁, ?_, hp.2⟩
        cases fuel with
        | zero => rfl
        | succ fuel => simp [lineComment, hp.1]
      · obtain ⟨-, rfl, hs⟩ := hp
        have hcons := h.consumed_eq (r := [c]) hs rfl
        obtain ⟨sc₂, lx₂, hrun₂, hs₂⟩ := lineComment_stands fuel c hs (by simp [hcons])
          (by simpa using hf)
        exact ⟨sc₂, lx₂, hrun₂, hs₂⟩

/-- A character that neither opens nor closes changes nothing. -/
theorem commentEnd_skip (depth : Nat) (hslash : ch ≠ '/'.toNat) (hstar : ch ≠ '*'.toNat) :
    commentEnd depth (ch :: t) = commentEnd depth t := by
  cases t with
  | nil => rw [commentEnd, commentEnd] <;> simp
  | cons c t => rw [commentEnd, if_neg (fun h => hslash h.1), if_neg (fun h => hstar h.1)]

theorem commentEnd_zero (depth : Nat) (t : List Codepoint) :
    commentEnd depth (0 :: t) = commentEnd depth t :=
  commentEnd_skip depth (by decide) (by decide)

theorem blockComment_closed (fuel : Nat) (previous : Codepoint) (index : Nat) (sc : Scan) :
    (blockComment fuel 0 previous index sc).run lx = (.ok sc, lx) := by
  cases fuel <;> simp [blockComment]

/-- The loop at the end of what was read: `previous` is the character whose meaning is still
    open. -/
theorem blockComment_stands :
    ∀ (fuel : Nat) {lx : Lexer} {sc : Scan} {t : List Codepoint} (depth : Nat)
    (previous : Codepoint), Stands base n p s lx sc t → 0 < depth → t.length < fuel →
    ∃ sc' lx', (blockComment fuel depth previous sc.consumed.length sc).run lx = (.ok sc', lx') ∧
      Stands base n p s lx' sc' (commentEnd depth (previous :: t))
  | 0, _, _, _, _, _, _, _, hf => absurd hf (Nat.not_lt_zero _)
  | fuel + 1, lx, sc, t, depth, previous, h, hd, hf => by
    rw [blockComment]
    by_cases he : sc.eof = true
    · obtain rfl := h.eof he
      exact ⟨sc, lx, by simp [he], by simpa [commentEnd] using h⟩
    have he : sc.eof = false := Bool.eq_false_iff.2 he
    obtain ⟨c, sc₁, lx₁, hrun, hp⟩ := read_pending h he
    have hchar : (commentChar sc.consumed.length sc).run lx =
      (.ok (c, sc₁.consumed.length, sc₁), lx₁) := by
      rw [commentChar, List.getElem?_eq_none (Nat.le_refl _)]
      dsimp only
      rw [run_bind hrun]
      rfl
    rw [if_pos ⟨hd, by simp [he]⟩, run_bind hchar]
    dsimp only
    rcases t with _ | ⟨c', t⟩
    · exact ⟨sc₁, lx₁, by simp [hp.1], by simpa [commentEnd] using hp.2⟩
    obtain ⟨he₁, rfl, hs⟩ := hp
    have hf' : t.length < fuel := by simpa using hf
    rw [if_neg (by simp [he₁]), commentEnd]
    by_cases hopen : previous = '/'.toNat ∧ c = '*'.toNat
    · rw [if_pos hopen, if_pos hopen, ← commentEnd_zero]
      exact blockComment_stands fuel (depth + 1) 0 hs (Nat.succ_pos _) hf'
    rw [if_neg hopen, if_neg hopen]
    by_cases hclose : previous = '*'.toNat ∧ c = '/'.toNat
    · rw [if_pos hclose, if_pos hclose]
      by_cases h1 : depth = 1
      · subst h1
        exact ⟨sc₁, lx₁, blockComment_closed fuel 0 _ sc₁, by simpa using hs⟩
      · rw [if_neg h1, ← commentEnd_zero]
        exact blockComment_stands fuel (depth - 1) 0 hs (by omega) hf'
    · rw [if_neg hclose, if_neg hclose]
      exact blockComment_stands fuel depth c hs hd hf'

/-- What a test for a doc comment leaves of the text behind the comment's opening. -/
def docUnread (isLine : Bool) : List Codepoint → List Codepoint
  | [] => []
  | c :: t =>
    if c ≠ '!'.toNat ∧ ((isLine ∧ c = '/'.toNat) ∨ (¬ isLine ∧ c = '*'.toNat)) then t.tail else t

theorem docComment_stands (isLine : Bool) (h : Stands base n p s lx sc t) (he : sc.eof = false) :
    ∃ sc' lx', (docComment isLine sc).run lx =
      (.ok (if isLine then lineDoc t else blockDoc t, sc'), lx') ∧
      Stands base n p s lx' sc' (docUnread isLine t) := by
  obtain ⟨c, sc₁, lx₁, hrun, hp⟩ := read_pending h he
  rw [docComment, run_bind hrun]
  dsimp only
  rcases t with _ | ⟨c', t⟩
  · exact ⟨sc₁, lx₁, by simp [hp.1, lineDoc, blockDoc], hp.2⟩
  obtain ⟨he₁, rfl, hs⟩ := hp
  rw [if_neg (by simp [he₁]), docUnread]
  by_cases hbang : c = '!'.toNat
  · refine ⟨sc₁, lx₁, ?_, by rwa [if_neg (fun hc => hc.1 hbang)]⟩
    rw [if_pos hbang]
    cases isLine <;> simp [lineDoc, blockDoc, hbang]
  rw [if_neg hbang]
  obtain ⟨d, sc₂, lx₂, hrun₂, hp₂⟩ := read_pending hs he₁
  by_cases hfourth : (isLine = true ∧ c = '/'.toNat) ∨ (¬ isLine = true ∧ c = '*'.toNat)
  · -- a fourth character decides
    refine ⟨sc₂, lx₂, ?_, by rw [if_pos ⟨hbang, hfourth⟩]; exact hp₂.stands⟩
    rcases hfourth with ⟨hl, hc⟩ | ⟨hl, hc⟩
    · rw [if_pos ⟨hl, hc⟩, run_bind hrun₂]
      rcases t with _ | ⟨d', t⟩
      · simp [hp₂.1, hl, lineDoc, hc]
      · obtain ⟨he₂, rfl, -⟩ := hp₂
        simp [he₂, hl, lineDoc, hc]
    · rw [if_neg (fun hc' => hl hc'.1), if_pos ⟨hl, hc⟩, run_bind hrun₂]
      rcases t with _ | ⟨d', t⟩
      · simp [hp₂.1, hl, blockDoc, hc]
      · obtain ⟨he₂, rfl, -⟩ := hp₂
        simp [he₂, hl, blockDoc, hc]
  · refine ⟨sc₁, lx₁, ?_, by rwa [if_neg (fun hc => hfourth hc.2)]⟩
    rw [if_neg (fun hc => hfourth (.inl hc)), if_neg (fun hc => hfourth (.inr hc))]
    cases isLine with
    | true =>
      have hc : c ≠ '/'.toNat := fun hc => hfourth (.inl ⟨rfl, hc⟩)
      simp only [if_true, run_pure, lineDoc, hbang, hc, decide_false, Bool.false_and, Bool.or_self]
    | false =>
      have hc : c ≠ '*'.toNat := fun hc => hfourth (.inr ⟨by simp, hc⟩)
      simp only [Bool.false_eq_true, if_false, run_pure, blockDoc, hbang, hc, decide_false,
        Bool.false_and,
        Bool.or_self]

/-- One round of the loop over a character that the test for a doc comment has read. -/
theorem blockComment_old {index depth : Nat} {previous c : Codepoint} (he : sc.eof = false)
    (hd : 0 < depth)
    (hc : sc.consumed[index]? = some c) (hopen : ¬ (previous = '/'.toNat ∧ c = '*'.toNat))
    (hclose : ¬ (previous = '*'.toNat ∧ c = '/'.toNat)) :
    (blockComment (fuel + 1) depth previous index sc).run lx =
      (blockComment fuel depth c (index + 1) sc).run lx := by
  have hchar : (commentChar index sc).run lx = (.ok (c, index + 1, sc), lx) := by
    rw [commentChar, hc]
    rfl
  rw [blockComment, if_pos ⟨hd, by simp [he]⟩, run_bind hchar]
  dsimp only
  rw [if_neg (by simp [he]), if_neg hopen, if_neg hclose]

/-- The whole comment: the loop begins again behind its opening, in the one or two characters `r`
    that the test for a doc comment has read. -/
theorem blockComment_opened {w r : List Codepoint} (h : Stands base n p s lx sc t)
    (hw : sc.consumed = w ++ r)
    (hr : r.length ≤ 1 ∨ ∃ d, r = ['*'.toNat, d] ∧ (d = '*'.toNat ∨ d = '/'.toNat))
    (hf : (r ++ t).length < fuel) :
    ∃ sc' lx', (blockComment fuel 1 0 w.length sc).run lx = (.ok sc', lx') ∧
      Stands base n p s lx' sc' (commentEnd 1 (r ++ t)) := by
  rcases fuel with _ | fuel
  · exact absurd hf (Nat.not_lt_zero _)
  by_cases he : sc.eof = true
  · obtain rfl := h.eof he
    refine ⟨sc, lx, by simp [blockComment, he], ?_⟩
    have : commentEnd 1 (r ++ []) = [] := by
      rcases hr with hr | ⟨d, rfl, rfl | rfl⟩
      · rcases r with _ | ⟨c, _ | ⟨c', r⟩⟩
        · rfl
        · rfl
        · simp at hr
      · decide
      · decide
    rwa [this]
  have he : sc.eof = false := Bool.eq_false_iff.2 he
  rcases hr with hr | ⟨d, rfl, hd⟩
  · rcases r with _ | ⟨c, _ | ⟨c', r⟩⟩
    · rw [List.append_nil] at hw
      rw [List.nil_append, ← commentEnd_zero, ← hw]
      exact blockComment_stands (fuel + 1) 1 0 h (by decide) hf
    · have hlen : w.length + 1 = sc.consumed.length := by simp [hw]
      have hfirst : sc.consumed[w.length]? = some c := by
        rw [hw]
        simp
      rw [blockComment_old he (by decide) hfirst (by simp) (by simp), hlen]
      exact blockComment_stands fuel 1 c h (by decide) (by simpa using hf)
    · simp at hr
  · rcases fuel with _ | fuel
    · simp at hf
    have hlen : w.length + 1 + 1 = sc.consumed.length := by simp [hw]
    have hfirst : sc.consumed[w.length]? = some '*'.toNat := by
      rw [hw]
      simp
    rw [blockComment_old he (by decide) hfirst (by simp) (by simp)]
    have hsecond : sc.consumed[w.length + 1]? = some d := by
      rw [hw]
      simp
    rcases hd with rfl | rfl
    · have hskip : commentEnd 1 (['*'.toNat, '*'.toNat] ++ t) = commentEnd 1 ('*'.toNat :: t) := by
        simp [commentEnd]
      rw [blockComment_old he (by decide) hsecond (by simp) (by simp), hlen, hskip]
      exact blockComment_stands fuel 1 _ h (by decide) (by simp at hf; omega)
    · -- the comment ends where the test did
      have hchar : (commentChar (w.length + 1) sc).run lx =
        (.ok ('/'.toNat, w.length + 1 + 1, sc), lx) := by
        rw [commentChar, hsecond]
        rfl
      refine ⟨sc, lx, ?_, by simpa [commentEnd] using h⟩
      rw [blockComment, if_pos ⟨by decide, by simp [he]⟩, run_bind hchar]
      dsimp only
      rw [if_neg (by simp [he]), if_neg (by simp), if_pos ⟨rfl, rfl⟩]
      exact blockComment_closed fuel 0 _ sc

theorem afterTrivia_space (h : isspace ch = true) : afterTrivia (ch :: t) = afterTrivia t := by
  cases t with
  | nil => simp [afterTrivia, h]
  | cons d t => rw [afterTrivia, if_pos h]

theorem afterTrivia_other (hs : ¬ isspace ch = true) (h : ch ≠ '/'.toNat) :
    afterTrivia (ch :: t) = ch :: t := by
  cases t with
  | nil => simp [afterTrivia, hs]
  | cons d t => rw [afterTrivia, if_neg hs, if_neg (fun hc => h hc.1), if_neg (fun hc => h hc.1)]

theorem afterTrivia_lineEnd (t : List Codepoint) :
    afterTrivia (lineEnd t) = afterTrivia (nextLine t) := by
  rcases h : lineEnd t with _ | ⟨c, u⟩
  · rw [nextLine, h]
    rfl
  · have hc : c = '\n'.toNat := by
      have := List.head?_dropWhile_not (fun c => decide (c ≠ '\n'.toNat)) t
      rw [lineEnd] at h
      rw [h] at this
      by_contra hc
      simp only [List.head?_cons, hc, ne_eq, not_false_eq_true, decide_true] at this
      cases this
    rw [nextLine, h, afterTrivia_space (isspace_newline hc), List.tail_cons]

theorem unreadBehind_other (h : ch ≠ '/'.toNat) : unreadBehind (ch :: t) = t := by
  rcases t with _ | ⟨b, _ | ⟨c, t⟩⟩
  · rfl
  · rw [unreadBehind, if_neg h]
  · rw [unreadBehind, if_neg h]

/-- What was read to see that a comment is no line doc comment, and the rest of its line. -/
theorem lineDoc_read (h : lineDoc t = false) : ∃ r last, r ++ docUnread true t = t ∧
    ('/'.toNat :: r).getLast? = some last ∧ nextLine (last :: docUnread true t) = nextLine t := by
  have hslash : '/'.toNat ≠ '\n'.toNat := by decide
  rcases t with _ | ⟨e, t⟩
  · exact ⟨[], _, rfl, rfl, nextLine_cons hslash⟩
  simp only [lineDoc, Bool.or_eq_false_iff, Bool.and_eq_false_iff, decide_eq_false_iff_not,
    not_not] at h
  obtain ⟨hbang, h⟩ := h
  by_cases he : e = '/'.toNat
  · obtain ⟨t, rfl⟩ : ∃ t', t = '/'.toNat :: t' := by
      rcases h with h | h
      · exact absurd he h
      · exact ⟨t.tail, (List.cons_head?_tail h).symm⟩
    refine ⟨['/'.toNat, '/'.toNat], '/'.toNat, ?_, rfl, ?_⟩
    · rw [docUnread, if_pos ⟨hbang, .inl ⟨rfl, he⟩⟩, he]
      rfl
    · rw [docUnread, if_pos ⟨hbang, .inl ⟨rfl, he⟩⟩, List.tail_cons, nextLine_cons hslash,
        nextLine_cons (by rw [he]; exact hslash), nextLine_cons hslash]
  · have hu : docUnread true (e :: t) = t := by
      rw [docUnread, if_neg]
      rintro ⟨-, ⟨-, hc⟩ | ⟨hc, -⟩⟩
      · exact he hc
      · exact hc rfl
    exact ⟨[e], e, by rw [hu]; rfl, rfl, by rw [hu]⟩

theorem blockDoc_read (h : blockDoc t = false) : ∃ r, r ++ docUnread false t = t ∧
    (r.length ≤ 1 ∨ ∃ d, r = ['*'.toNat, d] ∧ (d = '*'.toNat ∨ d = '/'.toNat)) := by
  rcases t with _ | ⟨e, t⟩
  · exact ⟨[], rfl, .inl (by simp)⟩
  simp only [blockDoc, Bool.or_eq_false_iff, Bool.and_eq_false_iff, decide_eq_false_iff_not,
    not_not] at h
  obtain ⟨hbang, h⟩ := h
  by_cases he : e = '*'.toNat
  · obtain ⟨d, hd, t, rfl⟩ : ∃ d, (d = '*'.toNat ∨ d = '/'.toNat) ∧ ∃ t', t = d :: t' := by
      rcases h with (h | h) | h
      · exact absurd he h
      · exact ⟨_, .inl rfl, t.tail, (List.cons_head?_tail h).symm⟩
      · exact ⟨_, .inr rfl, t.tail, (List.cons_head?_tail h).symm⟩
    refine ⟨['*'.toNat, d], ?_, .inr ⟨d, rfl, hd⟩⟩
    rw [docUnread, if_pos ⟨hbang, .inr ⟨by simp, he⟩⟩, he]
    rfl
  · have hu : docUnread false (e :: t) = t := by
      rw [docUnread, if_neg]
      rintro ⟨-, ⟨hc, -⟩ | ⟨-, hc⟩⟩
      · cases hc
      · exact he hc
    exact ⟨[e], by rw [hu]; rfl, .inl (by simp)⟩

/-- Where there is a doc comment, the test for it is the last that is read. -/
theorem unreadBehind_doc {c d : Codepoint} {isLine : Bool} (hc : c = '/'.toNat)
    (hd : d = if isLine then '/'.toNat else '*'.toNat)
      (h : (if isLine then lineDoc t else blockDoc t) = true) :
    unreadBehind (c :: d :: t) = docUnread isLine t := by
  rcases t with _ | ⟨e, t⟩
  · cases isLine <;> cases h
  have hd' : d = '/'.toNat ∨ d = '*'.toNat := by
    cases isLine
    · exact .inr hd
    · exact .inl hd
  rw [unreadBehind, if_pos hc, if_pos hd', docUnread]
  by_cases hbang : e = '!'.toNat
  · rw [if_pos hbang, if_neg (fun h => h.1 hbang)]
  · rw [if_neg hbang, if_pos]
    refine ⟨hbang, ?_⟩
    cases isLine with
    | true =>
      simp only [if_true, lineDoc, hbang, decide_false, Bool.false_or, Bool.and_eq_true,
        decide_eq_true_eq] at h
      exact .inl ⟨rfl, h.1⟩
    | false =>
      simp only [Bool.false_eq_true, if_false, blockDoc, hbang, decide_false, Bool.false_or,
        Bool.and_eq_true,
        decide_eq_true_eq] at h
      exact .inr ⟨by simp, h.1.1⟩

/-- What the first token of a text behind `#!` says. -/
def classified (t : List Codepoint) : Classification :=
  if (afterTrivia t).head? = some '['.toNat then .innerAttribute else .shebang

section Slash

variable {c d : Codepoint} (hc : c = '/'.toNat)

include hc

theorem classified_slash (hv : afterTrivia (c :: t) = c :: t) : classified (c :: t) = .shebang := by
  rw [classified, hv, if_neg (by rw [hc]; simp)]

theorem afterTrivia_slash (hd : d ≠ '/'.toNat ∧ d ≠ '*'.toNat) :
    afterTrivia (c :: d :: t) = c :: d :: t := by
  rw [afterTrivia, if_neg (by rw [hc]; decide), if_neg (fun h => hd.1 h.2.1),
    if_neg (fun h => hd.2 h.2.1)]

theorem unreadBehind_slash (hd : d ≠ '/'.toNat ∧ d ≠ '*'.toNat) :
    unreadBehind (c :: d :: t) = t := by
  rcases t with _ | ⟨e, t⟩
  · rw [unreadBehind, if_pos hc]
  · rw [unreadBehind, if_pos hc, if_neg (fun h => h.elim hd.1 hd.2)]

theorem doc_stops {isLine : Bool} (hd : d = if isLine then '/'.toNat else '*'.toNat)
    (h : (if isLine then lineDoc t else blockDoc t) = true) :
    classified (c :: d :: t) = .shebang ∧
      unreadBehind (afterTrivia (c :: d :: t)) = docUnread isLine t := by
  have hv : afterTrivia (c :: d :: t) = c :: d :: t := by
    rw [afterTrivia, if_neg (by rw [hc]; decide)]
    cases isLine with
    | true =>
      obtain rfl : d = '/'.toNat := hd
      rw [if_neg (fun hn => hn.2.2 h), if_neg (fun hn => absurd hn.2.1 (by decide))]
    | false =>
      obtain rfl : d = '*'.toNat := hd
      rw [if_neg (fun hn => absurd hn.2.1 (by decide)), if_neg (fun hn => hn.2.2 h)]
  exact ⟨classified_slash hc hv, by rw [hv, unreadBehind_doc hc hd h]⟩

theorem afterTrivia_line (hd : d = '/'.toNat) (h : ¬ lineDoc t = true) :
    afterTrivia (c :: d :: t) = afterTrivia (nextLine t) := by
  rw [afterTrivia, if_neg (by rw [hc]; decide), if_pos ⟨hc, hd, h⟩, afterTrivia_lineEnd]

theorem afterTrivia_block (hd : d = '*'.toNat) (h : ¬ blockDoc t = true) :
    afterTrivia (c :: d :: t) = afterTrivia (commentEnd 1 t) := by
  rw [afterTrivia, if_neg (by rw [hc]; decide),
    if_neg (fun hn => absurd (hd.symm.trans hn.2.1) (by decide)), if_pos ⟨hc, hd, h⟩]

end Slash

/-- A comment that is no doc comment is read to the end of its line. -/
theorem lineComment_plain {fuel : Nat} {lx' : Lexer} {sc' : Scan} (h : Stands base n p s lx sc t)
    (h' : Stands base n p s lx' sc' (docUnread true t))
      (hlast : sc.consumed.getLast? = some '/'.toNat)
    (hdoc : ¬ lineDoc t = true) (hf : t.length < fuel) : ∃ sc₁ lx₁,
      (lineComment fuel sc').run lx' = (.ok sc₁, lx₁) ∧ Stands base n p s lx₁ sc₁ (nextLine t) := by
  obtain ⟨r, last, hr, hlast', hnext⟩ := lineDoc_read (Bool.eq_false_iff.2 hdoc)
  obtain ⟨w, hw⟩ := List.getLast?_eq_some_iff.1 hlast
  have hread : sc'.consumed.getLast? = some last := by
    rw [h.consumed_eq h' hr, hw, List.append_assoc, List.singleton_append,
      List.getLast?_append, hlast']
    rfl
  have hlen : (docUnread true t).length ≤ t.length := by
    have := congrArg List.length hr
    rw [List.length_append] at this
    omega
  rw [← hnext]
  exact lineComment_stands fuel last h' hread (by omega)

/-- A comment that is no doc comment is read to its end. -/
theorem blockComment_plain {fuel : Nat} {lx' : Lexer} {sc' : Scan} (h : Stands base n p s lx sc t)
    (h' : Stands base n p s lx' sc' (docUnread false t)) (hdoc : ¬ blockDoc t = true)
    (hf : t.length < fuel) : ∃ sc₁ lx₁,
      (blockComment fuel 1 0 sc.consumed.length sc').run lx' = (.ok sc₁, lx₁) ∧
        Stands base n p s lx₁ sc₁ (commentEnd 1 t) := by
  obtain ⟨r, hr, hr'⟩ := blockDoc_read (Bool.eq_false_iff.2 hdoc)
  obtain ⟨sc₁, lx₁, hrun, hs⟩ := blockComment_opened h' (h.consumed_eq h' hr) hr' (by rwa [hr])
  rw [hr] at hs
  exact ⟨sc₁, lx₁, hrun, hs⟩

/-- **The loop knows the first token behind `#!`**, and reads no further than it takes. -/
theorem classify_stands : ∀ (fuel : Nat) {lx : Lexer} {sc : Scan} {t : List Codepoint},
    Stands base n p s lx sc t → t.length < fuel →
    ∃ sc' lx', (classify fuel sc).run lx = (.ok (classified t, sc'), lx') ∧
      Stands base n p s lx' sc' (unreadBehind (afterTrivia t))
  | 0, _, _, _, _, hf => absurd hf (Nat.not_lt_zero _)
  | fuel + 1, lx, sc, t, h, hf => by
    rw [classify]
    by_cases he : sc.eof = true
    · obtain rfl := h.eof he
      exact ⟨sc,
        lx, by simp [he, classified, afterTrivia], by simpa [afterTrivia, unreadBehind] using h⟩
    have he : sc.eof = false := Bool.eq_false_iff.2 he
    obtain ⟨c, sc₁, lx₁, hrun, hp⟩ := read_pending h he
    rw [if_neg (by simp [he]), run_bind hrun]
    dsimp only
    rcases t with _ | ⟨c', t⟩
    · exact ⟨sc₁, lx₁, by simp [hp.1, classified, afterTrivia],
        by simpa [afterTrivia, unreadBehind] using hp.2⟩
    obtain ⟨he₁, rfl, hs₁⟩ := hp
    have hf' : t.length < fuel := by simpa using hf
    rw [if_neg (by simp [he₁])]
    by_cases hspace : isspace c = true
    · rw [if_pos hspace, classified, afterTrivia_space hspace]
      exact classify_stands fuel hs₁ hf'
    rw [if_neg hspace]
    by_cases hslash : c ≠ '/'.toNat
    · refine ⟨sc₁, lx₁, ?_, by rwa [afterTrivia_other hspace hslash, unreadBehind_other hslash]⟩
      rw [classified, afterTrivia_other hspace hslash]
      by_cases hopen : c = '['.toNat
      · simp [hopen]
      · have hhead : (c :: t).head? ≠ some '['.toNat := fun e => hopen (Option.some.inj e)
        rw [if_neg hopen, if_pos hslash, if_neg hhead]
        rfl
    have hslash : c = '/'.toNat := not_not.1 hslash
    rw [if_neg (by rw [hslash]; decide), if_neg (by simp [hslash])]
    obtain ⟨d, sc₂, lx₂, hrun₂, hp₂⟩ := read_pending hs₁ he₁
    rw [run_bind hrun₂]
    dsimp only
    rcases t with _ | ⟨d', t⟩
    · have hv : afterTrivia [c] = [c] := by simp [afterTrivia, hspace]
      rw [classified_slash hslash hv, if_pos (.inl hp₂.1), hv]
      exact ⟨sc₂, lx₂, rfl, hp₂.2⟩
    obtain ⟨he₂, rfl, hs₂⟩ := hp₂
    have hf'' : t.length < fuel := by simp at hf'; omega
    by_cases hother : d ≠ '/'.toNat ∧ d ≠ '*'.toNat
    · -- a slash by itself
      have hv := afterTrivia_slash (t := t) hslash hother
      rw [classified_slash hslash hv, if_pos (.inr hother), hv, unreadBehind_slash hslash hother]
      exact ⟨sc₂, lx₂, rfl, hs₂⟩
    obtain ⟨sc₃, lx₃, hrun₃, hs₃⟩ := docComment_stands (decide (d = '/'.toNat)) hs₂ he₂
    rw [if_neg (by rintro (e | e); exacts [by simp [he₂] at e, hother e]), run_bind hrun₃]
    dsimp only
    have hcons₁ := h.consumed_eq (r := [c]) hs₁ rfl
    have hcons₂ := hs₁.consumed_eq (r := [d]) hs₂ rfl
    by_cases hline : d = '/'.toNat
    · simp only [hline, decide_true, if_true] at hs₃ hrun₃ hcons₂ ⊢
      by_cases hdoc : lineDoc t = true
      · obtain ⟨hstop, hunread⟩ : classified (c :: '/'.toNat :: t) = .shebang ∧
            unreadBehind (afterTrivia (c :: '/'.toNat :: t)) = docUnread true t :=
          doc_stops hslash rfl hdoc
        rw [if_pos hdoc, hstop, hunread]
        exact ⟨sc₃, lx₃, rfl, hs₃⟩
      · obtain ⟨sc₄, lx₄, hrun₄, hs₄⟩ := lineComment_plain hs₂ hs₃ (by simp [hcons₂]) hdoc hf''
        have hlen : (nextLine t).length ≤ t.length := by
          rw [nextLine, List.length_tail]
          have := lineEnd_length_le t
          omega
        rw [if_neg hdoc, run_bind hrun₄, classified, afterTrivia_line hslash rfl hdoc]
        exact classify_stands fuel hs₄ (hlen.trans_lt hf'')
    · have hstar : d = '*'.toNat := by
        by_contra hstar
        exact hother ⟨hline, hstar⟩
      simp only [hline, decide_false, Bool.false_eq_true, if_false] at hs₃ hrun₃ ⊢
      by_cases hdoc : blockDoc t = true
      · obtain ⟨hstop, hunread⟩ : classified (c :: d :: t) = .shebang ∧
            unreadBehind (afterTrivia (c :: d :: t)) = docUnread false t :=
          doc_stops hslash hstar hdoc
        rw [if_pos hdoc, hstop, hunread]
        exact ⟨sc₃, lx₃, rfl, hs₃⟩
      · have hstart : sc₁.consumed.length - 1 + 2 = sc₂.consumed.length := by
          rw [hcons₂, hcons₁]
          simp
        obtain ⟨sc₄, lx₄, hrun₄, hs₄⟩ := blockComment_plain hs₂ hs₃ hdoc hf''
        rw [if_neg hdoc, hstart, run_bind hrun₄, classified, afterTrivia_block hslash hstar hdoc]
        exact classify_stands fuel hs₄ ((commentEnd_length_le t 1).trans_lt hf'')

/-- The loop to the end of the line stops behind it; from there on, and in front of what it has not
    read, stands the text from the end of the line on. -/
theorem shebangEnd_stands : ∀ (fuel : Nat) {lx : Lexer} {sc : Scan} {t : List Codepoint},
    Stands base n p s lx sc t → t.length < fuel →
    ∃ start sc' lx' t', (shebangEnd fuel sc).run lx = (.ok (start, sc'), lx') ∧
      Stands base n p s lx' sc' t' ∧
      sc'.consumed.drop start ++ t' = t.dropWhile (fun c => !endsShebang c) ∧
      (sc'.consumed.drop start).length ≤ 1
  | 0, _, _, _, _, hf => absurd hf (Nat.not_lt_zero _)
  | fuel + 1, lx, sc, t, h, hf => by
    rw [shebangEnd]
    by_cases he : sc.eof = true
    · obtain rfl := h.eof he
      exact ⟨_, sc, lx, [], by simp [he]; rfl, h, by simp, by simp⟩
    have he : sc.eof = false := Bool.eq_false_iff.2 he
    obtain ⟨c, sc₁, lx₁, hrun, hp⟩ := read_pending h he
    rw [if_neg (by simp [he]), run_bind hrun]
    dsimp only
    rcases t with _ | ⟨c', t⟩
    · rw [if_neg (by simp [hp.1])]
      cases fuel with
      | zero => exact ⟨_, sc₁, lx₁, [], rfl, hp.2, by simp, by simp⟩
      | succ fuel =>
        exact ⟨_, sc₁, lx₁, [], by rw [shebangEnd, if_pos hp.1]; rfl, hp.2, by simp, by simp⟩
    obtain ⟨he₁, rfl, hs⟩ := hp
    by_cases hend : endsShebang c = true
    · have hcons := h.consumed_eq (r := [c]) hs rfl
      rw [if_pos ⟨by simp [he₁], hend⟩, List.dropWhile_cons_of_neg (by simp [hend])]
      refine ⟨_, sc₁, lx₁, t, rfl, hs, ?_, ?_⟩
      · rw [hcons]
        simp
      · rw [hcons]
        simp
    · rw [if_neg (fun hc => hend hc.2), List.dropWhile_cons_of_pos (by simp [hend])]
      exact shebangEnd_stands fuel hs (by simpa using hf)

end Trustme.Lexing
