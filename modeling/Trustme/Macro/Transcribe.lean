/-
  Subject:   The reference expansion of an arm, by recursion on its contents.

  A loop gives its body once for each iteration of its controlling loops, with the separator between
  two of them; a variable gives the capture on the path of iterations.

  * `transcribeAll`: the reference expansion;
  * `Enclosed`: controlling loops enclose the variables used in a loop;
  * `transcribeAll_eq_collect`: the reference expansion, from the visits;
  * `visitsAll_fit`: the code visits the same, and finds what it looks up there.
-/
import Trustme.Macro.Bound
import Trustme.Macro.Expander

namespace Trustme.Macro

open Lib

variable {H F : Type}

/-! ## 1. The reference -/

/-- One after the other. -/
def both {α : Type} (a b : Except Err (List α)) : Except Err (List α) :=
  match a with
  | .error e => .error e
  | .ok xs =>
    match b with
    | .error e => .error e
    | .ok ys => .ok (xs ++ ys)

/-- One after the other, with a separator between two and nowhere else. -/
def joinAll {α : Type} (sep : List α) : List (Except Err (List α)) → Except Err (List α)
  | [] => .ok []
  | [a] => a
  | a :: b :: rest => both a (both (.ok sep) (joinAll sep (b :: rest)))

section Reference

variable (env : ExpandEnv H) (ms : List (Match H F))

/-- How often a loop is repeated: as often as each of its controlling loops, of which there must be
    one. -/
def timesAt (path : List Nat) : List Nat → Except Err Nat
  | [] => .error .user
  | l :: ls =>
    match countAt l ms path with
    | none => .error .user
    | some n => if ls.all (fun l' => countAt l' ms path == some n) then .ok n else .error .user

/-- The name of the crate that the macro is from. -/
def crateTokens : List (Token H F) :=
  if env.crateName = [] then
    if env.rust2018 then [.lexed .RWORD_CRATE [] env.noHygiene .Alone] else []
  else
    [.lexed .DOUBLE_COLON [] env.noHygiene .Alone,
      .lexed .STRING env.crateName env.noHygiene .Alone]

/-- The tokens of a named value: a variable, `$crate`, `${ignore}`, `${index()}` or `${len()}`. -/
def namedTokens (path lengths : List Nat) (e : Nat) : Except Err (List (Token H F)) :=
  if namedValueType e = 0 then
    match capAt e ms path with
    | none => .error .user
    | some frag => .ok frag.tokens
  else if e = NAMEDVALUE_MAGIC_CRATE then .ok (crateTokens env)
  else if namedValueType e = NAMEDVALUE_TY_IGNORE then .ok []
  else if e / 256 * 256 = NAMEDVALUE_MAGIC_INDEX_AT then
    match loopAt path (e % 256) with
    | none => .error .user
    | some i => .ok [integerToken env i]
  else
    match loopAt lengths (e % 256) with
    | none => .error .user
    | some n => .ok [integerToken env n]

/-- The text that a variable gives in an identifier. -/
def partText (path : List Nat) (v : Nat) : Option (List Char) :=
  match capAt v ms path with
  | none => none
  | some frag =>
    match frag.tokens with
    | [tok] => identText tok
    | _ => none

/-- The text of a concatenation. -/
def concatText (path : List Nat) : List MacroExpansionConcatEnt → Except Err (List Char)
  | [] => .ok []
  | .Ident name :: ents => both (.ok name) (concatText path ents)
  | .Named v :: ents =>
    if v = NAMEDVALUE_MAGIC_CRATE then both (.ok env.crateName) (concatText path ents)
    else
      match partText ms path v with
      | none => .error .user
      | some text => both (.ok text) (concatText path ents)

def concatTokens (path : List Nat) (ents : List MacroExpansionConcatEnt) :
    Except Err (List (Token H F)) :=
  match concatText env ms path ents with
  | .error e => .error e
  | .ok text => .ok [.lexed .IDENT text env.hygiene_ .Alone]

mutual

/-- The tokens of an entry on a path of iterations; `lengths` are the numbers of iterations of the
    loops around it. -/
def MacroExpansionEnt.transcribe :
    MacroExpansionEnt H F → List Nat → List Nat → Except Err (List (Token H F))
  | .Token t, _, _ => .ok [(contentToken env t).1]
  | .NamedValue e, path, lengths => namedTokens env ms path lengths e
  | .Concat ents, path, _ => concatTokens env ms path ents
  | .Loop entries joiner controlling, path, lengths =>
    match timesAt ms path controlling with
    | .error e => .error e
    | .ok n =>
      joinAll (joiner.toList.map setAlone)
        ((List.range n).map fun i => transcribeAll entries (path ++ [i]) (lengths ++ [n]))

def transcribeAll : List (MacroExpansionEnt H F) → List Nat → List Nat →
    Except Err (List (Token H F))
  | [], _, _ => .ok []
  | ent :: ents, path, lengths => both (ent.transcribe path lengths)
      (transcribeAll ents path lengths)

end

end Reference

/-! ## 2. Contents whose controlling loops enclose the variables -/

section Enclosed

variable (pats : List MacroPatEnt)

/-- Around a place of the pattern are loops that control the loops of the contents. -/
def Encloses (ls : List Nat) (controls : List (List Nat)) : Prop :=
  ∀ (j l : Nat), ls[j]? = some l → ∃ control, controls[j]? = some control ∧ l ∈ control

/-- A variable under loops of the contents. -/
def VarEnclosed (controls : List (List Nat)) (v : Nat) : Prop :=
  ∃ ls ∈ loopsOf v pats, Encloses ls controls

/-- A named value other than `${count()}`. -/
def NamedEnclosed (controls : List (List Nat)) (e : Nat) : Prop :=
  (namedValueType e = 0 ∧ VarEnclosed pats controls e) ∨ e = NAMEDVALUE_MAGIC_CRATE ∨
    namedValueType e = NAMEDVALUE_TY_IGNORE ∨
    (e / 256 * 256 = NAMEDVALUE_MAGIC_INDEX_AT ∧ e % 256 < controls.length) ∨
    (e / 256 * 256 = NAMEDVALUE_MAGIC_LEN_AT ∧ e % 256 < controls.length)

def MacroExpansionConcatEnt.Enclosed (controls : List (List Nat)) :
    MacroExpansionConcatEnt → Prop
  | .Ident _ => True
  | .Named v => (namedValueType v = 0 ∧ VarEnclosed pats controls v) ∨ v = NAMEDVALUE_MAGIC_CRATE

mutual

/-- The controlling loops of each loop stand in the pattern as deep as the loop in the contents, and
    enclose the variables that are used in it. -/
def MacroExpansionEnt.Enclosed : MacroExpansionEnt H F → List (List Nat) → Prop
  | .Token _, _ => True
  | .NamedValue e, controls => NamedEnclosed pats controls e
  | .Concat ents, controls => ∀ ent ∈ ents, ent.Enclosed pats controls
  | .Loop entries _ controlling, controls =>
    (∀ l ∈ controlling, ∃ ls ∈ loopsTo l pats, ls.length = controls.length ∧ Encloses ls controls) ∧
      EnclosedAll entries (controls ++ [controlling])

def EnclosedAll : List (MacroExpansionEnt H F) → List (List Nat) → Prop
  | [], _ => True
  | ent :: ents, controls => ent.Enclosed controls ∧ EnclosedAll ents controls

end

end Enclosed

/-! ## 3. The reference from the visits -/

section Collect

variable {α : Type}

theorem both_assoc (a b c : Except Err (List α)) : both (both a b) c = both a (both b c) := by
  cases a with
  | error e => rfl
  | ok xs =>
    cases b with
    | error e => rfl
    | ok ys =>
      cases c with
      | error e => rfl
      | ok zs => simp [both]

theorem both_nil (a : Except Err (List α)) : both a (.ok []) = a := by
  cases a with
  | error e => rfl
  | ok xs => simp [both]

theorem nil_both (a : Except Err (List α)) : both (.ok []) a = a := by
  cases a with
  | error e => rfl
  | ok xs => simp [both]

/-- What fails first fails both. -/
theorem both_fail (a b : Except Err (List α)) (e : Err) :
    both (both a (.error e)) b = both a (.error e) := by
  cases a with
  | error e => rfl
  | ok xs => rfl

/-- `joinAll` over the indices of a loop. -/
theorem joinAll_range {body : Nat → Except Err (List α)} {sep : List α} (n i : Nat) :
    joinAll sep ((List.range' i (n + 2)).map body)
      = both (body i) (both (.ok sep) (joinAll sep ((List.range' (i + 1) (n + 1)).map body))) := by
  rw [List.range'_succ, List.map_cons, List.range'_succ, List.map_cons]
  rfl

variable (env : ExpandEnv H) (ms : List (Match H F))

/-- The tokens of a visit. -/
def Visit.tokens (visit : Visit H F) : Except Err (List (Token H F)) :=
  match visit.ent with
  | .Token t => .ok [(contentToken env t).1]
  | .NamedValue e => namedTokens env ms visit.iterations visit.lengths e
  | .Concat ents => concatTokens env ms visit.iterations ents
  | .Loop _ joiner _ => .ok (joiner.toList.map setAlone)

/-- The tokens of visits, one after the other. -/
def collectAll : List (Visit H F) → Except Err (List (Token H F))
  | [] => .ok []
  | visit :: visits => both (visit.tokens env ms) (collectAll visits)

/-- The tokens of the visits on a trace, if it does not fail. -/
def collect (tr : Next.Trace (Visit H F) Err) : Except Err (List (Token H F)) :=
  both (collectAll env ms tr.emitted)
    (match tr.failure with
      | none => .ok []
      | some e => .error e)

variable {env ms}

theorem collectAll_append (vs vs' : List (Visit H F)) :
    collectAll env ms (vs ++ vs') = both (collectAll env ms vs) (collectAll env ms vs') := by
  induction vs with
  | nil => rw [List.nil_append, collectAll, nil_both]
  | cons v vs ih => rw [List.cons_append, collectAll, collectAll, ih, both_assoc]

theorem collect_andThen (tr tr' : Next.Trace (Visit H F) Err) :
    collect env ms (tr.andThen tr') = both (collect env ms tr) (collect env ms tr') := by
  cases htr : tr.failure with
  | none =>
    rw [Next.Trace.andThen_of_none htr]
    unfold collect
    rw [collectAll_append, htr, both_nil, both_assoc]
  | some e =>
    rw [Next.Trace.andThen_of_some htr]
    unfold collect
    rw [htr, both_fail]

theorem collect_visit (visit : Visit H F) :
    collect env ms ⟨[visit], none⟩ = visit.tokens env ms := by
  unfold collect
  rw [both_nil, collectAll, collectAll, both_nil]

theorem collect_joiner (joiner : Option (Token H F)) (entries : List (MacroExpansionEnt H F))
    (controlling path lengths : List Nat) :
    collect env ms ⟨joiner.toList.map fun j => ⟨.Loop entries (some j) controlling, path, lengths⟩,
      none⟩ = .ok (joiner.toList.map setAlone) := by
  cases joiner with
  | none => rfl
  | some j => rfl

/-- The tokens of a loop. -/
theorem collect_iterate {body : Nat → Next.Trace (Visit H F) Err} {between : Nat → List (Visit H F)}
    {sep : List (Token H F)} (hsep : ∀ i, collect env ms ⟨between i, none⟩ = .ok sep) (n i : Nat) :
    collect env ms (Next.Trace.iterate body between n i)
      = joinAll sep ((List.range' i n).map fun i => collect env ms (body i)) := by
  induction n generalizing i with
  | zero => rfl
  | succ n ih =>
    cases n with
    | zero => rfl
    | succ n =>
      rw [Next.Trace.iterate, collect_andThen, collect_andThen, hsep, ih, joinAll_range]

mutual

theorem transcribe_eq_collect : ∀ (ent : MacroExpansionEnt H F) (path lengths : List Nat),
    ent.transcribe env ms path lengths = collect env ms (ent.visits (timesAt ms) path lengths)
  | .Token t, path, lengths => by
    rw [MacroExpansionEnt.visits, collect_visit]
    rfl
  | .NamedValue e, path, lengths => by
    rw [MacroExpansionEnt.visits, collect_visit]
    rfl
  | .Concat es, path, lengths => by
    rw [MacroExpansionEnt.visits, collect_visit]
    rfl
  | .Loop entries joiner controlling, path, lengths => by
    rw [MacroExpansionEnt.visits, MacroExpansionEnt.transcribe]
    cases timesAt ms path controlling with
    | error e => rfl
    | ok n =>
      simp only
      rw [collect_iterate fun i => collect_joiner joiner entries controlling _ _,
        List.range_eq_range']
      congr 1
      refine List.map_congr_left fun i _ => ?_
      exact transcribeAll_eq_collect entries (path ++ [i]) (lengths ++ [n])

/-- **The reference expansion has the tokens of the visits.** -/
theorem transcribeAll_eq_collect : ∀ (ents : List (MacroExpansionEnt H F))
    (path lengths : List Nat),
    transcribeAll env ms ents path lengths
      = collect env ms (visitsAll (timesAt ms) ents path lengths)
  | [], path, lengths => rfl
  | ent :: ents, path, lengths => by
    rw [transcribeAll, visitsAll, collect_andThen, transcribe_eq_collect ent,
      transcribeAll_eq_collect ents]

end

end Collect

/-! ## 4. What is visited -/

section Live

variable {pats : List MacroPatEnt} {ms : List (Match H F)}

/-- A path goes through iterations that there are of all controlling loops. -/
structure Live (ms : List (Match H F)) (controls : List (List Nat)) (path lengths : List Nat) :
    Prop where
  path_length : path.length = controls.length
  lengths_length : lengths.length = controls.length
  runs : ∀ j control, controls[j]? = some control → ∀ l ∈ control,
    ∃ n i, countAt l ms (path.take j) = some n ∧ path[j]? = some i ∧ i < n

theorem Live.nil : Live ms [] [] [] :=
  ⟨rfl, rfl, fun j control h => by simp at h⟩

variable {controls : List (List Nat)} {path lengths controlling ls : List Nat}

/-- Into an iteration of a loop. -/
theorem Live.push {n i : Nat} (h : Live ms controls path lengths)
    (hn : ∀ l ∈ controlling, countAt l ms path = some n)
    (hi : i < n) : Live ms (controls ++ [controlling]) (path ++ [i]) (lengths ++ [n]) := by
  refine ⟨by simp [h.path_length], by simp [h.lengths_length], fun j control hj l hl => ?_⟩
  by_cases hlt : j < controls.length
  · rw [List.getElem?_append_left hlt] at hj
    obtain ⟨n', i', hn', hi', hlt'⟩ := h.runs j control hj l hl
    have hlen := h.path_length
    refine ⟨n', i', ?_, ?_, hlt'⟩
    · rw [List.take_append_of_le_length (by omega)]
      exact hn'
    · rw [List.getElem?_append_left (by omega)]
      exact hi'
  · have hj' : j < (controls ++ [controlling]).length := (List.getElem?_eq_some_iff.1 hj).1
    rw [List.length_append, List.length_singleton] at hj'
    obtain rfl : j = path.length := by
      have := h.path_length
      omega
    rw [h.path_length, List.getElem?_concat_length] at hj
    obtain rfl : controlling = control := Option.some.inj hj
    refine ⟨n, i, ?_, by simp, hi⟩
    rw [List.take_left]
    exact hn l hl

theorem Live.to_runs (h : Live ms controls path lengths) (he : Encloses ls controls) :
    Runs (fun l path => valueAtAll (Match.countOf l) ms path) ls path := by
  intro j l hl
  obtain ⟨control, hc, hmem⟩ := he j l hl
  exact h.runs j control hc l hmem

/-- A variable that is enclosed has a capture. -/
theorem Live.exists_cap {v : Nat} (h : Live ms controls path lengths) (hof : Match.Of pats ms)
    (hl : (loopsAll pats).Nodup)
    (hv : VarEnclosed pats controls v) : ∃ frag, capAt v ms path = some frag := by
  obtain ⟨ls, hls, he⟩ := hv
  exact all_exists (selects_capOf v) pats hof hl hls (h.to_runs he)

/-- A loop that is enclosed has a number of iterations. -/
theorem Live.exists_count {l : Nat} (h : Live ms controls path lengths) (hof : Match.Of pats ms)
    (hl : (loopsAll pats).Nodup) (hls : ls ∈ loopsTo l pats)
    (he : Encloses ls controls) : ∃ n, countAt l ms path = some n :=
  all_exists (selects_countOf l) pats hof hl hls (h.to_runs he)

theorem timesAt_ok {n : Nat}
    (h : timesAt ms path controlling = .ok n) : ∀ l ∈ controlling, countAt l ms path = some n := by
  cases controlling with
  | nil => simp [timesAt] at h
  | cons l ls =>
    rw [timesAt] at h
    cases hc : countAt l ms path with
    | none => simp [hc] at h
    | some m =>
      simp only [hc] at h
      by_cases hall : ls.all (fun l' => countAt l' ms path == some m) = true
      · rw [if_pos hall] at h
        obtain rfl := Except.ok.inj h
        intro l' hl'
        obtain rfl | hl' := List.mem_cons.1 hl'
        · exact hc
        · exact eq_of_beq (List.all_eq_true.1 hall l' hl')
      · rw [if_neg hall] at h
        exact absurd h (by simp)

theorem timesAt_error {e : Err} (h : timesAt ms path controlling = .error e) : e = .user := by
  cases controlling with
  | nil => exact (Except.error.inj h).symm
  | cons l ls =>
    rw [timesAt] at h
    cases hc : countAt l ms path with
    | none =>
      simp only [hc] at h
      exact (Except.error.inj h).symm
    | some m =>
      simp only [hc] at h
      by_cases hall : ls.all (fun l' => countAt l' ms path == some m) = true
      · rw [if_pos hall] at h
        exact absurd h (by simp)
      · rw [if_neg hall] at h
        exact (Except.error.inj h).symm

/-- The mappings say of each loop what the match says. -/
def CountsHold (pats : List MacroPatEnt) (ms : List (Match H F))
    (repeats : List Nat → Nat → Except Err Nat) : Prop :=
  ∀ l ls path n, ls ∈ loopsTo l pats → ls.length ≤ path.length → countAt l ms path = some n →
    repeats path l = .ok n

theorem sameRepeats_eq {repeats : List Nat → Nat → Except Err Nat} {n : Nat}
    (h : ∀ l ∈ ls, ∃ m, countAt l ms path = some m ∧ repeats path l = .ok m) :
    MacroExpandState.sameRepeats repeats path n ls
      = if ls.all (fun l => countAt l ms path == some n) then .ok n else .error .user := by
  induction ls with
  | nil => rfl
  | cons l ls ih =>
    obtain ⟨m, hm, hr⟩ := h l List.mem_cons_self
    rw [MacroExpandState.sameRepeats, hr, List.all_cons, hm]
    by_cases hmn : m = n
    · subst hmn
      simp only [ne_eq, not_true_eq_false, if_false, beq_self_eq_true, Bool.true_and]
      exact ih fun l hl => h l (List.mem_cons_of_mem _ hl)
    · simp [hmn]

/-- **The code repeats a loop as often as the reference.** -/
theorem numRepeats_eq {repeats : List Nat → Nat → Except Err Nat}
    (h : Live ms controls path lengths) (hof : Match.Of pats ms) (hl : (loopsAll pats).Nodup)
    (hr : CountsHold pats ms repeats) (he : ∀ l ∈ controlling, ∃ ls ∈ loopsTo l pats,
      ls.length = controls.length ∧ Encloses ls controls) :
    MacroExpandState.numRepeats repeats path controlling = timesAt ms path controlling := by
  have hcount : ∀ l ∈ controlling, ∃ m, countAt l ms path = some m ∧ repeats path l = .ok m := by
    intro l hmem
    obtain ⟨ls, hls, hlen, henc⟩ := he l hmem
    obtain ⟨m, hm⟩ := h.exists_count hof hl hls henc
    exact ⟨m, hm, hr l ls path m hls (by rw [hlen, h.path_length]) hm⟩
  cases controlling with
  | nil => rfl
  | cons l ls =>
    obtain ⟨m, hm, hrm⟩ := hcount l List.mem_cons_self
    rw [MacroExpandState.numRepeats, timesAt, hrm, hm]
    exact sameRepeats_eq fun l hl => hcount l (List.mem_cons_of_mem _ hl)

/-- What is said of a visit: its variables have captures, and `${index()}` and `${len()}` loops. -/
def NamedFits (pats : List MacroPatEnt) (ms : List (Match H F)) (path lengths : List Nat)
    (e : Nat) : Prop :=
  (namedValueType e = 0 ∧ loopsOf e pats ≠ [] ∧ ∃ frag, capAt e ms path = some frag) ∨
    e = NAMEDVALUE_MAGIC_CRATE ∨ namedValueType e = NAMEDVALUE_TY_IGNORE ∨
    (e / 256 * 256 = NAMEDVALUE_MAGIC_INDEX_AT ∧ e % 256 < path.length) ∨
    (e / 256 * 256 = NAMEDVALUE_MAGIC_LEN_AT ∧ e % 256 < lengths.length)

def MacroExpansionConcatEnt.Fits (pats : List MacroPatEnt) (ms : List (Match H F))
    (path : List Nat) : MacroExpansionConcatEnt → Prop
  | .Ident _ => True
  | .Named v =>
    (namedValueType v = 0 ∧ loopsOf v pats ≠ [] ∧ ∃ frag, capAt v ms path = some frag) ∨
      v = NAMEDVALUE_MAGIC_CRATE

def Visit.Fits (pats : List MacroPatEnt) (ms : List (Match H F)) (visit : Visit H F) : Prop :=
  match visit.ent with
  | .Token _ => True
  | .NamedValue e => NamedFits pats ms visit.iterations visit.lengths e
  | .Concat ents => ∀ ent ∈ ents, ent.Fits pats ms visit.iterations
  | .Loop _ joiner _ => joiner.isSome

variable (hof : Match.Of pats ms) (hl : (loopsAll pats).Nodup)
include hof hl

theorem NamedEnclosed.fits {e : Nat} (h : NamedEnclosed pats controls e)
    (hlive : Live ms controls path lengths) :
    NamedFits pats ms path lengths e := by
  obtain ⟨ht, hv⟩ | h | h | h | h := h
  · refine Or.inl ⟨ht, fun hn => ?_, hlive.exists_cap hof hl hv⟩
    obtain ⟨ls, hls, -⟩ := hv
    rw [hn] at hls
    simp at hls
  · exact Or.inr (Or.inl h)
  · exact Or.inr (Or.inr (Or.inl h))
  · refine Or.inr (Or.inr (Or.inr (Or.inl ?_)))
    rw [hlive.path_length]
    exact h
  · refine Or.inr (Or.inr (Or.inr (Or.inr ?_)))
    rw [hlive.lengths_length]
    exact h

theorem concat_fits {ent : MacroExpansionConcatEnt} (h : ent.Enclosed pats controls)
    (hlive : Live ms controls path lengths) : ent.Fits pats ms path := by
  cases ent with
  | Ident name => trivial
  | Named v =>
    obtain ⟨ht, hv⟩ | h := h
    · refine Or.inl ⟨ht, fun hn => ?_, hlive.exists_cap hof hl hv⟩
      obtain ⟨ls, hls, -⟩ := hv
      rw [hn] at hls
      simp at hls
    · exact Or.inr h

variable {repeats : List Nat → Nat → Except Err Nat} (hr : CountsHold pats ms repeats)
include hr

set_option linter.unusedSectionVars false

mutual

theorem visits_fit : ∀ (ent : MacroExpansionEnt H F) {controls : List (List Nat)}
    {path lengths : List Nat}, ent.Enclosed pats controls → Live ms controls path lengths →
    ent.visits (MacroExpandState.numRepeats repeats) path lengths
        = ent.visits (timesAt ms) path lengths ∧
      (ent.visits (timesAt ms) path lengths).Only (Visit.Fits pats ms) (fun e => e = .user)
  | .Token t, controls, path, lengths, _, _ => by
    refine ⟨rfl, fun visit hv => ?_, fun e he => by simp [MacroExpansionEnt.visits] at he⟩
    obtain rfl := List.mem_singleton.1 hv
    trivial
  | .NamedValue e, controls, path, lengths, he, hlive => by
    refine ⟨rfl, fun visit hv => ?_, fun e he => by simp [MacroExpansionEnt.visits] at he⟩
    obtain rfl := List.mem_singleton.1 hv
    exact NamedEnclosed.fits hof hl he hlive
  | .Concat ents, controls, path, lengths, he, hlive => by
    refine ⟨rfl, fun visit hv => ?_, fun e he => by simp [MacroExpansionEnt.visits] at he⟩
    obtain rfl := List.mem_singleton.1 hv
    exact fun ent hent => concat_fits hof hl (he ent hent) hlive
  | .Loop entries joiner controlling, controls, path, lengths, he, hlive => by
    obtain ⟨hctl, hbody⟩ := he
    rw [MacroExpansionEnt.visits, MacroExpansionEnt.visits, numRepeats_eq hlive hof hl hr hctl]
    cases hn : timesAt ms path controlling with
    | error e =>
      refine ⟨rfl, fun visit hv => by simp at hv, fun e' he' => ?_⟩
      obtain rfl : e = e' := Option.some.inj he'
      exact timesAt_error hn
    | ok n =>
      have hiter : ∀ i, 0 ≤ i → i < 0 + n → _ := fun i _ hi =>
        visitsAll_fit entries hbody (hlive.push (timesAt_ok hn) (by omega : i < n))
      refine ⟨Next.Trace.iterate_congr fun i hle hi => (hiter i hle hi).1,
        Next.Trace.Only.iterate (fun i hle hi => (hiter i hle hi).2) fun i _ _ visit hv => ?_⟩
      obtain ⟨j, -, rfl⟩ := List.mem_map.1 hv
      rfl

/-- **The code visits what the reference visits, and what is visited has what is looked up.** -/
theorem visitsAll_fit : ∀ (ents : List (MacroExpansionEnt H F)) {controls : List (List Nat)}
    {path lengths : List Nat}, EnclosedAll pats ents controls → Live ms controls path lengths →
    visitsAll (MacroExpandState.numRepeats repeats) ents path lengths
        = visitsAll (timesAt ms) ents path lengths ∧
      (visitsAll (timesAt ms) ents path lengths).Only (Visit.Fits pats ms) (fun e => e = .user)
  | [], controls, path, lengths, _, _ =>
    ⟨rfl, fun visit hv => by simp [visitsAll] at hv, fun e he => by simp [visitsAll] at he⟩
  | ent :: ents, controls, path, lengths, he, hlive => by
    obtain ⟨hone, hfit⟩ := visits_fit ent he.1 hlive
    obtain ⟨hall, hfits⟩ := visitsAll_fit ents he.2 hlive
    rw [visitsAll, visitsAll, hone, hall]
    exact ⟨rfl, hfit.andThen hfits⟩

end

end Live

end Trustme.Macro
