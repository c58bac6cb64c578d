/-
  Subject:   What an expander yields is the reference expansion, unless it comes to `$crate` in a
             concatenation.

  The counting run passes over a part `$crate`, but the expansion looks it up as a variable.

  * `entToken_spec`: an entry gives its tokens, and uses its captures;
  * `expand_visits`: a run of the expander over visits;
  * `CrateReached`: the expansion comes to such a part;
  * `transcribes_iff`: exactly then it fails to give the reference expansion.
-/
import Trustme.Macro.Uses

namespace Trustme.Macro

open Lib

variable {H F : Type}

/-! ## 1. Parts without a text -/

/-- A part of a concatenation for which the expander has no text. -/
def MacroExpansionConcatEnt.noText (ms : List (Match H F)) (path : List Nat) :
    MacroExpansionConcatEnt → Bool
  | .Ident _ => false
  | .Named v => v == NAMEDVALUE_MAGIC_CRATE || (partText ms path v).isNone

/-- The first part without a text at a visit. -/
def Visit.noText (ms : List (Match H F)) (visit : Visit H F) : Option MacroExpansionConcatEnt :=
  match visit.ent with
  | .Concat ents => ents.find? fun ent => ent.noText ms visit.iterations
  | _ => none

/-- The loops agree, and the first part without a text is `$crate`. -/
def CrateReached (ms : List (Match H F)) (contents : List (MacroExpansionEnt H F)) : Prop :=
  (visitsAll (timesAt ms) contents [] []).failure = none ∧
    (visitsAll (timesAt ms) contents [] []).emitted.findSome? (Visit.noText ms)
      = some (.Named NAMEDVALUE_MAGIC_CRATE)

/-- How the expansion fails at a part without a text. -/
def MacroExpansionConcatEnt.err (ent : MacroExpansionConcatEnt) : Err :=
  if ent = .Named NAMEDVALUE_MAGIC_CRATE then .bug else .user

section Parts

variable {pats : List MacroPatEnt} {ms : List (Match H F)} {boundTts : ParameterMappings H F}

/-- There is no variable of the index that stands for `$crate`. -/
theorem decCount_crate (h : boundTts.mappings.length ≤ NAMEDVALUE_MAGIC_CRATE) (path : List Nat) :
    boundTts.decCount path NAMEDVALUE_MAGIC_CRATE = .error .bug := by
  unfold ParameterMappings.decCount ParameterMappings.withCap
  rw [List.getElem?_eq_none h]

theorem ne_crate_of_type {v : Nat} (h : namedValueType v = 0) : v ≠ NAMEDVALUE_MAGIC_CRATE := by
  rintro rfl
  exact absurd h (by decide)

variable {used rest : List Use} {path : List Nat}

/-- A part that has a text. -/
theorem concatEnt_ok (env : ExpandEnv H) {ent : MacroExpansionConcatEnt}
    (h : Holds pats boundTts (usage pats ms used (used ++ ent.uses path ++ rest)))
    (hof : Match.Of pats ms) (hv : (varsAll pats).Nodup) (hfits : ent.Fits pats ms path)
    (htext : ent.noText ms path = false) :
    ∃ text boundTts',
      (∀ ents, concatText env ms path (ent :: ents) = both (.ok text)
        (concatText env ms path ents)) ∧
      (∀ newIdent, concatEnt path (newIdent, boundTts) ent = .ok (newIdent ++ text, boundTts')) ∧
      SameShape boundTts boundTts' ∧
      Holds pats boundTts' (usage pats ms (used ++ ent.uses path)
        (used ++ ent.uses path ++ rest)) := by
  cases ent with
  | Ident name =>
    refine ⟨name, boundTts, fun ents => rfl, fun newIdent => rfl, SameShape.rfl, ?_⟩
    rw [MacroExpansionConcatEnt.uses, List.append_nil] at h ⊢
    exact h
  | Named v =>
    simp only [MacroExpansionConcatEnt.noText, Bool.or_eq_false_iff, beq_eq_false_iff_ne] at htext
    obtain ⟨hne, htext⟩ := htext
    obtain ⟨ht, hmem, frag, hcap⟩ | rfl := hfits
    · rw [MacroExpansionConcatEnt.uses, if_pos ht] at h ⊢
      rw [List.append_assoc, List.singleton_append] at h ⊢
      obtain ⟨-, more, b₁, hdec, hget, b₂, htake, hs, hh⟩ := h.take hof hv hmem hcap
      obtain ⟨text, hpart⟩ : ∃ text, partText ms path v = some text :=
        Option.isSome_iff_exists.1 (by
          cases hp : partText ms path v with
          | none => rw [hp] at htext; simp at htext
          | some text => rfl)
      refine ⟨text, b₂, fun ents => ?_, fun newIdent => ?_, hs, hh⟩
      · rw [concatText, if_neg hne, hpart]
      · unfold concatEnt
        simp only [hdec, hget, htake]
        unfold partText at hpart
        simp only [hcap] at hpart
        obtain ⟨tok, _ | ⟨tok', toks⟩⟩ | f := frag
        · simp only [InterpolatedFragment.tokens] at hpart ⊢
          rw [hpart]
        · simp [InterpolatedFragment.tokens] at hpart
        · simp [InterpolatedFragment.tokens, identText] at hpart
    · exact absurd rfl hne

/-- A part without one. -/
theorem concatEnt_fails {ent : MacroExpansionConcatEnt}
    (h : Holds pats boundTts (usage pats ms used (used ++ ent.uses path ++ rest)))
    (hof : Match.Of pats ms) (hv : (varsAll pats).Nodup) (hfits : ent.Fits pats ms path)
    (hlen : boundTts.mappings.length ≤ NAMEDVALUE_MAGIC_CRATE) (htext : ent.noText ms path = true)
    (newIdent : List Char) : concatEnt path (newIdent, boundTts) ent = .error ent.err := by
  cases ent with
  | Ident name => simp [MacroExpansionConcatEnt.noText] at htext
  | Named v =>
    obtain ⟨ht, hmem, frag, hcap⟩ | rfl := hfits
    · have hne := ne_crate_of_type ht
      rw [MacroExpansionConcatEnt.err, if_neg (by simpa using hne)]
      rw [MacroExpansionConcatEnt.uses, if_pos ht, List.append_assoc, List.singleton_append] at h
      obtain ⟨-, more, b₁, hdec, hget, b₂, htake, -, -⟩ := h.take hof hv hmem hcap
      have hpart : partText ms path v = none := by
        simpa [MacroExpansionConcatEnt.noText, hne] using htext
      unfold partText at hpart
      simp only [hcap] at hpart
      unfold concatEnt
      simp only [hdec, hget, htake]
      obtain ⟨tok, _ | ⟨tok', toks⟩⟩ | f := frag
      · simp only [InterpolatedFragment.tokens] at hpart ⊢
        rw [hpart]
      · rfl
      · rfl
    · rw [MacroExpansionConcatEnt.err, if_pos rfl]
      unfold concatEnt
      simp only [decCount_crate hlen]

/-- **A concatenation**: its text, or the failure at the first part that has none. -/
theorem concat_spec (env : ExpandEnv H) {ents : List MacroExpansionConcatEnt}
    (h : Holds pats boundTts
      (usage pats ms used (used ++ (ents.flatMap fun ent => ent.uses path) ++ rest)))
    (hof : Match.Of pats ms) (hv : (varsAll pats).Nodup)
    (hfits : ∀ ent ∈ ents, ent.Fits pats ms path)
    (hlen : boundTts.mappings.length ≤ NAMEDVALUE_MAGIC_CRATE) (newIdent : List Char) :
    match ents.find? fun ent => ent.noText ms path with
    | none => ∃ text boundTts', concatText env ms path ents = .ok text ∧
        ents.foldlM (concatEnt path) (newIdent, boundTts) = .ok (newIdent ++ text, boundTts') ∧
        SameShape boundTts boundTts' ∧
        Holds pats boundTts' (usage pats ms (used ++ ents.flatMap fun ent => ent.uses path)
          (used ++ (ents.flatMap fun ent => ent.uses path) ++ rest))
    | some part => ents.foldlM (concatEnt path) (newIdent, boundTts) = .error part.err := by
  induction ents generalizing boundTts used newIdent with
  | nil =>
    refine ⟨[], boundTts, rfl, ?_, SameShape.rfl, ?_⟩
    · rw [List.append_nil]
      rfl
    · simpa using h
  | cons ent ents ih =>
    have hassoc : used ++ (List.flatMap (fun ent => ent.uses path) (ent :: ents)) ++ rest
        = used ++ ent.uses path ++ ((ents.flatMap fun ent => ent.uses path) ++ rest) := by
      simp
    rw [hassoc] at h
    have hfit := hfits ent List.mem_cons_self
    rw [List.find?_cons]
    cases htext : ent.noText ms path with
    | true =>
      simp only
      rw [List.foldlM_cons, concatEnt_fails h hof hv hfit hlen htext]
      rfl
    | false =>
      obtain ⟨text, b₁, href, hone, hs, hh⟩ := concatEnt_ok env h hof hv hfit htext
      rw [← List.append_assoc (used ++ ent.uses path)] at hh
      have hrest := ih hh
        (fun e he => hfits e (List.mem_cons_of_mem _ he)) (by rw [hs.length]; exact hlen)
        (newIdent ++ text)
      simp only
      cases hfind : ents.find? fun ent => ent.noText ms path with
      | some part =>
        simp only [hfind] at hrest
        simp only
        rw [List.foldlM_cons, hone]
        exact hrest
      | none =>
        simp only [hfind] at hrest
        obtain ⟨text', b₂, hcode, hall, hs', hh'⟩ := hrest
        refine ⟨text ++ text', b₂, ?_, ?_, hs.trans hs', ?_⟩
        · rw [href, hcode]
          rfl
        · rw [List.foldlM_cons, hone, ← List.append_assoc]
          exact hall
        · simpa [List.append_assoc] using hh'

/-! ## 2. An entry -/

/-- What waits to be read in an expander. -/
def waiting (exp : MacroExpander H F) : List (Token H F) :=
  exp.nextToken.toList ++ exp.ttstream.getD []

theorem loopAt_of_lt {values : List Nat} {depth : Nat} (h : depth < values.length) :
    ∃ x, loopAt values depth = some x := by
  have hlt : values.length - 1 - depth < values.length := by omega
  exact ⟨values[values.length - 1 - depth], by
    unfold loopAt
    rw [if_pos h, List.getElem?_eq_getElem hlt]⟩

theorem namedValueType_eq (e : Nat) : namedValueType e = e / 1073741824 * 1073741824 := rfl

/-- `${index()}` and `${len()}` are magic values of their own. -/
theorem type_of_kind {e : Nat}
    (h : e / 256 * 256 = NAMEDVALUE_MAGIC_INDEX_AT ∨ e / 256 * 256 = NAMEDVALUE_MAGIC_LEN_AT) :
    namedValueType e = NAMEDVALUE_TY_MAGIC ∧ e ≠ NAMEDVALUE_MAGIC_CRATE ∧
      e ≠ NAMEDVALUE_MAGIC_INDEX := by
  have hat : NAMEDVALUE_MAGIC_INDEX_AT = 1073742080 := by decide
  have hlen : NAMEDVALUE_MAGIC_LEN_AT = 1073742336 := by decide
  have hcrate : NAMEDVALUE_MAGIC_CRATE = 1073741824 := by decide
  have hmagic : NAMEDVALUE_TY_MAGIC = 1073741824 := by decide
  have hindex : NAMEDVALUE_MAGIC_INDEX = 1073741825 := by decide
  rw [namedValueType_eq, hcrate, hmagic, hindex]
  rw [hat, hlen] at h
  omega

/-- The tokens of `$crate`. -/
theorem magicToken_crate (env : ExpandEnv H) (visit : Visit H F) {exp : MacroExpander H F}
    (hn : exp.nextToken = none) (htt : exp.ttstream = none) :
    ∃ tok exp', magicToken env visit exp NAMEDVALUE_MAGIC_CRATE = .ok (tok, exp') ∧
      crateTokens env = tok.toList ++ waiting exp' ∧ exp'.state = exp.state ∧
      exp'.mappings = exp.mappings := by
  have hw : waiting exp = [] := by
    unfold waiting
    rw [hn, htt]
    rfl
  unfold magicToken crateTokens
  by_cases hname : env.crateName = []
  · rw [if_pos rfl, if_pos hname, if_pos hname]
    by_cases hed : env.rust2018 = true
    · rw [if_pos hed, if_pos hed]
      exact ⟨_, exp, rfl, by rw [hw]; rfl, rfl, rfl⟩
    · rw [if_neg hed, if_neg hed]
      exact ⟨none, exp, rfl, by rw [hw]; rfl, rfl, rfl⟩
  · rw [if_pos rfl, if_neg hname, if_neg hname]
    refine ⟨_, _, rfl, ?_, rfl, rfl⟩
    unfold waiting
    simp only [htt]
    rfl

/-- A named value that is not a variable. -/
theorem namedValueToken_plain (env : ExpandEnv H) {lengths : List Nat} {e : Nat}
    (ht : namedValueType e ≠ 0) (hfits : NamedFits pats ms path lengths e) (exp : MacroExpander H F)
    (hn : exp.nextToken = none) (htt : exp.ttstream = none) :
    ∃ toks tok exp', namedTokens env ms path lengths e = .ok toks ∧
      namedValueToken env ⟨.NamedValue e, path, lengths⟩ exp e = .ok (tok, exp') ∧
      toks = tok.toList ++ waiting exp' ∧ exp'.state = exp.state ∧
      exp'.mappings = exp.mappings := by
  have hw : waiting exp = [] := by
    unfold waiting
    rw [hn, htt]
    rfl
  unfold namedTokens
  obtain ⟨h0, -⟩ | rfl | hi | ⟨hi, hd⟩ | ⟨hi, hd⟩ := hfits
  · exact absurd h0 ht
  · obtain ⟨tok, exp', htok, hcrate, hs, hm⟩ := magicToken_crate env
      ⟨.NamedValue NAMEDVALUE_MAGIC_CRATE, path, lengths⟩ hn htt
    refine ⟨_, tok, exp', ?_, ?_, hcrate, hs, hm⟩
    · rw [if_neg ht, if_pos rfl]
    · exact htok
  · have hne : e ≠ NAMEDVALUE_MAGIC_CRATE := by
      rintro rfl
      exact absurd hi (by decide)
    refine ⟨[], none, exp, ?_, ?_, by rw [hw]; rfl, rfl, rfl⟩
    · rw [if_neg ht, if_neg hne, if_pos hi]
    · unfold namedValueToken
      rw [if_neg ht, hi, if_neg (by decide), if_pos rfl]
  · obtain ⟨i, hloop⟩ := loopAt_of_lt hd
    obtain ⟨hty, hcrate, hindex⟩ := type_of_kind (Or.inl hi)
    refine ⟨_, some (integerToken env i), exp, ?_, ?_, by rw [hw], rfl, rfl⟩
    · rw [if_neg ht, if_neg hcrate, hty, if_neg (by decide), if_pos hi, hloop]
      rfl
    · unfold namedValueToken magicToken
      rw [if_neg ht, hty, if_neg (by decide), if_neg (by decide), if_pos rfl, if_neg hcrate,
        if_neg hindex]
      simp only [if_pos hi, hloop]
  · obtain ⟨n, hloop⟩ := loopAt_of_lt hd
    obtain ⟨hty, hcrate, hindex⟩ := type_of_kind (Or.inr hi)
    have hat : e / 256 * 256 ≠ NAMEDVALUE_MAGIC_INDEX_AT := by
      rw [hi]
      decide
    refine ⟨_, some (integerToken env n), exp, ?_, ?_, by rw [hw], rfl, rfl⟩
    · rw [if_neg ht, if_neg hcrate, hty, if_neg (by decide), if_neg hat, hloop]
      rfl
    · unfold namedValueToken magicToken
      rw [if_neg ht, hty, if_neg (by decide), if_neg (by decide), if_pos rfl, if_neg hcrate,
        if_neg hindex]
      simp only [if_neg hat, if_pos hi, hloop]

/-- **An entry gives its tokens, and uses its captures.** -/
theorem entToken_spec (env : ExpandEnv H) {visit : Visit H F}
    (h : Holds pats boundTts (usage pats ms used (used ++ visit.uses ++ rest)))
    (hof : Match.Of pats ms) (hv : (varsAll pats).Nodup) (hfits : visit.Fits pats ms)
    (hlen : boundTts.mappings.length ≤ NAMEDVALUE_MAGIC_CRATE) (s : MacroExpandState H F) :
    match visit.noText ms with
    | none => ∃ toks tok exp', visit.tokens env ms = .ok toks ∧
        entToken env visit ⟨s, boundTts, none, none, env.hygiene_⟩ = .ok (tok, exp') ∧
        toks = tok.toList ++ waiting exp' ∧ exp'.state = s ∧ SameShape boundTts exp'.mappings ∧
        Holds pats exp'.mappings (usage pats ms (used ++ visit.uses) (used ++ visit.uses ++ rest))
    | some part =>
      entToken env visit ⟨s, boundTts, none, none, env.hygiene_⟩ = .error part.err := by
  obtain ⟨ent, path, lengths⟩ := visit
  cases ent with
  | Token t =>
    exact ⟨_, some (contentToken env t).1, _, rfl, rfl, rfl, rfl, SameShape.rfl, by
      simpa [Visit.uses] using h⟩
  | Loop es j c =>
    cases j with
    | none => exact absurd hfits (by simp [Visit.Fits])
    | some j =>
      exact ⟨_, some (setAlone j), _, rfl, rfl, rfl, rfl, SameShape.rfl, by
        simpa [Visit.uses] using h⟩
  | Concat ents =>
    have hspec := concat_spec env h hof hv hfits hlen []
    simp only [Visit.noText]
    cases hfind : ents.find? fun ent => ent.noText ms path with
    | some part =>
      simp only [hfind] at hspec ⊢
      unfold entToken
      simp only [hspec]
    | none =>
      simp only [hfind] at hspec ⊢
      obtain ⟨text, b', hcode, hall, hs, hh⟩ := hspec
      refine ⟨[.lexed .IDENT text env.hygiene_ .Alone],
        some (.lexed .IDENT text env.hygiene_ .Alone),
        ⟨s, b', none, none, env.hygiene_⟩, ?_, ?_, rfl, rfl, hs, hh⟩
      · unfold Visit.tokens concatTokens
        simp only [hcode]
      · unfold entToken
        simp only [hall, List.nil_append]
  | NamedValue e =>
    simp only [Visit.noText]
    by_cases ht : namedValueType e = 0
    · -- a variable
      obtain ⟨hmem, frag, hcap⟩ : loopsOf e pats ≠ [] ∧ ∃ frag, capAt e ms path = some frag := by
        obtain ⟨-, hvar⟩ | rfl | hi | ⟨hi, -⟩ | ⟨hi, -⟩ := hfits
        · exact hvar
        · exact absurd ht (by decide)
        · exact absurd (ht.symm.trans hi) (by decide)
        · exact absurd (ht.symm.trans (type_of_kind (Or.inl hi)).1) (by decide)
        · exact absurd (ht.symm.trans (type_of_kind (Or.inr hi)).1) (by decide)
      simp only [Visit.uses, if_pos ht] at h ⊢
      rw [List.append_assoc, List.singleton_append] at h ⊢
      obtain ⟨hget, more, b₁, hdec, -, b₂, htake, hs, hh⟩ := h.take hof hv hmem hcap
      have htoks : Visit.tokens env ms ⟨.NamedValue e, path, lengths⟩ = .ok frag.tokens := by
        unfold Visit.tokens namedTokens
        simp only [if_pos ht, hcap]
      simp only [entToken, namedValueToken, if_pos ht]
      unfold variableToken
      simp only [hget, hdec, htake]
      cases frag with
      | TT tok toks =>
        exact ⟨_, some tok, ⟨s, b₂, none, some toks, env.hygiene_⟩, htoks, rfl, rfl, rfl, hs, hh⟩
      | other f =>
        exact ⟨_, some (.interpolated f), ⟨s, b₂, none, none, env.hygiene_⟩, htoks, rfl, rfl, rfl,
          hs, hh⟩
    · obtain ⟨toks, tok, exp', htoks, hcode, hw, hs, hm⟩ := namedValueToken_plain env ht
        hfits ⟨s, boundTts, none, none, env.hygiene_⟩ rfl rfl
      refine ⟨toks, tok, exp', htoks, hcode, hw, hs, ?_, ?_⟩
      · rw [hm]
        exact SameShape.rfl
      · rw [hm]
        simpa [Visit.uses, ht] using h

/-! ## 3. A run of the expander -/

section Run

variable (env : ExpandEnv H) {contents : List (MacroExpansionEnt H F)}

/-- What waits is read first. -/
theorem emits_waiting (exp : MacroExpander H F) :
    ∃ h, Next.Emits (expandStep env contents) exp (waiting exp)
      ⟨exp.state, exp.mappings, none, none, h⟩ := by
  obtain ⟨s, b, nt, tt, h⟩ := exp
  have hstream : ∀ h, ∃ h', Next.Emits (expandStep env contents)
      (⟨s, b, none, tt, h⟩ : MacroExpander H F) (tt.getD []) ⟨s, b, none, none, h'⟩ := by
    intro h
    cases tt with
    | none => exact ⟨h, Next.Emits.refl _⟩
    | some toks =>
      induction toks generalizing h with
      | nil => exact ⟨env.hygiene_, Next.Emits.step_again rfl⟩
      | cons tok toks ih =>
        obtain ⟨h', hrun⟩ := ih env.hygiene_
        exact ⟨h', Next.Emits.emit rfl hrun⟩
  cases nt with
  | none => exact hstream h
  | some tok =>
    obtain ⟨h', hrun⟩ := hstream env.hygiene_
    exact ⟨h', Next.Emits.emit rfl hrun⟩

/-- **The expander over visits**: their tokens, or the failure at the first part without a text. -/
theorem expand_visits (hof : Match.Of pats ms) (hv : (varsAll pats).Nodup)
    {repeats : List Nat → Nat → Except Err Nat} {s t : MacroExpandState H F}
    {visits : List (Visit H F)}
    (hrun : Next.Emits (MacroExpandState.nextStep repeats contents) s visits t)
    (hfits : ∀ visit ∈ visits, visit.Fits pats ms) {used rest : List Use}
    (h : Holds pats boundTts (usage pats ms used (used ++ visits.flatMap Visit.uses ++ rest)))
    (hrep : boundTts.getLoopRepeats = repeats)
    (hlen : boundTts.mappings.length ≤ NAMEDVALUE_MAGIC_CRATE) (hyg : H) :
    match visits.findSome? (Visit.noText ms) with
    | none => ∃ toks b' hyg', collectAll env ms visits = .ok toks ∧
        Next.Emits (expandStep env contents) ⟨s, boundTts, none, none, hyg⟩ toks
          ⟨t, b', none, none, hyg'⟩ ∧
        SameShape boundTts b' ∧
        Holds pats b' (usage pats ms (used ++ visits.flatMap Visit.uses)
          (used ++ visits.flatMap Visit.uses ++ rest))
    | some part => ∃ toks exp,
        Next.Emits (expandStep env contents) ⟨s, boundTts, none, none, hyg⟩ toks exp ∧
        expandStep env contents exp = .fail part.err := by
  induction hrun generalizing boundTts used hyg with
  | refl s => exact ⟨[], boundTts, hyg, rfl, Next.Emits.refl _, SameShape.rfl, by simpa using h⟩
  | @again s s' t vs hs hr ih =>
    have hstep : expandStep env contents ⟨s, boundTts, none, none, hyg⟩
        = .again ⟨s', boundTts, none, none, env.hygiene_⟩ := by
      unfold expandStep
      simp only [hrep, hs]
    have hrest := ih hfits h hrep hlen env.hygiene_
    cases hfind : vs.findSome? (Visit.noText ms) with
    | none =>
      simp only [hfind] at hrest ⊢
      obtain ⟨toks, b', hyg', hcollect, hrun, hshape, hh⟩ := hrest
      exact ⟨toks, b', hyg', hcollect, Next.Emits.again hstep hrun, hshape, hh⟩
    | some part =>
      simp only [hfind] at hrest ⊢
      obtain ⟨toks, exp, hrun, hfail⟩ := hrest
      exact ⟨toks, exp, Next.Emits.again hstep hrun, hfail⟩
  | @emit s s' t visit vs hs hr ih =>
    rw [List.flatMap_cons, ← List.append_assoc, List.append_assoc (used ++ visit.uses)] at h
    have hspec := entToken_spec env h hof hv (hfits visit List.mem_cons_self) hlen s'
    rw [List.findSome?_cons]
    cases hno : visit.noText ms with
    | some part =>
      simp only [hno] at hspec ⊢
      refine ⟨[], _, Next.Emits.refl _, ?_⟩
      unfold expandStep
      simp only [hrep, hs, hspec]
    | none =>
      simp only [hno] at hspec ⊢
      obtain ⟨toks, tok, exp, htoks, hcode, hw, rfl, hshape, hh⟩ := hspec
      -- the token that is returned, and then what waits
      have hfirst : Next.Emits (expandStep env contents) ⟨s, boundTts, none, none, hyg⟩ tok.toList
          exp := by
        cases tok with
        | none =>
          refine Next.Emits.step_again ?_
          unfold expandStep
          simp only [hrep, hs, hcode]
        | some tok =>
          refine Next.Emits.step_emit ?_
          unfold expandStep
          simp only [hrep, hs, hcode]
      obtain ⟨hyg₁, hwait⟩ := emits_waiting env exp
      have hhead := hfirst.trans hwait
      rw [← hw] at hhead
      rw [← List.append_assoc (used ++ visit.uses)] at hh
      have hrest := ih (fun v hv => hfits v (List.mem_cons_of_mem _ hv)) hh
        (by rw [hshape.getLoopRepeats, hrep]) (by rw [hshape.length]; exact hlen) hyg₁
      cases hfind : vs.findSome? (Visit.noText ms) with
      | none =>
        simp only [hfind] at hrest ⊢
        obtain ⟨toks', b', hyg', hcollect, hrun, hshape', hh'⟩ := hrest
        refine ⟨toks ++ toks', b', hyg', ?_, hhead.trans hrun, hshape.trans hshape', ?_⟩
        · rw [collectAll, htoks, hcollect]
          rfl
        · rw [List.flatMap_cons, ← List.append_assoc]
          exact hh'
      | some part =>
        simp only [hfind] at hrest ⊢
        obtain ⟨toks', exp', hrun, hfail⟩ := hrest
        exact ⟨toks ++ toks', exp', hhead.trans hrun, hfail⟩

end Run

/-! ## 4. The errors of the reference -/

section Errors

variable {env : ExpandEnv H}

/-- The errors are those of the user. -/
def UserOnly {α : Type} (a : Except Err (List α)) : Prop := ∀ e, a = .error e → e = .user

theorem UserOnly.both {α : Type} {a b : Except Err (List α)} (h : UserOnly a) (h' : UserOnly b) :
    UserOnly (both a b) := by
  intro e he
  cases a with
  | error e' =>
    obtain rfl : e' = e := Except.error.inj he
    exact h e' rfl
  | ok xs =>
    cases b with
    | error e' =>
      obtain rfl : e' = e := Except.error.inj he
      exact h' e' rfl
    | ok ys => exact absurd he (by simp [Macro.both])

theorem userOnly_ok {α : Type} (xs : List α) : UserOnly (.ok xs : Except Err (List α)) :=
  fun e he => by simp at he

theorem userOnly_user {α : Type} : UserOnly (.error .user : Except Err (List α)) :=
  fun _ he => (Except.error.inj he).symm

theorem userOnly_concatText {path : List Nat} (ents : List MacroExpansionConcatEnt) :
    UserOnly (concatText env ms path ents) := by
  induction ents with
  | nil => exact userOnly_ok []
  | cons ent ents ih =>
    cases ent with
    | Ident name => exact (userOnly_ok name).both ih
    | Named v =>
      unfold concatText
      by_cases hv : v = NAMEDVALUE_MAGIC_CRATE
      · rw [if_pos hv]
        exact (userOnly_ok _).both ih
      · rw [if_neg hv]
        cases partText ms path v with
        | none => exact userOnly_user
        | some text => exact (userOnly_ok text).both ih

theorem userOnly_namedTokens {path lengths : List Nat} {e : Nat} :
    UserOnly (namedTokens env ms path lengths e) := by
  unfold namedTokens
  split_ifs
  · cases capAt e ms path with
    | none => exact userOnly_user
    | some frag => exact userOnly_ok _
  · exact userOnly_ok _
  · exact userOnly_ok _
  · cases loopAt path (e % 256) with
    | none => exact userOnly_user
    | some i => exact userOnly_ok _
  · cases loopAt lengths (e % 256) with
    | none => exact userOnly_user
    | some n => exact userOnly_ok _

theorem userOnly_tokens (visit : Visit H F) : UserOnly (visit.tokens env ms) := by
  obtain ⟨ent, path, lengths⟩ := visit
  cases ent with
  | Token t => exact userOnly_ok _
  | Loop es j c => exact userOnly_ok _
  | NamedValue e => exact userOnly_namedTokens
  | Concat ents =>
    intro e he
    unfold Visit.tokens concatTokens at he
    cases hc : concatText env ms path ents with
    | error e' =>
      simp only [hc] at he
      obtain rfl : e' = e := Except.error.inj he
      exact userOnly_concatText ents e' hc
    | ok text => simp [hc] at he

theorem userOnly_collectAll (visits : List (Visit H F)) : UserOnly (collectAll env ms visits) := by
  induction visits with
  | nil => exact userOnly_ok []
  | cons visit visits ih => exact (userOnly_tokens visit).both ih

/-- Without a text of a part that is not `$crate` there is no text. -/
theorem concatText_noText (env : ExpandEnv H) {path : List Nat}
    {ents : List MacroExpansionConcatEnt}
    {part : MacroExpansionConcatEnt} (h : (ents.find? fun ent => ent.noText ms path) = some part)
    (hne : part ≠ .Named NAMEDVALUE_MAGIC_CRATE) : ∃ e, concatText env ms path ents = .error e := by
  induction ents with
  | nil => simp at h
  | cons ent ents ih =>
    rw [List.find?_cons] at h
    cases htext : ent.noText ms path with
    | true =>
      simp only [htext] at h
      obtain rfl := Option.some.inj h
      cases ent with
      | Ident name => simp [MacroExpansionConcatEnt.noText] at htext
      | Named v =>
        have hv : v ≠ NAMEDVALUE_MAGIC_CRATE := fun hv => hne (by rw [hv])
        have hpart : partText ms path v = none := by
          simpa [MacroExpansionConcatEnt.noText, hv] using htext
        exact ⟨.user, by rw [concatText, if_neg hv, hpart]⟩
    | false =>
      simp only [htext] at h
      obtain ⟨e, he⟩ := ih h
      cases ent with
      | Ident name => exact ⟨e, by rw [concatText, he]; rfl⟩
      | Named v =>
        by_cases hv : v = NAMEDVALUE_MAGIC_CRATE
        · exact ⟨e, by rw [concatText, if_pos hv, he]; rfl⟩
        · cases hpart : partText ms path v with
          | none => exact ⟨.user, by rw [concatText, if_neg hv, hpart]⟩
          | some text => exact ⟨e, by rw [concatText, if_neg hv, hpart, he]; rfl⟩

theorem collectAll_noText {visits : List (Visit H F)} {part : MacroExpansionConcatEnt}
    (h : visits.findSome? (Visit.noText ms) = some part)
    (hne : part ≠ .Named NAMEDVALUE_MAGIC_CRATE) : collectAll env ms visits = .error .user := by
  have herr : ∃ e, collectAll env ms visits = .error e := by
    induction visits with
    | nil => simp at h
    | cons visit visits ih =>
      rw [List.findSome?_cons] at h
      rw [collectAll]
      cases hno : visit.noText ms with
      | none =>
        simp only [hno] at h
        obtain ⟨e, he⟩ := ih h
        rw [he]
        cases visit.tokens env ms with
        | error e' => exact ⟨e', rfl⟩
        | ok toks => exact ⟨e, rfl⟩
      | some part' =>
        simp only [hno] at h
        obtain rfl : part' = part := Option.some.inj h
        obtain ⟨ent, path, lengths⟩ := visit
        cases ent with
        | Token t => simp [Visit.noText] at hno
        | Loop es j c => simp [Visit.noText] at hno
        | NamedValue e => simp [Visit.noText] at hno
        | Concat ents =>
          obtain ⟨e, he⟩ := concatText_noText env hno hne
          refine ⟨e, ?_⟩
          unfold Visit.tokens concatTokens
          simp only [he]
          rfl
  obtain ⟨e, he⟩ := herr
  rw [he, userOnly_collectAll visits e he]

end Errors

end Parts

/-! ## 5. A matched arm -/

/-- Every capture has been used as often as it was counted, and moved out if it was used at all. -/
def Spent (pats : List MacroPatEnt) (boundTts : ParameterMappings H F) : Prop :=
  ∃ caps, Holds pats boundTts caps ∧ ∀ v path cap, caps v path = some cap →
    cap.numUsed = cap.numUses ∧ (cap.frag = none ↔ 0 < cap.numUses)

/-- With enough fuel the expander gives the reference expansion, or its error. -/
def Transcribes (env : ExpandEnv H) (pats : List MacroPatEnt) (ms : List (Match H F))
    (variableCount : Nat) (contents : List (MacroExpansionEnt H F)) : Prop :=
  ∃ N, ∀ fuel ≥ N,
    match transcribeAll env ms contents [] [] with
    | .error e => invokeRules fuel env ms variableCount contents = some (.error e)
    | .ok toks => ∃ exp, invokeRules fuel env ms variableCount contents = some (.ok (toks, exp)) ∧
        Spent pats exp.mappings

theorem foldlM_collect {α : Type} (xs ys : List α) :
    ys.foldlM (fun zs y => (.ok (zs ++ [y]) : Except Err (List α))) xs = .ok (xs ++ ys) := by
  induction ys generalizing xs with
  | nil =>
    rw [List.append_nil]
    rfl
  | cons y ys ih =>
    rw [List.foldlM_cons]
    refine (ih (xs ++ [y])).trans ?_
    rw [List.append_assoc, List.singleton_append]

section Arm

variable {env : ExpandEnv H} {pats : List MacroPatEnt} {ms : List (Match H F)}
  {boundTts : ParameterMappings H F}

theorem spent_usage {total : List Use} (h : Holds pats boundTts (usage pats ms total total)) :
    Spent pats boundTts := by
  refine ⟨_, h, fun v path cap hcap => ?_⟩
  unfold usage at hcap
  obtain ⟨frag, -, rfl⟩ := Option.map_eq_some_iff.1 hcap
  refine ⟨rfl, ?_⟩
  by_cases hpos : 0 < usesOf pats v path total
  · simp [hpos]
  · simp [hpos]

theorem userOnly_collect (env : ExpandEnv H) (ms : List (Match H F))
    {tr : Next.Trace (Visit H F) Err} (h : ∀ e, tr.failure = some e → e = .user) :
    UserOnly (collect env ms tr) := by
  refine (userOnly_collectAll tr.emitted).both ?_
  cases hf : tr.failure with
  | none => exact userOnly_ok []
  | some e =>
    obtain rfl := h e hf
    exact userOnly_user

variable {contents : List (MacroExpansionEnt H F)}

/-- What the expansion of an arm that has been counted comes to. -/
theorem expandAll_spec (env : ExpandEnv H) {t : MacroExpandState H F} {visits : List (Visit H F)}
    (hof : Match.Of pats ms) (hv : (varsAll pats).Nodup)
    (hrun : Next.Emits (MacroExpandState.nextStep boundTts.getLoopRepeats contents)
      (MacroExpandState.new contents) visits t)
    (hdone : MacroExpandState.nextStep boundTts.getLoopRepeats contents t = .done)
    (hfits : ∀ visit ∈ visits, visit.Fits pats ms)
    (h : Holds pats boundTts (usage pats ms [] (visits.flatMap Visit.uses)))
    (hlen : boundTts.mappings.length ≤ NAMEDVALUE_MAGIC_CRATE) :
    match visits.findSome? (Visit.noText ms) with
    | none => ∃ toks exp N, collectAll env ms visits = .ok toks ∧ Spent pats exp.mappings ∧
        ∀ fuel ≥ N, expandAll fuel env contents boundTts = some (.ok (toks, exp))
    | some part => ∃ N, ∀ fuel ≥ N,
        expandAll fuel env contents boundTts = some (.error part.err) := by
  have hstart : Holds pats boundTts
      (usage pats ms [] ([] ++ visits.flatMap Visit.uses ++ [])) := by simpa using h
  have hspec := expand_visits env hof hv hrun hfits hstart rfl hlen env.hygiene_
  cases hfind : visits.findSome? (Visit.noText ms) with
  | none =>
    simp only [hfind] at hspec ⊢
    obtain ⟨toks, b', hyg', hcollect, hemits, hshape, hh⟩ := hspec
    have hend : expandStep env contents ⟨t, b', none, none, hyg'⟩ = .done := by
      unfold expandStep
      simp only [hshape.getLoopRepeats, hdone]
    have hgoes : Next.Goes (expandStep env contents)
        ⟨MacroExpandState.new contents, boundTts, none, none, env.hygiene_⟩ ⟨toks, none⟩
        ⟨t, b', none, none, hyg'⟩ := hemits
    obtain ⟨N, hN⟩ := Next.consume_of_goes (f := fun toks tok => .ok (toks ++ [tok])) hgoes
      (fun _ => hend) []
    rw [List.append_nil] at hh
    have hspent : Spent pats b' := spent_usage hh
    refine ⟨toks, ⟨t, b', none, none, hyg'⟩, N, hcollect, hspent, fun fuel hfuel => ?_⟩
    unfold expandAll
    rw [hN fuel hfuel, Next.outcome]
    simp only [foldlM_collect, List.nil_append]
  | some part =>
    simp only [hfind] at hspec ⊢
    obtain ⟨toks, exp, hemits, hfail⟩ := hspec
    have hgoes : Next.Goes (expandStep env contents)
        ⟨MacroExpandState.new contents, boundTts, none, none, env.hygiene_⟩
        ⟨toks, some part.err⟩ exp := ⟨exp, hemits, hfail⟩
    obtain ⟨N, hN⟩ := Next.consume_of_goes (f := fun toks tok => .ok (toks ++ [tok])) hgoes
      (fun he => by simp at he) []
    refine ⟨N, fun fuel hfuel => ?_⟩
    unfold expandAll
    rw [hN fuel hfuel, Next.outcome]
    simp only [foldlM_collect]

/-- **What a matched arm comes to**: an error where loops do not agree; else the tokens, or the
    failure at the first part without a text. -/
theorem invokeRules_spec (env : ExpandEnv H) {variableCount : Nat} (hof : Match.Of pats ms)
    (hv : (varsAll pats).Nodup) (hl : (loopsAll pats).Nodup)
    (hcount : ∀ v ∈ varsAll pats, v < variableCount) (hsize : variableCount ≤ 2 ^ 30)
    (henc : EnclosedAll pats contents []) :
    match (visitsAll (timesAt ms) contents [] []).failure with
    | some _ => ∃ N, ∀ fuel ≥ N,
        invokeRules fuel env ms variableCount contents = some (.error .user)
    | none =>
      match (visitsAll (timesAt ms) contents [] []).emitted.findSome? (Visit.noText ms) with
      | none => ∃ toks exp N,
          collectAll env ms (visitsAll (timesAt ms) contents [] []).emitted = .ok toks ∧
          Spent pats exp.mappings ∧
          ∀ fuel ≥ N, invokeRules fuel env ms variableCount contents = some (.ok (toks, exp))
      | some part => ∃ N, ∀ fuel ≥ N,
          invokeRules fuel env ms variableCount contents = some (.error part.err) := by
  obtain ⟨b, hbind, hlen, hholds, hcounts⟩ := bindArm_holds hof hv hl hcount
  rw [← usage_nil] at hholds
  obtain ⟨htr, hfits, huser⟩ := visitsAll_fit hof hl hcounts contents henc Live.nil
  obtain ⟨t, hgoes, hdone⟩ := MacroExpandState.goes_visits b.getLoopRepeats contents
  rw [htr] at hgoes
  obtain ⟨b₁, hfold, hshape, hholds₁⟩ := countVisits_ok hholds hof hv hfits
  obtain ⟨N, hN⟩ := Next.consume_of_goes (f := countEnt) hgoes (fun _ => hdone) b
  cases hf : (visitsAll (timesAt ms) contents [] []).failure with
  | some e =>
    obtain rfl := huser e hf
    refine ⟨N, fun fuel hfuel => ?_⟩
    unfold invokeRules countSubstUses
    rw [hbind]
    simp only [hN fuel hfuel, Next.outcome, hfold, hf]
  | none =>
    have hcode : ∀ fuel ≥ N, invokeRules fuel env ms variableCount contents
        = expandAll fuel env contents b₁ := by
      intro fuel hfuel
      unfold invokeRules countSubstUses
      rw [hbind]
      simp only [hN fuel hfuel, Next.outcome, hfold, hf]
    have hspec := expandAll_spec env hof hv
      (by rw [hshape.getLoopRepeats]; exact hgoes.emits hf)
      (by rw [hshape.getLoopRepeats]; exact hdone) hfits (by simpa using hholds₁)
      (by rw [hshape.length]; exact Nat.le_trans hlen hsize)
    cases hfind : (visitsAll (timesAt ms) contents [] []).emitted.findSome? (Visit.noText ms) with
    | none =>
      simp only [hfind] at hspec ⊢
      obtain ⟨toks, exp, N', htoks, hspent, hrun⟩ := hspec
      refine ⟨toks, exp, max N N', htoks, hspent, fun fuel hfuel => ?_⟩
      rw [hcode fuel (by omega), hrun fuel (by omega)]
    | some part =>
      simp only [hfind] at hspec ⊢
      obtain ⟨N', hrun⟩ := hspec
      refine ⟨max N N', fun fuel hfuel => ?_⟩
      rw [hcode fuel (by omega), hrun fuel (by omega)]

/-- A run that comes to `$crate` in a concatenation breaks an assumption, and the reference has no
    such error. -/
theorem CrateReached.not_transcribes {variableCount : Nat} (h : CrateReached ms contents)
    (hof : Match.Of pats ms) (hv : (varsAll pats).Nodup) (hl : (loopsAll pats).Nodup)
    (hcount : ∀ v ∈ varsAll pats, v < variableCount) (hsize : variableCount ≤ 2 ^ 30)
    (henc : EnclosedAll pats contents []) : ¬ Transcribes env pats ms variableCount contents := by
  intro ⟨N', htrans⟩
  have hspec := invokeRules_spec env hof hv hl hcount hsize henc
  obtain ⟨hf, hfind⟩ := h
  simp only [hf, hfind] at hspec
  obtain ⟨N, hrun⟩ := hspec
  have hlast := htrans (max N N') (by omega)
  rw [hrun _ (by omega), transcribeAll_eq_collect] at hlast
  have huser : ∀ e, (visitsAll (timesAt ms) contents [] []).failure = some e → e = .user :=
    fun e he => by rw [hf] at he; simp at he
  have honly := userOnly_collect env ms huser
  cases hc : collect env ms (visitsAll (timesAt ms) contents [] []) with
  | error e =>
    rw [hc] at hlast
    obtain rfl := honly e hc
    simp [MacroExpansionConcatEnt.err] at hlast
  | ok toks =>
    rw [hc] at hlast
    obtain ⟨exp, he, -⟩ := hlast
    simp at he

/-- **An expander yields the reference expansion, with every capture moved out at its last use and
    not read after it, if and only if it does not come to `$crate` in a concatenation.** -/
theorem transcribes_iff {variableCount : Nat} {contents : List (MacroExpansionEnt H F)}
    (hof : Match.Of pats ms) (hv : (varsAll pats).Nodup) (hl : (loopsAll pats).Nodup)
    (hcount : ∀ v ∈ varsAll pats, v < variableCount) (hsize : variableCount ≤ 2 ^ 30)
    (henc : EnclosedAll pats contents []) :
    Transcribes env pats ms variableCount contents ↔ ¬ CrateReached ms contents := by
  refine ⟨fun h hcrate => hcrate.not_transcribes hof hv hl hcount hsize henc h, fun hnot => ?_⟩
  have hspec := invokeRules_spec env hof hv hl hcount hsize henc
  have huser := (visitsAll_fit hof hl (bindArm_holds hof hv hl hcount).choose_spec.2.2.2 contents
    henc Live.nil).2.2
  have honly := userOnly_collect env ms huser
  unfold Transcribes
  rw [transcribeAll_eq_collect]
  cases hf : (visitsAll (timesAt ms) contents [] []).failure with
  | some e =>
    simp only [hf] at hspec
    have herr : ∃ e', collect env ms (visitsAll (timesAt ms) contents [] []) = .error e' := by
      unfold collect
      rw [hf]
      cases collectAll env ms (visitsAll (timesAt ms) contents [] []).emitted with
      | error e' => exact ⟨e', rfl⟩
      | ok toks => exact ⟨e, rfl⟩
    obtain ⟨e', he'⟩ := herr
    rw [he', honly e' he']
    exact hspec
  | none =>
    have hcollect : collect env ms (visitsAll (timesAt ms) contents [] [])
        = collectAll env ms (visitsAll (timesAt ms) contents [] []).emitted := by
      unfold collect
      rw [hf, both_nil]
    rw [hcollect]
    cases hfind : (visitsAll (timesAt ms) contents [] []).emitted.findSome? (Visit.noText ms) with
    | none =>
      simp only [hf, hfind] at hspec
      obtain ⟨toks, exp, N, htoks, hspent, hrun⟩ := hspec
      rw [htoks]
      exact ⟨N, fun fuel hfuel => ⟨exp, hrun fuel hfuel, hspent⟩⟩
    | some part =>
      have hne : part ≠ .Named NAMEDVALUE_MAGIC_CRATE := by
        intro hpart
        rw [hpart] at hfind
        exact hnot ⟨hf, hfind⟩
      simp only [hf, hfind] at hspec
      rw [collectAll_noText hfind hne]
      rw [MacroExpansionConcatEnt.err, if_neg hne] at hspec
      exact hspec

end Arm

/-! ## 6. An arm with a loop -/

section Examples

/-- An expander of a macro of a crate of this name. -/
def crateEnv (crateName : List Char) : ExpandEnv Nat :=
  ⟨false, true, 0, 0, fun h hygiene_ _ => h + hygiene_, crateName, true⟩

/-- `$($a:ident),*` -/
def listPats : List MacroPatEnt := [.loop 0 [.frag 0, .token]]

/-- `x, y` -/
def listMatch : List (Match Nat Nat) :=
  [.loop 0 [[.cap 0 (.TT (.lexed .IDENT ['x'] 1 .Alone) []), .token],
    [.cap 0 (.TT (.lexed .IDENT ['y'] 1 .Alone) []), .token]]]

theorem listMatch_of : Match.Of listPats listMatch :=
  .cons (.loop 0 _ _ (.cons (.cons (.cap 0 _) (.cons .token .nil))
    (.cons (.cons (.cap 0 _) (.cons .token .nil)) (.nil _)))) .nil

/-- `$($a ${concat(get_, $a)});*` -/
def getContents : List (MacroExpansionEnt Nat Nat) :=
  [.Loop [.NamedValue 0, .Concat [.Ident ['g', 'e', 't', '_'], .Named 0]]
    (some (.lexed (.other 0) [';'] 0 .Joint)) [0]]

/-- `$(${concat($crate, $a)})*` -/
def crateContents : List (MacroExpansionEnt Nat Nat) :=
  [.Loop [.Concat [.Named NAMEDVALUE_MAGIC_CRATE, .Named 0]] none [0]]

theorem varEnclosed_list : VarEnclosed listPats [[0]] 0 :=
  ⟨[0], by decide, fun j l h => by
    cases j with
    | zero => exact ⟨[0], rfl, by simpa using h.symm⟩
    | succ j => simp at h⟩

theorem enclosed_list : ∀ l ∈ [0], ∃ ls ∈ loopsTo l listPats,
    ls.length = ([] : List (List Nat)).length ∧ Encloses ls [] := by
  intro l hl
  obtain rfl := List.mem_singleton.1 hl
  exact ⟨[], by decide, rfl, fun j l h => by simp at h⟩

theorem enclosed_getContents : EnclosedAll listPats getContents [] := by
  refine ⟨⟨enclosed_list, Or.inl ⟨by decide, varEnclosed_list⟩, fun ent hent => ?_, trivial⟩,
    trivial⟩
  obtain rfl | hent := List.mem_cons.1 hent
  · trivial
  · obtain rfl := List.mem_singleton.1 hent
    exact Or.inl ⟨by decide, varEnclosed_list⟩

theorem enclosed_crateContents : EnclosedAll listPats crateContents [] := by
  refine ⟨⟨enclosed_list, fun ent hent => ?_, trivial⟩, trivial⟩
  obtain rfl | hent := List.mem_cons.1 hent
  · exact Or.inr rfl
  · obtain rfl := List.mem_singleton.1 hent
    exact Or.inl ⟨by decide, varEnclosed_list⟩

theorem transcribes_iff_getContents :
    Transcribes (crateEnv ['c']) listPats listMatch 1 getContents :=
  (transcribes_iff listMatch_of (by decide) (by decide) (by decide) (by decide)
    enclosed_getContents).2 fun h => absurd h.2 (by decide)

/-- The expansion of an arm with a part `$crate` breaks an assumption. -/
theorem not_transcribes_crateContents :
    ¬ Transcribes (crateEnv ['c']) listPats listMatch 1 crateContents :=
  CrateReached.not_transcribes ⟨by decide, by decide⟩ listMatch_of (by decide)
    (by decide) (by decide) (by decide) enclosed_crateContents

end Examples

end Trustme.Macro
