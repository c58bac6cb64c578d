/-
  Subject:   Captures are counted in the first run as often as they are used in the second one.

  A use is a variable and a path of iterations. The mappings are described by the uses that have
  been counted and those that have been made: a fragment is there until its last use.

  * `usage`: what mappings hold after some uses;
  * `Holds.incCount`, `Holds.take`: a use that is counted, and one that is made;
  * `countVisits_ok`: the counting run.
-/
import Trustme.Macro.Transcribe

namespace Trustme.Macro

open Lib

variable {H F : Type}

/-! ## 1. Uses -/

/-- A variable, and the iterations where it is used. -/
abbrev Use := Nat × List Nat

def MacroExpansionConcatEnt.uses (path : List Nat) : MacroExpansionConcatEnt → List Use
  | .Ident _ => []
  | .Named v => if namedValueType v = 0 then [(v, path)] else []

def Visit.uses (visit : Visit H F) : List Use :=
  match visit.ent with
  | .Token _ => []
  | .Loop _ _ _ => []
  | .NamedValue e => if namedValueType e = 0 then [(e, visit.iterations)] else []
  | .Concat ents => ents.flatMap fun ent => ent.uses visit.iterations

section Usage

variable (pats : List MacroPatEnt) (ms : List (Match H F))

/-- The number of loops around a variable. -/
def depthOf (v : Nat) : Nat := ((loopsOf v pats).headD []).length

/-- How many of the uses are of the capture of a variable on a path. -/
def usesOf (v : Nat) (path : List Nat) (uses : List Use) : Nat :=
  uses.countP fun u => u.1 == v && u.2.take (depthOf pats v) == path.take (depthOf pats v)

/-- The captures when the uses `total` have been counted, and `used` have been made. -/
def usage (used total : List Use) (v : Nat) (path : List Nat) : Option (CapturedVal H F) :=
  (capAt v ms path).map fun frag =>
    ⟨usesOf pats v path total, usesOf pats v path used,
      if 0 < usesOf pats v path used ∧ usesOf pats v path used = usesOf pats v path total then none
      else some frag⟩

end Usage

section Steps

variable {pats : List MacroPatEnt} {ms : List (Match H F)} {boundTts : ParameterMappings H F}

theorem usage_nil :
    usage pats ms [] [] = fun v path => (capAt v ms path).map CapturedVal.fresh := by
  funext v path
  unfold usage usesOf CapturedVal.fresh
  simp

theorem depthOf_eq (hv : (varsAll pats).Nodup) {v : Nat} {ls : List Nat}
    (hls : ls ∈ loopsOf v pats) : depthOf pats v = ls.length := by
  unfold depthOf
  rw [loopsOf_unique hv hls]
  rfl

variable {path path' : List Nat}

/-- A capture depends on as many iterations as there are loops around its variable. -/
theorem capAt_congr (hof : Match.Of pats ms) (hv : (varsAll pats).Nodup) {v : Nat}
    (hmem : loopsOf v pats ≠ []) (h : path'.take (depthOf pats v) = path.take (depthOf pats v)) :
    capAt v ms path' = capAt v ms path := by
  obtain ⟨ls, hls⟩ := List.exists_mem_of_ne_nil _ hmem
  obtain ⟨t, -, hget⟩ := all_tree (selects_capOf v) pats hof (loopsOf_unique hv hls)
  rw [depthOf_eq hv hls] at h
  unfold capAt
  rw [← hget path', ← hget path, ← Lib.Ragged.get_take, h, Lib.Ragged.get_take]

theorem usesOf_append (v : Nat) (path : List Nat) (us us' : List Use) :
    usesOf pats v path (us ++ us') = usesOf pats v path us + usesOf pats v path us' := by
  unfold usesOf
  rw [List.countP_append]

theorem usesOf_self (v : Nat) (path : List Nat) : usesOf pats v path [(v, path)] = 1 := by
  unfold usesOf
  simp

/-- A use, on the path of another one. -/
theorem usesOf_single (v v' : Nat) (path path' : List Nat) :
    usesOf pats v' path' [(v, path)]
      = if v' = v ∧ path'.take (depthOf pats v) = path.take (depthOf pats v) then 1 else 0 := by
  unfold usesOf
  by_cases hv : v' = v
  · subst hv
    by_cases hp : path'.take (depthOf pats v') = path.take (depthOf pats v')
    · simp [hp]
    · simp [hp, Ne.symm hp]
  · simp [hv, Ne.symm hv]

theorem usesOf_congr {v : Nat} (h : path'.take (depthOf pats v) = path.take (depthOf pats v))
    (uses : List Use) :
    usesOf pats v path' uses = usesOf pats v path uses := by
  unfold usesOf
  rw [h]

/-! ## 2. A use -/

variable {total : List Use}

/-- One use changes the captures on its path only. -/
theorem update_usage (hof : Match.Of pats ms) (hv : (varsAll pats).Nodup) {v : Nat}
    (hmem : loopsOf v pats ≠ []) {frag : InterpolatedFragment H F}
    (hcap : capAt v ms path = some frag) {used : List Use} (used' total' : List Use)
    {cap : CapturedVal H F} (hnew : usage pats ms used' total' v path = some cap)
    (hother : ∀ v' path', ¬ (v' = v ∧ path'.take (depthOf pats v) = path.take (depthOf pats v)) →
      usesOf pats v' path' used' = usesOf pats v' path' used ∧
        usesOf pats v' path' total' = usesOf pats v' path' total) :
    update (usage pats ms used total) v (depthOf pats v) path cap = usage pats ms used' total' := by
  funext v' path'
  unfold update
  by_cases h : v' = v ∧ path'.take (depthOf pats v) = path.take (depthOf pats v)
  · obtain ⟨rfl, hp⟩ := h
    rw [if_pos ⟨rfl, hp⟩, ← hnew]
    unfold usage
    rw [capAt_congr hof hv hmem hp, usesOf_congr hp, usesOf_congr hp]
  · obtain ⟨hu, ht⟩ := hother v' path' h
    rw [if_neg h]
    unfold usage
    rw [hu, ht]

theorem usesOf_append_other {v v' : Nat}
    (h : ¬ (v' = v ∧ path'.take (depthOf pats v) = path.take (depthOf pats v))) (uses : List Use) :
    usesOf pats v' path' (uses ++ [(v, path)]) = usesOf pats v' path' uses := by
  rw [usesOf_append, usesOf_single, if_neg h]
  rfl

/-- **A use is counted.** -/
theorem Holds.incCount {total : List Use} (h : Holds pats boundTts (usage pats ms [] total))
    (hof : Match.Of pats ms) (hv : (varsAll pats).Nodup) {v : Nat} (hmem : loopsOf v pats ≠ [])
    {path : List Nat} {frag : InterpolatedFragment H F} (hcap : capAt v ms path = some frag) :
    ∃ boundTts', boundTts.incCount path v = .ok boundTts' ∧
      SameShape boundTts boundTts' ∧
      Holds pats boundTts' (usage pats ms [] (total ++ [(v, path)])) := by
  obtain ⟨ls, hls⟩ := List.exists_mem_of_ne_nil _ hmem
  have hnone : ∀ uses, usage pats ms [] uses v path
      = some ⟨usesOf pats v path uses, 0, some frag⟩ := by
    intro uses
    unfold usage
    rw [hcap]
    simp [usesOf]
  obtain ⟨boundTts', hw, hcounts, hh⟩ := (h.withCap hv hls (hnone total)
    (fun cap => if cap.numUsed = 0 then .ok ((), { cap with numUses := cap.numUses + 1 })
      else .error .bug)).2 () _ (if_pos rfl)
  refine ⟨boundTts', ?_, hcounts, ?_⟩
  · unfold ParameterMappings.incCount
    rw [hw]
  · rw [← depthOf_eq hv hls, update_usage hof hv hmem hcap [] (total ++ [(v, path)])] at hh
    · exact hh
    · rw [hnone, usesOf_append, usesOf_self]
    · intro v' path' hne
      exact ⟨rfl, usesOf_append_other hne total⟩

/-- **A use is made**: the fragment is there, and it is moved out if this is its last use. -/
theorem Holds.take {used rest : List Use} {v : Nat} {path : List Nat}
    (h : Holds pats boundTts (usage pats ms used (used ++ (v, path) :: rest)))
    (hof : Match.Of pats ms) (hv : (varsAll pats).Nodup) (hmem : loopsOf v pats ≠ [])
    {frag : InterpolatedFragment H F} (hcap : capAt v ms path = some frag) :
    boundTts.get path v = .ok frag ∧
    ∃ more boundTts₁, boundTts.decCount path v = .ok (more, boundTts₁) ∧
      boundTts₁.get path v = .ok frag ∧
      ∃ boundTts', takeCap boundTts₁ more path v = .ok boundTts' ∧
        SameShape boundTts boundTts' ∧
        Holds pats boundTts' (usage pats ms (used ++ [(v, path)]) (used ++ (v, path) :: rest)) := by
  obtain ⟨ls, hls⟩ := List.exists_mem_of_ne_nil _ hmem
  have htotal : usesOf pats v path (used ++ (v, path) :: rest)
      = usesOf pats v path used + 1 + usesOf pats v path rest := by
    rw [show used ++ (v, path) :: rest = used ++ ([(v, path)] ++ rest) from rfl, usesOf_append,
      usesOf_append, usesOf_self, Nat.add_assoc]
  have hone : usesOf pats v path (used ++ [(v, path)]) = usesOf pats v path used + 1 := by
    rw [usesOf_append, usesOf_self]
  have hbefore : usage pats ms used (used ++ (v, path) :: rest) v path
      = some ⟨usesOf pats v path (used ++ (v, path) :: rest), usesOf pats v path used,
          some frag⟩ := by
    unfold usage
    rw [hcap, Option.map_some, if_neg (by omega)]
  have hget : ∀ {b : ParameterMappings H F} {caps} {n k : Nat}, Holds pats b caps →
      caps v path = some ⟨n, k, some frag⟩ → b.get path v = .ok frag := by
    intro b caps n k hb hc
    obtain ⟨b', hw, -, -⟩ := (hb.withCap hv hls hc ParameterMappings.readFrag).2 frag _ rfl
    unfold ParameterMappings.get
    rw [hw]
  refine ⟨hget h hbefore, ?_⟩
  -- one use more, and the fragment still there
  obtain ⟨boundTts₁, hdec, hcounts₁, hh₁⟩ := (h.withCap hv hls hbefore
    (fun cap => if cap.numUsed < cap.numUses then
        .ok (decide (cap.numUsed + 1 < cap.numUses), { cap with numUsed := cap.numUsed + 1 })
      else .error .bug)).2 _ _ (if_pos (show usesOf pats v path used
        < usesOf pats v path (used ++ (v, path) :: rest) by omega))
  have hself : update (usage pats ms used (used ++ (v, path) :: rest)) v ls.length path
      ⟨usesOf pats v path (used ++ (v, path) :: rest), usesOf pats v path used + 1, some frag⟩
      v path = some ⟨usesOf pats v path (used ++ (v, path) :: rest),
        usesOf pats v path used + 1, some frag⟩ := by
    unfold update
    rw [if_pos ⟨rfl, rfl⟩]
  refine ⟨_, boundTts₁, hdec, hget hh₁ hself, ?_⟩
  by_cases hmore : usesOf pats v path used + 1 < usesOf pats v path (used ++ (v, path) :: rest)
  · refine ⟨boundTts₁, ?_, hcounts₁, ?_⟩
    · unfold takeCap
      rw [if_pos (by simpa using hmore)]
    · rw [← depthOf_eq hv hls, update_usage hof hv hmem hcap (used ++ [(v, path)])
        (used ++ (v, path) :: rest)] at hh₁
      · exact hh₁
      · unfold usage
        rw [hcap, Option.map_some, hone, if_neg (by omega)]
      · intro v' path' hne
        exact ⟨usesOf_append_other hne used, rfl⟩
  · obtain ⟨boundTts₂, hsteal, hcounts₂, hh₂⟩ := (hh₁.withCap hv hls hself
      (fun cap => .ok ((), { cap with frag := none }))).2 () _ rfl
    refine ⟨boundTts₂, ?_, hcounts₁.trans hcounts₂, ?_⟩
    · unfold takeCap ParameterMappings.steal
      rw [if_neg (by simpa using hmore), hsteal]
    · have hupd : ∀ (caps : Nat → List Nat → Option (CapturedVal H F)) c c',
          update (update caps v ls.length path c) v ls.length path c'
            = update caps v ls.length path c' := by
        intro caps c c'
        funext v' path'
        unfold update
        by_cases h : v' = v ∧ path'.take ls.length = path.take ls.length
        · rw [if_pos h, if_pos h]
        · rw [if_neg h, if_neg h, if_neg h]
      rw [hupd, ← depthOf_eq hv hls, update_usage hof hv hmem hcap
        (used ++ [(v, path)]) (used ++ (v, path) :: rest)] at hh₂
      · exact hh₂
      · unfold usage
        rw [hcap, Option.map_some, hone, if_pos (by omega)]
      · intro v' path' hne
        exact ⟨usesOf_append_other hne used, rfl⟩

/-! ## 3. The counting run -/

theorem namedValueIndex_eq {e : Nat} (h : namedValueType e = 0) : namedValueIndex e = e := by
  unfold namedValueType at h
  unfold namedValueIndex
  omega

theorem countConcatEnt_ok (h : Holds pats boundTts (usage pats ms [] total))
    (hof : Match.Of pats ms) (hv : (varsAll pats).Nodup) {ent : MacroExpansionConcatEnt}
    (hfits : ent.Fits pats ms path) :
    ∃ boundTts', countConcatEnt path boundTts ent = .ok boundTts' ∧
      SameShape boundTts boundTts' ∧
      Holds pats boundTts' (usage pats ms [] (total ++ ent.uses path)) := by
  cases ent with
  | Ident name => exact ⟨boundTts, rfl, SameShape.rfl, by
      rw [MacroExpansionConcatEnt.uses, List.append_nil]; exact h⟩
  | Named v =>
    rw [MacroExpansionConcatEnt.uses, countConcatEnt]
    obtain ⟨ht, hmem, frag, hcap⟩ | rfl := hfits
    · rw [if_pos ht, if_pos (Or.inl ht), namedValueIndex_eq ht]
      exact h.incCount hof hv hmem hcap
    · rw [if_neg (by decide), if_neg (by decide), List.append_nil]
      exact ⟨boundTts, rfl, SameShape.rfl, h⟩

/-- One step after another: what each of them counts is counted. -/
theorem count_each {α : Type} {uses : α → List Use}
    {count : ParameterMappings H F → α → Except Err (ParameterMappings H F)} {xs : List α}
    (hcount : ∀ x ∈ xs, ∀ {boundTts total}, Holds pats boundTts (usage pats ms [] total) →
      ∃ boundTts', count boundTts x = .ok boundTts' ∧ SameShape boundTts boundTts' ∧
        Holds pats boundTts' (usage pats ms [] (total ++ uses x)))
    (h : Holds pats boundTts (usage pats ms [] total)) :
    ∃ boundTts', xs.foldlM count boundTts = .ok boundTts' ∧ SameShape boundTts boundTts' ∧
      Holds pats boundTts' (usage pats ms [] (total ++ xs.flatMap uses)) := by
  induction xs generalizing boundTts total with
  | nil => exact ⟨boundTts, rfl, SameShape.rfl, by rw [List.flatMap_nil, List.append_nil]; exact h⟩
  | cons x xs ih =>
    obtain ⟨b₁, hone, hs₁, hh₁⟩ := hcount x List.mem_cons_self h
    obtain ⟨b₂, hall, hs₂, hh₂⟩ := ih (fun y hy => hcount y (List.mem_cons_of_mem _ hy)) hh₁
    refine ⟨b₂, ?_, hs₁.trans hs₂, ?_⟩
    · rw [List.foldlM_cons, hone]
      exact hall
    · rw [List.flatMap_cons, ← List.append_assoc]
      exact hh₂

theorem countEnt_ok (h : Holds pats boundTts (usage pats ms [] total)) (hof : Match.Of pats ms)
    (hv : (varsAll pats).Nodup) {visit : Visit H F} (hfits : visit.Fits pats ms) :
    ∃ boundTts', countEnt boundTts visit = .ok boundTts' ∧ SameShape boundTts boundTts' ∧
      Holds pats boundTts' (usage pats ms [] (total ++ visit.uses)) := by
  have hsame : Holds pats boundTts (usage pats ms [] (total ++ [])) := by
    rw [List.append_nil]
    exact h
  obtain ⟨ent, path, lengths⟩ := visit
  cases ent with
  | Token t => exact ⟨boundTts, rfl, SameShape.rfl, hsame⟩
  | Loop es j c => exact ⟨boundTts, rfl, SameShape.rfl, hsame⟩
  | Concat ents =>
    exact count_each (fun ent he _ _ h => countConcatEnt_ok h hof hv (hfits ent he)) h
  | NamedValue e =>
    simp only [countEnt, Visit.uses]
    by_cases ht : namedValueType e = 0
    · rw [if_pos ht, if_pos ht, namedValueIndex_eq ht]
      obtain ⟨-, hmem, frag, hcap⟩ | rfl | hi | ⟨hi, -⟩ | ⟨hi, -⟩ := hfits
      · exact h.incCount hof hv hmem hcap
      · exact absurd ht (by decide)
      · exact absurd (ht.symm.trans hi) (by decide)
      · unfold namedValueType at ht
        unfold NAMEDVALUE_MAGIC_INDEX_AT NAMEDVALUE_TY_MAGIC at hi
        omega
      · unfold namedValueType at ht
        unfold NAMEDVALUE_MAGIC_LEN_AT NAMEDVALUE_TY_MAGIC at hi
        omega
    · rw [if_neg ht, if_neg ht]
      exact ⟨boundTts, rfl, SameShape.rfl, hsame⟩

/-- **The counting run counts every use.** -/
theorem countVisits_ok (h : Holds pats boundTts (usage pats ms [] total)) (hof : Match.Of pats ms)
    (hv : (varsAll pats).Nodup) {visits : List (Visit H F)}
    (hfits : ∀ visit ∈ visits, visit.Fits pats ms) :
    ∃ boundTts', visits.foldlM countEnt boundTts = .ok boundTts' ∧ SameShape boundTts boundTts' ∧
      Holds pats boundTts' (usage pats ms [] (total ++ visits.flatMap Visit.uses)) :=
  count_each (fun visit hvisit _ _ h => countEnt_ok h hof hv (hfits visit hvisit)) h

end Steps

end Trustme.Macro
