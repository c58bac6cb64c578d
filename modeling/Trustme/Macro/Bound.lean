/-
  Subject:   The mappings of a matched arm hold what the match says.

  * `replayAll_passes`: the second pass goes through the values of each variable and loop;
  * `insertAll_ok`: the captures of all variables, inserted as they come;
  * `Holds`: what mappings hold for each variable and path of iterations;
  * `Holds.withCap`: a capture is looked up, and changed, by variable and path;
  * `bindArm_holds`: the captures and the loop counts of a matched arm.
-/
import Mathlib.Data.List.Nodup
import Trustme.Macro.Layers
import Trustme.Macro.Sites

namespace Trustme.Macro

open Lib (Ragged)

variable {H F : Type}

/-! ## 1. The second pass -/

/-- The captures of one variable. -/
def capsOf (v : Nat) (captures : List (Capture H F)) :
    List (List Nat × InterpolatedFragment H F) :=
  captures.filterMap fun c => if c.bindingIdx = v then some (c.iterations, c.frag) else none

/-- The counts of one loop. -/
def countsOf (l : Nat) (loopCounts : List (Nat × List Nat × Nat)) : List (List Nat × Nat) :=
  loopCounts.filterMap fun (idx, entry) => if idx = l then some entry else none

/-- The pass is in the same loops, and has these captures and counts more. -/
structure Passes (caps : Nat → List (List Nat × InterpolatedFragment H F))
    (counts : Nat → List (List Nat × Nat)) (r r' : Replay H F) : Prop where
  currentLoops : r'.currentLoops = r.currentLoops
  captureInfo : ∀ v, capsOf v r'.captureInfo = capsOf v r.captureInfo ++ caps v
  loopCounts : ∀ l, countsOf l r'.loopCounts = countsOf l r.loopCounts ++ counts l

/-- The end of a loop, after its iterations. -/
theorem Passes.loopEnd {r r' : Replay H F} {idx n : Nat} {path : List Nat}
    {caps : Nat → List (List Nat × InterpolatedFragment H F)}
    {counts : Nat → List (List Nat × Nat)} (h : Passes caps counts (r.loopStart idx) r')
    (hi : r'.loopIterations = path ++ [n]) :
    Passes caps
        (fun l => counts l ++ (if idx = l then some n else none).toList.map fun a => (path, a))
        r r'.loopEnd
      ∧ r'.loopEnd.loopIterations = path := by
  have hcl : r'.currentLoops = r.currentLoops ++ [idx] := h.currentLoops
  have hend : r'.loopEnd = { r' with
      currentLoops := r.currentLoops
      loopIterations := path
      loopCounts := r'.loopCounts ++ [(idx, path, n)] } := by
    rw [Replay.loopEnd, hcl, hi]
    simp
  refine ⟨⟨by rw [hend], fun v => by rw [hend]; exact h.captureInfo v, fun l => ?_⟩,
    by rw [hend]⟩
  have hc := h.loopCounts l
  rw [countsOf, hend, List.filterMap_append]
  rw [countsOf] at hc
  rw [hc, List.append_assoc]
  by_cases hl : idx = l
  · simp [hl, countsOf, Replay.loopStart]
  · simp [hl, countsOf, Replay.loopStart]

mutual

theorem replay_passes : ∀ (m : Match H F) (r : Replay H F),
    Passes (fun v => m.values (Match.capOf v) r.loopIterations)
        (fun l => m.values (Match.countOf l) r.loopIterations) r (replay m r)
      ∧ (replay m r).loopIterations = r.loopIterations
  | .token, r => by
    refine ⟨⟨rfl, fun v => ?_, fun l => ?_⟩, rfl⟩
    · simp [replay, Match.values, Match.capOf]
    · simp [replay, Match.values, Match.countOf]
  | .cap idx frag, r => by
    refine ⟨⟨rfl, fun v => ?_, fun l => ?_⟩, rfl⟩
    · by_cases hv : idx = v
      · simp [replay, Replay.expectPat, Match.values, Match.capOf, capsOf, hv]
      · simp [replay, Replay.expectPat, Match.values, Match.capOf, capsOf, hv]
    · simp [replay, Replay.expectPat, Match.values, Match.countOf]
  | .loop idx iters, r => by
    obtain ⟨hp, hi⟩ := replayIters_passes iters (r.loopStart idx) r.loopIterations 0 rfl
    obtain ⟨hend, hpath⟩ := hp.loopEnd hi
    refine ⟨⟨hend.currentLoops, fun v => ?_, fun l => ?_⟩, hpath⟩
    · simpa [replay, Match.values, Match.capOf] using hend.captureInfo v
    · simpa [replay, Match.values, Match.countOf] using hend.loopCounts l

theorem replayAll_passes : ∀ (ms : List (Match H F)) (r : Replay H F),
    Passes (fun v => valuesAll (Match.capOf v) ms r.loopIterations)
        (fun l => valuesAll (Match.countOf l) ms r.loopIterations) r (replayAll ms r)
      ∧ (replayAll ms r).loopIterations = r.loopIterations
  | [], r => by
    refine ⟨⟨rfl, fun v => ?_, fun l => ?_⟩, rfl⟩
    · simp [replayAll, valuesAll]
    · simp [replayAll, valuesAll]
  | m :: ms, r => by
    obtain ⟨h, hi⟩ := replay_passes m r
    obtain ⟨hs, his⟩ := replayAll_passes ms (replay m r)
    rw [hi] at hs
    rw [replayAll]
    refine ⟨⟨hs.currentLoops.trans h.currentLoops, fun v => ?_, fun l => ?_⟩, his.trans hi⟩
    · rw [hs.captureInfo, h.captureInfo, List.append_assoc, valuesAll]
    · rw [hs.loopCounts, h.loopCounts, List.append_assoc, valuesAll]

theorem replayIters_passes : ∀ (iters : List (List (Match H F))) (r : Replay H F)
    (path : List Nat) (i : Nat), r.loopIterations = path ++ [i] →
    Passes (fun v => valuesIters (Match.capOf v) iters path i)
        (fun l => valuesIters (Match.countOf l) iters path i) r (replayIters iters r)
      ∧ (replayIters iters r).loopIterations = path ++ [i + iters.length]
  | [], r, path, i, hr => by
    refine ⟨⟨rfl, fun v => ?_, fun l => ?_⟩, hr⟩
    · simp [replayIters, valuesIters]
    · simp [replayIters, valuesIters]
  | it :: its, r, path, i, hr => by
    obtain ⟨h, hi⟩ := replayAll_passes it r
    rw [hr] at h hi
    have hnext : (replayAll it r).loopNext.loopIterations = path ++ [i + 1] := by
      simp [Replay.loopNext, hi]
    obtain ⟨hs, his⟩ := replayIters_passes its (replayAll it r).loopNext path (i + 1) hnext
    rw [replayIters]
    refine ⟨⟨hs.currentLoops.trans h.currentLoops, fun v => ?_, fun l => ?_⟩, ?_⟩
    · rw [hs.captureInfo, Replay.loopNext, h.captureInfo, List.append_assoc, valuesIters]
    · rw [hs.loopCounts, Replay.loopNext, h.loopCounts, List.append_assoc, valuesIters]
    · rw [his, List.length_cons, Nat.add_assoc, Nat.add_comm 1]

end

/-! ## 2. The captures inserted -/

namespace ParameterMappings

/-- What a variable has captured; nothing, where there is no entry yet. -/
def layerOf (boundTts : ParameterMappings H F) (v : Nat) : CaptureLayer H F :=
  (boundTts.mappings[v]?).getD (.Vals [])

theorem layerOf_resize (boundTts : ParameterMappings H F) (size v : Nat) :
    (boundTts.resize size).layerOf v = boundTts.layerOf v := by
  rw [layerOf, layerOf, resize, List.getElem?_append, List.getElem?_replicate]
  by_cases h : v < boundTts.mappings.length
  · rw [if_pos h]
  · rw [if_neg h, List.getElem?_eq_none (by omega)]
    by_cases h' : v - boundTts.mappings.length < size - boundTts.mappings.length
    · rw [if_pos h']
      rfl
    · rw [if_neg h']

theorem getElem?_resize (boundTts : ParameterMappings H F) {size v : Nat} (h : v < size) :
    (boundTts.resize size).mappings[v]? = some (boundTts.layerOf v) := by
  have hlt : v < (boundTts.resize size).mappings.length := by
    rw [resize, List.length_append, List.length_replicate]
    omega
  rw [← layerOf_resize boundTts size v, layerOf, List.getElem?_eq_getElem hlt, Option.getD_some]

theorem layerOf_set {boundTts : ParameterMappings H F} {idx : Nat} {layer : CaptureLayer H F}
    (h : idx < boundTts.mappings.length) (v : Nat) :
    layerOf { boundTts with mappings := boundTts.mappings.set idx layer } v
      = if idx = v then layer else boundTts.layerOf v := by
  rw [layerOf, layerOf]
  by_cases hv : idx = v
  · rw [if_pos hv, ← hv, List.getElem?_set_self h, Option.getD_some]
  · rw [if_neg hv, List.getElem?_set_ne hv]

/-- One capture, into the layer of its variable. -/
theorem insert_ok {boundTts : ParameterMappings H F} {idx : Nat} {path : List Nat}
    {frag : InterpolatedFragment H F} {layer : CaptureLayer H F}
    (h : (boundTts.layerOf idx).insert frag path = .ok layer) :
    ∃ boundTts', boundTts.insert idx path frag = .ok boundTts' ∧
      boundTts'.loopCounts = boundTts.loopCounts ∧
      ∀ v, boundTts'.layerOf v = if idx = v then layer else boundTts.layerOf v := by
  have hget : (boundTts.resize (idx + 1)).mappings[idx]? = some (boundTts.layerOf idx) :=
    getElem?_resize boundTts (Nat.lt_succ_self idx)
  refine ⟨{ boundTts.resize (idx + 1) with
    mappings := (boundTts.resize (idx + 1)).mappings.set idx layer }, ?_, rfl, fun v => ?_⟩
  · rw [insert]
    simp only [hget, h]
  · rw [layerOf_set (List.getElem?_eq_some_iff.1 hget).1, layerOf_resize]

end ParameterMappings

open ParameterMappings CaptureLayer

variable {boundTts : ParameterMappings H F}

/-- **Captures that fit the layer of each variable fit together.** -/
theorem insertAll_ok {captures : List (Capture H F)}
    (h : ∀ v, ∃ layer, (boundTts.layerOf v).insertPaths (capsOf v captures) = .ok layer) :
    ∃ boundTts', insertAll boundTts captures = .ok boundTts' ∧
      boundTts'.loopCounts = boundTts.loopCounts ∧
      ∀ v, (boundTts.layerOf v).insertPaths (capsOf v captures) = .ok (boundTts'.layerOf v) := by
  induction captures generalizing boundTts with
  | nil => exact ⟨boundTts, rfl, rfl, fun v => rfl⟩
  | cons c captures ih =>
    -- the first capture, by the captures of its own variable
    obtain ⟨layer, hlayer⟩ := h c.bindingIdx
    rw [capsOf, List.filterMap_cons, if_pos rfl] at hlayer
    simp only [insertPaths, List.foldlM_cons] at hlayer
    cases hins : (boundTts.layerOf c.bindingIdx).insert c.frag c.iterations with
    | error e =>
      rw [hins] at hlayer
      exact absurd hlayer (by simp [bind, Except.bind])
    | ok layer₁ =>
      obtain ⟨boundTts₁, hone, hcounts, hlayers⟩ := insert_ok hins
      have hcons : ∀ v, (boundTts.layerOf v).insertPaths (capsOf v (c :: captures))
          = (boundTts₁.layerOf v).insertPaths (capsOf v captures) := by
        intro v
        rw [capsOf, List.filterMap_cons, hlayers v]
        by_cases hv : c.bindingIdx = v
        · subst hv
          rw [if_pos rfl, if_pos rfl]
          simp only [insertPaths, List.foldlM_cons, hins]
          rfl
        · rw [if_neg hv, if_neg hv]
          rfl
      obtain ⟨boundTts', hall, hcounts', hlayers'⟩ := ih fun v => by
        rw [← hcons v]
        exact h v
      refine ⟨boundTts', ?_, hcounts'.trans hcounts, fun v => (hcons v).trans (hlayers' v)⟩
      rw [insertAll, List.foldlM_cons, hone]
      exact hall

/-- Where the captures are is in the variables of the pattern. -/
theorem insertAll_length {captures : List (Capture H F)} {boundTts' : ParameterMappings H F}
    {size : Nat} (h : insertAll boundTts captures = .ok boundTts')
    (hc : ∀ c ∈ captures, c.bindingIdx < size) (hlen : boundTts.mappings.length ≤ size) :
    boundTts'.mappings.length ≤ size := by
  induction captures generalizing boundTts with
  | nil =>
    obtain rfl : boundTts = boundTts' := Except.ok.inj h
    exact hlen
  | cons c captures ih =>
    rw [insertAll, List.foldlM_cons] at h
    cases hins : boundTts.insert c.bindingIdx c.iterations c.frag with
    | error e =>
      rw [hins] at h
      exact absurd h (by simp [bind, Except.bind])
    | ok boundTts₁ =>
      rw [hins] at h
      refine ih h (fun c' hc' => hc c' (List.mem_cons_of_mem _ hc')) ?_
      have hidx := hc c List.mem_cons_self
      have hget := getElem?_resize boundTts (Nat.lt_succ_self c.bindingIdx)
      unfold ParameterMappings.insert at hins
      simp only [hget] at hins
      cases hl : (boundTts.layerOf c.bindingIdx).insert c.frag c.iterations with
      | error e => simp [hl] at hins
      | ok layer =>
        simp only [hl] at hins
        obtain rfl := Except.ok.inj hins
        simp only [resize, List.length_set, List.length_append, List.length_replicate]
        omega

/-! ## 3. What mappings hold -/

/-- The same loop counts, for as many variables. -/
structure SameShape (boundTts boundTts' : ParameterMappings H F) : Prop where
  loopCounts : boundTts'.loopCounts = boundTts.loopCounts
  length : boundTts'.mappings.length = boundTts.mappings.length

theorem SameShape.rfl : SameShape boundTts boundTts :=
  ⟨Eq.refl _, Eq.refl _⟩

theorem SameShape.trans {a b c : ParameterMappings H F} (h : SameShape a b) (h' : SameShape b c) :
    SameShape a c :=
  ⟨h'.loopCounts.trans h.loopCounts, h'.length.trans h.length⟩

theorem SameShape.getLoopRepeats {a b : ParameterMappings H F} (h : SameShape a b) :
    b.getLoopRepeats = a.getLoopRepeats := by
  funext path l
  unfold ParameterMappings.getLoopRepeats
  rw [h.loopCounts]

/-- For each variable of the pattern and each path of iterations the mappings hold the capture that
    `caps` says, as far as it says one. -/
def Holds (pats : List MacroPatEnt) (boundTts : ParameterMappings H F)
    (caps : Nat → List Nat → Option (CapturedVal H F)) : Prop :=
  ∀ v ls, ls ∈ loopsOf v pats →
    ∃ (t : Ragged (CapturedVal H F) ls.length) (layer : CaptureLayer H F),
      boundTts.mappings[v]? = some layer ∧ Rep t layer ∧ ∀ path, t.get path = caps v path

/-- The capture of a variable on a path, of which the `depth` outermost loops are read, changed. -/
def update (caps : Nat → List Nat → Option (CapturedVal H F)) (v depth : Nat) (path : List Nat)
    (cap : CapturedVal H F) : Nat → List Nat → Option (CapturedVal H F) :=
  fun v' path' => if v' = v ∧ path'.take depth = path.take depth then some cap else caps v' path'

variable {pats : List MacroPatEnt}

theorem eq_singleton {α : Type} {xs : List α} {x : α} (h : x ∈ xs) (hle : xs.length ≤ 1) :
    xs = [x] := by
  obtain ⟨y, rfl⟩ := List.length_eq_one_iff.1 (Nat.le_antisymm hle (List.length_pos_of_mem h))
  rw [List.mem_singleton.1 h]

/-- A variable stands once in a pattern. -/
theorem loopsOf_unique {v : Nat} {ls : List Nat} (hv : (varsAll pats).Nodup)
    (h : ls ∈ loopsOf v pats) : loopsOf v pats = [ls] := by
  refine eq_singleton h ?_
  rw [loopsOf, length_loopsOf]
  exact List.nodup_iff_count_le_one.1 hv v

theorem loopsTo_unique {l : Nat} {ls : List Nat} (hl : (loopsAll pats).Nodup)
    (h : ls ∈ loopsTo l pats) : loopsTo l pats = [ls] := by
  refine eq_singleton h ?_
  rw [loopsTo, length_loopsTo]
  exact List.nodup_iff_count_le_one.1 hl l

section Holds

variable {pats : List MacroPatEnt} {boundTts : ParameterMappings H F}
  {caps : Nat → List Nat → Option (CapturedVal H F)}

/-- **An action on a capture.** -/
theorem Holds.withCap (h : Holds pats boundTts caps) (hv : (varsAll pats).Nodup) {v : Nat}
    {ls path : List Nat} (hls : ls ∈ loopsOf v pats) {cap : CapturedVal H F}
    (hcap : caps v path = some cap) {β : Type}
    (f : CapturedVal H F → Except Err (β × CapturedVal H F)) :
    (∀ e, f cap = .error e → boundTts.withCap f path v = .error e) ∧
    ∀ b cap', f cap = .ok (b, cap') →
      ∃ boundTts', boundTts.withCap f path v = .ok (b, boundTts') ∧
        SameShape boundTts boundTts' ∧
        Holds pats boundTts' (update caps v ls.length path cap') := by
  obtain ⟨t, layer, hmap, hrep, hget⟩ := h v ls hls
  obtain ⟨put, hopens, hput⟩ := hrep.opens ((hget path).trans hcap)
  refine ⟨fun e he => ?_, fun b cap' he => ?_⟩
  · rw [ParameterMappings.withCap, hmap]
    simp only [hopens β f, he]
  · refine ⟨{ boundTts with mappings := boundTts.mappings.set v (put cap') }, ?_,
      ⟨rfl, List.length_set⟩, ?_⟩
    · rw [ParameterMappings.withCap, hmap]
      simp only [hopens β f, he]
    · intro v' ls' hls'
      by_cases hvv : v = v'
      · subst hvv
        obtain rfl : ls' = ls := by
          have h1 := loopsOf_unique hv hls
          rw [h1] at hls'
          exact List.mem_singleton.1 hls'
        refine ⟨t.set path cap', put cap', ?_, hput cap', fun path' => ?_⟩
        · exact List.getElem?_set_self (List.getElem?_eq_some_iff.1 hmap).1
        · rw [update]
          by_cases hp : path'.take ls'.length = path.take ls'.length
          · rw [if_pos ⟨rfl, hp⟩, ← Ragged.get_take, hp, Ragged.get_take]
            exact Ragged.get_set_same ((hget path).trans hcap)
          · rw [if_neg (fun hc => hp hc.2), Ragged.get_set_ne (fun hc => hp hc.symm)]
            exact hget path'
      · obtain ⟨t', layer', hmap', hrep', hget'⟩ := h v' ls' hls'
        refine ⟨t', layer', (List.getElem?_set_ne hvv).trans hmap', hrep', fun path' => ?_⟩
        rw [update, if_neg (fun hc => hvv hc.1.symm)]
        exact hget' path'

end Holds

/-! ## 4. The mappings of a matched arm -/

/-- The repeats of a loop are found by its table. -/
theorem findRepeats_eq {list : List (List Nat × Nat)} {path : List Nat}
    (h : ∀ x ∈ list, x.1.length ≤ path.length) {n : Nat}
    (hn : (list.find? (fun x => x.1.isPrefixOf path)).map (fun x => x.2) = some n) :
    findRepeats path list = .ok n := by
  induction list with
  | nil => simp at hn
  | cons x list ih =>
    obtain ⟨p, count⟩ := x
    rw [findRepeats, if_pos (h (p, count) List.mem_cons_self)]
    rw [List.find?_cons] at hn
    by_cases hp : p.isPrefixOf path = true
    · simp only [hp, Option.map_some, Option.some.injEq] at hn
      rw [if_pos hp, hn]
    · rw [if_neg hp]
      simp only [hp] at hn
      exact ih (fun y hy => h y (List.mem_cons_of_mem _ hy)) hn

/-- **What a matched arm binds.** -/
theorem bindArm_holds {ms : List (Match H F)} {variableCount : Nat} (hof : Match.Of pats ms)
    (hv : (varsAll pats).Nodup) (hl : (loopsAll pats).Nodup)
    (hcount : ∀ v ∈ varsAll pats, v < variableCount) :
    ∃ boundTts, bindArm ms variableCount = .ok boundTts ∧
      boundTts.mappings.length ≤ variableCount ∧
      Holds pats boundTts (fun v path => (capAt v ms path).map CapturedVal.fresh) ∧
      ∀ l ls path n, ls ∈ loopsTo l pats → ls.length ≤ path.length → countAt l ms path = some n →
        boundTts.getLoopRepeats path l = .ok n := by
  obtain ⟨hp, -⟩ := replayAll_passes ms ⟨[], [], [], []⟩
  have hcaps : ∀ v, capsOf v (replayAll ms ⟨[], [], [], []⟩).captureInfo
      = valuesAll (Match.capOf v) ms [] := fun v => by
    rw [hp.captureInfo]
    rfl
  have hcounts : ∀ l, countsOf l (replayAll ms ⟨[], [], [], []⟩).loopCounts
      = valuesAll (Match.countOf l) ms [] := fun l => by
    rw [hp.loopCounts]
    rfl
  -- the captures of a variable that stands in the pattern are the values of a table
  have htree : ∀ v ls, ls ∈ loopsOf v pats → ∃ t : Ragged (InterpolatedFragment H F) ls.length,
      valuesAll (Match.capOf v) ms [] = t.paths ∧ ∀ path, t.get path = capAt v ms path := by
    intro v ls hls
    obtain ⟨t, hvals, hget⟩ := all_tree (selects_capOf v) pats hof (loopsOf_unique hv hls)
    exact ⟨t, by rw [hvals]; simp, hget⟩
  have hins : ∀ v, ∃ layer, ((new : ParameterMappings H F).layerOf v).insertPaths
      (capsOf v (replayAll ms ⟨[], [], [], []⟩).captureInfo) = .ok layer := by
    intro v
    rw [hcaps]
    cases hstacks : loopsOf v pats with
    | nil =>
      rw [(all_none (selects_capOf v) pats hof hstacks).1]
      exact ⟨_, rfl⟩
    | cons ls rest =>
      obtain ⟨t, hvals, -⟩ := htree v ls (by rw [hstacks]; exact List.mem_cons_self)
      obtain ⟨layer, hlayer, -⟩ := insert_paths t
      exact ⟨layer, by rw [hvals]; exact hlayer⟩
  obtain ⟨boundTts, hall, hlc, hlayers⟩ := insertAll_ok hins
  refine ⟨boundTts.setLoopCounts (replayAll ms ⟨[], [], [], []⟩).loopCounts variableCount,
    ?_, ?_, ?_, ?_⟩
  · rw [bindArm]
    simp only [hall]
  · have hlen : boundTts.mappings.length ≤ variableCount := by
      refine insertAll_length hall (fun c hc => hcount _ ?_) (Nat.zero_le _)
      by_contra hmem
      have hstacks : loopsOf c.bindingIdx pats = [] := by
        rw [← List.length_eq_zero_iff, loopsOf, length_loopsOf, List.count_eq_zero]
        exact hmem
      have hnil : capsOf c.bindingIdx (replayAll ms ⟨[], [], [], []⟩).captureInfo = [] := by
        rw [hcaps, (all_none (selects_capOf _) pats hof hstacks).1]
      have hin : (c.iterations, c.frag) ∈
          capsOf c.bindingIdx (replayAll ms ⟨[], [], [], []⟩).captureInfo :=
        List.mem_filterMap.2 ⟨c, hc, if_pos rfl⟩
      rw [hnil] at hin
      simp at hin
    simp only [setLoopCounts, resize, List.length_append, List.length_replicate]
    omega
  · intro v ls hls
    obtain ⟨t, hvals, hget⟩ := htree v ls hls
    obtain ⟨layer, hlayer, hrep⟩ := insert_paths t
    have hlt : v < variableCount := by
      refine hcount v (List.count_pos_iff.1 ?_)
      rw [← length_loopsOf]
      exact List.length_pos_of_mem hls
    obtain rfl : boundTts.layerOf v = layer := by
      have := hlayers v
      rw [hcaps, hvals] at this
      exact Except.ok.inj (this.symm.trans hlayer)
    refine ⟨t.map CapturedVal.fresh, boundTts.layerOf v, getElem?_resize boundTts hlt, hrep,
      fun path => ?_⟩
    rw [Ragged.get_map, hget]
  · intro l ls path n hls hlen hn
    obtain ⟨t, hvals, hget⟩ := all_tree (selects_countOf l) pats hof (loopsTo_unique hl hls)
    have hlist : countsOf l (replayAll ms ⟨[], [], [], []⟩).loopCounts = t.paths := by
      rw [hcounts, hvals]
      simp
    show findRepeats path (countsOf l (replayAll ms ⟨[], [], [], []⟩).loopCounts) = .ok n
    rw [hlist]
    refine findRepeats_eq (fun x hx => ?_) ?_
    · rw [Ragged.length_of_mem_paths hx]
      exact hlen
    · rw [Ragged.find_paths, hget]
      exact hn

end Trustme.Macro
