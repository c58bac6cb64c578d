/-
  Subject:   Where the variables and loops of a pattern stand, and what a match has for them.

  A variable and a loop stand once in a pattern, under a stack of loops. What a match has for one of
  them is a ragged table that is as deep as the stack is high, and the second pass over the match
  goes through the values of the table in the order of their paths.

  * `stacks`, `loopsOf`, `loopsTo`: the loops around the places of a pattern;
  * `values`: what the second pass finds;
  * `all_tree`: the table of one place;
  * `all_exists`: a path through iterations that there are leads to a value.
-/
import Trustme.Lib.Ragged
import Trustme.Macro.Replay

namespace Trustme.Macro

open Lib (Ragged)
open Lib.Ragged (rows ofRows)

variable {H F α : Type}

/-! ## 1. The places of a pattern -/

section Stacks

variable (p : MacroPatEnt → Bool)

mutual

/-- The loops around each part that is picked, the outermost first. -/
def MacroPatEnt.stacks : MacroPatEnt → List (List Nat)
  | .token => if p .token then [[]] else []
  | .frag idx => if p (.frag idx) then [[]] else []
  | .loop idx subpats =>
    (if p (.loop idx subpats) then [[]] else []) ++ (stacksAll subpats).map (idx :: ·)

def stacksAll : List MacroPatEnt → List (List Nat)
  | [] => []
  | pat :: pats => pat.stacks ++ stacksAll pats

end

end Stacks

def MacroPatEnt.isVar (v : Nat) : MacroPatEnt → Bool
  | .frag idx => idx == v
  | _ => false

def MacroPatEnt.isLoop (l : Nat) : MacroPatEnt → Bool
  | .loop idx _ => idx == l
  | _ => false

/-- The stacks of loops around a variable. -/
def loopsOf (v : Nat) (pats : List MacroPatEnt) : List (List Nat) :=
  stacksAll (MacroPatEnt.isVar v) pats

/-- The stacks of loops around a loop. -/
def loopsTo (l : Nat) (pats : List MacroPatEnt) : List (List Nat) :=
  stacksAll (MacroPatEnt.isLoop l) pats

mutual

/-- The variables of a pattern, in order. -/
def MacroPatEnt.vars : MacroPatEnt → List Nat
  | .token => []
  | .frag idx => [idx]
  | .loop _ subpats => varsAll subpats

def varsAll : List MacroPatEnt → List Nat
  | [] => []
  | pat :: pats => pat.vars ++ varsAll pats

end

mutual

/-- The loops of a pattern, an outer one before those in it. -/
def MacroPatEnt.loops : MacroPatEnt → List Nat
  | .token => []
  | .frag _ => []
  | .loop idx subpats => idx :: loopsAll subpats

def loopsAll : List MacroPatEnt → List Nat
  | [] => []
  | pat :: pats => pat.loops ++ loopsAll pats

end

mutual

theorem length_stacks_isVar (v : Nat) :
    ∀ pat : MacroPatEnt, (pat.stacks (MacroPatEnt.isVar v)).length = pat.vars.count v
  | .token => rfl
  | .frag idx => by
    by_cases h : idx = v
    · simp [MacroPatEnt.stacks, MacroPatEnt.vars, MacroPatEnt.isVar, h]
    · simp [MacroPatEnt.stacks, MacroPatEnt.vars, MacroPatEnt.isVar, h]
  | .loop idx subpats => by
    simp [MacroPatEnt.stacks, MacroPatEnt.vars, MacroPatEnt.isVar, length_loopsOf v subpats]

theorem length_loopsOf (v : Nat) :
    ∀ pats : List MacroPatEnt, (stacksAll (MacroPatEnt.isVar v) pats).length
      = (varsAll pats).count v
  | [] => rfl
  | pat :: pats => by
    rw [stacksAll, varsAll, List.length_append, List.count_append, length_loopsOf v pats,
      length_stacks_isVar v pat]

end

mutual

theorem length_stacks_isLoop (l : Nat) :
    ∀ pat : MacroPatEnt, (pat.stacks (MacroPatEnt.isLoop l)).length = pat.loops.count l
  | .token => rfl
  | .frag idx => rfl
  | .loop idx subpats => by
    by_cases h : idx = l
    · simp [MacroPatEnt.stacks, MacroPatEnt.loops, MacroPatEnt.isLoop, h,
        length_loopsTo l subpats, Nat.add_comm]
    · simp [MacroPatEnt.stacks, MacroPatEnt.loops, MacroPatEnt.isLoop, h, length_loopsTo l subpats]

theorem length_loopsTo (l : Nat) :
    ∀ pats : List MacroPatEnt, (stacksAll (MacroPatEnt.isLoop l) pats).length
      = (loopsAll pats).count l
  | [] => rfl
  | pat :: pats => by
    rw [stacksAll, loopsAll, List.length_append, List.count_append, length_loopsTo l pats,
      length_stacks_isLoop l pat]

end

/-! ## 2. The values that the second pass goes through -/

section Values

variable (sel : Match H F → Option α)

mutual

/-- The values in a match under a path of iterations. -/
def Match.values : Match H F → List Nat → List (List Nat × α)
  | .token, path => (sel .token).toList.map fun a => (path, a)
  | .cap idx frag, path => (sel (.cap idx frag)).toList.map fun a => (path, a)
  | .loop idx iters, path =>
    valuesIters iters path 0 ++ (sel (.loop idx iters)).toList.map fun a => (path, a)

def valuesAll : List (Match H F) → List Nat → List (List Nat × α)
  | [], _ => []
  | m :: ms, path => m.values path ++ valuesAll ms path

/-- The iterations from the `i`-th on. -/
def valuesIters : List (List (Match H F)) → List Nat → Nat → List (List Nat × α)
  | [], _, _ => []
  | it :: its, path, i => valuesAll it (path ++ [i]) ++ valuesIters its path (i + 1)

end

end Values

/-- What is looked for in a pattern and in its matches is at the same places. -/
def Selects (p : MacroPatEnt → Bool) (sel : Match H F → Option α) : Prop :=
  ∀ pat m, Match.One pat m → (p pat = true ↔ (sel m).isSome)

theorem selects_capOf (v : Nat) :
    Selects (MacroPatEnt.isVar v) (Match.capOf (H := H) (F := F) v) := by
  intro pat m h
  cases h with
  | token => simp [MacroPatEnt.isVar, Match.capOf]
  | cap idx frag =>
    by_cases hv : idx = v
    · simp [MacroPatEnt.isVar, Match.capOf, hv]
    · simp [MacroPatEnt.isVar, Match.capOf, hv]
  | loop idx subpats iters => simp [MacroPatEnt.isVar, Match.capOf]

theorem selects_countOf (l : Nat) :
    Selects (MacroPatEnt.isLoop l) (Match.countOf (H := H) (F := F) l) := by
  intro pat m h
  cases h with
  | token => simp [MacroPatEnt.isLoop, Match.countOf]
  | cap idx frag => simp [MacroPatEnt.isLoop, Match.countOf]
  | loop idx subpats iters =>
    by_cases hl : idx = l
    · simp [MacroPatEnt.isLoop, Match.countOf, hl]
    · simp [MacroPatEnt.isLoop, Match.countOf, hl]

section Tree

variable {p : MacroPatEnt → Bool} {sel : Match H F → Option α}

theorem Selects.eq_none (hs : Selects p sel) {pat : MacroPatEnt} {m : Match H F}
    (h : Match.One pat m) (hp : p pat = false) : sel m = none := by
  cases hm : sel m with
  | none => rfl
  | some a =>
    have := (hs pat m h).2 (by rw [hm]; rfl)
    rw [hp] at this
    exact absurd this (by simp)

theorem Selects.eq_some (hs : Selects p sel) {pat : MacroPatEnt} {m : Match H F}
    (h : Match.One pat m) (hp : p pat = true) : ∃ a, sel m = some a :=
  Option.isSome_iff_exists.1 ((hs pat m h).1 hp)

/-! ## 3. Places without a value -/

variable {subpats : List MacroPatEnt} {iters : List (List (Match H F))}

theorem iters_none (h : Match.Iters subpats iters) (hbody : ∀ it, Match.Of subpats it →
      (∀ path, valuesAll sel it path = []) ∧ ∀ path, valueAtAll sel it path = none) :
    (∀ path i, valuesIters sel iters path i = [])
      ∧ ∀ i path, valueAtIter sel iters i path = none := by
  induction iters with
  | nil => exact ⟨fun path i => rfl, fun i path => rfl⟩
  | cons it its ih =>
    cases h with
    | cons hit hits =>
      obtain ⟨hv, ha⟩ := ih hits
      obtain ⟨hv₀, ha₀⟩ := hbody it hit
      refine ⟨fun path i => ?_, fun i path => ?_⟩
      · rw [valuesIters, hv₀, hv, List.append_nil]
      · cases i with
        | zero => rw [valueAtIter, ha₀]
        | succ i => rw [valueAtIter, ha]

mutual

theorem one_none (hs : Selects p sel) : ∀ (pat : MacroPatEnt) {m : Match H F},
    Match.One pat m → pat.stacks p = [] →
      (∀ path, m.values sel path = []) ∧ ∀ path, m.valueAt sel path = none
  | .token, _, .token, hn => by
    have h := hs.eq_none .token (by simpa [MacroPatEnt.stacks] using hn)
    exact ⟨fun path => by simp [Match.values, h], fun path => by simp [Match.valueAt, h]⟩
  | .frag idx, _, .cap _ frag, hn => by
    have h := hs.eq_none (.cap idx frag) (by simpa [MacroPatEnt.stacks] using hn)
    exact ⟨fun path => by simp [Match.values, h], fun path => by simp [Match.valueAt, h]⟩
  | .loop idx subpats, _, .loop _ _ iters hit, hn => by
    rw [MacroPatEnt.stacks, List.append_eq_nil_iff, List.map_eq_nil_iff] at hn
    have h := hs.eq_none (.loop idx subpats iters hit) (by simpa using hn.1)
    obtain ⟨hv, ha⟩ := iters_none hit fun it hof => all_none hs subpats hof hn.2
    refine ⟨fun path => ?_, fun path => ?_⟩
    · rw [Match.values, hv, h]
      rfl
    · cases path with
      | nil => rw [Match.valueAt, h]
      | cons i path => rw [Match.valueAt, h, ha, Option.none_or]

theorem all_none (hs : Selects p sel) : ∀ (pats : List MacroPatEnt) {ms : List (Match H F)},
    Match.Of pats ms → stacksAll p pats = [] →
      (∀ path, valuesAll sel ms path = []) ∧ ∀ path, valueAtAll sel ms path = none
  | [], _, .nil, _ => ⟨fun path => rfl, fun path => rfl⟩
  | pat :: pats, _, .cons h hof, hn => by
    rw [stacksAll, List.append_eq_nil_iff] at hn
    obtain ⟨hv, ha⟩ := one_none hs pat h hn.1
    obtain ⟨hvs, has⟩ := all_none hs pats hof hn.2
    refine ⟨fun path => ?_, fun path => ?_⟩
    · rw [valuesAll, hv, hvs, List.append_nil]
    · rw [valueAtAll, ha, has, Option.none_or]

end

/-! ## 4. The table of a place -/

/-- A table has the values of a match, and leads to them. -/
def Tells {k : Nat} (t : Ragged α k) (vals : List Nat → List (List Nat × α))
    (value : List Nat → Option α) : Prop :=
  (∀ path, vals path = t.paths.map fun x => (path ++ x.1, x.2)) ∧ ∀ path, t.get path = value path

/-- The tables of the iterations. -/
theorem iters_trees {k : Nat} (h : Match.Iters subpats iters) (hbody : ∀ it, Match.Of subpats it →
      ∃ t : Ragged α k, Tells t (valuesAll sel it) (valueAtAll sel it)) :
    ∃ ts : List (Ragged α k),
      (∀ path i, valuesIters sel iters path i
        = (Ragged.pathsFrom Ragged.paths i ts).map fun x => (path ++ x.1, x.2)) ∧
      ∀ i path, (match ts[i]? with | none => none | some t => t.get path)
        = valueAtIter sel iters i path := by
  induction iters with
  | nil => exact ⟨[], fun path i => rfl, fun i path => rfl⟩
  | cons it its ih =>
    cases h with
    | cons hit hits =>
      obtain ⟨ts, hv, ha⟩ := ih hits
      obtain ⟨t, hv₀, ha₀⟩ := hbody it hit
      refine ⟨t :: ts, fun path i => ?_, fun i path => ?_⟩
      · rw [valuesIters, Ragged.pathsFrom, List.map_append, List.map_map, hv₀, hv]
        simp [Function.comp_def]
      · cases i with
        | zero => rw [valueAtIter, ← ha₀]; rfl
        | succ i => rw [valueAtIter, ← ha]; rfl

/-- Of two lists that have one member together one is empty. -/
theorem append_eq_singleton {x : α} {xs ys : List α} (h : xs ++ ys = [x]) :
    (xs = [x] ∧ ys = []) ∨ (xs = [] ∧ ys = [x]) := by
  cases xs with
  | nil => exact Or.inr ⟨rfl, h⟩
  | cons a xs =>
    rw [List.cons_append, List.cons.injEq, List.append_eq_nil_iff] at h
    obtain ⟨rfl, rfl, rfl⟩ := h
    exact Or.inl ⟨rfl, rfl⟩

/-- A value at the place itself. -/
theorem tells_leaf {a : α} {vals : List Nat → List (List Nat × α)} {value : List Nat → Option α}
    (hv : ∀ path, vals path = [(path, a)]) (ha : ∀ path, value path = some a) :
    Tells (k := 0) a vals value :=
  ⟨fun path => by rw [hv]; simp [Ragged.paths], fun path => by rw [ha]; rfl⟩

mutual

theorem one_tree (hs : Selects p sel) : ∀ (pat : MacroPatEnt) {m : Match H F},
    Match.One pat m → ∀ {ls : List Nat}, pat.stacks p = [ls] →
      ∃ t : Ragged α ls.length, Tells t (m.values sel) (m.valueAt sel)
  | .token, _, .token, ls, h1 => by
    by_cases hp : p .token = true
    · obtain ⟨a, ha⟩ := hs.eq_some .token hp
      obtain rfl : [] = ls := by simpa [MacroPatEnt.stacks, hp] using h1
      exact ⟨a, tells_leaf (fun path => by simp [Match.values, ha])
        fun path => by simp [Match.valueAt, ha]⟩
    · simp [MacroPatEnt.stacks, hp] at h1
  | .frag idx, _, .cap _ frag, ls, h1 => by
    by_cases hp : p (.frag idx) = true
    · obtain ⟨a, ha⟩ := hs.eq_some (.cap idx frag) hp
      obtain rfl : [] = ls := by simpa [MacroPatEnt.stacks, hp] using h1
      exact ⟨a, tells_leaf (fun path => by simp [Match.values, ha])
        fun path => by simp [Match.valueAt, ha]⟩
    · simp [MacroPatEnt.stacks, hp] at h1
  | .loop idx subpats, _, .loop _ _ iters hit, ls, h1 => by
    rw [MacroPatEnt.stacks] at h1
    obtain ⟨hhere, hbelow⟩ | ⟨hhere, hbelow⟩ := append_eq_singleton h1
    · -- the loop itself
      by_cases hp : p (.loop idx subpats) = true
      · obtain ⟨a, ha⟩ := hs.eq_some (.loop idx subpats iters hit) hp
        obtain rfl : [] = ls := by simpa [hp] using hhere
        rw [List.map_eq_nil_iff] at hbelow
        obtain ⟨hv, hat⟩ := iters_none hit fun it hof => all_none hs subpats hof hbelow
        refine ⟨a, tells_leaf (fun path => ?_) fun path => ?_⟩
        · rw [Match.values, hv, ha]
          rfl
        · cases path with
          | nil => rw [Match.valueAt, ha]
          | cons i path => rw [Match.valueAt, ha, Option.some_or]
      · simp [hp] at hhere
    · -- a place in its body
      have hsel := hs.eq_none (.loop idx subpats iters hit) (by simpa using hhere)
      obtain ⟨ls', hls', rfl⟩ : ∃ ls', stacksAll p subpats = [ls'] ∧ idx :: ls' = ls := by
        rw [List.map_eq_singleton_iff] at hbelow
        exact hbelow
      obtain ⟨ts, hv, ha⟩ := iters_trees hit fun it hof => all_tree hs subpats hof hls'
      refine ⟨ofRows ts, fun path => ?_, fun path => ?_⟩
      · rw [Match.values, hsel, hv]
        simp [Ragged.paths]
      · cases path with
        | nil => rw [Match.valueAt, hsel]; rfl
        | cons i path =>
          rw [Match.valueAt, hsel, Option.none_or, ← ha]
          rfl

/-- **What a match has for a place of the pattern is a table as deep as the loops around it.** -/
theorem all_tree (hs : Selects p sel) : ∀ (pats : List MacroPatEnt) {ms : List (Match H F)},
    Match.Of pats ms → ∀ {ls : List Nat}, stacksAll p pats = [ls] →
      ∃ t : Ragged α ls.length, Tells t (valuesAll sel ms) (valueAtAll sel ms)
  | [], _, .nil, _, h1 => by simp [stacksAll] at h1
  | pat :: pats, _, .cons h hof, ls, h1 => by
    rw [stacksAll] at h1
    obtain ⟨hone, hall⟩ | ⟨hone, hall⟩ := append_eq_singleton h1
    · obtain ⟨t, hv, ha⟩ := one_tree hs pat h hone
      obtain ⟨hvs, has⟩ := all_none hs pats hof hall
      refine ⟨t, fun path => ?_, fun path => ?_⟩
      · rw [valuesAll, hvs, List.append_nil, hv]
      · rw [valueAtAll, has, Option.or_none, ha]
    · obtain ⟨hv, ha⟩ := one_none hs pat h hone
      obtain ⟨t, hvs, has⟩ := all_tree hs pats hof hall
      refine ⟨t, fun path => ?_, fun path => ?_⟩
      · rw [valuesAll, hv, List.nil_append, hvs]
      · rw [valueAtAll, ha, Option.none_or, has]

end

/-! ## 5. Paths through iterations that there are -/

/-- In each of the loops the path goes through an iteration that there is. -/
def Runs (count : Nat → List Nat → Option Nat) (ls path : List Nat) : Prop :=
  ∀ j l, ls[j]? = some l →
    ∃ n i, count l (path.take j) = some n ∧ path[j]? = some i ∧ i < n

theorem Runs.congr {count count' : Nat → List Nat → Option Nat} {ls path : List Nat}
    (h : Runs count ls path) (hc : ∀ l ∈ ls, ∀ path, count l path = count' l path) :
    Runs count' ls path := by
  intro j l hl
  obtain ⟨n, i, hn, hi⟩ := h j l hl
  exact ⟨n, i, by rw [← hc l (List.mem_of_getElem? hl)]; exact hn, hi⟩

theorem valueAtIter_eq {i : Nat} {it : List (Match H F)} (h : iters[i]? = some it)
    (path : List Nat) :
    valueAtIter sel iters i path = valueAtAll sel it path := by
  induction iters generalizing i with
  | nil => simp at h
  | cons it₀ its ih =>
    cases i with
    | zero =>
      obtain rfl : it₀ = it := Option.some.inj h
      rw [valueAtIter]
    | succ i =>
      rw [valueAtIter]
      exact ih h

theorem Match.Iters.get {i : Nat} {it : List (Match H F)} (h : Match.Iters subpats iters)
    (hi : iters[i]? = some it) :
    Match.Of subpats it := by
  induction iters generalizing i with
  | nil => simp at hi
  | cons it₀ its ih =>
    cases h with
    | cons hit hits =>
      cases i with
      | zero =>
        obtain rfl : it₀ = it := Option.some.inj hi
        exact hit
      | succ i => exact ih hits hi

/-- A loop that does not stand in the pattern has no count in its matches. -/
theorem countOf_none {pats : List MacroPatEnt} {ms : List (Match H F)} {l : Nat}
    (h : Match.Of pats ms) (hl : l ∉ loopsAll pats) (path : List Nat) :
    valueAtAll (Match.countOf l) ms path = none := by
  have hn : stacksAll (MacroPatEnt.isLoop l) pats = [] := by
    rw [← List.length_eq_zero_iff, length_loopsTo, List.count_eq_zero]
    exact hl
  exact (all_none (selects_countOf l) pats h hn).2 path

theorem countOf_none_one {pat : MacroPatEnt} {m : Match H F} {l : Nat}
    (h : Match.One pat m) (hl : l ∉ pat.loops) (path : List Nat) :
    m.valueAt (Match.countOf l) path = none := by
  have hn : pat.stacks (MacroPatEnt.isLoop l) = [] := by
    rw [← List.length_eq_zero_iff, length_stacks_isLoop, List.count_eq_zero]
    exact hl
  exact (one_none (selects_countOf l) pat h hn).2 path

mutual

theorem mem_loops_of_stacks (p : MacroPatEnt → Bool) :
    ∀ (pat : MacroPatEnt) {ls : List Nat} {l : Nat},
    ls ∈ pat.stacks p → l ∈ ls → l ∈ pat.loops
  | .token, ls, l, h, hl => by
    obtain ⟨-, rfl⟩ : p .token = true ∧ ls = [] := by simpa [MacroPatEnt.stacks] using h
    simp at hl
  | .frag idx, ls, l, h, hl => by
    obtain ⟨-, rfl⟩ : p (.frag idx) = true ∧ ls = [] := by simpa [MacroPatEnt.stacks] using h
    simp at hl
  | .loop idx subpats, ls, l, h, hl => by
    rw [MacroPatEnt.stacks, List.mem_append] at h
    obtain h | h := h
    · obtain ⟨-, rfl⟩ : p (.loop idx subpats) = true ∧ ls = [] := by simpa using h
      simp at hl
    · obtain ⟨ls', hls', rfl⟩ := List.mem_map.1 h
      rw [MacroPatEnt.loops]
      obtain rfl | hl := List.mem_cons.1 hl
      · exact List.mem_cons_self
      · exact List.mem_cons_of_mem _ (mem_loopsAll_of_stacks p subpats hls' hl)

theorem mem_loopsAll_of_stacks (p : MacroPatEnt → Bool) :
    ∀ (pats : List MacroPatEnt) {ls : List Nat} {l : Nat},
      ls ∈ stacksAll p pats → l ∈ ls → l ∈ loopsAll pats
  | [], ls, l, h, _ => by simp [stacksAll] at h
  | pat :: pats, ls, l, h, hl => by
    rw [stacksAll, List.mem_append] at h
    rw [loopsAll, List.mem_append]
    obtain h | h := h
    · exact Or.inl (mem_loops_of_stacks p pat h hl)
    · exact Or.inr (mem_loopsAll_of_stacks p pats h hl)

end

mutual

theorem one_exists (hs : Selects p sel) : ∀ (pat : MacroPatEnt) {m : Match H F},
    Match.One pat m → pat.loops.Nodup → ∀ {ls path : List Nat}, ls ∈ pat.stacks p →
      Runs (fun l path => m.valueAt (Match.countOf l) path) ls path →
      ∃ a, m.valueAt sel path = some a
  | .token, _, .token, _, ls, path, hmem, _ => by
    have hp : p .token = true := by
      have := List.ne_nil_of_mem hmem
      simpa [MacroPatEnt.stacks] using this
    obtain ⟨a, ha⟩ := hs.eq_some .token hp
    exact ⟨a, by simp [Match.valueAt, ha]⟩
  | .frag idx, _, .cap _ frag, _, ls, path, hmem, _ => by
    have hp : p (.frag idx) = true := by
      have := List.ne_nil_of_mem hmem
      simpa [MacroPatEnt.stacks] using this
    obtain ⟨a, ha⟩ := hs.eq_some (.cap idx frag) hp
    exact ⟨a, by simp [Match.valueAt, ha]⟩
  | .loop idx subpats, _, .loop _ _ iters hit, hnd, ls, path, hmem, hruns => by
    rw [MacroPatEnt.loops, List.nodup_cons] at hnd
    rw [MacroPatEnt.stacks, List.mem_append] at hmem
    obtain hmem | hmem := hmem
    · -- the loop itself
      have hp : p (.loop idx subpats) = true := by
        by_contra hp
        simp [hp] at hmem
      obtain ⟨a, ha⟩ := hs.eq_some (.loop idx subpats iters hit) hp
      cases path with
      | nil => exact ⟨a, by rw [Match.valueAt, ha]⟩
      | cons i path => exact ⟨a, by rw [Match.valueAt, ha, Option.some_or]⟩
    · -- a place in its body: the path goes into an iteration of the loop
      obtain ⟨ls', hls', rfl⟩ := List.mem_map.1 hmem
      obtain ⟨n, i, hn, hi, hlt⟩ := hruns 0 idx rfl
      obtain rfl : iters.length = n := by
        simpa [Match.valueAt, Match.countOf] using hn
      cases path with
      | nil => simp at hi
      | cons j path =>
        obtain rfl : j = i := by simpa using hi
        have hget := List.getElem?_eq_getElem hlt
        have hbody : Runs (fun l path => valueAtAll (Match.countOf l) iters[j] path) ls' path := by
          intro k l hl
          obtain ⟨n, i, hn, hi, hlt⟩ := hruns (k + 1) l hl
          refine ⟨n, i, ?_, hi, hlt⟩
          have hne : idx ≠ l := fun h =>
            hnd.1 (h ▸ mem_loopsAll_of_stacks p subpats hls' (List.mem_of_getElem? hl))
          simp only [List.take_succ_cons] at hn
          rw [Match.valueAt, Match.countOf, if_neg hne, Option.none_or, valueAtIter_eq hget] at hn
          exact hn
        obtain ⟨a, ha⟩ := all_exists hs subpats (hit.get hget) hnd.2 hls' hbody
        rw [Match.valueAt, valueAtIter_eq hget, ha]
        cases sel (.loop idx iters) with
        | none => exact ⟨a, rfl⟩
        | some b => exact ⟨b, rfl⟩

/-- **A path through iterations that there are leads to a value.** -/
theorem all_exists (hs : Selects p sel) : ∀ (pats : List MacroPatEnt) {ms : List (Match H F)},
    Match.Of pats ms → (loopsAll pats).Nodup → ∀ {ls path : List Nat}, ls ∈ stacksAll p pats →
      Runs (fun l path => valueAtAll (Match.countOf l) ms path) ls path →
      ∃ a, valueAtAll sel ms path = some a
  | [], _, .nil, _, _, _, hmem, _ => by simp [stacksAll] at hmem
  | pat :: pats, m :: ms, .cons h hof, hnd, ls, path, hmem, hruns => by
    rw [loopsAll, List.nodup_append] at hnd
    obtain ⟨hnd₁, hnd₂, hdisj⟩ := hnd
    rw [stacksAll, List.mem_append] at hmem
    obtain hmem | hmem := hmem
    · obtain ⟨a, ha⟩ := one_exists hs pat h hnd₁ hmem (hruns.congr fun l hl path => by
        have hl' := mem_loops_of_stacks p pat hmem hl
        rw [valueAtAll, countOf_none hof fun hin => hdisj l hl' l hin rfl, Option.or_none])
      exact ⟨a, by rw [valueAtAll, ha, Option.some_or]⟩
    · obtain ⟨a, ha⟩ := all_exists hs pats hof hnd₂ hmem (hruns.congr fun l hl path => by
        have hl' := mem_loopsAll_of_stacks p pats hmem hl
        rw [valueAtAll, countOf_none_one h fun hin => hdisj l hin l hl' rfl, Option.none_or])
      rw [valueAtAll, ha]
      cases m.valueAt sel path with
      | none => exact ⟨a, rfl⟩
      | some b => exact ⟨b, rfl⟩

end

end Tree

end Trustme.Macro
