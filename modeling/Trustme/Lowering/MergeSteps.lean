/-
  Subject:   What the steps of a merge meet, when the merges of the parts meet theirs.

  * `Merges`: a merge function meets a list of meetings, from any builder;
  * `mergeEach_meets`: the parts of a value, one after the other;
  * `mergeOuterValidity_run`, `mergeInvalidShell_run`: the flag of the whole and of the shell.
-/
import Trustme.Lowering.MergeReads

namespace Trustme.Lowering

open Lib (OrdMap Source Touches)

/-! ## 1. The functions of the builder -/

theorem getDropFlagDefault_run (x : DropFlag) (b : Builder) :
    getDropFlagDefault x b = .ok (b.default x, b) := rfl

theorem newAliasFlag_run (f : DropFlag) (b : Builder) : newAliasFlag f b =
    .ok (b.dropFlags.length, (b.withFlag (b.default f)).withAlias f b.dropFlags.length) := rfl

/-! ## 2. What a merge meets -/

/-- A builder in the course of a merge of states whose flags are below `B`, with the defaults
    `df`. -/
structure Ready (B : Nat) (df : DropFlag → Bool) (b : Builder) : Prop where
  wf : b.WF
  bound : B ≤ b.dropFlags.length
  defaults : ∀ g, g < B → b.default g = df g

theorem Ready.next {B : Nat} {df : DropFlag → Bool} {b b' : Builder} (h : Ready B df b)
    (hg : Grown b b') (hb' : b'.WF) : Ready B df b' :=
  ⟨hb', Nat.le_trans h.bound hg.length_le, fun g hlt => by
    rw [hg.default_eq (Nat.lt_of_lt_of_le hlt h.bound), h.defaults g hlt]⟩

section

variable {Ty : Type} (tt : TypeTable Ty) (B : Nat) (df : DropFlag → Bool)

/-- The state that `view` stands for. -/
def Seen (ty : Ty) (b : Builder) : OldView → VarState → Prop
  | .own s, old => old = s ∧ tt.Fits B ty s
  | .copyOf f, old => ∃ a, old = .optional a ∧ B ≤ a ∧ a < b.dropFlags.length ∧
      CopyOf b.dropFlagAliases B f a

/-- The flag of a state that is one flag. -/
def Seed (s : VarState) (x : DropFlag) : Prop := s = .optional x

/-- The run from `b` to `b'` merges the states `old` and `new` to `merged` by the meetings `l`. -/
def Meets (ty : Ty) (old new : VarState) (b : Builder) (merged : VarState) (b' : Builder)
    (l : List Meeting) : Prop :=
  ∃ ms : List Met, ms.map (·.meeting) = l ∧ Ran B (Seed old) b b' ms ∧
    Agrees tt B ty b' old new merged ms ∧ tt.Fits b'.dropFlags.length ty merged

/-- The merge function meets the list, from any builder and for any states that fit the type. -/
def Merges (merge : Ty → VarState → VarState → Build VarState)
    (meet : Ty → OldView → VarState → List Meeting) : Prop :=
  ∀ ty view old new b b' merged, Ready B df b → Seen tt B ty b view old → tt.Fits B ty new →
    .lost ∉ meet ty view new → merge ty old new b = .ok (merged, b') →
    Meets tt B ty old new b merged b' (meet ty view new)

end

section

variable {Ty : Type} {tt : TypeTable Ty} {B : Nat} {df : DropFlag → Bool}

theorem Seen.mono {ty : Ty} {b b' : Builder} {view : OldView} {old : VarState}
    (h : Seen tt B ty b view old) (hg : Grown b b') : Seen tt B ty b' view old := by
  cases view with
  | own s => exact h
  | copyOf f =>
    obtain ⟨a, ha, hB, hl, hc⟩ := h
    exact ⟨a, ha, hB, Nat.lt_of_lt_of_le hl hg.length_le, hc.mono fun _ hp => hg.mem hp⟩

theorem Seen.seed_lt {ty : Ty} {b : Builder} {view : OldView} {old : VarState}
    (h : Seen tt B ty b view old) (hb : B ≤ b.dropFlags.length) {x : DropFlag}
    (hx : Seed old x) : x < b.dropFlags.length := by
  cases view with
  | own s =>
    obtain ⟨rfl, hf⟩ := h
    rw [Seed] at hx
    rw [hx, TypeTable.Fits] at hf
    exact Nat.lt_of_lt_of_le hf hb
  | copyOf f =>
    obtain ⟨a, rfl, -, hl, -⟩ := h
    cases hx
    exact hl

/-! ## 3. The parts of a value -/

/-- A pair of the merge and what is seen of it. -/
structure Paired (tt : TypeTable Ty) (B : Nat) (tyOf : Nat → Ty) (b : Builder)
    (p : Nat × VarState × VarState) (v : Nat × OldView × VarState) : Prop where
  key : p.1 = v.1
  new : p.2.2 = v.2.2
  seen : Seen tt B (tyOf p.1) b v.2.1 p.2.1
  fits : tt.Fits B (tyOf p.1) p.2.2

/-- The new flags among the old states of the pairs are aliases side by side. -/
def Beside (B : Nat) (b : Builder) (ps : Pairs) : Prop :=
  ps.Pairwise fun p q => ∀ x s, B ≤ x → Seed q.2.1 x → Seed p.2.1 s → ¬ Touches b.mirrors x s

theorem mergeEach_meets {merge : Ty → VarState → VarState → Build VarState}
    {meet : Ty → OldView → VarState → List Meeting} (hm : Merges tt B df merge meet)
    (tyOf : Nat → Ty) : ∀ {ps : Pairs} {vs : Views} {b b' : Builder} {rs : OrdMap VarState},
      Ready B df b → List.Forall₂ (Paired tt B tyOf b) ps vs → Beside B b ps →
      .lost ∉ meetEach (fun i => meet (tyOf i)) vs →
      mergeEach (fun i => merge (tyOf i)) ps b = .ok (rs, b') →
      ∃ ms : List Met, ms.map (·.meeting) = meetEach (fun i => meet (tyOf i)) vs ∧
        Ran B (fun x => ∃ p ∈ ps, Seed p.2.1 x) b b' ms ∧
        List.Forall₂ (fun p r => p.1 = r.1 ∧ Agrees tt B (tyOf p.1) b' p.2.1 p.2.2 r.2 ms ∧
          tt.Fits b'.dropFlags.length (tyOf p.1) r.2) ps rs
  | [], [], b, b', rs, hb, _, _, _, h => by
    cases build_pure.mp h
    exact ⟨[], rfl, .nil hb.wf, .nil⟩
  | (k, old, new) :: ps, (k', view, new') :: vs, b, b', rs, hb, hp, hsep, hlost, h => by
    obtain ⟨⟨hk, hnew, hseen, hfits⟩, hps⟩ := List.forall₂_cons.mp hp
    obtain rfl : k = k' := hk
    obtain rfl : new = new' := hnew
    obtain ⟨hhead, htail⟩ := List.pairwise_cons.mp hsep
    simp only [meetEach, List.flatMap_cons, List.mem_append, not_or] at hlost
    rw [mergeEach, build_bind] at h
    obtain ⟨r, b₁, h₁, h⟩ := h
    rw [build_bind] at h
    obtain ⟨rs', b₂, h₂, h⟩ := h
    cases build_pure.mp h
    obtain ⟨ms, hms, hran, hag, hfit⟩ := hm _ _ _ _ _ _ _ hb hseen hfits hlost.1 h₁
    have hb₁ := hb.next hran.grown hran.wf
    have hlt : ∀ p ∈ ps, ∀ x, Seed p.2.1 x → x < b.dropFlags.length := by
      intro p hp x hx
      obtain ⟨v, -, hpv⟩ := Lib.forall₂_mem_left hps p hp
      exact hpv.seen.seed_lt hb.bound hx
    have hps₁ : List.Forall₂ (Paired tt B tyOf b₁) ps vs :=
      hps.imp fun _ _ h => ⟨h.key, h.new, h.seen.mono hran.grown, h.fits⟩
    have hsep₁ : Beside B b₁ ps := htail.imp_of_mem fun hp _ hne x s hx hxs hs ht =>
      hne x s hx hxs hs
        ((hran.grown.touches_iff_touches hb.wf hran.wf (hlt _ hp s hs)).mp ht)
    obtain ⟨ms', hms', hran', hag'⟩ := mergeEach_meets hm tyOf hb₁ hps₁ hsep₁ hlost.2 h₂
    have hfar : ∀ m ∈ ms, ∀ x y, B ≤ x → (∃ p ∈ ps, Seed p.2.1 x) → m.cell = .reg y →
        ¬ Touches b₁.mirrors x y :=
      hran.untouched hb.wf (fun s hs => hseen.seed_lt hb.bound hs)
        (fun x _ ⟨p, hp, hx⟩ => hlt p hp x hx)
        (fun x s hx ⟨p, hp, hxs⟩ hs => hhead p hp x s hx hxs hs)
    refine ⟨ms ++ ms', by simp [meetEach, hms, hms'], ?_, ?_⟩
    · refine (hran.mono fun x _ hx => ⟨_, List.mem_cons_self, hx⟩).append hran' hb.bound hfar ?_
      exact fun x _ ⟨p, hp, hx⟩ => Or.inl ⟨p, List.mem_cons_of_mem _ hp, hx⟩
    · refine .cons ⟨rfl, hag.mono hran'.grown fun m hm => List.mem_append_left _ hm,
        hfit.mono hran'.grown.length_le⟩ ?_
      exact hag'.imp fun _ _ h => ⟨h.1, h.2.1.mono (.refl hran'.wf) fun m hm =>
        List.mem_append_right _ hm, h.2.2⟩

/-! ## 4. Outer flags -/

/-- The run meets `m` in the cell `c`, where the old arms read `o` and the new one `w`. -/
structure OuterRun (B : Nat) (S : DropFlag → Prop) (b b' : Builder) (m : Meeting)
    (o w c : Source DropFlag Bool) : Prop where
  ran : Ran B S b b' [⟨m, c⟩]
  was : (Met.mk m c).was = o
  want : m.want = w

variable {S : DropFlag → Prop} {b b' : Builder}

theorem outerRun_same (hb : Ready B df b) {c : Source DropFlag Bool}
    (hc : ∀ g, c = .reg g → g < B) : OuterRun B S b b (.same c) c c c :=
  ⟨.keep hb.wf ⟨hc, rfl⟩ rfl, rfl, rfl⟩

variable {g f : DropFlag}

theorem outerRun_reuse (hb : Ready B df b) (was : Bool) (hg : g < B) :
    OuterRun B S b b (.reuse was g) (.const was) (.reg g) (.reg g) :=
  ⟨.keep hb.wf ⟨fun _ h => by cases h; exact hg, rfl⟩ rfl, rfl, rfl⟩

theorem outerRun_fresh (hb : Ready B df b) (was : Bool) {new : Source DropFlag Bool}
    (hnew : ∀ g, new = .reg g → g < B) :
    OuterRun B S b ((b.withFlag was).withStmt (b.dropFlags.length, new)) (.fresh was new)
      (.const was) new (.reg b.dropFlags.length) :=
  ⟨.fresh hb.wf hb.bound was hnew, rfl, rfl⟩

theorem outerRun_overwrite (hb : Ready B df b) (hf : f < B) {new : Source DropFlag Bool}
    (hnew : ∀ g, new = .reg g → g < B) :
    OuterRun B S b (b.withStmt (f, new)) (.overwrite f new) (.reg f) new (.reg f) :=
  ⟨.overwrite hb.wf hf hnew, rfl, rfl⟩

theorem bound_const {v : Bool} : ∀ g, (Source.const v : Source DropFlag Bool) = .reg g → g < B :=
  nofun

theorem bound_reg (hf : f < B) :
    ∀ g, (Source.reg f : Source DropFlag Bool) = .reg g → g < B :=
  fun _ h => by cases h; exact hf

theorem bound_some (hf : f < B) : ∀ g, some f = some g → g < B :=
  fun _ h => by cases h; exact hf

theorem takeFlag_run (hb : Ready B df b) {was : Bool} {r : DropFlag} (hg : g < B)
    (h : takeFlag was g b = .ok (r, b')) :
    OuterRun B S b b' (meetFlag df was g) (.const was) (.reg g) (.reg r) := by
  obtain ⟨d, b₁, hd, h⟩ := build_bind.mp h
  cases (getDropFlagDefault_run g b).symm.trans hd
  unfold meetFlag
  rw [← hb.defaults g hg]
  by_cases hdef : b.default g = was
  · rw [hdef, bne_self_eq_false, if_neg Bool.false_ne_true] at h
    cases build_pure.mp h
    rw [if_pos hdef]
    exact outerRun_reuse hb was hg
  · rw [if_pos (bne_iff_ne.mpr hdef)] at h
    cases h
    rw [if_neg hdef]
    exact outerRun_fresh hb was (bound_reg hg)

variable {oldFlag newFlag r : Option DropFlag}

variable (hb : Ready B df b)

include hb

theorem mergeOuterValidity_run {v : Bool} (ho : ∀ f, oldFlag = some f → f < B)
    (h : mergeOuterValidity oldFlag v b = .ok (r, b')) :
    OuterRun B S b b' (meetOuter df oldFlag (.const v)) (outerSource oldFlag) (.const v)
      (outerSource r) := by
  cases oldFlag with
  | none =>
    cases v with
    | true =>
      cases build_pure.mp h
      exact outerRun_same hb bound_const
    | false =>
      cases h
      exact outerRun_fresh hb true bound_const
  | some f =>
    cases h
    exact outerRun_overwrite hb (ho f rfl) bound_const

theorem mergeOuterValidityFlag_run (ho : ∀ f, oldFlag = some f → f < B)
    (hg : g < B) (h : mergeOuterValidityFlag oldFlag g b = .ok (r, b')) :
    OuterRun B S b b' (meetOuter df oldFlag (.reg g)) (outerSource oldFlag) (.reg g)
      (outerSource r) := by
  unfold mergeOuterValidityFlag at h
  cases oldFlag with
  | none =>
    rw [if_neg nofun] at h
    obtain ⟨d, b₁, hd, h⟩ := build_bind.mp h
    cases build_pure.mp h
    exact takeFlag_run hb hg hd
  | some f =>
    by_cases hfg : f = g
    · subst hfg
      rw [if_pos rfl] at h
      cases build_pure.mp h
      rw [meetOuter, if_pos rfl]
      exact outerRun_same hb (bound_reg hg)
    · rw [if_neg fun e => hfg (Option.some.inj e)] at h
      cases h
      rw [meetOuter, if_neg hfg]
      exact outerRun_overwrite hb (ho f rfl) (bound_reg hg)

theorem mergeOuterOf_run (ho : ∀ f, oldFlag = some f → f < B)
    (hn : ∀ f, newFlag = some f → f < B) (h : mergeOuterOf oldFlag newFlag b = .ok (r, b')) :
    OuterRun B S b b' (meetOuter df oldFlag (outerSource newFlag)) (outerSource oldFlag)
      (outerSource newFlag) (outerSource r) := by
  cases newFlag with
  | none => exact mergeOuterValidity_run hb ho h
  | some g => exact mergeOuterValidityFlag_run hb ho (hn g rfl) h

/-- The outer flag is a new alias: it is set in any case. -/
theorem mergeOuterOf_run_copy {a : DropFlag} (hBa : B ≤ a)
    (ha : a < b.dropFlags.length) (hcopy : CopyOf b.dropFlagAliases B f a) (hS : S a)
    (hn : ∀ f, newFlag = some f → f < B) (h : mergeOuterOf (some a) newFlag b = .ok (r, b')) :
    r = some a ∧ OuterRun B S b b' (.overwriteCopy f (outerSource newFlag)) (.reg a)
      (outerSource newFlag) (.reg a) := by
  cases newFlag with
  | none =>
    cases h
    exact ⟨rfl, .overwriteCopy hb.wf hBa ha hcopy hS bound_const, rfl, rfl⟩
  | some g =>
    have hne : a ≠ g := fun e => absurd (hn g rfl) (Nat.not_lt.mpr (e ▸ hBa))
    change mergeOuterValidityFlag (some a) g b = .ok (r, b') at h
    unfold mergeOuterValidityFlag at h
    rw [if_neg fun e => hne (Option.some.inj e)] at h
    cases h
    exact ⟨rfl, .overwriteCopy hb.wf hBa ha hcopy hS (bound_reg (hn g rfl)), rfl, rfl⟩

theorem mergeInvalidWithPartialOuter_run {r : DropFlag}
    (hn : ∀ f, newFlag = some f → f < B)
    (h : mergeInvalidWithPartialOuter newFlag b = .ok (r, b')) :
    OuterRun B S b b' (.fresh false (outerSource newFlag)) (.const false) (outerSource newFlag)
      (.reg r) := by
  cases newFlag with
  | none =>
    cases h
    exact outerRun_fresh hb false bound_const
  | some g =>
    cases h
    exact outerRun_fresh hb false (bound_reg (hn g rfl))

theorem mergeInvalidShell_run {r : DropFlag}
    (hn : ∀ f, newFlag = some f → f < B) (h : mergeInvalidShell newFlag b = .ok (r, b')) :
    OuterRun B S b b' (meetInvalidShell df newFlag) (.const false) (outerSource newFlag)
      (.reg r) := by
  cases newFlag with
  | none =>
    cases h
    exact outerRun_fresh hb false bound_const
  | some g => exact takeFlag_run hb (hn g rfl) h

theorem mergeValidShell_run (hn : ∀ f, newFlag = some f → f < B)
    (h : mergeValidShell newFlag b = .ok (r, b')) :
    OuterRun B S b b' (meetOuter df none (outerSource newFlag)) (.const true)
      (outerSource newFlag) (outerSource r) := by
  cases newFlag with
  | none =>
    cases build_pure.mp h
    exact outerRun_same hb bound_const
  | some g =>
    obtain ⟨d, b₁, hd, h⟩ := build_bind.mp h
    cases build_pure.mp h
    exact takeFlag_run hb (hn g rfl) hd

theorem mergeMovedOutShellVal_run {v : Bool}
    (ho : ∀ f, oldFlag = some f → f < B) (h : mergeMovedOutShellVal oldFlag v b = .ok (r, b')) :
    OuterRun B S b b' (meetShell df oldFlag (.const v)) (outerSource oldFlag) (.const v)
      (outerSource r) := by
  rw [mergeMovedOutShellVal_eq] at h
  have hmeet : meetShell df oldFlag (.const v) = meetOuter df oldFlag (.const v) := by
    cases oldFlag <;> rfl
  rw [hmeet]
  exact mergeOuterValidity_run hb ho h

theorem mergeMovedOutShellFlag_run (ho : ∀ f, oldFlag = some f → f < B)
    (hg : g < B) (h : mergeMovedOutShellFlag oldFlag g b = .ok (r, b')) :
    OuterRun B S b b' (meetShell df oldFlag (.reg g)) (outerSource oldFlag) (.reg g)
      (outerSource r) := by
  cases oldFlag with
  | none =>
    obtain ⟨d, b₁, hd, h⟩ := build_bind.mp h
    cases build_pure.mp h
    exact takeFlag_run hb hg hd
  | some f =>
    cases h
    exact outerRun_overwrite hb (ho f rfl) (bound_reg hg)

theorem mergeMovedOutShells_run (ho : ∀ f, oldFlag = some f → f < B)
    (hn : ∀ f, newFlag = some f → f < B) (hlost : meetShells oldFlag newFlag ≠ .lost)
    (h : mergeMovedOutShells oldFlag newFlag b = .ok (r, b')) :
    OuterRun B S b b' (meetShells oldFlag newFlag) (outerSource oldFlag) (outerSource newFlag)
      (outerSource r) := by
  cases oldFlag with
  | none =>
    cases build_pure.mp h
    cases newFlag with
    | none => exact outerRun_same hb bound_const
    | some g => exact outerRun_reuse hb true (hn g rfl)
  | some f =>
    cases newFlag with
    | none => exact absurd rfl hlost
    | some g =>
      cases h
      exact outerRun_overwrite hb (ho f rfl) (bound_reg (hn g rfl))

end

end Trustme.Lowering
