/-
  Subject:   What a merge does to the builder, meeting by meeting.

  A run of the builder MEETS a list of meetings when its new flags, aliases and statements are
  those of the meetings. Runs that meet their lists are put together here, whatever states they
  belong to; the flags of the two states are below a bound `B`, the flags of the run above it.

  * `Met`, `Met.Placed`: a meeting and the cell where the merged state reads it;
  * `Ran`: a run that meets a list, `Ran.append` -- two runs after each other;
  * `Ran.keep`, `Ran.fresh`, `Ran.overwrite`, `Ran.overwriteCopy`, `Ran.aliased`: single steps;
  * `Ran.demands_met`: compatible meetings are all met by the statements of the run.
-/
import Trustme.Lowering.Meetings

namespace Trustme.Lowering

open Lib (OrdMap Source Touches Demand emitted runWrites)

/-! ## 1. Builders that grow -/

def Builder.withFlag (b : Builder) (d : Bool) : Builder :=
  { b with
    dropFlags := b.dropFlags ++ [d]
    loopFlags := b.loopFlags.map (· ++ [b.dropFlags.length]) }

def Builder.withStmt (b : Builder) (w : DropFlag × Source DropFlag Bool) : Builder :=
  { b with statements := b.statements ++ [stmtOf w] }

def Builder.withAlias (b : Builder) (f a : DropFlag) : Builder :=
  { b with dropFlagAliases := b.dropFlagAliases ++ [(f, a)] }

/-- The builder `b'` comes after `b`. -/
structure Grown (b b' : Builder) : Prop where
  flags : b.dropFlags <+: b'.dropFlags
  aliases : ∀ p, p ∈ b.dropFlagAliases ↔ p ∈ b'.dropFlagAliases ∧ p.2 < b.dropFlags.length

namespace Grown

variable {b b' b'' : Builder}

theorem refl (hb : b.WF) : Grown b b :=
  ⟨List.prefix_refl _, fun p => ⟨fun h => ⟨h, (hb.newer p h).2⟩, And.left⟩⟩

theorem length_le (h : Grown b b') : b.dropFlags.length ≤ b'.dropFlags.length := h.flags.length_le

theorem mem (h : Grown b b') {p : DropFlag × DropFlag} (hp : p ∈ b.dropFlagAliases) :
    p ∈ b'.dropFlagAliases := ((h.aliases p).mp hp).1

theorem trans (h : Grown b b') (h' : Grown b' b'') : Grown b b'' := by
  refine ⟨h.flags.trans h'.flags, fun p => ?_⟩
  rw [h.aliases, h'.aliases]
  constructor
  · rintro ⟨⟨hp, -⟩, hl⟩
    exact ⟨hp, hl⟩
  · rintro ⟨hp, hl⟩
    exact ⟨⟨hp, Nat.lt_of_lt_of_le hl h.length_le⟩, hl⟩

/-- A flag keeps its default. -/
theorem default_eq (h : Grown b b') {f : DropFlag} (hf : f < b.dropFlags.length) :
    b'.default f = b.default f := by
  obtain ⟨t, ht⟩ := h.flags
  simp only [Builder.default, ← ht, List.getD_eq_getElem?_getD, List.getElem?_append_left hf]

/-- A flag that the builder has keeps the flags it follows. -/
theorem mirrors_iff (h : Grown b b') (hb' : b'.WF) {x y : DropFlag} (hy : y < b.dropFlags.length) :
    Mirrors b'.dropFlagAliases x y ↔ Mirrors b.dropFlagAliases x y := by
  constructor
  · intro hm
    induction hm with
    | single hp => exact Relation.TransGen.single ((h.aliases _).mpr ⟨hp, hy⟩)
    | tail _ hp ih =>
      have hlt := (hb'.newer _ hp).1
      exact (ih (Nat.lt_trans hlt hy)).tail ((h.aliases _).mpr ⟨hp, hy⟩)
  · exact fun hm => hm.lift id fun _ _ hp => h.mem hp

theorem touches_iff_touches (h : Grown b b') (hb : b.WF) (hb' : b'.WF) {x y : DropFlag}
    (hy : y < b.dropFlags.length) : Touches b'.mirrors x y ↔ Touches b.mirrors x y := by
  rw [touches_iff hb', touches_iff hb, h.mirrors_iff hb' hy]

end Grown

variable {f a : DropFlag}

/-- A flag keeps its default when others are added. -/
theorem default_append (b : Builder) (d : Bool) (hf : f < b.dropFlags.length) :
    (b.dropFlags ++ [d]).getD f false = b.default f := by
  simp only [Builder.default, List.getD_eq_getElem?_getD, List.getElem?_append_left hf]

section Steps

variable {b : Builder} (hb : b.WF)

include hb

theorem Builder.WF.withFlag (d : Bool) : (b.withFlag d).WF where
  newer := fun p hp => ⟨(hb.newer p hp).1, by
    simpa [Builder.withFlag] using Nat.lt_succ_of_lt (hb.newer p hp).2⟩
  own := hb.own
  alike := fun p hp => by
    obtain ⟨h₁, h₂⟩ := hb.newer p hp
    exact (default_append b d h₂).trans
      ((hb.alike p hp).trans (default_append b d (Nat.lt_trans h₁ h₂)).symm)

theorem Builder.WF.withStmt (w : DropFlag × Source DropFlag Bool) : (b.withStmt w).WF :=
  ⟨hb.newer, hb.own, hb.alike⟩

theorem grown_withFlag (d : Bool) : Grown b (b.withFlag d) :=
  ⟨List.prefix_append _ _, fun p => ⟨fun h => ⟨h, (hb.newer p h).2⟩, And.left⟩⟩

theorem grown_withStmt (w : DropFlag × Source DropFlag Bool) : Grown b (b.withStmt w) :=
  ⟨List.prefix_refl _, fun p => ⟨fun h => ⟨h, (hb.newer p h).2⟩, And.left⟩⟩

/-- A new flag that is made an alias at once. -/
theorem Builder.WF.withAlias {f : DropFlag} (hf : f < b.dropFlags.length) :
    ((b.withFlag (b.default f)).withAlias f b.dropFlags.length).WF := by
  have hmem : ∀ p, p ∈ ((b.withFlag (b.default f)).withAlias f b.dropFlags.length).dropFlagAliases →
      p ∈ b.dropFlagAliases ∨ p = (f, b.dropFlags.length) := fun p hp =>
    (List.mem_append.mp hp).imp_right List.mem_singleton.mp
  constructor
  · intro p hp
    simp only [Builder.withAlias, Builder.withFlag, List.length_append, List.length_singleton]
    rcases hmem p hp with hp | rfl
    · exact ⟨(hb.newer p hp).1, Nat.lt_succ_of_lt (hb.newer p hp).2⟩
    · exact ⟨hf, Nat.lt_succ_self _⟩
  · simp only [Builder.withAlias, Builder.withFlag, List.map_append, List.map_cons, List.map_nil]
    refine List.nodup_append.mpr ⟨hb.own, List.nodup_singleton _, fun a ha c hc => ?_⟩
    obtain ⟨p, hp, rfl⟩ := List.mem_map.mp ha
    rw [List.mem_singleton.mp hc]
    exact Nat.ne_of_lt (hb.newer p hp).2
  · intro p hp
    rcases hmem p hp with hp | rfl
    · exact (hb.withFlag (b.default f)).alike p hp
    · refine Eq.trans ?_ (default_append b (b.default f) hf).symm
      simp [Builder.withAlias, Builder.withFlag, Builder.default]

theorem grown_withAlias (d : Bool) (f : DropFlag) :
    Grown b ((b.withFlag d).withAlias f b.dropFlags.length) := by
  refine ⟨List.prefix_append _ _, fun p => ?_⟩
  simp only [Builder.withAlias, Builder.withFlag, List.mem_append, List.mem_singleton]
  constructor
  · exact fun h => ⟨Or.inl h, (hb.newer p h).2⟩
  · rintro ⟨h | rfl, hl⟩
    · exact h
    · exact absurd hl (Nat.lt_irrefl _)

end Steps

/-! ## 2. Meetings in their cells -/

/-- `a` is an alias of the flag `f` of the two states, or an alias of one; all of them are new. -/
inductive CopyOf (aliases : List (DropFlag × DropFlag)) (B : Nat) : DropFlag → DropFlag → Prop where
  | one {f a : DropFlag} (h : (f, a) ∈ aliases) (hf : f < B) : CopyOf aliases B f a
  | more {f c a : DropFlag} (hc : CopyOf aliases B f c) (h : (c, a) ∈ aliases) (hB : B ≤ c) :
      CopyOf aliases B f a

theorem CopyOf.mono {aliases aliases' : List (DropFlag × DropFlag)} {B : Nat}
    (h : CopyOf aliases B f a) (hsub : ∀ p ∈ aliases, p ∈ aliases') : CopyOf aliases' B f a := by
  induction h with
  | one h hf => exact .one (hsub _ h) hf
  | more _ h hB ih => exact .more ih (hsub _ h) hB

theorem CopyOf.lt {aliases : List (DropFlag × DropFlag)} {B : Nat}
    (h : CopyOf aliases B f a) : f < B := by
  induction h with
  | one _ hf => exact hf
  | more _ _ _ ih => exact ih

variable {b b' bF : Builder}

/-- A write of a flag of the two states touches an alias as it touches the flag aliased. -/
theorem CopyOf.touches (hb : b.WF) {B : Nat} {x : DropFlag} (h : CopyOf b.dropFlagAliases B f a)
    (ha : B ≤ a) (hx : x < B) :
    Touches b.mirrors x a ↔ Touches b.mirrors x f := by
  induction h with
  | one h _ =>
    rw [touches_alias hb h]
    exact ⟨fun h => h.resolve_left fun e => absurd hx (Nat.not_lt.mpr (e ▸ ha)), Or.inr⟩
  | more _ h hB ih =>
    rw [touches_alias hb h, ih hB]
    exact ⟨fun h => h.resolve_left fun e => absurd hx (Nat.not_lt.mpr (e ▸ ha)), Or.inr⟩

/-- A meeting and the source that the merged state reads for it. -/
structure Met where
  meeting : Meeting
  cell : Source DropFlag Bool

namespace Met

/-- What is read on the paths of the earlier arms. -/
def was (m : Met) : Source DropFlag Bool :=
  match m.meeting with
  | .same c => c
  | .reuse was _ => .const was
  | .fresh was _ => .const was
  | .overwrite f _ => .reg f
  | .overwriteCopy _ _ => m.cell
  | .lost => .const true

/-- The write on the new arm. -/
def stmt (m : Met) : Option (DropFlag × Source DropFlag Bool) :=
  match m.meeting, m.cell with
  | .fresh _ new, .reg x => some (x, new)
  | .overwrite _ new, .reg x => some (x, new)
  | .overwriteCopy _ new, .reg x => some (x, new)
  | _, _ => none

def demand (m : Met) : Demand DropFlag Bool := ⟨m.meeting.want, m.cell, m.stmt⟩

/-- The cell is the one `mergeState` chooses. -/
def InCell (B : Nat) (b : Builder) (m : Met) : Prop :=
  match m.meeting with
  | .same c => m.cell = c
  | .reuse _ g => m.cell = .reg g
  | .fresh was _ => ∃ x, m.cell = .reg x ∧ B ≤ x ∧ x < b.dropFlags.length ∧ b.default x = was ∧
      ∀ f, (f, x) ∉ b.dropFlagAliases
  | .overwrite f _ => m.cell = .reg f ∧ f < B
  | .overwriteCopy f _ => ∃ a, m.cell = .reg a ∧ B ≤ a ∧ a < b.dropFlags.length ∧
      CopyOf b.dropFlagAliases B f a
  | .lost => False

/-- The meeting is one of the two states, and its cell is in place. -/
structure Placed (B : Nat) (b : Builder) (m : Met) : Prop where
  bound : ∀ g, m.meeting.want = .reg g → g < B
  inCell : m.InCell B b

theorem Placed.mono {B : Nat} {b b' : Builder} {m : Met} (h : m.Placed B b) (hg : Grown b b') :
    m.Placed B b' := by
  obtain ⟨meeting, cell⟩ := m
  obtain ⟨hbound, h⟩ := h
  refine ⟨hbound, ?_⟩
  cases meeting with
  | fresh was new =>
    obtain ⟨x, hc, hB, hl, hd, ha⟩ := h
    refine ⟨x, hc, hB, Nat.lt_of_lt_of_le hl hg.length_le, by rw [hg.default_eq hl, hd], ?_⟩
    exact fun f hf => ha f ((hg.aliases _).mpr ⟨hf, hl⟩)
  | overwriteCopy f new =>
    obtain ⟨a, hc, hB, hl, hcopy⟩ := h
    exact ⟨a, hc, hB, Nat.lt_of_lt_of_le hl hg.length_le, hcopy.mono fun _ hp => hg.mem hp⟩
  | _ => exact h

/-- A write fills the cell with what the new arm reads. -/
theorem stmt_eq_some {m : Met} {x : DropFlag} {s : Source DropFlag Bool}
    (h : m.stmt = some (x, s)) : m.cell = .reg x ∧ s = m.meeting.want := by
  obtain ⟨meeting, cell⟩ := m
  cases meeting <;> cases cell <;> simp_all [stmt, Meeting.want]

/-- Without a write the cell reads what the new arm reads. -/
theorem Placed.cell_eq_want {B : Nat} {b : Builder} {m : Met} (h : m.Placed B b)
    (hn : m.stmt = none) : m.cell = m.meeting.want := by
  obtain ⟨meeting, cell⟩ := m
  have hc := h.inCell
  cases meeting with
  | same c => exact hc
  | reuse was g => exact hc
  | fresh was new =>
    obtain ⟨x, rfl, -⟩ := hc
    cases hn
  | overwrite f new =>
    obtain ⟨rfl, -⟩ := hc
    cases hn
  | overwriteCopy f new =>
    obtain ⟨a, rfl, -⟩ := hc
    cases hn
  | lost => exact hc.elim

/-- A write of a flag of the two states is the meeting's own. -/
theorem Placed.target_of_lt {B : Nat} {b : Builder} {m : Met} (h : m.Placed B b) {x : DropFlag}
    {s : Source DropFlag Bool} (hs : m.stmt = some (x, s)) (hx : x < B) :
    m.meeting.target = some x := by
  obtain ⟨hcx, -⟩ := stmt_eq_some hs
  obtain ⟨meeting, cell⟩ := m
  have hc := h.inCell
  cases meeting with
  | same c => cases hs
  | reuse was g => cases hs
  | fresh was new =>
    obtain ⟨y, hy, hB, -⟩ := hc
    have e := hy.symm.trans hcx
    cases e
    exact absurd hx (Nat.not_lt.mpr hB)
  | overwrite f new =>
    have e := hc.1.symm.trans hcx
    cases e
    rfl
  | overwriteCopy f new =>
    obtain ⟨y, hy, hB, -⟩ := hc
    have e := hy.symm.trans hcx
    cases e
    exact absurd hx (Nat.not_lt.mpr hB)
  | lost => exact hc.elim

/-- A write of a flag of the two states touches the cell as it touches its root. -/
theorem Placed.root_of_touches {B : Nat} {b : Builder} (hb : b.WF) {m : Met} (h : m.Placed B b)
    {x y : DropFlag} (hy : m.cell = .reg y) (hx : x < B) (ht : Touches b.mirrors x y) :
    ∃ g, m.meeting.root = some g ∧ g < B ∧ Touches b.mirrors x g := by
  obtain ⟨meeting, cell⟩ := m
  have hc := h.inCell
  cases meeting with
  | same c =>
    obtain rfl : cell = c := hc
    obtain rfl : cell = .reg y := hy
    exact ⟨y, rfl, h.bound y rfl, ht⟩
  | reuse was g =>
    have e := (show cell = .reg g from hc).symm.trans hy
    cases e
    exact ⟨y, rfl, h.bound y rfl, ht⟩
  | fresh was new =>
    obtain ⟨z, hz, hB, -, -, hroot⟩ := hc
    have e := hz.symm.trans hy
    cases e
    have e := (touches_root hb hroot).mp ht
    exact absurd hx (Nat.not_lt.mpr (e ▸ hB))
  | overwrite f new =>
    have e := hc.1.symm.trans hy
    cases e
    exact ⟨y, rfl, hc.2, ht⟩
  | overwriteCopy f new =>
    obtain ⟨a, ha, hB, -, hcopy⟩ := hc
    have e := ha.symm.trans hy
    cases e
    exact ⟨f, rfl, hcopy.lt, (hcopy.touches hb hB hx).mp ht⟩
  | lost => exact hc.elim

/-- A cell is a flag the builder has. -/
theorem Placed.lt_length {B : Nat} {b : Builder} (hB : B ≤ b.dropFlags.length) {m : Met}
    (h : m.Placed B b) {y : DropFlag} (hy : m.cell = .reg y) : y < b.dropFlags.length := by
  obtain ⟨meeting, cell⟩ := m
  have hc := h.inCell
  cases meeting with
  | same c =>
    obtain rfl : cell = c := hc
    exact Nat.lt_of_lt_of_le (h.bound y hy) hB
  | reuse was g =>
    have e := (show cell = .reg g from hc).symm.trans hy
    cases e
    exact Nat.lt_of_lt_of_le (h.bound y rfl) hB
  | fresh was new =>
    obtain ⟨z, hz, -, hl, -⟩ := hc
    have e := hz.symm.trans hy
    cases e
    exact hl
  | overwrite f new =>
    have e := hc.1.symm.trans hy
    cases e
    exact Nat.lt_of_lt_of_le hc.2 hB
  | overwriteCopy f new =>
    obtain ⟨a, ha, -, hl, -⟩ := hc
    have e := ha.symm.trans hy
    cases e
    exact hl
  | lost => exact hc.elim

end Met

/-! ## 3. Runs -/

/-- A new flag of a run: one that belongs to its old states from the start, or one it allocates. -/
def Mine (S : DropFlag → Prop) (b b' : Builder) (x : DropFlag) : Prop :=
  S x ∨ (b.dropFlags.length ≤ x ∧ x < b'.dropFlags.length)

/-- `m'`, which comes after `m`, does not write the cell of `m` through a new flag. -/
def Apart (B : Nat) (b : Builder) (m m' : Met) : Prop :=
  ∀ x s y, m'.stmt = some (x, s) → B ≤ x → m.cell = .reg y → ¬ Touches b.mirrors x y

/-- The run from `b` to `b'` meets `ms`. Below `B` are the flags of the two states; `S` are the new
    flags that are among the old states already. -/
structure Ran (B : Nat) (S : DropFlag → Prop) (b b' : Builder) (ms : List Met) : Prop where
  wf : b'.WF
  grown : Grown b b'
  stmts : b'.statements = b.statements ++ (emitted (ms.map Met.demand)).map stmtOf
  placed : ∀ m ∈ ms, m.Placed B b'
  mine : ∀ m ∈ ms, ∀ y, m.cell = .reg y → B ≤ y → Mine S b b' y
  sources : ∀ p ∈ b'.dropFlagAliases, b.dropFlags.length ≤ p.2 → B ≤ p.1 → Mine S b b' p.1
  apart : ms.Pairwise (Apart B b')

namespace Ran

variable {B : Nat} {S S' : DropFlag → Prop} {b b' b'' : Builder} {ms ms' : List Met}

theorem nil (hb : b.WF) : Ran B S b b [] where
  wf := hb
  grown := .refl hb
  stmts := by simp
  placed := by simp
  mine := by simp
  sources := fun p hp h => absurd (hb.newer p hp).2 (Nat.not_lt.mpr h)
  apart := .nil

theorem mono (h : Ran B S b b' ms) (hS : ∀ x, B ≤ x → S x → S' x) : Ran B S' b b' ms where
  wf := h.wf
  grown := h.grown
  stmts := h.stmts
  placed := h.placed
  mine := fun m hm y hy hB => (h.mine m hm y hy hB).imp_left (hS y hB)
  sources := fun p hp hl hB => (h.sources p hp hl hB).imp_left (hS _ hB)
  apart := h.apart

/-- What touches a flag of the run from above the bound is one of its flags too, or touches one
    that the old states bring along. -/
theorem mine_of_touches (h : Ran B S b b' ms) {x y : DropFlag} (hx : B ≤ x)
    (hy : Mine S b b' y) (ht : Touches b'.mirrors x y) :
    (b.dropFlags.length ≤ x ∧ x < b'.dropFlags.length) ∨ ∃ s, S s ∧ Touches b'.mirrors x s := by
  induction y using Nat.strongRecOn with
  | _ y ih =>
    rcases hy with hy | hy
    · exact Or.inr ⟨y, hy, ht⟩
    · by_cases halias : ∃ p, (p, y) ∈ b'.dropFlagAliases
      · obtain ⟨p, hp⟩ := halias
        rcases (touches_alias h.wf hp).mp ht with rfl | hxp
        · exact Or.inl hy
        · have hBp := Nat.le_trans hx (le_of_touches h.wf hxp)
          exact ih p (h.wf.newer _ hp).1 (h.sources _ hp hy.1 hBp) hxp
      · have e := (touches_root h.wf fun f hf => halias ⟨f, hf⟩).mp ht
        exact Or.inl (e ▸ hy)

/-- Two runs after each other. The second one may bring along flags of its own (`S'`), as long as
    these are there when the first one ends and touch nothing it reads. -/
theorem append (h : Ran B S b b' ms) (h' : Ran B S' b' b'' ms') (hB : B ≤ b.dropFlags.length)
    (hsep : ∀ m ∈ ms, ∀ x y, B ≤ x → S' x → m.cell = .reg y → ¬ Touches b'.mirrors x y)
    (hS : ∀ x, B ≤ x → S' x → Mine S b b' x) : Ran B S b b'' (ms ++ ms') where
  wf := h'.wf
  grown := h.grown.trans h'.grown
  stmts := by rw [h'.stmts, h.stmts]; simp [List.append_assoc]
  placed := fun m hm => by
    rcases List.mem_append.mp hm with hm | hm
    · exact (h.placed m hm).mono h'.grown
    · exact h'.placed m hm
  mine := fun m hm y hy hB => by
    rcases List.mem_append.mp hm with hm | hm
    · exact (h.mine m hm y hy hB).imp_right fun hr =>
        ⟨hr.1, Nat.lt_of_lt_of_le hr.2 h'.grown.length_le⟩
    · rcases h'.mine m hm y hy hB with hs | hr
      · exact (hS y hB hs).imp_right fun hr =>
          ⟨hr.1, Nat.lt_of_lt_of_le hr.2 h'.grown.length_le⟩
      · exact Or.inr ⟨Nat.le_trans h.grown.length_le hr.1, hr.2⟩
  sources := fun p hp hlen hB => by
    by_cases hold : p.2 < b'.dropFlags.length
    · have hp' : p ∈ b'.dropFlagAliases := (h'.grown.aliases p).mpr ⟨hp, hold⟩
      exact (h.sources p hp' hlen hB).imp_right fun hr =>
        ⟨hr.1, Nat.lt_of_lt_of_le hr.2 h'.grown.length_le⟩
    · rcases h'.sources p hp (Nat.not_lt.mp hold) hB with hs | hr
      · exact (hS _ hB hs).imp_right fun hr =>
          ⟨hr.1, Nat.lt_of_lt_of_le hr.2 h'.grown.length_le⟩
      · exact Or.inr ⟨Nat.le_trans h.grown.length_le hr.1, hr.2⟩
  apart := by
    refine List.pairwise_append.mpr ⟨?_, h'.apart, ?_⟩
    · refine h.apart.imp_of_mem fun {m} {m'} hm hm' hap x s y hs hx hy ht => ?_
      have hlt := (h.placed m hm).lt_length (Nat.le_trans hB h.grown.length_le) hy
      exact hap x s y hs hx hy ((h'.grown.touches_iff_touches h.wf h'.wf hlt).mp ht)
    · intro m hm m' hm' x s y hs hx hy ht
      have hlt := (h.placed m hm).lt_length (Nat.le_trans hB h.grown.length_le) hy
      have ht' := (h'.grown.touches_iff_touches h.wf h'.wf hlt).mp ht
      rcases h'.mine m' hm' x (Met.stmt_eq_some hs).1 hx with hs' | hr
      · exact hsep m hm x y hx hs' hy ht'
      · exact absurd (Nat.lt_of_le_of_lt (le_of_touches h.wf ht') hlt) (Nat.not_lt.mpr hr.1)

/-- Flags that are there when the run starts touch none of its cells, when they touch none that
    the old states bring along. -/
theorem untouched (h : Ran B S b b' ms) (hb : b.WF)
    (hS : ∀ s, S s → s < b.dropFlags.length)
    (hS' : ∀ x, B ≤ x → S' x → x < b.dropFlags.length)
    (hsep : ∀ x s, B ≤ x → S' x → S s → ¬ Touches b.mirrors x s) :
    ∀ m ∈ ms, ∀ x y, B ≤ x → S' x → m.cell = .reg y → ¬ Touches b'.mirrors x y := by
  intro m hm x y hx hx' hy ht
  have hBy := Nat.le_trans hx (le_of_touches h.wf ht)
  rcases h.mine_of_touches hx (h.mine m hm y hy hBy) ht with hr | ⟨s, hs, hts⟩
  · exact absurd (hS' x hx hx') (Nat.not_lt.mpr hr.1)
  · exact hsep x s hx hx' hs ((h.grown.touches_iff_touches hb h.wf (hS s hs)).mp hts)

/-! ### Single steps -/

theorem keep (hb : b.WF) {m : Met} (hm : m.Placed B b) (hn : m.stmt = none) :
    Ran B S b b [m] where
  wf := hb
  grown := .refl hb
  stmts := by simp [emitted, Met.demand, hn]
  placed := by simpa using hm
  mine := fun m' hm' y hy hB => by
    rw [List.mem_singleton.mp hm', hm.cell_eq_want hn] at hy
    exact absurd (hm.bound y hy) (Nat.not_lt.mpr hB)
  sources := (nil (B := B) (S := S) hb).sources
  apart := List.pairwise_singleton _ _

theorem fresh (hb : b.WF) (hB : B ≤ b.dropFlags.length) (was : Bool)
    {new : Source DropFlag Bool} (hnew : ∀ g, new = .reg g → g < B) :
    Ran B S b ((b.withFlag was).withStmt (b.dropFlags.length, new))
      [⟨.fresh was new, .reg b.dropFlags.length⟩] where
  wf := (hb.withFlag was).withStmt _
  grown := (grown_withFlag hb was).trans (grown_withStmt (hb.withFlag was) _)
  stmts := rfl
  placed := fun m hm => by
    rw [List.mem_singleton.mp hm]
    refine ⟨hnew, b.dropFlags.length, rfl, hB, ?_, ?_, fun f hf => ?_⟩
    · simp [Builder.withStmt, Builder.withFlag]
    · simp [Builder.withStmt, Builder.withFlag, Builder.default]
    · exact absurd (hb.newer _ hf).2 (Nat.lt_irrefl _)
  mine := fun m hm y hy _ => by
    rw [List.mem_singleton.mp hm] at hy
    cases hy
    exact Or.inr ⟨Nat.le_refl _, by simp [Builder.withStmt, Builder.withFlag]⟩
  sources := fun p hp hl => absurd (hb.newer p hp).2 (Nat.not_lt.mpr hl)
  apart := List.pairwise_singleton _ _

theorem overwrite (hb : b.WF) {f : DropFlag} (hf : f < B) {new : Source DropFlag Bool}
    (hnew : ∀ g, new = .reg g → g < B) :
    Ran B S b (b.withStmt (f, new)) [⟨.overwrite f new, .reg f⟩] where
  wf := hb.withStmt _
  grown := grown_withStmt hb _
  stmts := rfl
  placed := fun m hm => by
    rw [List.mem_singleton.mp hm]
    exact ⟨hnew, rfl, hf⟩
  mine := fun m hm y hy hB => by
    rw [List.mem_singleton.mp hm] at hy
    cases hy
    exact absurd hf (Nat.not_lt.mpr hB)
  sources := fun p hp hl => absurd (hb.newer p hp).2 (Nat.not_lt.mpr hl)
  apart := List.pairwise_singleton _ _

theorem overwriteCopy (hb : b.WF) {f a : DropFlag} (hBa : B ≤ a) (ha : a < b.dropFlags.length)
    (hcopy : CopyOf b.dropFlagAliases B f a) (hS : S a) {new : Source DropFlag Bool}
    (hnew : ∀ g, new = .reg g → g < B) :
    Ran B S b (b.withStmt (a, new)) [⟨.overwriteCopy f new, .reg a⟩] where
  wf := hb.withStmt _
  grown := grown_withStmt hb _
  stmts := rfl
  placed := fun m hm => by
    rw [List.mem_singleton.mp hm]
    exact ⟨hnew, a, rfl, hBa, ha, hcopy⟩
  mine := fun m hm y hy _ => by
    rw [List.mem_singleton.mp hm] at hy
    cases hy
    exact Or.inl hS
  sources := fun p hp hl => absurd (hb.newer p hp).2 (Nat.not_lt.mpr hl)
  apart := List.pairwise_singleton _ _

theorem aliased (hb : b.WF) {f : DropFlag} (hf : f < b.dropFlags.length) (hS : B ≤ f → S f) :
    Ran B S b ((b.withFlag (b.default f)).withAlias f b.dropFlags.length) [] where
  wf := hb.withAlias hf
  grown := grown_withAlias hb _ f
  stmts := by simp [Builder.withAlias, Builder.withFlag]
  placed := by simp
  mine := by simp
  sources := fun p hp hl hB => by
    have hp' : p ∈ b.dropFlagAliases ++ [(f, b.dropFlags.length)] := hp
    rcases List.mem_append.mp hp' with h | h
    · exact absurd (hb.newer p h).2 (Nat.not_lt.mpr hl)
    · rw [List.mem_singleton.mp h] at hB ⊢
      exact Or.inl (hS hB)
  apart := .nil

end Ran

/-! ## 4. What a run does to the flag values -/

/-- The values on a path that does not come through the statements of the run from `b` to `b'`: a
    flag the run allocates has its default there, an alias the value of the flag it stands for. -/
structure Unwritten (b b' : Builder) (ρ : DropFlag → Bool) : Prop where
  default : ∀ x, b.dropFlags.length ≤ x → x < b'.dropFlags.length →
    (∀ f, (f, x) ∉ b'.dropFlagAliases) → ρ x = b'.default x
  follows : ∀ f a, (f, a) ∈ b'.dropFlagAliases → b.dropFlags.length ≤ a → ρ a = ρ f

/-- A path whose statements set none of these flags is such a path. -/
theorem unwritten_of_run (hF : bF.WF) (hg : Grown b' bF)
    {ws : List (DropFlag × Source DropFlag Bool)}
    (h : ∀ w ∈ ws, b.dropFlags.length ≤ w.1 → b'.dropFlags.length ≤ w.1) :
    Unwritten b b' (runWrites bF.mirrors ws bF.default) := by
  have hother : ∀ w ∈ ws, ∀ x, b.dropFlags.length ≤ x → x < b'.dropFlags.length → ¬ x = w.1 := by
    rintro w hw x hB hl rfl
    exact absurd (h w hw hB) (Nat.not_le.mpr hl)
  constructor
  · intro x hB hl hroot
    have hroot' : ∀ f, (f, x) ∉ bF.dropFlagAliases := fun f hf =>
      hroot f ((hg.aliases (f, x)).mpr ⟨hf, hl⟩)
    rw [Lib.runWrites_of_not_touched fun w hw => (touches_root hF hroot').not.mpr
      (hother w hw x hB hl), hg.default_eq hl]
  · intro f a ha hB
    obtain ⟨ha', hl⟩ := (hg.aliases (f, a)).mp ha
    refine Lib.runWrites_eq (fun w hw => ?_) (hF.alike _ ha')
    rw [touches_alias hF ha', or_iff_right (hother w hw a hB hl)]

variable {ρ : DropFlag → Bool}

/-- On the path of an earlier arm every cell reads what that arm had there. -/
theorem Met.Placed.read_was {m : Met} (h : m.Placed b.dropFlags.length b') (hρ : Unwritten b b' ρ)
    (hm : m.meeting.Holds ρ) :
    m.cell.read ρ = m.was.read ρ := by
  obtain ⟨meeting, cell⟩ := m
  have hc := h.inCell
  cases meeting with
  | same c => exact congrArg (Source.read ρ) hc
  | reuse was g =>
    obtain rfl : cell = .reg g := hc
    exact hm
  | fresh was new =>
    obtain ⟨x, rfl, hB, hl, hd, hroot⟩ := hc
    exact (hρ.default x hB hl hroot).trans hd
  | overwrite f new => exact congrArg (Source.read ρ) hc.1
  | overwriteCopy f new => rfl
  | lost => exact hc.elim

/-- Compatible meetings are compatible demands: through the new flags of the run no write reaches
    another one's cell. -/
theorem Ran.compatible {S : DropFlag → Prop} {ms : List Met} (h : Ran b.dropFlags.length S b b' ms)
    (hb : b.WF) (hF : bF.WF) (hg : Grown b' bF)
    (hc : (ms.map (·.meeting)).Pairwise (Meeting.Compatible b ρ)) :
    (ms.map Met.demand).Pairwise (Lib.Compatible bF.mirrors ρ) := by
  have hold {x y : DropFlag} (hy : y < b.dropFlags.length) (ht : Touches bF.mirrors x y) :
      Touches b.mirrors x y := ((h.grown.trans hg).touches_iff_touches hb hF hy).mp ht
  rw [List.pairwise_map] at hc ⊢
  refine (h.apart.and hc).imp_of_mem fun {m} {m'} hm hm' hap => ⟨?_, ?_⟩
  · intro x s y hs ht hy
    have hp := (h.placed m hm).mono hg
    by_cases hx : x < b.dropFlags.length
    · obtain ⟨g, hroot, hglt, htg⟩ := hp.root_of_touches hF hy hx ht
      have htarget := (h.placed m' hm').target_of_lt hs hx
      exact hap.2.later x htarget g hroot (hold hglt htg)
    · have hlt := (h.placed m hm).lt_length h.grown.length_le hy
      exact absurd ((hg.touches_iff_touches h.wf hF hlt).mp ht)
        (hap.1 x s y hs (Nat.not_lt.mp hx) hy)
  · intro x s y hs ht hy
    have hwant : m'.meeting.want = .reg y := by
      rcases hy with hy | ⟨hn, hy⟩
      · exact hy
      · rw [← (h.placed m' hm').cell_eq_want hn]
        exact hy
    have hylt := (h.placed m' hm').bound y hwant
    have hxlt := Nat.lt_of_le_of_lt (le_of_touches hF ht) hylt
    exact hap.2.earlier x ((h.placed m hm).target_of_lt hs hxlt) y hwant (hold hylt ht)

/-- Every meeting is a sound demand. -/
theorem Ran.sound {S : DropFlag → Prop} {B : Nat} {ms : List Met}
    (h : Ran B S b b' ms) : ∀ d ∈ ms.map Met.demand, d.Sound ρ := by
  intro d hd
  obtain ⟨m, hm, rfl⟩ := List.mem_map.mp hd
  refine ⟨fun x s hs => Met.stmt_eq_some hs, fun hn => ?_⟩
  exact congrArg (Source.read ρ) ((h.placed m hm).cell_eq_want hn)

/-- Compatible meetings are all met: after the statements of the run every cell reads what the new
    arm had. -/
theorem Ran.demands_met {S : DropFlag → Prop} {b b' bF : Builder} {ms : List Met}
    {ρ : DropFlag → Bool} (h : Ran b.dropFlags.length S b b' ms) (hb : b.WF) (hF : bF.WF)
    (hg : Grown b' bF) (hc : (ms.map (·.meeting)).Pairwise (Meeting.Compatible b ρ)) :
    ∀ m ∈ ms, m.cell.read (runWrites bF.mirrors (emitted (ms.map Met.demand)) ρ)
      = m.meeting.want.read ρ := by
  intro m hm
  exact Lib.demands_met h.sound (h.compatible hb hF hg hc) m.demand (List.mem_map_of_mem hm)

/-- A flag whose value no statement of the run changes: what sets it sets it to the value it has. -/
theorem Ran.keeps {S : DropFlag → Prop} {ms : List Met} (h : Ran b.dropFlags.length S b b' ms)
    (hb : b.WF) (hF : bF.WF) (hg : Grown b' bF)
    (hc : (ms.map (·.meeting)).Pairwise (Meeting.Compatible b ρ)) (hf : f < b.dropFlags.length)
    (hkeep : ∀ m ∈ ms, ∀ t ∈ m.meeting.target, Touches b.mirrors t f →
      m.meeting.want.read ρ = ρ f) :
    runWrites bF.mirrors (emitted (ms.map Met.demand)) ρ f = ρ f := by
  -- the flag itself is one more demand, after all others
  let last : Demand DropFlag Bool := ⟨.reg f, .reg f, none⟩
  have hsound : ∀ d ∈ ms.map Met.demand ++ [last], d.Sound ρ := by
    intro d hd
    rcases List.mem_append.mp hd with hd | hd
    · exact h.sound d hd
    · rw [List.mem_singleton.mp hd]
      exact ⟨nofun, fun _ => rfl⟩
  have hpair : (ms.map Met.demand ++ [last]).Pairwise (Lib.Compatible bF.mirrors ρ) := by
    refine List.pairwise_append.mpr ⟨h.compatible hb hF hg hc, List.pairwise_singleton _ _, ?_⟩
    intro d hd d' hd'
    obtain ⟨m, hm, rfl⟩ := List.mem_map.mp hd
    rw [List.mem_singleton.mp hd']
    refine ⟨nofun, fun x s y hs ht hy => ?_⟩
    obtain rfl : f = y := by
      rcases hy with hy | ⟨-, hy⟩
      · exact Source.reg.inj hy
      · exact Source.reg.inj hy
    have htb := ((h.grown.trans hg).touches_iff_touches hb hF hf).mp ht
    have hx := Nat.lt_of_le_of_lt (le_of_touches hb htb) hf
    exact hkeep m hm x ((h.placed m hm).target_of_lt hs hx) htb
  have hmet := Lib.demands_met hsound hpair last (by simp)
  rw [Lib.emitted_append] at hmet
  simpa [emitted, last] using hmet

end Trustme.Lowering
