/-
  Subject:   Drop flags: how `MirBuilder` allocates them, the statements that set them, and the
             aliases whose writes `finalCleanup` repeats.

  * `Builder`, `Build`: the part of `MirBuilder` the flags live in, and actions on it;
  * `SetDropFlag.exec`, `runFlags`: what the statements do to the flag values;
  * `mirrored`, `finalCleanup`: the closed alias lists and the repeated statements;
  * `runFlags_finalCleanup`: a repeated statement is one write that touches all aliases;
  * `touches_alias`, `touches_root`: which writes touch an alias, and which a flag that is none.
-/
import Trustme.Lowering.VarState
import Mathlib.Data.List.Dedup
import Mathlib.Logic.Relation

namespace Trustme.Lowering

open Lib (Source Touches runWrites write)

/-! ## 1. The builder -/

/-- `MIRStatement::SetDropFlag`; an `other` of `none` is the source's `~0u`. -/
structure SetDropFlag where
  idx : DropFlag
  newVal : Bool
  other : Option DropFlag
  deriving DecidableEq, Repr

/-- What `MirBuilder` keeps about drop flags: their defaults, the pairs of `dropFlagAliases`, the
    `dropFlags` of the innermost enclosing loop scope, and the statements of the current block. -/
structure Builder where
  dropFlags : List Bool
  dropFlagAliases : List (DropFlag × DropFlag)
  loopFlags : Option (List DropFlag)
  statements : List SetDropFlag
  deriving Repr

inductive BuildError where
  | bug (message : String)
  | outOfFuel
  deriving DecidableEq, Repr

/-- An action on a part `σ` of the builder. It stops where the source calls `BUG`. -/
abbrev Act (σ : Type) := StateT σ (Except BuildError)

abbrev Build := Act Builder

def bug {σ α : Type} (message : String) : Act σ α := throw (.bug message)

def pushStmt (s : SetDropFlag) : Build Unit :=
  modify fun b => { b with statements := b.statements ++ [s] }

def pushStmtSetDropflagVal (idx : DropFlag) (value : Bool) : Build Unit :=
  pushStmt { idx := idx, newVal := value, other := none }

/-- `other` is an `unsigned` of the source: an outer flag of `~0u` may be handed in. -/
def pushStmtSetDropflagOther (idx : DropFlag) (other : Option DropFlag) : Build Unit :=
  pushStmt { idx := idx, newVal := false, other := other }

def newDropFlag (defaultState : Bool) : Build DropFlag := do
  let b ← get
  let rv := b.dropFlags.length
  set { b with
    dropFlags := b.dropFlags ++ [defaultState]
    loopFlags := b.loopFlags.map (· ++ [rv]) }
  return rv

def newDropFlagAndSet (setState : Bool) : Build DropFlag := do
  let rv ← newDropFlag (!setState)
  pushStmtSetDropflagVal rv setState
  return rv

/-- The default of a flag the builder has. -/
def Builder.default (b : Builder) (idx : DropFlag) : Bool := b.dropFlags.getD idx false

def getDropFlagDefault (idx : DropFlag) : Build Bool := do
  let b ← get
  return b.default idx

def dropFlagAlias (oldIdx newIdx : DropFlag) : Build Unit :=
  modify fun b => { b with dropFlagAliases := b.dropFlagAliases ++ [(oldIdx, newIdx)] }

/-! ### Results of actions -/

variable {σ : Type}

theorem build_bind {α β : Type} {x : Act σ α} {f : α → Act σ β} {b : σ} {r : β × σ} :
    (x >>= f) b = .ok r ↔ ∃ a b₁, x b = .ok (a, b₁) ∧ f a b₁ = .ok r := by
  show (x b >>= fun p => f p.1 p.2) = .ok r ↔ _
  cases h : x b with
  | error e => simp [bind, Except.bind]
  | ok p =>
    refine ⟨fun hf => ⟨p.1, p.2, rfl, hf⟩, ?_⟩
    rintro ⟨a, b₁, hp, hf⟩
    cases hp
    exact hf

theorem build_pure {α : Type} {a : α} {b : σ} {r : α × σ} :
    (pure a : Act σ α) b = .ok r ↔ r = (a, b) := by
  show Except.ok (a, b) = .ok r ↔ _
  rw [Except.ok.injEq, eq_comm]

theorem build_map {α β : Type} {f : α → β} {x : Act σ α} {b : σ} {r : β × σ} :
    (f <$> x) b = .ok r ↔ ∃ a b₁, x b = .ok (a, b₁) ∧ r = (f a, b₁) := by
  rw [← bind_pure_comp, build_bind]
  simp only [build_pure]

theorem build_bug {α : Type} {message : String} {b : σ} {r : α × σ} :
    ¬ (bug message : Act σ α) b = .ok r := nofun

/-! ## 2. Running the statements -/

/-- The flag values after the statement. -/
def SetDropFlag.exec (s : SetDropFlag) (ρ : DropFlag → Bool) : DropFlag → Bool :=
  fun x =>
    if x = s.idx then
      match s.other with
      | none => s.newVal
      | some o => s.newVal != ρ o
    else ρ x

def runFlags (ss : List SetDropFlag) (ρ : DropFlag → Bool) : DropFlag → Bool :=
  ss.foldl (fun σ s => s.exec σ) ρ

@[simp] theorem runFlags_nil (ρ : DropFlag → Bool) : runFlags [] ρ = ρ := rfl

@[simp] theorem runFlags_cons (s : SetDropFlag) (ss : List SetDropFlag) (ρ : DropFlag → Bool) :
    runFlags (s :: ss) ρ = runFlags ss (s.exec ρ) := rfl

theorem runFlags_append (ss ts : List SetDropFlag) (ρ : DropFlag → Bool) :
    runFlags (ss ++ ts) ρ = runFlags ts (runFlags ss ρ) := by
  simp [runFlags, List.foldl_append]

/-- The statement for a write. -/
def stmtOf : DropFlag × Source DropFlag Bool → SetDropFlag
  | (x, .const v) => { idx := x, newVal := v, other := none }
  | (x, .reg y) => { idx := x, newVal := false, other := some y }

theorem stmtOf_idx (w : DropFlag × Source DropFlag Bool) : (stmtOf w).idx = w.1 := by
  rcases w with ⟨x, _ | _⟩ <;> rfl

theorem exec_stmtOf (x : DropFlag) (s : Source DropFlag Bool) (ρ : DropFlag → Bool) (y : DropFlag) :
    (stmtOf (x, s)).exec ρ y = if y = x then s.read ρ else ρ y := by
  by_cases h : y = x
  · cases s <;> simp [stmtOf, SetDropFlag.exec, h]
  · cases s <;> simp [stmtOf, SetDropFlag.exec, h]

/-! ## 3. Aliases -/

/-- The flags registered as aliases of `f`. -/
def aliasesOf (aliases : List (DropFlag × DropFlag)) (f : DropFlag) : List DropFlag :=
  (aliases.filter fun p => p.1 == f).map (·.2)

/-- One round of `finalCleanup` over the list of one flag: the aliases of its members come in. -/
def closeRound (aliases : List (DropFlag × DropFlag)) (mapped : List DropFlag) : List DropFlag :=
  mapped ++ ((mapped.flatMap (aliasesOf aliases)).dedup.filter fun f => !mapped.contains f)

def closeRounds (aliases : List (DropFlag × DropFlag)) : Nat → List DropFlag → List DropFlag
  | 0, mapped => mapped
  | n + 1, mapped => closeRound aliases (closeRounds aliases n mapped)

/-- The alias list of `f` when `finalCleanup` has added all of them. An alias is newer than the
    flag it stands for, so as many rounds as there are flags are enough. -/
def Builder.mirrored (b : Builder) (f : DropFlag) : List DropFlag :=
  closeRounds b.dropFlagAliases b.dropFlags.length (aliasesOf b.dropFlagAliases f)

/-- The statements of a block after `finalCleanup`: each one is repeated for the aliases of its
    flag, before the statement itself. -/
def Builder.finalCleanup (b : Builder) (ss : List SetDropFlag) : List SetDropFlag :=
  ss.flatMap fun s => (b.mirrored s.idx).map (fun a => { s with idx := a }) ++ [s]

def Builder.mirrors (b : Builder) (x y : DropFlag) : Bool := (b.mirrored x).contains y

/-- The aliases are those `dropFlagAlias` is called for: each one is a flag of its own, newer than
    the one it stands for and with the same default. -/
structure Builder.WF (b : Builder) : Prop where
  newer : ∀ p ∈ b.dropFlagAliases, p.1 < p.2 ∧ p.2 < b.dropFlags.length
  own : (b.dropFlagAliases.map (·.2)).Nodup
  alike : ∀ p ∈ b.dropFlagAliases, b.default p.2 = b.default p.1

variable {aliases : List (DropFlag × DropFlag)}

theorem mem_aliasesOf {f a : DropFlag} :
    a ∈ aliasesOf aliases f ↔ (f, a) ∈ aliases := by
  simp [aliasesOf]

theorem mem_closeRound {mapped : List DropFlag} {a : DropFlag} : a ∈ closeRound aliases mapped ↔
      a ∈ mapped ∨ ∃ f ∈ mapped, (f, a) ∈ aliases := by
  simp only [closeRound, List.mem_append, List.mem_filter, List.mem_dedup, List.mem_flatMap,
    mem_aliasesOf]
  constructor
  · rintro (h | ⟨h, -⟩)
    · exact Or.inl h
    · exact Or.inr h
  · rintro (h | h)
    · exact Or.inl h
    · by_cases ha : a ∈ mapped
      · exact Or.inl ha
      · exact Or.inr ⟨h, by simp [ha]⟩

/-- `y` is an alias of `x`, or an alias of one. -/
abbrev Mirrors (aliases : List (DropFlag × DropFlag)) : DropFlag → DropFlag → Prop :=
  Relation.TransGen fun f a => (f, a) ∈ aliases

theorem mirrors_of_mem_closeRounds {aliases : List (DropFlag × DropFlag)} {f : DropFlag} :
    ∀ {n : Nat} {a : DropFlag}, a ∈ closeRounds aliases n (aliasesOf aliases f) →
      Mirrors aliases f a
  | 0, a, h => Relation.TransGen.single (mem_aliasesOf.mp h)
  | n + 1, a, h => by
    rcases mem_closeRound.mp h with h | ⟨c, hc, ha⟩
    · exact mirrors_of_mem_closeRounds h
    · exact (mirrors_of_mem_closeRounds hc).tail ha

theorem closeRounds_mono {mapped : List DropFlag} {a : DropFlag} {n m : Nat}
    (h : a ∈ closeRounds aliases n mapped) (hnm : n ≤ m) :
    a ∈ closeRounds aliases m mapped := by
  induction hnm with
  | refl => exact h
  | step _ ih => exact mem_closeRound.mpr (Or.inl ih)

section WellFormed

variable {b : Builder} (hb : b.WF)

include hb

variable {x y : DropFlag}

theorem Builder.WF.lt_of_mirrors (h : Mirrors b.dropFlagAliases x y) : x < y := by
  induction h with
  | single h => exact (hb.newer _ h).1
  | tail _ h ih => exact Nat.lt_trans ih (hb.newer _ h).1

theorem mem_closeRounds_of_mirrors (h : Mirrors b.dropFlagAliases x y) :
    y ∈ closeRounds b.dropFlagAliases y (aliasesOf b.dropFlagAliases x) := by
  induction h with
  | single h => exact closeRounds_mono (n := 0) (mem_aliasesOf.mpr h) (Nat.zero_le _)
  | @tail c a _ h ih =>
    exact closeRounds_mono (n := c + 1) (mem_closeRound.mpr (Or.inr ⟨c, ih, h⟩)) (hb.newer _ h).1

/-- The alias lists of `finalCleanup` hold the aliases of aliases, to any depth, and no more. -/
theorem mem_mirrored :
    y ∈ b.mirrored x ↔ Mirrors b.dropFlagAliases x y := by
  refine ⟨mirrors_of_mem_closeRounds, fun h => ?_⟩
  refine closeRounds_mono (mem_closeRounds_of_mirrors hb h) ?_
  cases h with
  | single h => exact Nat.le_of_lt (hb.newer _ h).2
  | tail _ h => exact Nat.le_of_lt (hb.newer _ h).2

theorem touches_iff :
    Touches b.mirrors x y ↔ y = x ∨ Mirrors b.dropFlagAliases x y := by
  simp [Touches, Builder.mirrors, mem_mirrored hb]

theorem le_of_touches (h : Touches b.mirrors x y) : x ≤ y := by
  rcases (touches_iff hb).mp h with rfl | h
  · exact Nat.le_refl _
  · exact Nat.le_of_lt (hb.lt_of_mirrors h)

/-- Two entries for one alias are the same entry. -/
theorem Builder.WF.unique {f g a : DropFlag} (hf : (f, a) ∈ b.dropFlagAliases)
    (hg : (g, a) ∈ b.dropFlagAliases) : f = g := by
  have h := List.inj_on_of_nodup_map hb.own hf hg rfl
  exact congrArg Prod.fst h

/-- What touches an alias: a write of it, or what touches the flag it stands for. -/
theorem touches_alias {f a : DropFlag} (ha : (f, a) ∈ b.dropFlagAliases) :
    Touches b.mirrors x a ↔ a = x ∨ Touches b.mirrors x f := by
  rw [touches_iff hb, touches_iff hb]
  constructor
  · rintro (h | h)
    · exact Or.inl h
    · cases h with
      | single h => exact Or.inr (Or.inl (hb.unique ha h))
      | tail hxc h =>
        obtain rfl := hb.unique ha h
        exact Or.inr (Or.inr hxc)
  · rintro (h | rfl | h)
    · exact Or.inl h
    · exact Or.inr (Relation.TransGen.single ha)
    · exact Or.inr (h.tail ha)

/-- A flag that is no alias is touched by its own writes only. -/
theorem touches_root (hy : ∀ f, (f, y) ∉ b.dropFlagAliases) :
    Touches b.mirrors x y ↔ y = x := by
  rw [touches_iff hb]
  refine ⟨?_, Or.inl⟩
  rintro (h | h)
  · exact h
  · cases h with
    | single h => exact absurd h (hy _)
    | tail _ h => exact absurd h (hy _)

end WellFormed

/-! ## 4. A repeated statement -/

theorem runFlags_repeated {s : Source DropFlag Bool} {v : Bool} :
    ∀ {l : List DropFlag} {σ : DropFlag → Bool}, s.read σ = v →
      (s.read (runFlags (l.map fun a => stmtOf (a, s)) σ) = v ∧
        ∀ y, runFlags (l.map fun a => stmtOf (a, s)) σ y = if y ∈ l then v else σ y)
  | [], σ, h => ⟨h, fun y => by simp⟩
  | a :: l, σ, h => by
    have h' : s.read ((stmtOf (a, s)).exec σ) = v := by
      cases s with
      | const w => exact h
      | reg z => rw [Source.read_reg, exec_stmtOf, h, show σ z = v from h, ite_self]
    obtain ⟨h₁, h₂⟩ := runFlags_repeated (l := l) h'
    refine ⟨h₁, fun y => ?_⟩
    rw [List.map_cons, runFlags_cons, h₂ y, exec_stmtOf, h]
    by_cases hl : y ∈ l
    · simp [hl]
    · by_cases hy : y = a <;> simp [hl, hy]

/-- What is run is `finalCleanup`'s code; what it does is one write per statement, which touches
    the flag and all its aliases. -/
theorem runFlags_finalCleanup (b : Builder) : ∀ (ws : List (DropFlag × Source DropFlag Bool))
    (ρ : DropFlag → Bool),
    runFlags (b.finalCleanup (ws.map stmtOf)) ρ = runWrites b.mirrors ws ρ
  | [], _ => rfl
  | (x, s) :: ws, ρ => by
    have hrep : (b.mirrored x).map (fun a => { stmtOf (x, s) with idx := a })
        = (b.mirrored x).map fun a => stmtOf (a, s) :=
      List.map_congr_left fun a _ => by cases s <;> rfl
    have hone : runFlags (((b.mirrored x).map fun a => stmtOf (a, s)) ++ [stmtOf (x, s)]) ρ
        = write b.mirrors x s ρ := by
      funext y
      obtain ⟨h₁, h₂⟩ := runFlags_repeated (l := b.mirrored x) (rfl : s.read ρ = _)
      rw [runFlags_append, runFlags_cons, runFlags_nil, exec_stmtOf, h₁, h₂ y]
      simp only [write, Touches, Builder.mirrors, List.contains_iff_mem]
      by_cases hx : y = x <;> by_cases hm : y ∈ b.mirrored x <;> simp [hx, hm]
    rw [List.map_cons, Builder.finalCleanup, List.flatMap_cons, stmtOf_idx, hrep, runFlags_append,
      hone, Lib.runWrites_cons]
    exact runFlags_finalCleanup b ws _

end Trustme.Lowering
