/-
  Subject:   Straight-line register copies where a write may be mirrored to other registers.

  A program is a list of writes `dst := src`; every register that mirrors `dst` takes the same
  value. A DEMAND is a place whose reading is moved to a cell: `want` is what has to be read
  there in the values before the run, `cell` is where it is read afterwards, and `stmt` is the
  write, if any, that fills the cell.

  * `write_of_not_touched`, `runWrites_of_not_touched`: the frame rules;
  * `Compatible`: a write for one demand does not disturb another one;
  * `demands_met`: the writes of pairwise compatible demands, run in order, meet all of them.
-/
import Mathlib.Data.List.Basic

namespace Trustme.Lib

variable {R V : Type}

/-- Where a value is taken from: a constant or a register. -/
inductive Source (R V : Type) where
  | const (v : V)
  | reg (r : R)
  deriving DecidableEq, Repr

namespace Source

/-- The value of a source. -/
def read (ρ : R → V) : Source R V → V
  | .const v => v
  | .reg r => ρ r

@[simp] theorem read_const (ρ : R → V) (v : V) : (Source.const v : Source R V).read ρ = v := rfl

@[simp] theorem read_reg (ρ : R → V) (r : R) : (Source.reg r : Source R V).read ρ = ρ r := rfl

end Source

/-! ## 1. Writes and their frame -/

/-- `mirror x y`: every write of `x` is repeated for `y`. A write of `x` touches `x` and these. -/
def Touches (mirror : R → R → Bool) (x y : R) : Prop := y = x ∨ mirror x y = true

instance [DecidableEq R] (mirror : R → R → Bool) (x y : R) : Decidable (Touches mirror x y) :=
  inferInstanceAs (Decidable (_ ∨ _))

theorem touches_self (mirror : R → R → Bool) (x : R) : Touches mirror x x := Or.inl rfl

variable [DecidableEq R]

/-- The values after `x := s`. -/
def write (mirror : R → R → Bool) (x : R) (s : Source R V) (ρ : R → V) : R → V :=
  fun y => if Touches mirror x y then s.read ρ else ρ y

/-- The values after a list of writes. -/
def runWrites (mirror : R → R → Bool) (ws : List (R × Source R V)) (ρ : R → V) : R → V :=
  ws.foldl (fun σ w => write mirror w.1 w.2 σ) ρ

variable {mirror : R → R → Bool}

theorem write_of_touched {x y : R} (h : Touches mirror x y) (s : Source R V)
    (ρ : R → V) : write mirror x s ρ y = s.read ρ := by
  simp only [write, if_pos h]

theorem write_of_not_touched {x y : R} (h : ¬ Touches mirror x y) (s : Source R V)
    (ρ : R → V) : write mirror x s ρ y = ρ y := by
  simp only [write, if_neg h]

@[simp] theorem runWrites_nil (mirror : R → R → Bool) (ρ : R → V) :
    runWrites mirror [] ρ = ρ := rfl

@[simp] theorem runWrites_cons (mirror : R → R → Bool) (w : R × Source R V)
    (ws : List (R × Source R V)) (ρ : R → V) :
    runWrites mirror (w :: ws) ρ = runWrites mirror ws (write mirror w.1 w.2 ρ) := rfl

theorem runWrites_append (mirror : R → R → Bool) (ws vs : List (R × Source R V)) (ρ : R → V) :
    runWrites mirror (ws ++ vs) ρ = runWrites mirror vs (runWrites mirror ws ρ) := by
  simp [runWrites, List.foldl_append]

/-- A register no write touches keeps its value. -/
theorem runWrites_of_not_touched {mirror : R → R → Bool} {y : R} :
    ∀ {ws : List (R × Source R V)} {ρ : R → V}, (∀ w ∈ ws, ¬ Touches mirror w.1 y) →
      runWrites mirror ws ρ y = ρ y
  | [], _, _ => rfl
  | w :: ws, ρ, h => by
    rw [runWrites_cons, runWrites_of_not_touched fun v hv => h v (List.mem_cons_of_mem _ hv)]
    exact write_of_not_touched (h w List.mem_cons_self) _ _

/-- Two registers that every write touches together stay equal. -/
theorem runWrites_eq {mirror : R → R → Bool} {y z : R} :
    ∀ {ws : List (R × Source R V)} {ρ : R → V},
      (∀ w ∈ ws, Touches mirror w.1 y ↔ Touches mirror w.1 z) → ρ y = ρ z →
      runWrites mirror ws ρ y = runWrites mirror ws ρ z
  | [], _, _, e => e
  | w :: ws, ρ, h, e => by
    have e' : write mirror w.1 w.2 ρ y = write mirror w.1 w.2 ρ z := by
      simp only [write, h w List.mem_cons_self, e]
    rw [runWrites_cons]
    exact runWrites_eq (fun v hv => h v (List.mem_cons_of_mem _ hv)) e'

/-! ## 2. Demands -/

/-- A reading that the writes move to a cell. -/
structure Demand (R V : Type) where
  want : Source R V
  cell : Source R V
  stmt : Option (R × Source R V)

/-- The writes of a list of demands, in order. -/
def emitted (ds : List (Demand R V)) : List (R × Source R V) := ds.filterMap (·.stmt)

omit [DecidableEq R] in
@[simp] theorem emitted_nil : emitted ([] : List (Demand R V)) = [] := rfl

omit [DecidableEq R] in
@[simp] theorem emitted_append (ds es : List (Demand R V)) :
    emitted (ds ++ es) = emitted ds ++ emitted es := List.filterMap_append

/-- A demand taken alone: its write fills its own cell with what is wanted; without a write the
    cell reads right already. -/
structure Demand.Sound (ρ : R → V) (d : Demand R V) : Prop where
  fills : ∀ x s, d.stmt = some (x, s) → d.cell = .reg x ∧ s = d.want
  stands : d.stmt = none → d.cell.read ρ = d.want.read ρ

/-- The demand `a`, whose write comes first, and the demand `b` do not disturb each other: a
    register that one of them writes is one the other does not need, or needs with the same
    value. -/
structure Compatible (mirror : R → R → Bool) (ρ : R → V) (a b : Demand R V) : Prop where
  later : ∀ x s y, b.stmt = some (x, s) → Touches mirror x y → a.cell = .reg y →
    b.want.read ρ = a.want.read ρ
  earlier : ∀ x s y, a.stmt = some (x, s) → Touches mirror x y →
    (b.want = .reg y ∨ (b.stmt = none ∧ b.cell = .reg y)) → a.want.read ρ = b.want.read ρ

/-- What holds between two writes: the demands done are met, those ahead still see their value. -/
structure Standing (ρ σ : R → V) (done rest : List (Demand R V)) : Prop where
  done : ∀ d ∈ done, d.cell.read σ = d.want.read ρ
  ahead : ∀ d ∈ rest, d.want.read σ = d.want.read ρ ∧
    (d.stmt = none → d.cell.read σ = d.want.read ρ)

theorem read_write (mirror : R → R → Bool) (x : R) (s c : Source R V) (σ : R → V) :
    c.read (write mirror x s σ) = c.read σ ∨
      ∃ y, c = .reg y ∧ Touches mirror x y ∧ c.read (write mirror x s σ) = s.read σ := by
  cases c with
  | const v => exact Or.inl rfl
  | reg y =>
    by_cases h : Touches mirror x y
    · exact Or.inr ⟨y, rfl, h, write_of_touched h s σ⟩
    · exact Or.inl (write_of_not_touched h s σ)

/-- One demand is served. -/
theorem Standing.step {mirror : R → R → Bool} {ρ σ : R → V} {done rest : List (Demand R V)}
    {d : Demand R V} (hS : Standing ρ σ done (d :: rest)) (hd : d.Sound ρ)
    (hdone : ∀ a ∈ done, Compatible mirror ρ a d) (hrest : ∀ b ∈ rest, Compatible mirror ρ d b) :
    Standing ρ (runWrites mirror (emitted [d]) σ) (d :: done) rest := by
  obtain ⟨hwant, hnone⟩ := hS.ahead d List.mem_cons_self
  cases hs : d.stmt with
  | none =>
    have e : emitted [d] = [] := by simp [emitted, hs]
    rw [e, runWrites_nil]
    refine ⟨fun a ha => ?_, fun b hb => hS.ahead b (List.mem_cons_of_mem _ hb)⟩
    rcases List.mem_cons.mp ha with rfl | ha
    · exact hnone hs
    · exact hS.done a ha
  | some w =>
    obtain ⟨x, s⟩ := w
    obtain ⟨hcell, rfl⟩ := hd.fills x s hs
    have e : emitted [d] = [(x, d.want)] := by simp [emitted, hs]
    rw [e, runWrites_cons, runWrites_nil]
    refine ⟨fun a ha => ?_, fun b hb => ⟨?_, fun hbn => ?_⟩⟩
    · rcases List.mem_cons.mp ha with rfl | ha
      · rw [hcell, Source.read_reg, write_of_touched (touches_self mirror x), hwant]
      · rcases read_write mirror x d.want a.cell σ with h | ⟨y, hy, ht, h⟩
        · rw [h, hS.done a ha]
        · rw [h, hwant, (hdone a ha).later x d.want y hs ht hy]
    · have hb' := (hS.ahead b (List.mem_cons_of_mem _ hb)).1
      rcases read_write mirror x d.want b.want σ with h | ⟨y, hy, ht, h⟩
      · rw [h, hb']
      · rw [h, hwant, (hrest b hb).earlier x d.want y hs ht (Or.inl hy)]
    · have hb' := (hS.ahead b (List.mem_cons_of_mem _ hb)).2 hbn
      rcases read_write mirror x d.want b.cell σ with h | ⟨y, hy, ht, h⟩
      · rw [h, hb']
      · rw [h, hwant, (hrest b hb).earlier x d.want y hs ht (Or.inr ⟨hbn, hy⟩)]

theorem Standing.run {mirror : R → R → Bool} {ρ : R → V} :
    ∀ {rest done : List (Demand R V)} {σ : R → V}, Standing ρ σ done rest →
      (∀ d ∈ rest, d.Sound ρ) → (∀ a ∈ done, ∀ b ∈ rest, Compatible mirror ρ a b) →
      rest.Pairwise (Compatible mirror ρ) →
      ∀ d ∈ done ++ rest, d.cell.read (runWrites mirror (emitted rest) σ) = d.want.read ρ
  | [], done, σ, hS, _, _, _ => fun d hd => by
    rw [List.append_nil] at hd
    exact hS.done d hd
  | d :: rest, done, σ, hS, hd, hdone, hp => by
    obtain ⟨hhead, htail⟩ := List.pairwise_cons.mp hp
    have hS' := hS.step (hd d List.mem_cons_self)
      (fun a ha => hdone a ha d List.mem_cons_self) hhead
    have hrun := Standing.run hS' (fun b hb => hd b (List.mem_cons_of_mem _ hb))
      (fun a ha b hb => by
        rcases List.mem_cons.mp ha with rfl | ha
        · exact hhead b hb
        · exact hdone a ha b (List.mem_cons_of_mem _ hb)) htail
    intro c hc
    have e : emitted (d :: rest) = emitted [d] ++ emitted rest := by
      rw [← emitted_append]
      rfl
    rw [e, runWrites_append]
    refine hrun c ?_
    simp only [List.mem_append, List.mem_cons] at hc ⊢
    tauto

/-- Compatible demands are all met by their writes, run in order. -/
theorem demands_met {ρ : R → V} {ds : List (Demand R V)} (hs : ∀ d ∈ ds, d.Sound ρ)
    (hp : ds.Pairwise (Compatible mirror ρ)) :
    ∀ d ∈ ds, d.cell.read (runWrites mirror (emitted ds) ρ) = d.want.read ρ := by
  have hS : Standing ρ ρ [] ds :=
    ⟨fun d hd => absurd hd List.not_mem_nil, fun d hd => ⟨rfl, fun hn => (hs d hd).stands hn⟩⟩
  have h := hS.run hs (fun a ha => absurd ha List.not_mem_nil) hp
  simpa using h

end Trustme.Lib
