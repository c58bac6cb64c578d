/-
  Subject:   Lists in which marks stand in the order of their classes, behind what has no class.

  * `Exchange`: two neighbours that are marks and out of order are exchanged;
  * `Ordered`: there is nothing to exchange;
  * `put`, `order`: insertion from the right, one element after another;
  * `order_reached`, `order_ordered`, `order_unique`: this is where exchanges end, in whatever
    order they are made;
  * `order_behind`: a mark may be put behind others of lower classes.
-/
import Mathlib.Data.List.Chain
import Mathlib.Logic.Relation

namespace Trustme.Lib.MarkOrder

variable {α : Type} (cls : α → Nat)

/-! ## 1. Exchanges -/

/-- Class 0 is no mark, and nothing goes past it. -/
inductive Exchange : List α → List α → Prop where
  | swap (l : List α) {a b : α} (r : List α) (hb : 0 < cls b) (h : cls b < cls a) :
      Exchange (l ++ a :: b :: r) (l ++ b :: a :: r)

def Ordered (l : List α) : Prop := l.IsChain fun a b => cls b = 0 ∨ cls a ≤ cls b

variable {cls}

/-! ## 2. Insertion -/

variable (cls)

/-- An element is put behind a list that is written backwards. -/
def put (c : α) : List α → List α
  | [] => [c]
  | b :: l => if 0 < cls c ∧ cls c < cls b then b :: put c l else c :: b :: l

def order (l : List α) : List α := (l.foldl (fun l c => put cls c l) []).reverse

variable {cls}

/-- Two marks of different classes are put in any order. -/
theorem put_put {a b : α} (ha : 0 < cls a) (hb : 0 < cls b) (hab : cls a < cls b) (l : List α) :
    put cls a (put cls b l) = put cls b (put cls a l) := by
  induction l with
  | nil => simp [put, ha, hab, Nat.lt_asymm hab]
  | cons x l ih =>
    by_cases hax : cls a < cls x
    · by_cases hbx : cls b < cls x
      · simp [put, ha, hb, hax, hbx, ih]
      · simp [put, ha, hb, hax, hbx, hab]
    · have hbx : ¬ cls b < cls x := by omega
      simp [put, ha, hb, hax, hbx, hab, Nat.lt_asymm hab]

variable {x y l : List α}

theorem order_exchange (h : Exchange cls x y) : order cls x = order cls y := by
  obtain ⟨l, r, hb, hab⟩ := h
  unfold order
  rw [List.foldl_append, List.foldl_append, List.foldl_cons, List.foldl_cons, List.foldl_cons,
    List.foldl_cons, put_put hb (Nat.lt_trans hb hab) hab]

theorem order_exchanges (h : Relation.ReflTransGen (Exchange cls) x y) :
    order cls x = order cls y := by
  induction h with
  | refl => rfl
  | tail _ hstep ih => exact ih.trans (order_exchange hstep)

/-- What `put` does is exchanges. -/
theorem put_reached (c : α) (l r : List α) :
    Relation.ReflTransGen (Exchange cls) (l.reverse ++ c :: r) ((put cls c l).reverse ++ r) := by
  induction l generalizing r with
  | nil => exact .refl
  | cons b l ih =>
    unfold put
    split_ifs with h
    · have hswap := Exchange.swap l.reverse r h.1 h.2
      have hrest := ih (b :: r)
      rw [List.reverse_cons, List.append_assoc, List.singleton_append, List.reverse_cons,
        List.append_assoc, List.singleton_append]
      exact .head hswap hrest
    · rw [List.reverse_cons (a := c), List.append_assoc, List.singleton_append]

theorem puts_reached (l r : List α) :
    Relation.ReflTransGen (Exchange cls) (l.reverse ++ r)
      (r.foldl (fun l c => put cls c l) l).reverse := by
  induction r generalizing l with
  | nil => rw [List.append_nil, List.foldl_nil]
  | cons c r ih => exact (put_reached c l r).trans (ih (put cls c l))

theorem order_reached (l : List α) : Relation.ReflTransGen (Exchange cls) l (order cls l) :=
  puts_reached [] l

/-- The order of a list that is written backwards. -/
theorem ordered_reverse :
    Ordered cls l.reverse ↔ l.IsChain fun a b => cls a = 0 ∨ cls b ≤ cls a :=
  List.isChain_reverse

theorem put_head {c y : α} (h : y ∈ (put cls c l).head?) : y = c ∨ y ∈ l.head? := by
  cases l with
  | nil => exact .inl (Option.some.inj h).symm
  | cons b l =>
    unfold put at h
    split_ifs at h
    · exact .inr h
    · exact .inl (Option.some.inj h).symm

theorem put_ordered (c : α) (h : l.IsChain fun a b => cls a = 0 ∨ cls b ≤ cls a) :
    (put cls c l).IsChain fun a b => cls a = 0 ∨ cls b ≤ cls a := by
  induction l with
  | nil => exact List.isChain_singleton c
  | cons b l ih =>
    have hb := List.isChain_cons.mp h
    unfold put
    split_ifs with hc
    · refine List.isChain_cons.mpr ⟨fun y hy => ?_, ih hb.2⟩
      rcases put_head hy with rfl | hy
      · exact .inr (Nat.le_of_lt hc.2)
      · exact hb.1 y hy
    · exact List.isChain_cons_cons.mpr ⟨by omega, h⟩

theorem order_ordered (l : List α) : Ordered cls (order cls l) := by
  have hputs : ∀ (r l : List α), (l.IsChain fun a b => cls a = 0 ∨ cls b ≤ cls a) →
      (r.foldl (fun l c => put cls c l) l).IsChain fun a b => cls a = 0 ∨ cls b ≤ cls a := by
    intro r
    induction r with
    | nil => exact fun l h => h
    | cons c r ih => exact fun l h => ih _ (put_ordered c h)
  exact ordered_reverse.mpr (hputs l [] List.isChain_nil)

theorem order_of_ordered (h : Ordered cls l) : order cls l = l := by
  have hputs : ∀ (r l : List α), Ordered cls (l.reverse ++ r) →
      r.foldl (fun l c => put cls c l) l = (l.reverse ++ r).reverse := by
    intro r
    induction r with
    | nil => intro l _; rw [List.append_nil, List.reverse_reverse, List.foldl_nil]
    | cons c r ih =>
      intro l h
      have hput : put cls c l = c :: l := by
        cases l with
        | nil => rfl
        | cons b l =>
          rw [List.reverse_cons, List.append_assoc, List.singleton_append] at h
          have hpair := (List.isChain_append_cons_cons.mp h).2.1
          exact if_neg (by omega)
      rw [List.foldl_cons, hput, ih]
      · rw [List.reverse_cons, List.append_assoc, List.singleton_append]
      · rwa [List.reverse_cons, List.append_assoc, List.singleton_append]
  rw [order, hputs l [] h, List.reverse_reverse, List.reverse_nil, List.nil_append]

/-- All ways to exchange end in one list. -/
theorem order_unique (h : Relation.ReflTransGen (Exchange cls) x y)
    (hy : Ordered cls y) : y = order cls x := by
  rw [order_exchanges h, order_of_ordered hy]

/-- A mark in front of others of lower classes is put behind them. -/
theorem order_behind {c : α} {ms : List α} (h : ∀ m ∈ ms, 0 < cls m ∧ cls m < cls c)
    (l r : List α) :
    order cls (l ++ c :: ms ++ r) = order cls (l ++ ms ++ c :: r) := by
  induction ms generalizing l with
  | nil => rw [List.append_nil, List.append_assoc, List.singleton_append]
  | cons m ms ih =>
    obtain ⟨h0, hlt⟩ := h m List.mem_cons_self
    have hswap := Exchange.swap l (ms ++ r) h0 hlt
    have hrest := ih (fun x hx => h x (List.mem_cons_of_mem m hx)) (l ++ [m])
    rw [List.append_assoc, List.cons_append, List.cons_append, order_exchange hswap]
    simpa only [List.append_assoc, List.cons_append, List.nil_append] using hrest

theorem order_perm (l : List α) : (order cls l).Perm l := by
  have hperm : ∀ {x y : List α}, Relation.ReflTransGen (Exchange cls) x y → y.Perm x := by
    intro x y h
    induction h with
    | refl => exact .refl x
    | tail _ hstep ih =>
      obtain ⟨l, r, _, _⟩ := hstep
      exact ((List.Perm.swap ..).append_left l).trans ih
  exact hperm (order_reached l)

end Trustme.Lib.MarkOrder
