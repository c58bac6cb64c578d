/-
  Subject:   A queue of bounded size in an array that is used around and around.

  * `Ring`: the slots, the place of the first element, and how many there are;
  * `push`, `pop`: at the end, and from the front;
  * `toList_push`, `toList_pop`: what they do to the queue.
-/
import Mathlib.Data.List.Basic
import Mathlib.Data.Nat.ModEq
import Mathlib.Logic.Function.Basic

namespace Trustme.Lib

variable {α : Type} {cap : Nat}

structure Ring (α : Type) (cap : Nat) where
  slots : Fin cap → α
  head : Fin cap
  count : Nat
  count_le : count ≤ cap

namespace Ring

/-- The slot `i` places behind the first. -/
def slot (r : Ring α cap) (i : Nat) : Fin cap := ⟨(r.head + i) % cap, Nat.mod_lt _ r.head.pos⟩

def get (r : Ring α cap) (i : Nat) : α := r.slots (r.slot i)

def toList (r : Ring α cap) : List α := (List.range r.count).map r.get

/-- A new element at the end. -/
def push (r : Ring α cap) (h : r.count < cap) (x : α) : Ring α cap where
  slots := Function.update r.slots (r.slot r.count) x
  head := r.head
  count := r.count + 1
  count_le := h

/-- Without the first element. -/
def pop (r : Ring α cap) : Ring α cap where
  slots := r.slots
  head := r.slot 1
  count := r.count - 1
  count_le := Nat.le_trans (Nat.sub_le _ _) r.count_le

variable (r : Ring α cap)

/-- Two places that are less than the capacity apart are two slots. -/
theorem slot_injective {i j : Nat} (hi : i < cap) (hj : j < cap) (h : r.slot i = r.slot j) :
    i = j := by
  have hmod : (r.head + i) % cap = (r.head + j) % cap := congrArg Fin.val h
  exact (Nat.ModEq.add_left_cancel' (r.head : Nat) hmod).eq_of_lt_of_lt hi hj

theorem toList_push (h : r.count < cap) (x : α) : (r.push h x).toList = r.toList ++ [x] := by
  have hold : ∀ i ∈ List.range r.count, (r.push h x).get i = r.get i := fun i hi => by
    have hi := List.mem_range.mp hi
    refine Function.update_of_ne (fun heq => ?_) x r.slots
    exact Nat.ne_of_lt hi (r.slot_injective (Nat.lt_trans hi h) h heq)
  have hnew : (r.push h x).get r.count = x := by
    show Function.update r.slots (r.slot r.count) x (r.slot r.count) = x
    rw [Function.update_self]
  have hcount : (r.push h x).count = r.count + 1 := rfl
  rw [toList, hcount, List.range_succ, List.map_append, List.map_congr_left hold,
    List.map_singleton, hnew, toList]

theorem slot_pop (i : Nat) : r.pop.slot i = r.slot (i + 1) := by
  refine Fin.ext ?_
  show ((r.head + 1) % cap + i) % cap = (r.head + (i + 1)) % cap
  rw [Nat.mod_add_mod, Nat.add_assoc, Nat.add_comm 1 i]

theorem toList_pop (h : 0 < r.count) : r.toList = r.get 0 :: r.pop.toList := by
  obtain ⟨n, hn⟩ : ∃ n, r.count = n + 1 := ⟨r.count - 1, by omega⟩
  have hpop : r.pop.count = n := by
    show r.count - 1 = n
    omega
  have hrest : r.pop.toList = (List.range n).map fun i => r.get (i + 1) := by
    rw [toList, hpop]
    exact List.map_congr_left fun i _ => congrArg r.slots (r.slot_pop i)
  rw [hrest, toList, hn, List.range_succ_eq_map, List.map_cons, List.map_map]
  rfl

theorem getElem?_toList {i : Nat} (h : i < r.count) : r.toList[i]? = some (r.get i) := by
  rw [toList, List.getElem?_map, List.getElem?_range h]
  rfl

theorem toList_eq_nil (h : r.count = 0) : r.toList = [] := by
  rw [toList, h]
  rfl

end Ring

end Trustme.Lib
