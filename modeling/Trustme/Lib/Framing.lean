/-
  Subject:   Strings written one after the other, each behind its length and a mark.

  * `frame`, `frames`: one string, and a list of them;
  * `frames_injective`: the list is read back from what is written;
  * `append_mark_inj`: a part without the mark ends where the mark is.
-/
import Mathlib.Data.List.Basic

namespace Trustme.Lib

variable {α : Type}

/-- A string behind its length and a mark. -/
def frame (number : Nat → List α) (mark : α) (v : List α) : List α :=
  number v.length ++ mark :: v

/-- The strings of a list, one after the other. -/
def frames (number : Nat → List α) (mark : α) (l : List (List α)) : List α :=
  l.flatMap (frame number mark)

/-- The first mark ends the part in front of it. -/
theorem append_mark_inj {mark : α} : ∀ {x y u v : List α}, mark ∉ x → mark ∉ y →
    x ++ mark :: u = y ++ mark :: v → x = y ∧ u = v
  | [], [], _, _, _, _, h => ⟨rfl, (List.cons.inj h).2⟩
  | [], b :: y, _, _, _, hy, h => by
    have hb := (List.cons.inj h).1
    exact absurd (hb ▸ List.mem_cons_self) hy
  | a :: x, [], _, _, hx, _, h => by
    have ha := (List.cons.inj h).1
    exact absurd (ha ▸ List.mem_cons_self) hx
  | a :: x, b :: y, _, _, hx, hy, h => by
    obtain ⟨rfl, ht⟩ := List.cons.inj h
    obtain ⟨rfl, hu⟩ := append_mark_inj (fun hm => hx (List.mem_cons_of_mem _ hm))
      (fun hm => hy (List.mem_cons_of_mem _ hm)) ht
    exact ⟨rfl, hu⟩

section Frames

variable {number : Nat → List α} {mark : α}

theorem frames_cons (v : List α) (l : List (List α)) :
    frames number mark (v :: l) = number v.length ++ mark :: (v ++ frames number mark l) := by
  simp [frames, frame]

/-- **A list of framed strings is read back**, whatever the strings hold: the length in front of a
    string says where it ends. -/
theorem frames_injective (hnumber : ∀ {m n}, number m = number n → m = n)
    (hmark : ∀ n, mark ∉ number n) : ∀ {l l' : List (List α)},
    frames number mark l = frames number mark l' → l = l'
  | [], [], _ => rfl
  | [], v :: l, h => by
    rw [frames_cons] at h
    simp [frames] at h
  | v :: l, [], h => by
    rw [frames_cons] at h
    simp [frames] at h
  | v :: l, w :: l', h => by
    rw [frames_cons, frames_cons] at h
    obtain ⟨hlen, hrest⟩ := append_mark_inj (hmark _) (hmark _) h
    obtain ⟨rfl, htail⟩ := List.append_inj hrest (hnumber hlen)
    rw [frames_injective hnumber hmark htail]

end Frames

end Trustme.Lib
