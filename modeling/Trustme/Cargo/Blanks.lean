/-
  Subject:   What `trimSpace` leaves of a text with blanks around it.

  * `trimSpace_blanks`: blanks around a text that begins and ends with others.
-/
import Trustme.Cargo.Features

namespace Trustme.Cargo

def blanks (n : Nat) : Str := List.replicate n 32

/-- An ASCII character that is no blank. -/
def isPlain (b : Byte) : Bool := 32 < b && b < 128

theorem spaces_first :
    ∀ p ∈ spaces ++ spaces.map List.reverse, ∃ b s, p = b :: s ∧ isPlain b = false := by
  have hall : ∀ p ∈ spaces ++ spaces.map List.reverse, p.head?.elim false (fun b => !isPlain b) =
    true := by
    decide
  intro p hp
  have hb := hall p hp
  cases p with
  | nil => cases hb
  | cons b s => exact ⟨b, s, rfl, by simpa using hb⟩

/-- A text that begins with a character that is no blank. -/
theorem trimStart_plain {l : List Str} (hl : ∀ p ∈ l, ∃ b s, p = b :: s ∧ isPlain b = false)
    {b : Byte}
    (hb : isPlain b = true) (s : Str) (n : Nat) : trimStart l n (b :: s) = b :: s := by
  cases n with
  | zero => rfl
  | succ n =>
    have hnone : l.find? (·.isPrefixOf (b :: s)) = none := by
      rw [List.find?_eq_none]
      intro p hp hstarts
      obtain ⟨c, t, rfl, hc⟩ := hl p hp
      rw [List.isPrefixOf_cons_cons, Bool.and_eq_true_iff, beq_iff_eq] at hstarts
      rw [hstarts.1, hb] at hc
      cases hc
    rw [trimStart, hnone]

theorem trimStart_blanks {l : List Str} (hl : ∀ s : Str, l.find? (·.isPrefixOf (32 :: s)) =
    some [32]) {s : Str}
    (hs : ∀ n, trimStart l n s = s) (a : Nat) : ∀ n, a ≤ n → trimStart l n (blanks a ++ s) = s := by
  induction a with
  | zero => exact fun n _ => hs n
  | succ a ih =>
    intro n hn
    obtain ⟨n, rfl⟩ : ∃ m, n = m + 1 := ⟨n - 1, by omega⟩
    rw [blanks, List.replicate_succ, List.cons_append, trimStart, hl]
    exact ih n (by omega)

theorem spaces_blank (s : Str) : spaces.find? (·.isPrefixOf (32 :: s)) = some [32] ∧
    (spaces.map List.reverse).find? (·.isPrefixOf (32 :: s)) = some [32] := by
  constructor
  · simp [spaces, List.find?, List.isPrefixOf]
  · simp [spaces, List.find?, List.isPrefixOf]

/-- Begins and ends with characters that are no blanks. -/
def PlainEnds (s : Str) : Prop :=
  (∃ b t, s = b :: t ∧ isPlain b = true) ∧ ∃ b t, s = t ++ [b] ∧ isPlain b = true

theorem trimSpace_blanks {s : Str} (hs : PlainEnds s) (a b : Nat) :
    trimSpace (blanks a ++ s ++ blanks b) = s := by
  obtain ⟨⟨c, t, hc, hplain⟩, ⟨d, u, hd, hplain'⟩⟩ := hs
  have hleft : ∀ n, trimStart spaces n (s ++ blanks b) = s ++ blanks b := by
    intro n
    rw [hc, List.cons_append]
    exact trimStart_plain (fun p hp => spaces_first p (List.mem_append_left _ hp)) hplain _ n
  have hright : ∀ n, trimStart (spaces.map List.reverse) n s.reverse = s.reverse := by
    intro n
    rw [hd, List.reverse_append, List.reverse_singleton, List.singleton_append]
    exact trimStart_plain (fun p hp => spaces_first p (List.mem_append_right _ hp)) hplain' _ n
  unfold trimSpace
  dsimp only
  rw [List.append_assoc, trimStart_blanks (fun s => (spaces_blank s).1) hleft a _ (by
    rw [List.length_append, blanks, List.length_replicate]
    exact Nat.le_add_right _ _), List.reverse_append, blanks, List.reverse_replicate]
  change (trimStart _ _ (blanks b ++ s.reverse)).reverse = s
  rw [trimStart_blanks (fun s => (spaces_blank s).2) hright b _ (by
    rw [List.length_append, List.length_replicate]
    exact Nat.le_add_left _ _), List.reverse_reverse]

theorem trimSpace_plain {s : Str} (hs : PlainEnds s) : trimSpace s = s := by
  have h := trimSpace_blanks hs 0 0
  rwa [blanks, List.replicate_zero, List.nil_append, List.append_nil] at h

end Trustme.Cargo
