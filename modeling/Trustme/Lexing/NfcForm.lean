/-
  Subject:   Normal forms of Unicode text as UAX #15 defines them, over any data.

  * `UnicodeData`: classes, canonical mappings and the characters that are excluded from
    composition;
  * `Decomposes`, `IsNfd`: full canonical decomposition and canonical order;
  * `Steps`, `IsNfc`: composition with the last starter that is not blocked;
  * `Equivalent`: canonical equivalence.
-/
import Trustme.Lib.MarkOrder

namespace Trustme.Lexing.Nfc

open Trustme.Lib.MarkOrder (Exchange Ordered order order_reached order_ordered order_unique)

/-- What the Unicode Character Database says of a character; a mapping has up to two characters. -/
structure UnicodeData where
  ccc : Nat → Nat
  mapping : Nat → List Nat
  excluded : Nat → Prop

namespace UnicodeData

variable (D : UnicodeData)

/-! ## 1. Decomposition -/

/-- The full canonical decomposition of a character. -/
inductive Decomposes : Nat → List Nat → Prop where
  | whole {c : Nat} (h : D.mapping c = []) : Decomposes c [c]
  | single {c a : Nat} {l : List Nat} (h : D.mapping c = [a]) (ha : Decomposes a l) : Decomposes c l
  | pair {c a b : Nat} {l m : List Nat} (h : D.mapping c = [a, b]) (ha : Decomposes a l)
      (hb : Decomposes b m) : Decomposes c (l ++ m)

/-- Normal form D: every character decomposed, then marks that are out of order exchanged until none
    are. -/
def IsNfd (text nfd : List Nat) : Prop :=
  ∃ parts, List.Forall₂ D.Decomposes text parts ∧
    Relation.ReflTransGen (Exchange D.ccc) parts.flatten nfd ∧ Ordered D.ccc nfd

/-- Canonical equivalence. -/
def Equivalent (x y : List Nat) : Prop := ∃ nfd, D.IsNfd x nfd ∧ D.IsNfd y nfd

/-! ## 2. Composition -/

/-- `p` is the primary composite of two characters. -/
def Primary (a b p : Nat) : Prop := D.mapping p = [a, b] ∧ ¬ D.excluded p

/-- `s` is the last starter, and `c`, which comes next, is not blocked from it. -/
def Meets (s : Nat) (ms : List Nat) (c : Nat) : Prop :=
  D.ccc s = 0 ∧ ∀ m ∈ ms, D.ccc m ≠ 0 ∧ D.ccc m < D.ccc c

/-- One character: it is composed with the last starter, or kept. -/
inductive Step : List Nat → Nat → List Nat → Prop where
  | compose {l ms : List Nat} {s c p : Nat} (h : D.Meets s ms c) (hp : D.Primary s c p) :
      Step (l ++ s :: ms) c (l ++ p :: ms)
  | keep {out : List Nat} {c : Nat}
      (h : ∀ l s ms, out = l ++ s :: ms → D.Meets s ms c → ∀ p, ¬ D.Primary s c p) :
      Step out c (out ++ [c])

/-- From left to right. -/
inductive Steps : List Nat → List Nat → List Nat → Prop where
  | done (out : List Nat) : Steps out [] out
  | next {out out' res : List Nat} {c : Nat} {text : List Nat} (h : D.Step out c out')
      (hs : Steps out' text res) : Steps out (c :: text) res

/-- Normal form C. -/
def IsNfc (text nfc : List Nat) : Prop := ∃ nfd, D.IsNfd text nfd ∧ D.Steps [] nfd nfc

/-! ## 3. Forms are unique -/

variable {D}

theorem Decomposes.unique {c : Nat} {l m : List Nat} (hl : D.Decomposes c l)
    (hm : D.Decomposes c m) :
    l = m := by
  induction hl generalizing m with
  | whole h =>
    cases hm with
    | whole _ => rfl
    | single h' _ => rw [h] at h'; cases h'
    | pair h' _ _ => rw [h] at h'; cases h'
  | single h _ ih =>
    cases hm with
    | whole h' => rw [h] at h'; cases h'
    | single h' ha => rw [h] at h'; cases h'; exact ih ha
    | pair h' _ _ => rw [h] at h'; cases h'
  | pair h _ _ iha ihb =>
    cases hm with
    | whole h' => rw [h] at h'; cases h'
    | single h' _ => rw [h] at h'; cases h'
    | pair h' ha hb => rw [h] at h'; cases h'; rw [iha ha, ihb hb]

theorem parts_unique {text : List Nat} {x y : List (List Nat)}
    (hx : List.Forall₂ D.Decomposes text x) (hy : List.Forall₂ D.Decomposes text y) : x = y := by
  induction hx generalizing y with
  | nil => cases hy; rfl
  | cons h _ ih =>
    cases hy with
    | cons h' hy => rw [h.unique h', ih hy]

theorem IsNfd.unique {text x y : List Nat} (hx : D.IsNfd text x) (hy : D.IsNfd text y) : x = y := by
  obtain ⟨ps, hps, hex, hox⟩ := hx
  obtain ⟨qs, hqs, hey, hoy⟩ := hy
  rw [parts_unique hps hqs] at hex
  rw [order_unique hex hox, order_unique hey hoy]

theorem IsNfd.of_parts {text : List Nat} {parts : List (List Nat)}
    (h : List.Forall₂ D.Decomposes text parts) : D.IsNfd text (order D.ccc parts.flatten) :=
  ⟨parts, h, order_reached _, order_ordered _⟩

/-- A text has one last starter. -/
theorem last_starter {l l' ms ms' : List Nat} {s s' : Nat} (h : l ++ s :: ms = l' ++ s' :: ms')
    (hs : D.ccc s = 0) (hms : ∀ m ∈ ms, D.ccc m ≠ 0) (hs' : D.ccc s' = 0)
    (hms' : ∀ m ∈ ms', D.ccc m ≠ 0) : l = l' ∧ s = s' ∧ ms = ms' := by
  rcases List.append_eq_append_iff.mp h with ⟨as, rfl, he⟩ | ⟨as, rfl, he⟩
  · cases as with
    | nil =>
      cases he
      exact ⟨(List.append_nil l).symm, rfl, rfl⟩
    | cons a as =>
      cases he
      exact absurd hs' (hms s' (List.mem_append_right as List.mem_cons_self))
  · cases as with
    | nil =>
      cases he
      exact ⟨List.append_nil l', rfl, rfl⟩
    | cons a as =>
      cases he
      exact absurd hs (hms' s (List.mem_append_right as List.mem_cons_self))

theorem Step.unique (hp : ∀ {a b p q}, D.Primary a b p → D.Primary a b q → p = q)
    {out x y : List Nat} {c : Nat} (hx : D.Step out c x) (hy : D.Step out c y) : x = y := by
  generalize ho : out = o at hy
  cases hx with
  | compose h hprim =>
    cases hy with
    | compose h' hprim' =>
      obtain ⟨rfl, rfl, rfl⟩ := last_starter ho h.1 (fun m hm => (h.2 m hm).1) h'.1
        fun m hm => (h'.2 m hm).1
      rw [hp hprim hprim']
    | keep h' => exact absurd hprim (h' _ _ _ ho.symm h _)
  | keep h =>
    cases hy with
    | compose h' hprim' => exact absurd hprim' (h _ _ _ ho h' _)
    | keep _ => rw [ho]

theorem Steps.unique (hp : ∀ {a b p q}, D.Primary a b p → D.Primary a b q → p = q)
    {out text x y : List Nat} (hx : D.Steps out text x) (hy : D.Steps out text y) : x = y := by
  induction hx with
  | done _ => cases hy; rfl
  | next h _ ih =>
    cases hy with
    | next h' hy =>
      cases h.unique hp h'
      exact ih hy

end UnicodeData

end Trustme.Lexing.Nfc
