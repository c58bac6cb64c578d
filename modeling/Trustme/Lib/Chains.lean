/-
  Subject:   Chains of links, one link from each place: a chain comes to an end or goes in a circle.

  * `Follows`: the places of a chain that ends;
  * `Circles`: a place that is met is met again;
  * `follows_iff`: where the links lead to finitely many places, a chain ends just if it does not
    go in a circle. The measure is the number of places that were not met yet;
  * `Along`: a recursion with fuel that goes along the links returns just if they come to an end.
-/
import Mathlib.Data.Finset.Card
import Mathlib.Data.Finset.SDiff
import Mathlib.Logic.Relation

namespace Trustme.Lib.Chains

variable {α : Type}

/-- The chain from `a`, up to where there is no link. -/
inductive Follows (next : α → Option α) : α → List α → Prop where
  | last {a : α} (h : next a = none) : Follows next a [a]
  | link {a b : α} {l : List α} (h : next a = some b) (hb : Follows next b l) :
      Follows next a (a :: l)

def Leads (next : α → Option α) (a b : α) : Prop := next a = some b

/-- The chain from `a` comes to a place from which it comes back. -/
def Circles (next : α → Option α) (a : α) : Prop :=
  ∃ b, Relation.ReflTransGen (Leads next) a b ∧ Relation.TransGen (Leads next) b b

variable {next : α → Option α} {a b : α} {l : List α}

theorem Circles.link (h : next a = some b) (hc : Circles next a) : Circles next b := by
  obtain ⟨c, hac, hcc⟩ := hc
  rcases hac.cases_head with rfl | ⟨b', hb', hbc⟩
  · obtain ⟨b', hb', hba⟩ := Relation.TransGen.head'_iff.mp hcc
    obtain rfl : b = b' := Option.some.inj (h.symm.trans hb')
    exact ⟨a, hba, hcc⟩
  · obtain rfl : b = b' := Option.some.inj (h.symm.trans hb')
    exact ⟨c, hbc, hcc⟩

theorem Follows.ne_nil (h : Follows next a l) : l ≠ [] := by
  cases h with
  | last => exact List.cons_ne_nil _ _
  | link => exact List.cons_ne_nil _ _

theorem Follows.not_circles (h : Follows next a l) : ¬ Circles next a := by
  induction h with
  | @last a hnone =>
    rintro ⟨c, hac, hcc⟩
    have hstuck : ∀ d, ¬ Leads next a d := fun d hd => by
      rw [Leads, hnone] at hd
      cases hd
    rcases hac.cases_head with rfl | ⟨d, hd, -⟩
    · obtain ⟨d, hd, -⟩ := Relation.TransGen.head'_iff.mp hcc
      exact hstuck d hd
    · exact hstuck d hd
  | link hlink _ ih => exact fun hc => ih (hc.link hlink)

theorem Follows.reached (h : Follows next a l) {c : α} (hc : c ∈ l) :
    Relation.ReflTransGen (Leads next) a c := by
  induction h with
  | last hnone =>
    rw [List.mem_singleton.mp hc]
  | link hlink _ ih =>
    rcases List.mem_cons.mp hc with rfl | hc
    · exact .refl
    · exact .head hlink (ih hc)

/-- No place is met twice. -/
theorem Follows.nodup (h : Follows next a l) : l.Nodup := by
  induction h with
  | last => exact List.nodup_singleton _
  | @link a b l hlink hb ih =>
    refine List.nodup_cons.mpr ⟨fun hmem => ?_, ih⟩
    have hback : Relation.TransGen (Leads next) a a := .head' hlink (hb.reached hmem)
    exact (Follows.link hlink hb).not_circles ⟨a, .refl, hback⟩

/-- By induction on the places that were not met: those that were lead to `a`. -/
theorem follows_or_circles [DecidableEq α] {places : Finset α}
    (hplaces : ∀ a b, next a = some b → b ∈ places) (met : Finset α) :
    ∀ a ∈ met, (∀ b ∈ met, Relation.ReflTransGen (Leads next) b a) →
      (∃ l, Follows next a l) ∨ Circles next a := by
  induction h : (places \ met).card using Nat.strong_induction_on generalizing met with
  | _ n ih =>
    intro a ha hmet
    cases hnext : next a with
    | none => exact .inl ⟨[a], .last hnext⟩
    | some b =>
      by_cases hb : b ∈ met
      · exact .inr ⟨b, .single hnext, .tail' (hmet b hb) hnext⟩
      · have hfewer : (places \ insert b met).card < n := by
          rw [← h]
          refine Finset.card_lt_card ⟨Finset.sdiff_subset_sdiff (Finset.Subset.refl _)
            (Finset.subset_insert b met), fun hsub => ?_⟩
          have hmem := hsub (Finset.mem_sdiff.mpr ⟨hplaces a b hnext, hb⟩)
          exact (Finset.mem_sdiff.mp hmem).2 (Finset.mem_insert_self b met)
        have hrest := ih _ hfewer (insert b met) rfl b (Finset.mem_insert_self b met)
          fun c hc => by
            rcases Finset.mem_insert.mp hc with rfl | hc
            · exact .refl
            · exact (hmet c hc).tail hnext
        rcases hrest with ⟨l, hl⟩ | ⟨c, hbc, hcc⟩
        · exact .inl ⟨a :: l, .link hnext hl⟩
        · exact .inr ⟨c, .head hnext hbc, hcc⟩

theorem follows_iff [DecidableEq α] {places : Finset α}
    (hplaces : ∀ a b, next a = some b → b ∈ places) (a : α) :
    (∃ l, Follows next a l) ↔ ¬ Circles next a := by
  refine ⟨fun ⟨l, hl⟩ => hl.not_circles, fun hc => ?_⟩
  rcases follows_or_circles hplaces {a} a (Finset.mem_singleton_self a) fun b hb => by
    rw [Finset.mem_singleton.mp hb] with hl | hcircles
  · exact hl
  · exact absurd hcircles hc

/-! ## Recursions along a chain -/

/-- With fuel, `run` goes from a place to the next one; `made` is what it makes of a chain. -/
structure Along {γ : Type} (next : α → Option α) (run : Nat → α → Option γ) (made : List α → γ) :
    Prop where
  zero : ∀ a, run 0 a = none
  last : ∀ a fuel, next a = none → run (fuel + 1) a = some (made [a])
  link : ∀ a b fuel, next a = some b → ∃ step : γ → γ,
    run (fuel + 1) a = (run fuel b).map step ∧ ∀ l, l ≠ [] → made (a :: l) = step (made l)

section Along

variable {γ : Type} {run : Nat → α → Option γ} {made : List α → γ}

theorem Along.runs (h : Along next run made) (hl : Follows next a l) :
    ∃ fuel, run fuel a = some (made l) := by
  induction hl with
  | last hnone => exact ⟨1, h.last _ 0 hnone⟩
  | link hlink hb ih =>
    obtain ⟨fuel, hfuel⟩ := ih
    obtain ⟨step, hrun, hmade⟩ := h.link _ _ fuel hlink
    exact ⟨fuel + 1, by rw [hrun, hfuel, hmade _ hb.ne_nil, Option.map_some]⟩

theorem Along.follows (h : Along next run made) {fuel : Nat} {r : γ} (hr : run fuel a = some r) :
    ∃ l, Follows next a l ∧ r = made l := by
  induction fuel generalizing a r with
  | zero =>
    rw [h.zero] at hr
    cases hr
  | succ fuel ih =>
    cases hnext : next a with
    | none =>
      rw [h.last _ _ hnext] at hr
      exact ⟨[a], .last hnext, (Option.some.inj hr).symm⟩
    | some b =>
      obtain ⟨step, hrun, hmade⟩ := h.link _ _ fuel hnext
      rw [hrun] at hr
      obtain ⟨r', hr', rfl⟩ := Option.map_eq_some_iff.mp hr
      obtain ⟨l, hl, rfl⟩ := ih hr'
      exact ⟨a :: l, .link hnext hl, (hmade l hl.ne_nil).symm⟩

theorem Along.returns_iff [DecidableEq α] (h : Along next run made) {places : Finset α}
    (hplaces : ∀ a b, next a = some b → b ∈ places) (a : α) :
    (∃ fuel r, run fuel a = some r) ↔ ¬ Circles next a := by
  rw [← follows_iff hplaces]
  refine ⟨fun ⟨fuel, r, hr⟩ => ?_, fun ⟨l, hl⟩ => ?_⟩
  · obtain ⟨l, hl, -⟩ := h.follows hr
    exact ⟨l, hl⟩
  · obtain ⟨fuel, hfuel⟩ := h.runs hl
    exact ⟨fuel, _, hfuel⟩

end Along

end Trustme.Lib.Chains
