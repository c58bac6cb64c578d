/-
  Subject:   A stream is printed as its list, and the store is as it was.

  * `within_smaller`: the streams within a slot are smaller: no slot is within itself;
  * `lend`: the handle that `Group::stream` makes is dropped again;
  * `display_stands`: the text, with enough fuel for the nesting.
-/
import Trustme.ProcMacro.StreamWrites

namespace Trustme.ProcMacro.Streams

open Trustme.Lib
open Trustme.Lib.RefCounts

variable {τ : Type} {s s' : Store τ} {value : Handle → List (Value τ)} {R roots : List Handle}
variable {J : List (Tree τ) → List UInt8 → Prop}

/-! ## 1. Streams within streams -/

variable {k h : Handle}

theorem handle_smaller {ts : List (Tree τ)} (hk : k ∈ handlesOf ts) :
    sizeOf (value k) < sizeOf (ts.map (denote value)) := by
  obtain ⟨t, ht, hkt⟩ := List.mem_flatMap.mp hk
  have hin : sizeOf (denote value t) < sizeOf (ts.map (denote value)) :=
    List.sizeOf_lt_of_mem (List.mem_map_of_mem ht)
  cases t with
  | token t => cases hkt
  | group delimiter stream fragment =>
    have hstream : stream = some k := Option.mem_toList.mp hkt
    rw [denote, hstream, content, Option.elim_some, Value.group.sizeOf_spec] at hin
    omega

theorem handlesIn_entry (hk : k ∈ handlesIn s h) :
    ∃ e, s.entry h = some e ∧ k ∈ handlesOf e.trees := by
  cases he : s.entry h with
  | none =>
    rw [handlesIn, treesIn, he] at hk
    cases hk
  | some e =>
    rw [handlesIn, treesIn_entry he] at hk
    exact ⟨e, rfl, hk⟩

theorem within_smaller (hs : Stands J s value roots) (hw : Within s h k) :
    sizeOf (value k) < sizeOf (value h) := by
  induction hw with
  | single hk =>
    obtain ⟨e, he, hk⟩ := handlesIn_entry hk
    rw [hs.yields _ e he]
    exact handle_smaller hk
  | tail _ hk ih =>
    obtain ⟨e, he, hk⟩ := handlesIn_entry hk
    refine Nat.lt_trans ?_ ih
    rw [hs.yields _ e he]
    exact handle_smaller hk

theorem within_ne (hs : Stands J s value roots) (hw : Within s h k) : k ≠ h := fun heq =>
  Nat.lt_irrefl _ (heq ▸ within_smaller hs hw)

/-! ## 2. A handle for a while -/

theorem setEntry_self {e : Slot τ} (he : s.entry h = some e) :
    s.setEntry h (some e) = s := by
  have hlt := entry_lt he
  have hget : s.SLOTS[h] = some e := by
    have hjoin : s.SLOTS[h]?.join = some e := he
    rwa [List.getElem?_eq_getElem hlt, Option.join_some] at hjoin
  unfold Store.setEntry
  rw [← hget, List.set_getElem_self]

theorem setEntry_setEntry (s : Store τ) (h : Handle) (o o' : Option (Slot τ)) :
    (s.setEntry h o).setEntry h o' = s.setEntry h o' := by
  unfold Store.setEntry
  dsimp only
  rw [List.set_set]

/-- A handle is cloned for a while. -/
theorem lend {e : Slot τ} (hs : Stands J s value roots) (he : s.entry h = some e)
    (hroom : e.handles + 1 < 2 ^ 32) :
    ∃ s₁, cloneHandles s [h] = .ok s₁ ∧ Stands J s₁ value (h :: roots) ∧
      s₁.entry h = some { e with handles := e.handles + 1 } ∧
      (∀ k, handlesIn s₁ k = handlesIn s k) ∧ (∀ k, k ≠ h → counted s₁ k = counted s k) ∧
      ∃ hle, dropHandles s₁ [h] = .ok ⟨s, hle⟩ := by
  have hlt := entry_lt he
  have hpos := hs.counted.live h e he List.not_mem_nil
  have he₁ := entry_setEntry_self hlt (some { e with handles := e.handles + 1 })
  have hback : (s.setEntry h (some { e with handles := e.handles + 1 })).setEntry h
      (some { e with handles := e.handles + 1 - 1 }) = s := by
    rw [setEntry_setEntry, Nat.add_sub_cancel]
    exact setEntry_self he
  have hnil : ∀ s₂ : Store τ, s₂ = s → ∃ hle, dropHandles s₂ [] = .ok ⟨s, hle⟩ := by
    rintro _ rfl
    exact ⟨Nat.le_refl _, by rw [dropHandles]⟩
  obtain ⟨hle, hrest⟩ := hnil _ hback
  refine ⟨_, ?_, hs.give he, he₁, fun k => ?_, fun k hk => ?_,
    dropHandles_shared he₁ (Nat.succ_pos _) (by dsimp only; omega) hrest⟩
  · rw [cloneHandles, slot_entry he, Outcome.ok_bind, if_pos hroom, cloneHandles]
  · have hsame := congrFun (outside_recount he (e.handles + 1) []) k
    rwa [outside_nil, outside_nil] at hsame
  · rw [counted_setEntry hlt, if_neg hk]

theorem within_congr (h : ∀ k, handlesIn s' k = handlesIn s k) : Within s' = Within s := by
  unfold Within
  simp only [h]

/-! ## 3. Texts -/

/-- The streams that are met have room for a handle more. -/
def Lends (s : Store τ) (hs : List Handle) : Prop :=
  ∀ k ∈ hs, 0 < counted s k ∧ counted s k + 1 < 2 ^ 32 ∧ ∀ j, Within s k j →
    counted s j + 1 < 2 ^ 32

/-- By induction on the list that the trees stand for. -/
theorem displayTrees_stands (T : Texts τ) (first joint : Bool) (l : List (Value τ)) :
    ∀ {s : Store τ} {roots : List Handle} {ts : List (Tree τ)}, Stands J s value roots →
      ts.map (denote value) = l → Lends s (handlesOf ts) →
      ∃ n, ∀ fuel ≥ n, displayTrees T (display T fuel) s first joint ts =
        .ok (listText T first joint l, s) := by
  induction first, joint, l using listText.induct (T := T) with
  | case1 first joint =>
    intro s roots ts hs hl hlends
    rw [List.map_eq_nil_iff] at hl
    subst hl
    exact ⟨0, fun fuel _ => by rw [displayTrees, listText]⟩
  | case2 first joint t more ih =>
    intro s roots ts hs hl hlends
    obtain ⟨u, ts, rfl, hu, hmore⟩ := List.map_eq_cons_iff.mp hl
    cases u with
    | group => cases hu
    | token u =>
      cases hu
      obtain ⟨n, hn⟩ := ih hs hmore hlends
      refine ⟨n, fun fuel hfuel => ?_⟩
      rw [displayTrees, hn fuel hfuel, listText]
      rfl
  | case3 first joint delimiter stream fragment more ihstream ihmore =>
    intro s roots ts hs hl hlends
    obtain ⟨u, ts, rfl, hu, hmore⟩ := List.map_eq_cons_iff.mp hl
    cases u with
    | token => cases hu
    | group d h f =>
      cases hu
      obtain ⟨n, hn⟩ := ihmore hs hmore fun k hk => hlends k (List.mem_append_right _ hk)
      cases h with
      | none =>
        refine ⟨n, fun fuel hfuel => ?_⟩
        have hdrop : dropHandles s [] = .ok ⟨s, Nat.le_refl _⟩ := by rw [dropHandles]
        rw [displayTrees, listText]
        change (dropHandles s [] >>= _) = _
        rw [hdrop, Outcome.ok_bind, hn fuel hfuel]
        rfl
      | some h =>
        obtain ⟨hpos, hroom, hwithin⟩ := hlends h List.mem_cons_self
        obtain ⟨e, he, hcount⟩ := entry_of_counted hpos
        rw [hcount] at hroom
        obtain ⟨s₁, hclone, hs₁, he₁, hin₁, hcounts₁, hle, hdrop⟩ := lend hs he hroom
        have hvalue : e.trees.map (denote value) = content value (some h) := (hs.yields h e he).symm
        have hlends₁ : Lends s₁ (handlesOf e.trees) := by
          intro k hk
          have hwk : Within s h k := .single (by rwa [handlesIn, treesIn_entry he])
          rw [hcounts₁ k (within_ne hs hwk)]
          refine ⟨hs.inside he hk, hwithin k hwk, fun j hj => ?_⟩
          rw [within_congr hin₁] at hj
          have hwj : Within s h j := hwk.trans hj
          rw [hcounts₁ j (within_ne hs hwj)]
          exact hwithin j hwj
        obtain ⟨n₁, hn₁⟩ := ihstream hs₁ hvalue hlends₁
        refine ⟨max n (n₁ + 1), fun fuel hfuel => ?_⟩
        obtain ⟨fuel, rfl⟩ : ∃ m, fuel = m + 1 := ⟨fuel - 1, by omega⟩
        have htrees : trees s₁ (some h) = .ok e.trees := by
          rw [trees, slot_entry he₁]
          rfl
        have hdisplay : display T (fuel + 1) s₁ (some h) =
            .ok (listText T true false (content value (some h)), s₁) := by
          rw [display, htrees, Outcome.ok_bind]
          exact hn₁ fuel (by omega)
        have hempty : (content value (some h)).isEmpty = e.trees.isEmpty := by
          rw [← hvalue, List.isEmpty_map]
        have hmoreText := hn (fuel + 1) (by omega)
        rw [displayTrees, listText]
        change (cloneHandles s [h] >>= _) = _
        rw [hclone, Outcome.ok_bind, htrees, Outcome.ok_bind]
        rw [hempty]
        cases e.trees.isEmpty with
        | true =>
          change (dropHandles s₁ [h] >>= _) = _
          rw [hdrop]
          change (displayTrees T (display T (fuel + 1)) s false false ts >>= _) = _
          rw [hmoreText]
          rfl
        | false =>
          change (display T (fuel + 1) s₁ (some h) >>= _) = _
          rw [hdisplay]
          change (dropHandles s₁ [h] >>= _) = _
          rw [hdrop]
          change (displayTrees T (display T (fuel + 1)) s false false ts >>= _) = _
          rw [hmoreText]
          rfl

theorem display_stands (T : Texts τ) {stream : Option Handle}
    (hs : Stands J s value (stream.toList ++ R))
    (hlends : ∀ h k, stream = some h → Within s h k → counted s k + 1 < 2 ^ 32) :
    ∃ n, ∀ fuel ≥ n, display T fuel s stream =
      .ok (listText T true false (content value stream), s) := by
  obtain ⟨ts, htrees, hvalue, hin⟩ := trees_stands hs
  have hall : Lends s (handlesOf ts) := by
    intro k hk
    cases stream with
    | none =>
      cases htrees
      cases hk
    | some h =>
      have hwk : Within s h k := .single (by rwa [handlesIn, hin h rfl])
      obtain ⟨e, he, -⟩ := hs.entry List.mem_cons_self
      have hpos : 0 < counted s k := hs.inside he (by rwa [← treesIn_entry he, hin h rfl])
      exact ⟨hpos, hlends h k rfl hwk, fun j hj => hlends h j rfl (hwk.trans hj)⟩
  obtain ⟨n, hn⟩ := displayTrees_stands T true false (content value stream) hs hvalue hall
  refine ⟨n + 1, fun fuel hfuel => ?_⟩
  obtain ⟨fuel, rfl⟩ : ∃ m, fuel = m + 1 := ⟨fuel - 1, by omega⟩
  rw [display, htrees, Outcome.ok_bind]
  exact hn fuel (by omega)

end Trustme.ProcMacro.Streams
