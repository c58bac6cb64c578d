/-
  Subject:   The operations that give a stream a slot, write to it, or take its trees out.

  * `allocate_stands`: the trees of the new slot were the macro's;
  * `treesMut_stands`, `pushTrees_stands`: the slot is the stream's own, its joins are gone, and
    trees go to its end;
  * `intoTrees_stands`: the trees become the macro's, and the slot is freed or shared;
  * `extendStreams_stands`: a round of `extend` with streams.
-/
import Trustme.ProcMacro.StreamCounts

namespace Trustme.ProcMacro.Streams

open Trustme.Lib
open Trustme.Lib.RefCounts

variable {τ : Type} {s s' s'' : Store τ} {value value' value'' : Handle → List (Value τ)}
variable {R roots : List Handle}
variable {J : List (Tree τ) → List UInt8 → Prop}

/-! ## 1. Slots that are taken -/

/-- There is a slot more, at `i`. -/
structure Placed (s s' : Store τ) (i : Handle) (e : Slot τ) : Prop where
  fresh : s.entry i = none
  entry : ∀ k, s'.entry k = if k = i then some e else s.entry k
  held : ∀ roots k, held s'.SLOTS.length (handlesIn s') roots k =
    held s.SLOTS.length (handlesIn s) (handlesOf e.trees ++ roots) k
  free_nodup : s'.FREE.Nodup
  free : ∀ k ∈ s'.FREE, k ∈ s.FREE ∧ k ≠ i
  length : s.SLOTS.length ≤ s'.SLOTS.length

/-- A slot that was freed is taken, or else a slot is added. -/
theorem allocate_placed (hs : Stands J s value roots) (hroom : Room s)
    (ts : List (Tree τ)) (hidden : List UInt8) :
    ∃ i s', allocate s ts hidden = .ok (i, s') ∧ Placed s s' i ⟨ts, hidden, 1⟩ := by
  cases hfree : s.FREE with
  | cons i free =>
    have hnodup := hs.counted.free_nodup
    rw [hfree] at hnodup
    obtain ⟨hlt, hdead⟩ := hs.counted.free_dead i (hfree ▸ List.mem_cons_self)
    have hentry : ∀ k, ({ s.setEntry i (some ⟨ts, hidden, 1⟩) with FREE := free } :
      Store τ).entry k =
        if k = i then some ⟨ts, hidden, 1⟩ else s.entry k := entry_setEntry hlt _
    refine ⟨i, { s.setEntry i (some ⟨ts, hidden, 1⟩) with FREE := free }, ?_, hdead, hentry,
      fun roots k => ?_, (List.nodup_cons.mp hnodup).2, fun k hk => ?_, ?_⟩
    · rw [allocate, hfree]
    · have hin : handlesIn { s.setEntry i (some ⟨ts, hidden, 1⟩) with FREE := free } i =
        handlesOf ts := by
        rw [handlesIn, treesIn, hentry, if_pos rfl, Option.elim_some]
      have hnone : handlesIn s i = [] := by
        rw [handlesIn, treesIn, hdead, Option.elim_none]
        rfl
      change held (s.setEntry i _).SLOTS.length _ _ _ = _
      rw [setEntry_length, held_open hlt (fun j hj => ?_) hnone, hin]
      rw [handlesIn, handlesIn, treesIn, treesIn, hentry, if_neg hj]
    · rw [hfree]
      refine ⟨List.mem_cons_of_mem i hk, fun heq => ?_⟩
      exact (List.nodup_cons.mp hnodup).1 (heq ▸ hk)
    · exact Nat.le_of_eq (setEntry_length ..).symm
  | nil =>
    have hlt : s.SLOTS.length + 1 < 2 ^ 32 := by
      rcases hroom with hne | hlt
      · exact absurd hfree hne
      · exact hlt
    have hdead : s.entry s.SLOTS.length = none := by
      rw [Store.entry, List.getElem?_eq_none (Nat.le_refl _), Option.join_none]
    have hpushed : ∀ (s' : Store τ), s'.SLOTS = s.SLOTS ++ [some ⟨ts, hidden, 1⟩] → ∀ k,
        s'.entry k = if k = s.SLOTS.length then some ⟨ts, hidden, 1⟩ else s.entry k := by
      intro s' hs' k
      rw [Store.entry, hs']
      split_ifs with hk
      · rw [hk, List.getElem?_concat_length, Option.join_some]
      · rcases Nat.lt_or_gt_of_ne hk with hk | hk
        · rw [List.getElem?_append_left hk, Store.entry]
        · rw [Store.entry, List.getElem?_eq_none
            (by rw [List.length_append, List.length_singleton]; omega),
            List.getElem?_eq_none (by omega)]
    refine ⟨s.SLOTS.length, _, by rw [allocate, hfree]; exact if_pos hlt, hdead, hpushed _ rfl,
      fun roots k => ?_, ?_, fun k hk => ?_, ?_⟩
    · dsimp only
      rw [List.length_append, List.length_singleton, held_grow (fun j hj => ?_)]
      · rw [handlesIn, treesIn, hpushed _ rfl, if_pos rfl, Option.elim_some]
      · rw [handlesIn, handlesIn, treesIn, treesIn, hpushed _ rfl, if_neg (Nat.ne_of_lt hj)]
    · exact List.nodup_nil
    · exact absurd hk List.not_mem_nil
    · dsimp only
      rw [List.length_append]
      exact Nat.le_add_right _ _

variable {e : Slot τ}

/-- The trees of a slot that is taken come from the roots. -/
theorem Placed.stands {i : Handle} (hp : Placed s s' i e) (hone : e.handles = 1)
    (hhidden : e.hidden = [] ∨ J e.trees e.hidden)
    (hs : Stands J s value (handlesOf e.trees ++ R)) :
    Stands J s' (Function.update value i (e.trees.map (denote value))) (i :: R) ∧
      Kept s value s' (Function.update value i (e.trees.map (denote value))) R := by
  obtain ⟨hroots, hslots⟩ := hs.free hp.fresh
  have hother : ∀ k, k ≠ i → Function.update value i (e.trees.map (denote value)) k = value k :=
    fun k hk => Function.update_of_ne hk _ _
  have htrees : e.trees.map (denote (Function.update value i (e.trees.map (denote value)))) =
      e.trees.map (denote value) :=
    map_denote_congr fun k hk => hother k fun heq => hroots (List.mem_append_left R (heq ▸ hk))
  refine ⟨⟨⟨fun k => ?_, fun k x hx _ => ?_, fun k hk => absurd hk List.not_mem_nil, hp.free_nodup,
    fun k hk => ?_⟩, fun k x hx => ?_, fun k x hx => ?_⟩, fun k hk => ?_, fun k x hk hx _ => ?_⟩
  · have hcount := hs.counts k
    rw [outside_nil, held_root, hp.held, ← hcount, List.count_singleton]
    unfold Streams.counted
    rw [hp.entry]
    split_ifs with hk hk' hk'
    · rw [hk, hp.fresh, Option.elim_some, Option.elim_none, hone]
    · exact absurd (beq_iff_eq.mpr hk.symm) hk'
    · exact absurd (beq_iff_eq.mp hk').symm hk
    · rw [Nat.zero_add]
  · rw [hp.entry] at hx
    split_ifs at hx with hk
    · cases hx
      rw [hone]
      exact Nat.one_pos
    · exact hs.counted.live k x hx List.not_mem_nil
  · obtain ⟨hfree, hne⟩ := hp.free k hk
    obtain ⟨hlt, hdead⟩ := hs.counted.free_dead k hfree
    rw [hp.entry, if_neg hne]
    exact ⟨Nat.lt_of_lt_of_le hlt hp.length, hdead⟩
  · rw [hp.entry] at hx
    split_ifs at hx with hk
    · cases hx
      rw [hk, Function.update_self, htrees]
    · rw [hother k hk, hs.yields k x hx]
      exact (map_denote_congr fun j hj => hother j fun heq => hslots k x hx (heq ▸ hj)).symm
  · rw [hp.entry] at hx
    split_ifs at hx with hk
    · cases hx
      exact hhidden
    · exact hs.hidden k x hx
  · exact hother k fun heq => hroots (List.mem_append_right _ (heq ▸ hk))
  · have hne : k ≠ i := fun heq => hroots (List.mem_append_right _ (heq ▸ hk))
    rw [hp.entry, if_neg hne]
    exact hx

theorem allocate_stands (ts : List (Tree τ)) (hidden : List UInt8)
    (hs : Stands J s value (handlesOf ts ++ R)) (hroom : Room s)
    (hhidden : hidden = [] ∨ J ts hidden) :
    ∃ i s' value', allocate s ts hidden = .ok (i, s') ∧ s'.entry i = some ⟨ts, hidden, 1⟩ ∧
      value' i = ts.map (denote value) ∧ Stands J s' value' (i :: R) ∧
        Kept s value s' value' R := by
  obtain ⟨i, s', hrun, hp⟩ := allocate_placed hs hroom ts hidden
  obtain ⟨hstands, hkept⟩ := hp.stands rfl hhidden hs
  exact ⟨i, s', _, hrun, by rw [hp.entry, if_pos rfl], Function.update_self .., hstands, hkept⟩

/-! ## 2. Streams that are written to -/

variable {h : Handle}

/-- The slot of a root that is the only one gets other trees; handles go to it from the roots, or
    become roots. -/
theorem Stands.reset {R' : List Handle} (hs : Stands J s value (h :: R)) (he : s.entry h = some e)
    (hone : e.handles = 1) {ts : List (Tree τ)} {hidden : List UInt8}
    (hperm : (handlesOf ts ++ R').Perm (handlesOf e.trees ++ R))
    (hhidden : hidden = [] ∨ J ts hidden) :
    Stands J (s.setEntry h (some ⟨ts, hidden, 1⟩)) (Function.update value h (ts.map (denote value)))
      (h :: R') ∧
    Kept s value (s.setEntry h (some ⟨ts, hidden, 1⟩))
      (Function.update value h (ts.map (denote value)))
      R' := by
  have hlt := entry_lt he
  obtain ⟨hR, hslots⟩ := hs.sole he hone
  have hnone : h ∉ handlesOf ts ++ R' := fun hmem => by
    rcases List.mem_append.mp (hperm.mem_iff.mp hmem) with hmem | hmem
    · exact hslots h e he hmem
    · exact hR hmem
  have hother : ∀ k, k ≠ h → Function.update value h (ts.map (denote value)) k = value k :=
    fun k hk => Function.update_of_ne hk _ _
  have htrees : ts.map (denote (Function.update value h (ts.map (denote value)))) =
    ts.map (denote value) :=
    map_denote_congr fun k hk => hother k fun heq => hnone (List.mem_append_left R' (heq ▸ hk))
  have hne : ∀ k ∈ R', k ≠ h := fun k hk heq => hnone (List.mem_append_right _ (heq ▸ hk))
  refine ⟨⟨⟨fun k => ?_, fun k x hx _ => ?_, fun k hk => absurd hk List.not_mem_nil,
    hs.counted.free_nodup, fun k hk => ?_⟩, fun k x hx => ?_, fun k x hx => ?_⟩, fun k hk => ?_,
    fun k x hk hx _ => ?_⟩
  · have hcount := hs.counts k
    have hbalance := hperm.count_eq k
    have hslot : held s.SLOTS.length (handlesIn (s.setEntry h (some ⟨ts, hidden, 1⟩))) (h :: R) k +
        (handlesIn s h).count k = held s.SLOTS.length (handlesIn s) (h :: R) k +
        (handlesIn (s.setEntry h (some ⟨ts, hidden, 1⟩)) h).count k :=
      held_slot hlt (fun j hj => handlesIn_setEntry hlt (some ⟨ts, hidden, 1⟩) hj) k
    have hnew : handlesIn (s.setEntry h (some ⟨ts, hidden, 1⟩)) h = handlesOf ts := by
      rw [handlesIn, treesIn_entry (entry_setEntry_self hlt _)]
    have hold : handlesIn s h = handlesOf e.trees := by rw [handlesIn, treesIn_entry he]
    have hroots : Streams.counted (s.setEntry h (some ⟨ts, hidden, 1⟩)) k =
        Streams.counted s k := by
      rw [counted_setEntry hlt]
      split_ifs with hk
      · rw [hk, counted_entry he, hone]
      · rfl
    rw [outside_nil, setEntry_length, hroots, hcount]
    rw [hnew, hold] at hslot
    rw [List.count_append, List.count_append] at hbalance
    unfold held at hslot ⊢
    rw [List.count_cons] at hslot ⊢
    rw [List.count_cons]
    omega
  · rw [entry_setEntry hlt] at hx
    split_ifs at hx with hk
    · cases hx
      exact Nat.one_pos
    · exact hs.counted.live k x hx List.not_mem_nil
  · exact hs.counted.free_setEntry he _ hk
  · rw [entry_setEntry hlt] at hx
    split_ifs at hx with hk
    · cases hx
      rw [hk, Function.update_self, htrees]
    · rw [hother k hk, hs.yields k x hx]
      exact (map_denote_congr fun j hj => hother j fun heq => hslots k x hx (heq ▸ hj)).symm
  · rw [entry_setEntry hlt] at hx
    split_ifs at hx with hk
    · cases hx
      exact hhidden
    · exact hs.hidden k x hx
  · exact hother k (hne k hk)
  · rw [entry_setEntry_ne hlt _ (hne k hk)]
    exact hx

theorem pushTrees_stands {more : List (Tree τ)} (hs : Stands J s value (h :: (handlesOf more ++ R)))
    (he : s.entry h = some e) (hone : e.handles = 1) (hhidden : e.hidden = []) :
    ∃ s' value', pushTrees s h more = .ok s' ∧ Stands J s' value' (h :: R) ∧
      s'.entry h = some ⟨e.trees ++ more, [], 1⟩ ∧ value' h = value h ++ more.map (denote value) ∧
      Kept s value s' value' R := by
  have hperm : (handlesOf (e.trees ++ more) ++ R).Perm
    (handlesOf e.trees ++ (handlesOf more ++ R)) := by
    rw [handlesOf, List.flatMap_append, List.append_assoc]
    exact List.Perm.refl _
  obtain ⟨hstands, hkept⟩ := hs.reset he hone hperm (Or.inl (Eq.refl []))
  refine ⟨_, _, ?_, hstands, entry_setEntry_self (entry_lt he) _, ?_, hkept⟩
  · rw [pushTrees, slot_entry he, Outcome.ok_bind, hhidden, hone]
    rfl
  · rw [Function.update_self, List.map_append, ← hs.yields h e he]

theorem Room.mono (hroom : Room s) (hlength : s'.SLOTS.length = s.SLOTS.length)
    (hfree : s.FREE ⊆ s'.FREE) : Room s' := by
  rcases hroom with hne | hlt
  · exact .inl fun hnil => hne (List.subset_nil.mp (hnil ▸ hfree))
  · exact .inr (hlength ▸ hlt)

/-- A root that is alone is not cloned with the others. -/
theorem Cloned.kept {hs : List Handle} (hc : Cloned s s' hs)
    (hne : ∀ k e, k ∈ R → s.entry k = some e → e.handles = 1 → k ∉ hs) :
      Kept s value s' value R := by
  refine ⟨fun _ _ => rfl, fun k e hk he hone => ?_⟩
  rw [hc.entry, he, Option.map_some, List.count_eq_zero_of_not_mem (hne k e hk he hone),
    Nat.add_zero]

/-- The trees of a slot are cloned, for a root of it. -/
theorem cloneTrees_stands (hs : Stands J s value (h :: R)) (he : s.entry h = some e)
    (hroom : ∀ k, counted s k + (handlesOf e.trees).count k < 2 ^ 32) :
    ∃ s', cloneHandles s (handlesOf e.trees) = .ok s' ∧
      Stands J s' value (h :: (handlesOf e.trees ++ R)) ∧ Cloned s s' (handlesOf e.trees) ∧
      Kept s value s' value (h :: R) := by
  obtain ⟨s', hrun, hstands, hcloned⟩ := cloneHandles_stands hs (fun k hk => hs.inside he hk) hroom
  refine ⟨s', hrun, hstands.perm List.perm_middle, hcloned, hcloned.kept fun k x hk hx hone => ?_⟩
  exact ((hs.perm (List.perm_cons_erase hk)).sole hx hone).2 h e he

variable {stream : Option Handle}

theorem ownSlot_stands (hs : Stands J s value (stream.toList ++ R))
    (hown : ∀ h, stream = some h → counted s h ≠ 1 →
      (∀ k, counted s k + (handlesIn s h).count k < 2 ^ 32) ∧ Room s)
    (hroom : stream = none → Room s) :
    ∃ h s' value' e, ownSlot s stream = .ok (h, s') ∧ Stands J s' value' (h :: R) ∧
      s'.entry h = some e ∧ e.handles = 1 ∧ value' h = content value stream ∧
      Kept s value s' value' R := by
  cases stream with
  | none =>
    obtain ⟨h, s', value', hrun, he, hvalue, hstands, hkept⟩ :=
      allocate_stands [] [] hs (hroom rfl) (.inl rfl)
    exact ⟨h, s', value', _, hrun, hstands, he, rfl, hvalue, hkept⟩
  | some h =>
    obtain ⟨e, he, hpos⟩ := hs.entry List.mem_cons_self
    by_cases hone : e.handles = 1
    · refine ⟨h, s, value, e, ?_, hs, he, hone, rfl, .refl s value R⟩
      rw [ownSlot, slot_entry he, Outcome.ok_bind, if_pos hone]
      rfl
    · have hin : handlesIn s h = handlesOf e.trees := by rw [handlesIn, treesIn_entry he]
      obtain ⟨hcounts, hplace⟩ := hown h rfl (by rwa [counted_entry he])
      rw [hin] at hcounts
      obtain ⟨s₁, hrun₁, hs₁, hcloned, hkept₁⟩ := cloneTrees_stands hs he hcounts
      have hroom₁ : Room s₁ := hplace.mono hcloned.length (hcloned.free ▸ List.Subset.refl _)
      obtain ⟨own, s₂, value₂, hrun₂, he₂, hvalue₂, hs₂, hkept₂⟩ :=
        allocate_stands e.trees [] (hs₁.perm List.perm_middle.symm) hroom₁ (.inl rfl)
      obtain ⟨s₃, hle, hrun₃, hs₃, hkept₃, -⟩ :=
        dropHandles_stands [h] (hs₂.perm (List.Perm.swap h own R))
      refine ⟨own, s₃, value₂, _, ?_, hs₃, hkept₃.entry own _ List.mem_cons_self he₂ rfl,
        rfl, ?_, ?_⟩
      · rw [ownSlot, slot_entry he, Outcome.ok_bind, if_neg hone, hrun₁, Outcome.ok_bind, hrun₂]
        change (dropHandles s₂ [h] >>= _) = _
        rw [hrun₃]
        rfl
      · rw [hvalue₂, ← hs.yields h e he]
        rfl
      · have hsub : ∀ r : Handle, R ⊆ r :: R := fun r => List.subset_cons_self r R
        exact (hkept₁.mono (hsub h)).trans ((hkept₂.mono (hsub h)).trans (hkept₃.mono (hsub own)))

theorem treesMut_stands (hs : Stands J s value (stream.toList ++ R))
    (hown : ∀ h, stream = some h → counted s h ≠ 1 →
      (∀ k, counted s k + (handlesIn s h).count k < 2 ^ 32) ∧ Room s)
    (hroom : stream = none → Room s) :
    ∃ h s' value' ts, treesMut s stream = .ok (h, s') ∧ Stands J s' value' (h :: R) ∧
      s'.entry h = some ⟨ts, [], 1⟩ ∧ value' h = content value stream ∧
        Kept s value s' value' R := by
  obtain ⟨h, s₁, value₁, e, hrun, hs₁, he, hone, hvalue, hkept⟩ := ownSlot_stands hs hown hroom
  obtain ⟨hs₂, hkept₂⟩ := hs₁.reset he hone (List.Perm.refl _) (Or.inl (Eq.refl []))
  refine ⟨h, _, _, e.trees, ?_, hs₂, entry_setEntry_self (entry_lt he) _, ?_, hkept.trans hkept₂⟩
  · rw [treesMut, hrun, Outcome.ok_bind]
    change (slot s₁ h >>= _) = _
    rw [slot_entry he, Outcome.ok_bind, hone]
    rfl
  · rw [Function.update_self, ← hs₁.yields h e he, hvalue]

/-! ## 3. Trees that are taken out -/

/-- Slots keep their trees, and handles of `hs` are counted. -/
structure Took (s s' : Store τ) (hs : List Handle) : Prop where
  length : s'.SLOTS.length = s.SLOTS.length
  free : s.FREE ⊆ s'.FREE
  entry : ∀ k e', s'.entry k = some e' → ∃ e, s.entry k = some e ∧ e'.trees = e.trees ∧
    e'.handles ≤ e.handles + hs.count k

theorem close_setEntry (s : Store τ) (h : Handle) (o : Option (Slot τ)) :
    close (s.setEntry h o) h = close s h := by
  unfold close Store.setEntry
  dsimp only
  rw [List.set_set]

/-- The trees of a slot with one handle become roots, and the slot is free. -/
theorem Stands.vacate (hs : Stands J s value (h :: R)) (he : s.entry h = some e)
    (hone : e.handles = 1) :
    Stands J (close s h) value (handlesOf e.trees ++ R) ∧ Kept s value (close s h) value R := by
  have hlt := entry_lt he
  have hentry : ∀ k, (close s h).entry k = if k = h then none else s.entry k :=
    entry_setEntry hlt none
  have hcounted := (hs.counted.takeLast he hone).close List.not_mem_nil
  rw [close_setEntry] at hcounted
  refine ⟨⟨hcounted, fun k x hx => ?_, fun k x hx => ?_⟩, fun _ _ => rfl, fun k x hk hx _ => ?_⟩
  · rw [hentry] at hx
    split_ifs at hx
    exact hs.yields k x hx
  · rw [hentry] at hx
    split_ifs at hx
    exact hs.hidden k x hx
  · have hne : k ≠ h := fun heq => (hs.sole he hone).1 (heq ▸ hk)
    rw [hentry, if_neg hne]
    exact hx

/-- The last handle of a slot without trees is dropped. -/
theorem dropHandles_empty (he : s.entry h = some e) (hone : e.handles = 1)
    (hempty : e.trees = []) : ∃ hle, dropHandles s [h] = .ok ⟨close s h, hle⟩ := by
  have hinside : dropHandles (s.setEntry h (some { e with handles := e.handles - 1 }))
    (handlesOf e.trees) =
      .ok ⟨_, Nat.le_refl _⟩ := by
    rw [hempty, handlesOf, List.flatMap_nil, dropHandles]
  have hrest : dropHandles (close (s.setEntry h (some { e with handles := e.handles - 1 })) h) [] =
      .ok ⟨_, Nat.le_refl _⟩ := by rw [dropHandles]
  have hlast := dropHandles_last he hone hinside hrest
  rwa [close_setEntry] at hlast

theorem intoTrees_stands (hs : Stands J s value (h :: R)) (he : s.entry h = some e)
    (hcounts : e.handles ≠ 1 → ∀ k, counted s k + (handlesOf e.trees).count k < 2 ^ 32) :
    ∃ s', intoTrees s (some h) = .ok (e.trees, s') ∧ Stands J s' value (handlesOf e.trees ++ R) ∧
      Kept s value s' value R ∧ Took s s' (if e.handles = 1 then [] else handlesOf e.trees) := by
  have hlt := entry_lt he
  by_cases hone : e.handles = 1
  · obtain ⟨hs', hkept⟩ := hs.vacate he hone
    obtain ⟨hle, hdrop⟩ := dropHandles_empty (entry_setEntry_self hlt (some { e with trees := [] }))
      hone rfl
    refine ⟨close s h, ?_, hs', hkept, setEntry_length .., List.subset_cons_self h s.FREE,
      fun k x hx => ?_⟩
    · rw [intoTrees, slot_entry he, Outcome.ok_bind, if_pos hone, hdrop, Outcome.ok_bind]
      change Outcome.ok (e.trees, close (s.setEntry h (some { e with trees := [] })) h) = _
      rw [close_setEntry]
    · have hentry : (close s h).entry k = if k = h then none else s.entry k :=
        entry_setEntry hlt none k
      rw [hentry] at hx
      split_ifs at hx
      exact ⟨x, hx, rfl, Nat.le_add_right _ _⟩
  · obtain ⟨s₁, hrun₁, hs₁, hcloned, hkept₁⟩ := cloneTrees_stands hs he (hcounts hone)
    obtain ⟨s₂, hle, hrun₂, hs₂, hkept₂, hshrunk⟩ := dropHandles_stands [h] hs₁
    refine ⟨s₂, ?_, hs₂, (hkept₁.mono (List.subset_cons_self h R)).trans
      (hkept₂.mono (List.subset_append_right _ _)), hshrunk.length.trans hcloned.length,
      hcloned.free ▸ hshrunk.free, fun k x hx => ?_⟩
    · rw [intoTrees, slot_entry he, Outcome.ok_bind, if_neg hone, hrun₁, Outcome.ok_bind, hrun₂]
      rfl
    · rw [if_neg hone]
      rcases hshrunk.entry k with hnone | ⟨x₁, n, hx₁, hn, hset⟩
      · cases hnone.symm.trans hx
      · cases hset.symm.trans hx
        rw [hcloned.entry, Option.map_eq_some_iff] at hx₁
        obtain ⟨x₀, hx₀, rfl⟩ := hx₁
        exact ⟨x₀, hx₀, rfl, hn⟩

theorem Took.counted {hs : List Handle} (h : Took s s' hs) (k : Handle) :
    Streams.counted s' k ≤ Streams.counted s k + hs.count k := by
  cases he' : s'.entry k with
  | none =>
    rw [Streams.counted, he', Option.elim_none]
    exact Nat.zero_le _
  | some e' =>
    obtain ⟨e, he, -, hle⟩ := h.entry k e' he'
    rwa [counted_entry he, counted_entry he']

/-! ## 4. Streams that are joined -/

theorem trees_stands (hs : Stands J s value (stream.toList ++ R)) :
    ∃ ts, trees s stream = .ok ts ∧ ts.map (denote value) = content value stream ∧
      ∀ h, stream = some h → treesIn s h = ts := by
  cases stream with
  | none => exact ⟨[], rfl, rfl, fun h hh => nomatch hh⟩
  | some h =>
    obtain ⟨e, he, -⟩ := hs.entry List.mem_cons_self
    refine ⟨e.trees, ?_, (hs.yields h e he).symm, fun k hk => ?_⟩
    · rw [trees, slot_entry he]
      rfl
    · cases hk
      exact treesIn_entry he

/-- Trees are taken out of one stream and go to the end of another. -/
theorem joinStreams_stands {g : Handle} (hs : Stands J s value (h :: g :: R))
    (hcounts : ∀ k, counted s k + (if counted s h = 1 then [] else handlesIn s h).count k < 2 ^ 32)
    (hown : counted s g ≠ 1 → (∀ k, counted s k +
      (handlesIn s g ++ if counted s h = 1 then [] else handlesIn s h).count k < 2 ^ 32) ∧ Room s) :
    ∃ own more s₁ s₂ s' value', intoTrees s (some h) = .ok (more, s₁) ∧
      treesMut s₁ (some g) = .ok (own, s₂) ∧ pushTrees s₂ own more = .ok s' ∧
      Stands J s' value' (own :: R) ∧ value' own = value g ++ value h ∧
        Kept s value s' value' R := by
  obtain ⟨e, he, hpos⟩ := hs.entry List.mem_cons_self
  have hin : handlesIn s h = handlesOf e.trees := by rw [handlesIn, treesIn_entry he]
  rw [counted_entry he, hin] at hcounts hown
  obtain ⟨s₁, hrun₁, hs₁, hkept₁, htook⟩ := intoTrees_stands hs he fun hone k => by
    have hk := hcounts k
    rwa [if_neg hone] at hk
  have hs₁' : Stands J s₁ value ((some g).toList ++ (handlesOf e.trees ++ R)) :=
    hs₁.perm List.perm_middle
  obtain ⟨e₁, he₁, -⟩ := hs₁'.entry List.mem_cons_self
  obtain ⟨e₀, he₀, htrees, -⟩ := htook.entry g e₁ he₁
  have hsame : handlesIn s₁ g = handlesIn s g := by
    rw [handlesIn, handlesIn, treesIn_entry he₁, treesIn_entry he₀, htrees]
  obtain ⟨own, s₂, value₂, ts, hrun₂, hs₂, he₂, hvalue₂, hkept₂⟩ := treesMut_stands hs₁'
    (fun k hk hone => by
      cases hk
      have hshared : counted s g ≠ 1 := fun hsole => hone <| by
        rw [counted_entry he₀] at hsole
        rw [counted_entry (hkept₁.entry g e₀ List.mem_cons_self he₀ hsole), hsole]
      obtain ⟨hall, hroom⟩ := hown hshared
      refine ⟨fun k => ?_, hroom.mono htook.length htook.free⟩
      have hk := hall k
      have hle := htook.counted k
      rw [List.count_append] at hk
      rw [hsame]
      omega)
    (fun hnone => by cases hnone)
  obtain ⟨s₃, value₃, hrun₃, hs₃, -, hvalue₃, hkept₃⟩ := pushTrees_stands hs₂ he₂ rfl rfl
  have hmore : e.trees.map (denote value₂) = value h := by
    rw [map_denote_congr fun k hk => hkept₂.value k (List.mem_append_left R hk)]
    exact (hs.yields h e he).symm
  refine ⟨own, e.trees, s₁, s₂, s₃, value₃, hrun₁, hrun₂, hrun₃, hs₃, ?_, ?_⟩
  · rw [hvalue₃, hvalue₂, hmore]
    rfl
  · exact (hkept₁.mono (List.subset_cons_self g R)).trans
      ((hkept₂.mono (List.subset_append_right _ R)).trans hkept₃)

theorem extendStreams_stands {self : Option Handle}
    (hs : Stands J s value (stream.toList ++ (self.toList ++ R)))
    (hmay : ∀ h g, stream = some h → self = some g → treesIn s h ≠ [] → treesIn s g ≠ [] →
      (∀ k, counted s k + (if counted s h = 1 then [] else handlesIn s h).count k < 2 ^ 32) ∧
      (counted s g ≠ 1 → (∀ k, counted s k +
        (handlesIn s g ++ if counted s h = 1 then [] else handlesIn s h).count k < 2 ^ 32) ∧
          Room s)) :
    ∃ h s' value', extendStreams s self stream = .ok (h, s') ∧ Stands J s' value' (h.toList ++ R) ∧
      content value' h = content value self ++ content value stream ∧ Kept s value s' value' R := by
  have hperm : (stream.toList ++ (self.toList ++ R)).Perm
    (self.toList ++ (stream.toList ++ R)) := by
    rw [← List.append_assoc, ← List.append_assoc]
    exact List.Perm.append_right R List.perm_append_comm
  obtain ⟨more, hmore, hmoreValue, hmoreIn⟩ := trees_stands hs
  obtain ⟨mine, hmine, hmineValue, hmineIn⟩ := trees_stands (hs.perm hperm)
  cases more with
  | nil =>
    obtain ⟨s', hle, hrun, hs', hkept, -⟩ := dropHandles_stands stream.toList hs
    refine ⟨self, s', value, ?_, hs', ?_, hkept.mono (List.subset_append_right _ R)⟩
    · rw [extendStreams, hmore]
      change (dropHandles s stream.toList >>= _) = _
      rw [hrun]
      rfl
    · rw [← hmoreValue, List.map_nil, List.append_nil]
  | cons t more =>
    cases mine with
    | nil =>
      obtain ⟨s', hle, hrun, hs', hkept, -⟩ := dropHandles_stands self.toList (hs.perm hperm)
      refine ⟨stream, s', value, ?_, hs', ?_, hkept.mono (List.subset_append_right _ R)⟩
      · rw [extendStreams, hmore]
        change (trees s self >>= _) = _
        rw [hmine]
        change (dropHandles s self.toList >>= _) = _
        rw [hrun]
        rfl
      · rw [← hmineValue, List.map_nil, List.nil_append]
    | cons u mine =>
      cases stream with
      | none => cases hmore
      | some h =>
        cases self with
        | none => cases hmine
        | some g =>
          obtain ⟨hcounts, hown⟩ := hmay h g rfl rfl
            (by rw [hmoreIn h rfl]; exact List.cons_ne_nil t more)
            (by rw [hmineIn g rfl]; exact List.cons_ne_nil u mine)
          obtain ⟨own, ts, s₁, s₂, s', value', hinto, hmut, hpush, hs', hvalue, hkept⟩ :=
            joinStreams_stands hs hcounts hown
          refine ⟨some own, s', value', ?_, hs', hvalue, hkept⟩
          rw [extendStreams, hmore]
          change (trees s (some g) >>= _) = _
          rw [hmine]
          change (intoTrees s (some h) >>= _) = _
          rw [hinto, Outcome.ok_bind]
          change (treesMut s₁ (some g) >>= _) = _
          rw [hmut, Outcome.ok_bind]
          change (pushTrees s₂ own ts >>= _) = _
          rw [hpush]
          rfl

end Trustme.ProcMacro.Streams
