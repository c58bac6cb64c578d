/-
  Subject:   What the operations on the store of token streams keep.

  * `Counted`: a slot counts the handles to it, and a free one has none; while the trees of a slot
    are dropped, their handles count as roots;
  * `Stands`: the store is counted, and its slots have the lists that are given;
  * `Kept`: what others see of the store, and the slots they have for themselves;
  * `dropHandles_stands`, `cloneHandles_stands`: handles that are dropped or cloned.
-/
import Trustme.ProcMacro.StreamLists

namespace Trustme.ProcMacro.Streams

open Trustme.Lib
open Trustme.Lib.RefCounts

variable {τ : Type}

/-! ## 1. Entries -/

variable {s : Store τ} {h : Handle} {e : Slot τ}

theorem entry_lt (he : s.entry h = some e) :
    h < s.SLOTS.length := by
  by_contra hlt
  have hnone : s.SLOTS[h]? = none := List.getElem?_eq_none (Nat.le_of_not_lt hlt)
  rw [Store.entry, hnone] at he
  cases he

theorem entry_setEntry (hlt : h < s.SLOTS.length) (e : Option (Slot τ))
    (k : Handle) : (s.setEntry h e).entry k = if k = h then e else s.entry k := by
  unfold Store.entry Store.setEntry
  dsimp only
  split_ifs with hk
  · rw [hk, List.getElem?_set_self hlt]
    rfl
  · rw [List.getElem?_set_ne (Ne.symm hk)]

theorem entry_setEntry_self (hlt : h < s.SLOTS.length)
    (e : Option (Slot τ)) : (s.setEntry h e).entry h = e := by
  rw [entry_setEntry hlt, if_pos rfl]

theorem entry_setEntry_ne {k : Handle} (hlt : h < s.SLOTS.length) (e : Option (Slot τ))
    (hk : k ≠ h) : (s.setEntry h e).entry k = s.entry k := by
  rw [entry_setEntry hlt, if_neg hk]

theorem setEntry_length (s : Store τ) (h : Handle) (e : Option (Slot τ)) :
    (s.setEntry h e).SLOTS.length = s.SLOTS.length := List.length_set

theorem counted_entry (he : s.entry h = some e) :
    counted s h = e.handles := by
  rw [counted, he, Option.elim_some]

theorem treesIn_entry (he : s.entry h = some e) :
    treesIn s h = e.trees := by
  rw [treesIn, he, Option.elim_some]

theorem slot_entry (he : s.entry h = some e) :
    slot s h = .ok e := by
  rw [slot, he]

/-- What is counted is there. -/
theorem entry_of_counted (hpos : 0 < counted s h) :
    ∃ e, s.entry h = some e ∧ counted s h = e.handles := by
  unfold counted at hpos ⊢
  cases he : s.entry h with
  | none =>
    rw [he] at hpos
    exact absurd hpos (Nat.lt_irrefl _)
  | some e => exact ⟨e, rfl, rfl⟩

/-- The trees of all slots but one. -/
theorem handlesIn_setEntry (hlt : h < s.SLOTS.length) (e : Option (Slot τ)) {k : Handle}
    (hk : k ≠ h) :
    handlesIn (s.setEntry h e) k = handlesIn s k := by
  rw [handlesIn, handlesIn, treesIn, treesIn, entry_setEntry_ne hlt e hk]

/-! ## 2. Counts -/

/-- The handles in a slot whose trees are not being dropped. -/
def outside (s : Store τ) (C : List Handle) (h : Handle) : List Handle :=
  if h ∈ C then [] else handlesIn s h

variable {C R hs : List Handle}

theorem outside_other {j : Handle} (hj : j ≠ h) :
    outside s (h :: C) j = outside s C j := by
  unfold outside
  simp only [List.mem_cons, hj, false_or]

/-- The slots of `C` have no handle left, and their trees are being dropped. -/
structure Counted (s : Store τ) (C roots : List Handle) : Prop where
  counts : ∀ h, counted s h = held s.SLOTS.length (outside s C) roots h
  live : ∀ h e, s.entry h = some e → h ∉ C → 0 < e.handles
  closing : ∀ h ∈ C, ∃ e, s.entry h = some e ∧ e.handles = 0
  free_nodup : s.FREE.Nodup
  free_dead : ∀ h ∈ s.FREE, h < s.SLOTS.length ∧ s.entry h = none

theorem Counted.perm {roots roots' : List Handle} (hs : Counted s C roots)
    (h : roots.Perm roots') : Counted s C roots' :=
  { hs with counts := fun i => (hs.counts i).trans (held_perm h i) }

/-- A root is live. -/
theorem Counted.entry {s : Store τ} {C roots : List Handle} (hs : Counted s C roots) {h : Handle}
    (hroot : h ∈ roots) : ∃ e, s.entry h = some e ∧ h ∉ C ∧ 0 < e.handles := by
  have hpos : 0 < counted s h := by
    rw [hs.counts]
    exact root_held hroot
  obtain ⟨e, he, hcount⟩ := entry_of_counted hpos
  rw [hcount] at hpos
  refine ⟨e, he, fun hC => ?_, hpos⟩
  obtain ⟨e', he', h0⟩ := hs.closing h hC
  cases he.symm.trans he'
  omega

/-- Only the count of a slot is changed. -/
theorem outside_recount (he : s.entry h = some e) (n : Nat) (C : List Handle) :
    outside (s.setEntry h (some { e with handles := n })) C = outside s C := by
  funext k
  unfold outside
  by_cases hk : k = h
  · subst hk
    rw [handlesIn, handlesIn, treesIn_entry he, treesIn_entry (entry_setEntry_self (entry_lt he) _)]
  · rw [handlesIn_setEntry (entry_lt he) _ hk]

theorem counted_setEntry (hlt : h < s.SLOTS.length) (e : Slot τ)
    (k : Handle) : counted (s.setEntry h (some e)) k = if k =
      h then e.handles else counted s k := by
  unfold counted
  rw [entry_setEntry hlt]
  split_ifs
  · rfl
  · rfl

/-- A slot that is there is not a free one. -/
theorem Counted.free_setEntry {roots : List Handle} (hs : Counted s C roots)
    (he : s.entry h = some e) (x : Option (Slot τ)) {k : Handle} (hk : k ∈ s.FREE) :
    k < (s.setEntry h x).SLOTS.length ∧ (s.setEntry h x).entry k = none := by
  obtain ⟨hfree, hdead⟩ := hs.free_dead k hk
  have hkh : k ≠ h := fun heq => by
    rw [heq, he] at hdead
    cases hdead
  rw [setEntry_length, entry_setEntry_ne (entry_lt he) _ hkh]
  exact ⟨hfree, hdead⟩

theorem Counted.counts_taken (hs : Counted s C (h :: R)) (he : s.entry h = some e) (k : Handle) :
    counted (s.setEntry h (some { e with handles := e.handles - 1 })) k =
      held s.SLOTS.length (outside s C) R k := by
  have hcount := hs.counts k
  rw [held_root] at hcount
  rw [counted_setEntry (entry_lt he)]
  split_ifs with hkh
  · subst hkh
    rw [counted_entry he, List.count_singleton_self] at hcount
    dsimp only
    omega
  · rw [List.count_singleton, if_neg (by simpa using Ne.symm hkh)] at hcount
    omega

/-- One handle is taken from a count, and is no root any more. -/
theorem Counted.take (hs : Counted s C (h :: R)) (he : s.entry h = some e) (hlast : e.handles ≠ 1) :
    Counted (s.setEntry h (some { e with handles := e.handles - 1 })) C R := by
  have hlt := entry_lt he
  obtain ⟨e', he', hC, hpos⟩ := hs.entry List.mem_cons_self
  cases he.symm.trans he'
  refine ⟨fun k => ?_, fun k x hx hk => ?_, fun k hk => ?_, hs.free_nodup,
    fun k hk => hs.free_setEntry he _ hk⟩
  · rw [setEntry_length, outside_recount he]
    exact hs.counts_taken he k
  · rw [entry_setEntry hlt] at hx
    split_ifs at hx with hkh
    · cases hx
      dsimp only
      omega
    · exact hs.live k x hx hk
  · obtain ⟨x, hx, h0⟩ := hs.closing k hk
    have hkh : k ≠ h := fun heq => hC (heq ▸ hk)
    exact ⟨x, by rw [entry_setEntry_ne hlt _ hkh, hx], h0⟩

/-- With the last handle the trees of a slot begin to be dropped. -/
theorem Counted.takeLast (hs : Counted s C (h :: R)) (he : s.entry h = some e)
    (hlast : e.handles = 1) :
    Counted (s.setEntry h (some { e with handles := e.handles - 1 })) (h :: C)
      (handlesOf e.trees ++ R) := by
  have hlt := entry_lt he
  obtain ⟨e', he', hC, hpos⟩ := hs.entry List.mem_cons_self
  cases he.symm.trans he'
  refine ⟨fun k => ?_, fun k x hx hk => ?_, fun k hk => ?_, hs.free_nodup,
    fun k hk => hs.free_setEntry he _ hk⟩
  · have hself : outside s C h = handlesOf e.trees := by
      rw [outside, if_neg hC, handlesIn, treesIn_entry he]
    have hclose : held s.SLOTS.length (outside s (h :: C)) (outside s C h ++ R) k =
        held s.SLOTS.length (outside s C) R k :=
      held_close hlt (fun _ hj => outside_other hj) (if_pos List.mem_cons_self) k
    rw [setEntry_length, outside_recount he, ← hself, hclose]
    exact hs.counts_taken he k
  · have hkh : k ≠ h := fun heq => hk (heq ▸ List.mem_cons_self)
    rw [entry_setEntry_ne hlt _ hkh] at hx
    exact hs.live k x hx fun hmem => hk (List.mem_cons_of_mem h hmem)
  · rcases List.mem_cons.mp hk with rfl | hk
    · exact ⟨_, entry_setEntry_self hlt _, Nat.sub_eq_zero_of_le (Nat.le_of_eq hlast)⟩
    · obtain ⟨x, hx, h0⟩ := hs.closing k hk
      have hkh : k ≠ h := fun heq => hC (heq ▸ hk)
      exact ⟨x, by rw [entry_setEntry_ne hlt _ hkh, hx], h0⟩

/-- Its trees were dropped: the slot is free. -/
theorem Counted.close {s : Store τ} {C R : List Handle} {h : Handle} (hs : Counted s (h :: C) R)
    (hC : h ∉ C) : Counted (close s h) C R := by
  obtain ⟨e, he, h0⟩ := hs.closing h List.mem_cons_self
  have hlt := entry_lt he
  have hentry : ∀ k, (Streams.close s h).entry k = if k = h then none else s.entry k :=
    entry_setEntry hlt none
  refine ⟨fun k => ?_, fun k x hx hk => ?_, fun k hk => ?_, ?_, fun k hk => ?_⟩
  · have hout : outside (Streams.close s h) C = outside s (h :: C) := by
      funext j
      unfold outside
      by_cases hj : j = h
      · subst hj
        rw [if_neg hC, if_pos List.mem_cons_self, handlesIn, treesIn, hentry, if_pos rfl]
        rfl
      · have hsame : handlesIn (Streams.close s h) j = handlesIn s j := by
          rw [handlesIn, handlesIn, treesIn, treesIn, hentry, if_neg hj]
        rw [hsame]
        exact (outside_other hj).symm
    have hcount := hs.counts k
    change counted (Streams.close s h) k = held (s.setEntry h none).SLOTS.length _ _ _
    rw [setEntry_length, hout, ← hcount]
    unfold counted
    rw [hentry]
    split_ifs with hk
    · rw [hk, he, Option.elim_none, Option.elim_some, h0]
    · rfl
  · rw [hentry] at hx
    split_ifs at hx with hkh
    refine hs.live k x hx fun hmem => ?_
    rcases List.mem_cons.mp hmem with heq | hmem
    · exact hkh heq
    · exact hk hmem
  · obtain ⟨x, hx, hx0⟩ := hs.closing k (List.mem_cons_of_mem h hk)
    have hkh : k ≠ h := fun heq => hC (heq ▸ hk)
    exact ⟨x, by rw [hentry, if_neg hkh, hx], hx0⟩
  · refine List.nodup_cons.mpr ⟨fun hmem => ?_, hs.free_nodup⟩
    have hdead := (hs.free_dead h hmem).2
    rw [he] at hdead
    cases hdead
  · change k < (s.setEntry h none).SLOTS.length ∧ _
    rw [setEntry_length, hentry]
    rcases List.mem_cons.mp hk with rfl | hk
    · exact ⟨hlt, if_pos rfl⟩
    · obtain ⟨hfree, hdead⟩ := hs.free_dead k hk
      refine ⟨hfree, ?_⟩
      split_ifs
      · rfl
      · exact hdead

/-! ## 3. Dropping handles -/

/-- Slots are freed and counts go down; nothing else happens. -/
structure Shrunk (s s' : Store τ) : Prop where
  length : s'.SLOTS.length = s.SLOTS.length
  moves : s'.moves = s.moves
  free : s.FREE ⊆ s'.FREE
  entry : ∀ h, s'.entry h = none ∨ ∃ e n, s.entry h = some e ∧ n ≤ e.handles ∧
    s'.entry h = some { e with handles := n }

theorem Shrunk.refl (s : Store τ) : Shrunk s s := by
  refine ⟨rfl, rfl, List.Subset.refl _, fun h => ?_⟩
  cases he : s.entry h with
  | none => exact .inl rfl
  | some e => exact .inr ⟨e, e.handles, rfl, Nat.le_refl _, rfl⟩

theorem Shrunk.trans {s s' s'' : Store τ} (h : Shrunk s s') (h' : Shrunk s' s'') :
    Shrunk s s'' := by
  refine ⟨h'.length.trans h.length, h'.moves.trans h.moves, List.Subset.trans h.free h'.free,
    fun k => ?_⟩
  rcases h'.entry k with hnone | ⟨e, n, he, hn, he'⟩
  · exact .inl hnone
  · rcases h.entry k with hnone | ⟨e₀, n₀, he₀, hn₀, he₀'⟩
    · cases hnone.symm.trans he
    · cases he₀'.symm.trans he
      exact .inr ⟨e₀, n, he₀, Nat.le_trans hn hn₀, he'⟩

theorem Shrunk.recount (he : s.entry h = some e) {n : Nat}
    (hn : n ≤ e.handles) : Shrunk s (s.setEntry h (some { e with handles := n })) := by
  refine ⟨setEntry_length .., rfl, List.Subset.refl _, fun k => ?_⟩
  rw [entry_setEntry (entry_lt he)]
  split_ifs with hk
  · exact .inr ⟨e, n, hk ▸ he, hn, rfl⟩
  · exact (Shrunk.refl s).entry k

theorem Shrunk.close {s : Store τ} {h : Handle} (hlt : h < s.SLOTS.length) :
    Shrunk s (close s h) := by
  refine ⟨setEntry_length .., rfl, List.subset_cons_self h s.FREE, fun k => ?_⟩
  change (s.setEntry h none).entry k = none ∨ ∃ e n, s.entry k = some e ∧ n ≤ e.handles ∧
    (s.setEntry h none).entry k = some { e with handles := n }
  rw [entry_setEntry hlt]
  split_ifs
  · exact .inl rfl
  · exact (Shrunk.refl s).entry k

/-- A round of the recursion, at a handle that is not the last one. -/
theorem dropHandles_shared {s' : Store τ} {r : Handle} (he : s.entry r = some e)
    (hpos : 0 < e.handles) (hlast : e.handles ≠ 1)
    {hle : s'.total ≤ (s.setEntry r (some { e with handles := e.handles - 1 })).total}
    (hrest : dropHandles (s.setEntry r (some { e with handles := e.handles - 1 })) hs =
      .ok ⟨s', hle⟩) :
    ∃ hle', dropHandles s (r :: hs) = .ok ⟨s', hle'⟩ := by
  have htotal : s'.total ≤ s.total := by
    have hset := Store.setEntry_total he (some { e with handles := e.handles - 1 })
    dsimp only [Option.elim_some] at hset
    omega
  refine ⟨htotal, ?_⟩
  rw [dropHandles]
  split
  · next hnone => cases he.symm.trans hnone
  · next e' he' =>
    cases he.symm.trans he'
    rw [dif_neg (Nat.ne_of_gt hpos), if_neg hlast, hrest]
    rfl

/-- A round of it at the last handle. -/
theorem dropHandles_last {s₁ s₂ : Store τ} {r : Handle} (he : s.entry r = some e)
    (hlast : e.handles = 1)
    {hle : s₁.total ≤ (s.setEntry r (some { e with handles := e.handles - 1 })).total}
    (hinside : dropHandles (s.setEntry r (some { e with handles := e.handles - 1 }))
      (handlesOf e.trees) =
      .ok ⟨s₁, hle⟩) {hle₂ : s₂.total ≤ (close s₁ r).total}
    (hrest : dropHandles (close s₁ r) hs = .ok ⟨s₂, hle₂⟩) :
    ∃ hle', dropHandles s (r :: hs) = .ok ⟨s₂, hle'⟩ := by
  have htotal : s₂.total ≤ s.total := by
    have hset := Store.setEntry_total he (some { e with handles := e.handles - 1 })
    have hclose := close_total s₁ r
    dsimp only [Option.elim_some] at hset
    omega
  refine ⟨htotal, ?_⟩
  rw [dropHandles]
  split
  · next hnone => cases he.symm.trans hnone
  · next e' he' =>
    cases he.symm.trans he'
    rw [dif_neg (by omega), if_pos hlast, hinside, Outcome.ok_bind, hrest]
    rfl

/-- Handles are dropped, and with them what nobody has any more. By induction on the handles that
    are counted. -/
theorem dropHandles_counted (h : Counted s C (hs ++ R)) :
    ∃ s' hle, dropHandles s hs = .ok ⟨s', hle⟩ ∧ Counted s' C R ∧ Shrunk s s' := by
  have hall : ∀ (s : Store τ) (C hs R : List Handle), Counted s C (hs ++ R) →
      ∃ s' hle, dropHandles s hs = .ok ⟨s', hle⟩ ∧ Counted s' C R ∧ Shrunk s s' := by
    refine (measure Store.total).wf.fix fun s ih C hs R h => ?_
    cases hs with
    | nil => exact ⟨s, Nat.le_refl _, by rw [dropHandles], h, .refl s⟩
    | cons r hs =>
      obtain ⟨e, he, hC, hpos⟩ := h.entry List.mem_cons_self
      have hless : (s.setEntry r (some { e with handles := e.handles - 1 })).total < s.total := by
        have htotal := Store.setEntry_total he (some { e with handles := e.handles - 1 })
        dsimp only [Option.elim_some] at htotal
        omega
      have hcount := Shrunk.recount he (Nat.sub_le e.handles 1)
      by_cases hlast : e.handles = 1
      · obtain ⟨s₁, hle₁, hinside, hc₁, hsh₁⟩ := ih _ hless _ _ _ (h.takeLast he hlast)
        have hlt₁ : r < s₁.SLOTS.length := by
          rw [hsh₁.length, setEntry_length]
          exact entry_lt he
        have hless₁ := Nat.lt_of_le_of_lt (Nat.le_trans (close_total s₁ r) hle₁) hless
        obtain ⟨s₂, hle₂, hrest, hc₂, hsh₂⟩ := ih _ hless₁ _ _ _ (hc₁.close hC)
        obtain ⟨hle, hrun⟩ := dropHandles_last he hlast hinside hrest
        exact ⟨s₂, hle, hrun, hc₂, hcount.trans (hsh₁.trans ((Shrunk.close hlt₁).trans hsh₂))⟩
      · obtain ⟨s₁, hle₁, hrest, hc₁, hsh₁⟩ := ih _ hless _ _ _ (h.take he hlast)
        obtain ⟨hle, hrun⟩ := dropHandles_shared he hpos hlast hrest
        exact ⟨s₁, hle, hrun, hc₁, hcount.trans hsh₁⟩
  exact hall s C hs R h

/-! ## 4. A store that stands -/

/-- The store is counted, and its slots have the lists that are given. Joins that are kept stand
    with their trees in `J`. -/
structure Stands (J : List (Tree τ) → List UInt8 → Prop) (s : Store τ)
    (value : Handle → List (Value τ)) (roots : List Handle) : Prop where
  counted : Counted s [] roots
  yields : Yields s value
  hidden : ∀ h e, s.entry h = some e → e.hidden = [] ∨ J e.trees e.hidden

/-- The roots `R` have their lists, and the slots that only they have are as they were. -/
structure Kept (s : Store τ) (value : Handle → List (Value τ)) (s' : Store τ)
    (value' : Handle → List (Value τ)) (R : List Handle) : Prop where
  value : ∀ h ∈ R, value' h = value h
  entry : ∀ h e, h ∈ R → s.entry h = some e → e.handles = 1 → s'.entry h = some e

variable {s s' s'' : Store τ} {value value' value'' : Handle → List (Value τ)}
  {R roots : List Handle}
variable {J : List (Tree τ) → List UInt8 → Prop}

theorem Kept.refl (s : Store τ) (value : Handle → List (Value τ)) (R : List Handle) :
    Kept s value s value R := ⟨fun _ _ => rfl, fun _ _ _ he _ => he⟩

theorem Kept.trans (h : Kept s value s' value' R) (h' : Kept s' value' s'' value'' R) :
    Kept s value s'' value'' R :=
  ⟨fun k hk => (h'.value k hk).trans (h.value k hk),
    fun k e hk he h1 => h'.entry k e hk (h.entry k e hk he h1) h1⟩

theorem Kept.mono {R' : List Handle} (h : Kept s value s' value' R) (hsub : R' ⊆ R) :
    Kept s value s' value' R' :=
  ⟨fun k hk => h.value k (hsub hk), fun k e hk => h.entry k e (hsub hk)⟩

theorem Stands.perm {roots' : List Handle} (hs : Stands J s value roots) (h : roots.Perm roots') :
    Stands J s value roots' := { hs with counted := hs.counted.perm h }

theorem outside_nil (s : Store τ) : outside s [] = handlesIn s := by
  funext h
  exact if_neg List.not_mem_nil

theorem Stands.counts (hs : Stands J s value roots) (h : Handle) :
    Streams.counted s h = held s.SLOTS.length (handlesIn s) roots h := by
  rw [hs.counted.counts, outside_nil]

theorem Stands.entry (hs : Stands J s value roots) {h : Handle} (hroot : h ∈ roots) :
    ∃ e, s.entry h = some e ∧ 0 < e.handles := by
  obtain ⟨e, he, -, hpos⟩ := hs.counted.entry hroot
  exact ⟨e, he, hpos⟩

/-- What is in a slot is live. -/
theorem Stands.inside (hs : Stands J s value roots) {h k : Handle} {e : Slot τ}
    (he : s.entry h = some e)
    (hk : k ∈ handlesOf e.trees) : 0 < Streams.counted s k := by
  rw [hs.counts]
  refine slot_held (entry_lt he) ?_
  rwa [handlesIn, treesIn_entry he]

/-- A free slot has no handle. -/
theorem Stands.free (hs : Stands J s value roots) (hnone : s.entry h = none) :
    h ∉ roots ∧ ∀ k e, s.entry k = some e → h ∉ handlesOf e.trees := by
  have hzero : Streams.counted s h = 0 := by rw [Streams.counted, hnone, Option.elim_none]
  refine ⟨fun hroot => ?_, fun k e he hk => ?_⟩
  · obtain ⟨e, he, -⟩ := hs.entry hroot
    cases hnone.symm.trans he
  · have hpos := hs.inside he hk
    omega

/-- What is only the root's is nowhere else. -/
theorem Stands.sole (hs : Stands J s value (h :: R)) (he : s.entry h = some e)
    (hone : e.handles = 1) : h ∉ R ∧ ∀ k e, s.entry k = some e → h ∉ handlesOf e.trees := by
  have hcount := hs.counts h
  rw [counted_entry he, hone] at hcount
  obtain ⟨hR, hslots⟩ := held_once hcount.symm
  refine ⟨hR, fun k x hx hmem => hslots k (entry_lt hx) ?_⟩
  rwa [handlesIn, treesIn_entry hx]

theorem denote_congr {t : Tree τ} (h : ∀ k ∈ t.handles, value' k = value k) :
    denote value' t = denote value t := by
  cases t with
  | token t => rfl
  | group delimiter stream fragment =>
    cases stream with
    | none => rfl
    | some k =>
      have hk : value' k = value k := h k (List.mem_singleton.mpr rfl)
      rw [denote, denote, content, content, Option.elim_some, Option.elim_some, hk]

theorem map_denote_congr {ts : List (Tree τ)} (h : ∀ k ∈ handlesOf ts, value' k = value k) :
    ts.map (denote value') = ts.map (denote value) :=
  List.map_congr_left fun t ht => denote_congr fun k hk => h k (List.mem_flatMap.mpr ⟨t, ht, hk⟩)

/-! ## 5. Handles that are dropped or cloned -/

theorem dropHandles_stands (hs : List Handle) (h : Stands J s value (hs ++ R)) :
    ∃ s' hle, dropHandles s hs = .ok ⟨s', hle⟩ ∧ Stands J s' value R ∧ Kept s value s' value R ∧
      Shrunk s s' := by
  obtain ⟨s', hle, hrun, hcounted, hshrunk⟩ := dropHandles_counted h.counted
  have hsame : ∀ k e', s'.entry k = some e' →
      ∃ e, s.entry k = some e ∧ e'.handles ≤ e.handles ∧ e'.trees = e.trees ∧
        e'.hidden = e.hidden := by
    intro k e' he'
    rcases hshrunk.entry k with hnone | ⟨e, n, he, hn, hset⟩
    · cases hnone.symm.trans he'
    · cases hset.symm.trans he'
      exact ⟨e, he, hn, rfl, rfl⟩
  refine ⟨s', hle, hrun, ⟨hcounted, fun k e' he' => ?_, fun k e' he' => ?_⟩,
    ⟨fun _ _ => rfl, fun k e hk he hone => ?_⟩, hshrunk⟩
  · obtain ⟨e, he, -, htrees, -⟩ := hsame k e' he'
    rw [htrees]
    exact h.yields k e he
  · obtain ⟨e, he, -, htrees, hhidden⟩ := hsame k e' he'
    rw [htrees, hhidden]
    exact h.hidden k e he
  · obtain ⟨e', he', -, hpos⟩ := hcounted.entry hk
    obtain ⟨e₀, he₀, hn, htrees, hhidden⟩ := hsame k e' he'
    cases he.symm.trans he₀
    have hcount : e'.handles = e.handles := by omega
    obtain ⟨ts, hidden, n⟩ := e
    obtain ⟨ts', hidden', n'⟩ := e'
    dsimp only at htrees hhidden hcount
    rw [he', htrees, hhidden, hcount]

/-- One handle is counted and becomes a root. -/
theorem Stands.give (hs : Stands J s value roots) (he : s.entry h = some e) :
    Stands J (s.setEntry h (some { e with handles := e.handles + 1 })) value (h :: roots) := by
  have hlt := entry_lt he
  refine ⟨⟨fun k => ?_, fun k x hx hk => ?_, fun k hk => absurd hk List.not_mem_nil,
    hs.counted.free_nodup, fun k hk => ?_⟩, fun k x hx => ?_, fun k x hx => ?_⟩
  · have hcount := hs.counted.counts k
    rw [counted_setEntry hlt, setEntry_length, outside_recount he, held_root]
    split_ifs with hkh
    · subst hkh
      rw [counted_entry he] at hcount
      rw [List.count_singleton_self, ← hcount, Nat.add_comm]
    · rw [List.count_singleton, if_neg (by simpa using Ne.symm hkh), ← hcount, Nat.zero_add]
  · rw [entry_setEntry hlt] at hx
    split_ifs at hx with hkh
    · cases hx
      exact Nat.succ_pos _
    · exact hs.counted.live k x hx hk
  · exact hs.counted.free_setEntry he _ hk
  · rw [entry_setEntry hlt] at hx
    split_ifs at hx with hkh
    · cases hx
      exact hs.yields k e (hkh ▸ he)
    · exact hs.yields k x hx
  · rw [entry_setEntry hlt] at hx
    split_ifs at hx with hkh
    · cases hx
      exact hs.hidden k e (hkh ▸ he)
    · exact hs.hidden k x hx

/-- The counts of handles go up. -/
structure Cloned (s s' : Store τ) (hs : List Handle) : Prop where
  length : s'.SLOTS.length = s.SLOTS.length
  moves : s'.moves = s.moves
  free : s'.FREE = s.FREE
  entry : ∀ h, s'.entry h = (s.entry h).map fun e => { e with handles := e.handles + hs.count h }

theorem cloneHandles_stands (h : Stands J s value roots) (hlive : ∀ k ∈ hs, 0 < counted s k)
    (hroom : ∀ k, counted s k + hs.count k < 2 ^ 32) :
    ∃ s', cloneHandles s hs = .ok s' ∧ Stands J s' value (hs ++ roots) ∧ Cloned s s' hs := by
  induction hs generalizing s roots with
  | nil =>
    refine ⟨s, rfl, h, rfl, rfl, rfl, fun k => ?_⟩
    cases s.entry k <;> rfl
  | cons r hs ih =>
    obtain ⟨e, he, hcount⟩ := entry_of_counted (hlive r List.mem_cons_self)
    have hlt := entry_lt he
    have hnew : ∀ k, counted (s.setEntry r (some { e with handles := e.handles + 1 })) k =
        counted s k + [r].count k := by
      intro k
      rw [counted_setEntry hlt, List.count_singleton]
      split_ifs with hk hk' hk'
      · rw [hk, hcount]
      · exact absurd (beq_iff_eq.mpr hk.symm) hk'
      · exact absurd (beq_iff_eq.mp hk').symm hk
      · rfl
    have hmore : ∀ k, (r :: hs).count k = [r].count k + hs.count k := fun k => by
      rw [← List.count_append, List.singleton_append]
    obtain ⟨s', hrun, hstands, hcloned⟩ := ih (h.give he)
      (fun k hk => by
        have hpos := hlive k (List.mem_cons_of_mem r hk)
        rw [hnew]
        omega)
      (fun k => by
        have hk := hroom k
        rw [hmore] at hk
        rw [hnew]
        omega)
    refine ⟨s', ?_, hstands.perm List.perm_middle, hcloned.length.trans (setEntry_length ..),
      hcloned.moves, hcloned.free, fun k => ?_⟩
    · have hr := hroom r
      rw [hmore, List.count_singleton_self, hcount] at hr
      rw [cloneHandles, slot_entry he, Outcome.ok_bind, if_pos (by omega)]
      exact hrun
    · rw [hcloned.entry, entry_setEntry hlt, hmore, List.count_singleton]
      split_ifs with hk hk' hk'
      · rw [hk, he, Option.map_some, Option.map_some, Nat.add_assoc]
      · exact absurd (beq_iff_eq.mpr hk.symm) hk'
      · exact absurd (beq_iff_eq.mp hk').symm hk
      · rw [Nat.zero_add]

end Trustme.ProcMacro.Streams
