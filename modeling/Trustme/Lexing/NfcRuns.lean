/-
  Subject:   `unicodeNormaliseNfc` gives normal form C.

  * `FromUnicode`: what the generated tables have from the Unicode data, beside their order;
  * `decomposeInto_spec`, `orderCanonically_eq`: decomposition and order are those of UAX #15;
  * `composeFrom_steps`: the loop in place composes as UAX #15 does: by induction on what is left;
  * `steps_order`, `nfc_nfd`: what is composed decomposes to what it was.
-/
import Mathlib.Data.List.TakeWhile
import Trustme.Lexing.NfcForm
import Trustme.Lexing.UnicodeNfc

namespace Trustme.Lexing.Nfc

open Trustme.Lib.MarkOrder

/-! ## 1. What the tables have from the Unicode data -/

/-- A syllable. -/
abbrev IsSyllable (c : Nat) : Prop := HANGUL_S_BASE ≤ c ∧ c < HANGUL_S_BASE + HANGUL_S_COUNT

/-- A letter that syllables are made of. -/
def IsJamo (c : Nat) : Prop :=
  (HANGUL_L_BASE ≤ c ∧ c < HANGUL_L_BASE + HANGUL_L_COUNT) ∨
    (HANGUL_V_BASE ≤ c ∧ c < HANGUL_V_BASE + HANGUL_V_COUNT) ∨
    (HANGUL_T_BASE < c ∧ c < HANGUL_T_BASE + HANGUL_T_COUNT)

/-- The generator takes the tables from the Unicode data: it leaves Hangul out, and puts the pairs
    back together that are not excluded from composition, as those with a mark are. ASCII is in no
    table but as a part. -/
structure FromUnicode (T : Tables) (excluded : Nat → Prop) : Prop where
  inverse : ∀ a b p, ⟨a, b, p⟩ ∈ T.COMPOSITIONS ↔
    ⟨p, a, b⟩ ∈ T.DECOMPOSITIONS ∧ b ≠ 0 ∧ ¬ excluded p
  starters : ∀ e ∈ T.COMPOSITIONS, T.combiningClass e.first = 0 ∧ T.combiningClass e.composed = 0
  hangul : ∀ c, IsSyllable c ∨ IsJamo c → T.combiningClass c = 0 ∧ T.decompositionOf c = none
  hangul_first : ∀ e ∈ T.DECOMPOSITIONS, ¬ IsSyllable e.first ∧ ¬ IsJamo e.first
  not_excluded : ∀ c, IsSyllable c → ¬ excluded c
  ascii : ∀ c, c < 0x80 → T.combiningClass c = 0 ∧ T.decompositionOf c = none
  ascii_pair : ∀ e ∈ T.COMPOSITIONS, ¬ (e.first < 0x80 ∧ e.second < 0x80)
  scalars : ∀ e ∈ T.DECOMPOSITIONS,
    e.codepoint.isValidChar ∧ e.first.isValidChar ∧ e.second.isValidChar

namespace Tables

variable (T : Tables)

/-- The canonical mapping: that of a syllable with a trailing letter has the syllable without it. -/
def mapping (c : Nat) : List Nat :=
  if HANGUL_S_BASE ≤ c ∧ c < HANGUL_S_BASE + HANGUL_S_COUNT then
    let index := c - HANGUL_S_BASE
    if index % HANGUL_T_COUNT ≠ 0 then
      [c - index % HANGUL_T_COUNT, HANGUL_T_BASE + index % HANGUL_T_COUNT]
    else
      [HANGUL_L_BASE + index / HANGUL_N_COUNT,
        HANGUL_V_BASE + index % HANGUL_N_COUNT / HANGUL_T_COUNT]
  else
    match T.decompositionOf c with
    | some e => if e.second ≠ 0 then [e.first, e.second] else [e.first]
    | none => []

/-- The data behind the tables. -/
def data (excluded : Nat → Prop) : UnicodeData where
  ccc := T.combiningClass
  mapping := T.mapping
  excluded := excluded

/-! ## 2. Decomposition -/

variable {T} {excluded : Nat → Prop}

variable {c a b p : Nat}

theorem mapping_jamo (hT : FromUnicode T excluded) (h : IsJamo c) : T.mapping c = [] := by
  have hs : ¬ (HANGUL_S_BASE ≤ c ∧ c < HANGUL_S_BASE + HANGUL_S_COUNT) := by
    simp only [IsJamo, HANGUL_L_BASE, HANGUL_L_COUNT, HANGUL_V_BASE, HANGUL_V_COUNT, HANGUL_T_BASE,
      HANGUL_T_COUNT] at h
    simp only [HANGUL_S_BASE]
    omega
  rw [mapping, if_neg hs, (hT.hangul c (.inr h)).2]

theorem jamo_decomposes (hT : FromUnicode T excluded) (h : IsJamo c) :
    (T.data excluded).Decomposes c [c] := .whole (mapping_jamo hT h)

/-- A syllable without a trailing letter. -/
theorem pair_mapping (h : IsSyllable c) (ht : (c - HANGUL_S_BASE) % HANGUL_T_COUNT = 0) :
    T.mapping c = [HANGUL_L_BASE + (c - HANGUL_S_BASE) / HANGUL_N_COUNT,
      HANGUL_V_BASE + (c - HANGUL_S_BASE) % HANGUL_N_COUNT / HANGUL_T_COUNT] := by
  rw [mapping, if_pos h]
  exact if_neg (not_not.mpr ht)

theorem triple_mapping (h : IsSyllable c) (ht : (c - HANGUL_S_BASE) % HANGUL_T_COUNT ≠ 0) :
    T.mapping c = [c - (c - HANGUL_S_BASE) % HANGUL_T_COUNT,
      HANGUL_T_BASE + (c - HANGUL_S_BASE) % HANGUL_T_COUNT] := by
  rw [mapping, if_pos h]
  exact if_pos ht

theorem leading_jamo (h : IsSyllable c) :
    IsJamo (HANGUL_L_BASE + (c - HANGUL_S_BASE) / HANGUL_N_COUNT) := by
  refine .inl ⟨Nat.le_add_right .., ?_⟩
  unfold IsSyllable at h
  simp only [HANGUL_S_BASE, HANGUL_S_COUNT, HANGUL_L_COUNT, HANGUL_N_COUNT, HANGUL_V_COUNT,
    HANGUL_T_COUNT, HANGUL_L_BASE] at h ⊢
  omega

theorem vowel_jamo (i : Nat) : IsJamo (HANGUL_V_BASE + i % HANGUL_N_COUNT / HANGUL_T_COUNT) := by
  refine .inr (.inl ⟨Nat.le_add_right .., ?_⟩)
  simp only [HANGUL_N_COUNT, HANGUL_V_COUNT, HANGUL_T_COUNT, HANGUL_V_BASE]
  omega

theorem trailing_jamo {i : Nat} (h : i % HANGUL_T_COUNT ≠ 0) :
    IsJamo (HANGUL_T_BASE + i % HANGUL_T_COUNT) := by
  refine .inr (.inr ⟨by omega, ?_⟩)
  simp only [HANGUL_T_COUNT, HANGUL_T_BASE]
  omega

theorem letters_decompose (hT : FromUnicode T excluded) (h : T.mapping c = [a, b]) (ha : IsJamo a)
    (hb : IsJamo b) : (T.data excluded).Decomposes c [a, b] :=
  .pair h (jamo_decomposes hT ha) (jamo_decomposes hT hb)

/-- A syllable is its letters. -/
theorem syllable_decomposes (hT : FromUnicode T excluded) (h : IsSyllable c) :
    (T.data excluded).Decomposes c (T.decomposeInto c) := by
  rw [decomposeInto, if_pos h]
  dsimp only
  by_cases ht : (c - HANGUL_S_BASE) % HANGUL_T_COUNT = 0
  · rw [if_neg (not_not.mpr ht), List.append_nil]
    exact letters_decompose hT (pair_mapping h ht) (leading_jamo h) (vowel_jamo _)
  · -- the syllable without its trailing letter has the same two
    have hpair : IsSyllable (c - (c - HANGUL_S_BASE) % HANGUL_T_COUNT) ∧
        (c - (c - HANGUL_S_BASE) % HANGUL_T_COUNT - HANGUL_S_BASE) % HANGUL_T_COUNT = 0 ∧
        (c - (c - HANGUL_S_BASE) % HANGUL_T_COUNT - HANGUL_S_BASE) / HANGUL_N_COUNT =
          (c - HANGUL_S_BASE) / HANGUL_N_COUNT ∧
        (c - (c - HANGUL_S_BASE) % HANGUL_T_COUNT - HANGUL_S_BASE) % HANGUL_N_COUNT /
          HANGUL_T_COUNT =
          (c - HANGUL_S_BASE) % HANGUL_N_COUNT / HANGUL_T_COUNT := by
      unfold IsSyllable at h ⊢
      simp only [HANGUL_S_BASE, HANGUL_S_COUNT, HANGUL_L_COUNT, HANGUL_N_COUNT, HANGUL_V_COUNT,
        HANGUL_T_COUNT] at h ⊢
      omega
    obtain ⟨hs, h0, hl, hv⟩ := hpair
    have hfirst := pair_mapping (T := T) hs h0
    rw [hl, hv] at hfirst
    rw [if_pos ht]
    exact .pair (triple_mapping h ht)
      (letters_decompose hT hfirst (leading_jamo h) (vowel_jamo _))
        (jamo_decomposes hT (trailing_jamo ht))

theorem decomposeInto_entry {entry : UnicodeDecomposition} (h : ¬ IsSyllable c)
    (he : T.decompositionOf c = some entry) :
    T.decomposeInto c = T.decomposeInto entry.first ++
      if entry.second ≠ 0 then T.decomposeInto entry.second else [] := by
  rw [decomposeInto, if_neg h]
  split
  · next e he' =>
    cases he.symm.trans he'
    rfl
  · next he' => cases he.symm.trans he'

theorem decomposeInto_whole (h : ¬ IsSyllable c) (he : T.decompositionOf c = none) :
    T.decomposeInto c = [c] := by
  rw [decomposeInto, if_neg h]
  split
  · next e he' => cases he.symm.trans he'
  · rfl

theorem mapping_entry {entry : UnicodeDecomposition} (h : ¬ IsSyllable c)
    (he : T.decompositionOf c = some entry) :
    T.mapping c = if entry.second ≠ 0 then [entry.first, entry.second] else [entry.first] := by
  rw [mapping, if_neg h, he]

/-- By induction on the way down the table. -/
theorem decomposeInto_spec (hT : FromUnicode T excluded) (c : Nat) :
    (T.data excluded).Decomposes c (T.decomposeInto c) := by
  induction c using decomposeInto.induct T with
  | case1 c h => exact syllable_decomposes hT h
  | case2 c h entry he ih1 ih2 =>
    have hmap := mapping_entry h he
    rw [decomposeInto_entry h he]
    by_cases h2 : entry.second = 0
    · rw [if_neg (not_not.mpr h2)] at hmap ⊢
      rw [List.append_nil]
      exact .single hmap ih1
    · rw [if_pos h2] at hmap ⊢
      exact .pair hmap ih1 (ih2 h2)
  | case3 c h hnone =>
    have hmap : T.mapping c = [] := by rw [mapping, if_neg h, hnone]
    rw [decomposeInto_whole h hnone]
    exact .whole hmap

/-- The whole text. -/
theorem text_decomposes (hT : FromUnicode T excluded) (text : List Nat) :
    List.Forall₂ (T.data excluded).Decomposes text (text.map T.decomposeInto) := by
  induction text with
  | nil => exact .nil
  | cons c text ih => exact .cons (decomposeInto_spec hT c) ih

/-! ## 3. Order -/

/-- The inner loop inserts the character at `j` into the text before it. -/
theorem sift_eq (hc : 0 < T.combiningClass c) (l r : List Nat) :
    T.sift (T.combiningClass c) (l.reverse ++ c :: r) l.length =
      (put T.combiningClass c l).reverse ++ r := by
  induction l generalizing r with
  | nil => rfl
  | cons b l ih =>
    have htext : (b :: l).reverse ++ c :: r = l.reverse ++ b :: c :: r := by
      rw [List.reverse_cons, List.append_assoc, List.singleton_append]
    have hb : (l.reverse ++ b :: c :: r).getD l.length 0 = b := by
      rw [List.getD_append_right _ _ _ _ (by rw [List.length_reverse]), List.length_reverse,
        Nat.sub_self, List.getD_cons_zero]
    have hnext : (l.reverse ++ b :: c :: r).getD (l.length + 1) 0 = c := by
      rw [List.getD_append_right _ _ _ _ (by rw [List.length_reverse]; omega), List.length_reverse,
        Nat.add_sub_cancel_left, List.getD_cons_succ, List.getD_cons_zero]
    have hswap : ((l.reverse ++ b :: c :: r).set l.length c).set (l.length + 1) b =
        l.reverse ++ c :: b :: r := by
      rw [List.set_append_right _ _ (by rw [List.length_reverse]), List.length_reverse,
        Nat.sub_self,
        List.set_cons_zero, List.set_append_right _ _ (by rw [List.length_reverse]; omega),
        List.length_reverse, Nat.add_sub_cancel_left, List.set_cons_succ, List.set_cons_zero]
    rw [htext, List.length_cons, sift, hb, hnext, hswap]
    unfold put
    by_cases hlt : T.combiningClass c < T.combiningClass b
    · rw [if_neg (by omega), if_pos ⟨hc, hlt⟩, ih, List.reverse_cons, List.append_assoc,
        List.singleton_append]
    · rw [if_pos (by omega), if_neg (by omega), List.reverse_cons, List.append_assoc,
        List.singleton_append, htext]

theorem orderAt_eq (c : Nat) (l r : List Nat) :
    T.orderAt (l.reverse ++ c :: r) l.length = (put T.combiningClass c l).reverse ++ r := by
  have hc : (l.reverse ++ c :: r).getD l.length 0 = c := by
    rw [List.getD_append_right _ _ _ _ (by rw [List.length_reverse]), List.length_reverse,
      Nat.sub_self, List.getD_cons_zero]
  unfold orderAt
  rw [hc]
  dsimp only
  split_ifs with h0
  · have hput : put T.combiningClass c l = c :: l := by
      cases l with
      | nil => rfl
      | cons b l => exact if_neg (by omega)
    rw [hput, List.reverse_cons, List.append_assoc, List.singleton_append]
  · exact sift_eq (by omega) l r

theorem put_length {α : Type} (cls : α → Nat) (c : α) (l : List α) :
    (put cls c l).length = l.length + 1 := by
  induction l with
  | nil => rfl
  | cons b l ih =>
    unfold put
    split_ifs
    · rw [List.length_cons, ih, List.length_cons]
    · rfl

/-- The loop from a place on: what is before it is in order. -/
theorem orderAt_fold (l r : List Nat) :
    (List.range' l.length r.length).foldl T.orderAt (l.reverse ++ r) =
      (r.foldl (fun l c => put T.combiningClass c l) l).reverse := by
  induction r generalizing l with
  | nil => rw [List.append_nil]; rfl
  | cons c r ih =>
    have hnext := ih (put T.combiningClass c l)
    rw [put_length] at hnext
    rw [List.length_cons, List.range'_succ, List.foldl_cons, orderAt_eq, hnext, List.foldl_cons]

theorem orderCanonically_eq (text : List Nat) :
    T.orderCanonically text = order T.combiningClass text := by
  cases text with
  | nil => rfl
  | cons c text => exact orderAt_fold [c] text

/-! ## 4. Pairs -/

/-- In a sorted table an entry is where the search ends. -/
theorem decompositionOf_entry {e : UnicodeDecomposition} (h : e ∈ T.DECOMPOSITIONS) :
    T.decompositionOf e.codepoint = some e := by
  obtain ⟨l, r, hl⟩ := List.append_of_mem h
  have hsorted := T.decompositions_sorted
  rw [hl] at hsorted
  have hless : ∀ x ∈ l, decide (x.codepoint < e.codepoint) = true := fun x hx =>
    decide_eq_true ((List.pairwise_append.mp hsorted).2.2 x hx e List.mem_cons_self)
  have hfound : lowerBound (·.codepoint < e.codepoint) T.DECOMPOSITIONS = e :: r := by
    rw [lowerBound, hl, List.dropWhile_append_of_pos hless]
    exact List.dropWhile_cons_of_neg (by rw [decide_eq_true_eq]; exact Nat.lt_irrefl _)
  rw [decompositionOf, hfound]
  exact if_pos rfl

theorem composedFrom_mem {l : List UnicodeComposition} (h : composedFrom a b l ≠ 0) :
    ⟨a, b, composedFrom a b l⟩ ∈ l := by
  induction l with
  | nil => exact absurd rfl h
  | cons e l ih =>
    unfold composedFrom at h ⊢
    split_ifs at h ⊢ with h1 h2
    · exact absurd rfl h
    · obtain rfl : e.first = a := not_not.mp h1
      subst h2
      exact List.mem_cons_self
    · exact List.mem_cons_of_mem e (ih h)

theorem composedFrom_entry {e : UnicodeComposition} {l : List UnicodeComposition} (h : e ∈ l)
    (hl : l.Pairwise fun a b => a.first < b.first ∨ a.first = b.first ∧ a.second < b.second)
    (hge : ∀ x ∈ l, e.first ≤ x.first) : composedFrom e.first e.second l = e.composed := by
  induction l with
  | nil => cases h
  | cons x l ih =>
    obtain ⟨hx, hl⟩ := List.pairwise_cons.mp hl
    unfold composedFrom
    rcases List.mem_cons.mp h with rfl | h
    · rw [if_neg (not_not.mpr rfl), if_pos rfl]
    · -- what is in front of the entry has a lower second codepoint
      have hfirst := hge x List.mem_cons_self
      have hlt := hx e h
      rw [if_neg (by omega), if_neg (by omega)]
      exact ih h hl fun y hy => hge y (List.mem_cons_of_mem x hy)

/-- The entries that the search finds, all those of the first codepoint among them. -/
theorem lowerBound_entry {e : UnicodeComposition} (h : e ∈ T.COMPOSITIONS) :
    composedFrom e.first e.second (lowerBound (·.first < e.first) T.COMPOSITIONS) = e.composed := by
  have hsub : (lowerBound (·.first < e.first) T.COMPOSITIONS).Sublist T.COMPOSITIONS :=
    List.dropWhile_sublist _
  have hsorted := T.compositions_sorted.sublist hsub
  have hmem : e ∈ lowerBound (·.first < e.first) T.COMPOSITIONS := by
    have hsplit := List.takeWhile_append_dropWhile
      (p := (fun x : UnicodeComposition => decide (x.first < e.first)))
      (l := T.COMPOSITIONS)
    rw [← hsplit] at h
    rcases List.mem_append.mp h with h | h
    · have hlt := List.mem_takeWhile_imp h
      simp only [decide_eq_true_eq] at hlt
      omega
    · exact h
  refine composedFrom_entry hmem hsorted fun x hx => ?_
  cases hb : lowerBound (·.first < e.first) T.COMPOSITIONS with
  | nil =>
    rw [hb] at hx
    cases hx
  | cons y l =>
    have hy : e.first ≤ y.first := by
      have hhead := List.head?_dropWhile_not (fun x : UnicodeComposition =>
        decide (x.first < e.first))
        T.COMPOSITIONS
      rw [show T.COMPOSITIONS.dropWhile _ = y :: l from hb] at hhead
      exact Nat.le_of_not_lt (of_decide_eq_false hhead)
    rw [hb] at hx hsorted
    rcases List.mem_cons.mp hx with rfl | hx
    · exact hy
    · have hle := (List.pairwise_cons.mp hsorted).1 x hx
      omega

theorem leading_vowel (ha : HANGUL_L_BASE ≤ a ∧ a < HANGUL_L_BASE + HANGUL_L_COUNT)
    (hb : HANGUL_V_BASE ≤ b ∧ b < HANGUL_V_BASE + HANGUL_V_COUNT) :
    T.composedPair a b =
      HANGUL_S_BASE + ((a - HANGUL_L_BASE) * HANGUL_V_COUNT + (b - HANGUL_V_BASE)) *
        HANGUL_T_COUNT :=
  if_pos ⟨ha.1, ha.2, hb.1, hb.2⟩

theorem pair_trailing (ha : IsSyllable a) (ha' : (a - HANGUL_S_BASE) % HANGUL_T_COUNT = 0)
    (hb : HANGUL_T_BASE < b ∧ b < HANGUL_T_BASE + HANGUL_T_COUNT) :
    T.composedPair a b = a + (b - HANGUL_T_BASE) := by
  have hl : ¬ (HANGUL_L_BASE ≤ a ∧ a < HANGUL_L_BASE + HANGUL_L_COUNT ∧ HANGUL_V_BASE ≤ b ∧
      b < HANGUL_V_BASE + HANGUL_V_COUNT) := by
    simp only [IsSyllable, HANGUL_S_BASE, HANGUL_L_BASE, HANGUL_L_COUNT] at ha ⊢
    omega
  rw [composedPair, if_neg hl]
  exact if_pos ⟨ha.1, ha.2, ha', hb.1, hb.2⟩

theorem pair_table (ha : ¬ IsSyllable a ∧ ¬ IsJamo a) :
    T.composedPair a b = composedFrom a b (lowerBound (·.first < a) T.COMPOSITIONS) := by
  rw [composedPair, if_neg fun h => ha.2 (.inl ⟨h.1, h.2.1⟩), if_neg fun h => ha.1 ⟨h.1, h.2.1⟩]

/-- A syllable is put together from the pair that its mapping is. -/
theorem composedPair_syllable (hp : IsSyllable p) (hm : T.mapping p = [a, b]) :
    T.composedPair a b = p := by
  have hp' := hp
  simp only [IsSyllable, HANGUL_S_BASE, HANGUL_S_COUNT, HANGUL_L_COUNT, HANGUL_N_COUNT,
    HANGUL_V_COUNT, HANGUL_T_COUNT] at hp'
  by_cases ht : (p - HANGUL_S_BASE) % HANGUL_T_COUNT = 0
  · rw [pair_mapping hp ht] at hm
    cases hm
    rw [leading_vowel]
    · simp only [HANGUL_S_BASE, HANGUL_T_COUNT, HANGUL_L_BASE, HANGUL_N_COUNT, HANGUL_V_COUNT,
        HANGUL_V_BASE] at ht ⊢
      omega
    · simp only [HANGUL_S_BASE, HANGUL_T_COUNT, HANGUL_L_BASE, HANGUL_N_COUNT, HANGUL_V_COUNT,
        HANGUL_L_COUNT]
      omega
    · simp only [HANGUL_V_BASE, HANGUL_T_COUNT, HANGUL_N_COUNT, HANGUL_V_COUNT]
      omega
  · rw [triple_mapping hp ht, List.cons.injEq, List.cons.injEq] at hm
    obtain ⟨rfl, rfl, -⟩ := hm
    simp only [HANGUL_S_BASE, HANGUL_T_COUNT] at ht
    rw [pair_trailing]
    · simp only [HANGUL_S_BASE, HANGUL_T_COUNT, HANGUL_T_BASE]
      omega
    · simp only [IsSyllable, HANGUL_S_BASE, HANGUL_S_COUNT, HANGUL_L_COUNT, HANGUL_N_COUNT,
        HANGUL_V_COUNT, HANGUL_T_COUNT]
      omega
    · simp only [HANGUL_S_BASE, HANGUL_T_COUNT]
      omega
    · simp only [HANGUL_S_BASE, HANGUL_T_COUNT, HANGUL_T_BASE]
      omega

theorem composedPair_of_primary (hT : FromUnicode T excluded)
    (h : (T.data excluded).Primary a b p) : T.composedPair a b = p ∧ p ≠ 0 := by
  obtain ⟨hm, hx⟩ := h
  change T.mapping p = [a, b] at hm
  by_cases hp : IsSyllable p
  · refine ⟨composedPair_syllable hp hm, ?_⟩
    have hle := hp.1
    simp only [HANGUL_S_BASE] at hle
    omega
  · cases he : T.decompositionOf p with
    | none =>
      rw [mapping, if_neg hp, he] at hm
      cases hm
    | some e =>
      rw [mapping_entry hp he] at hm
      obtain ⟨hmem, rfl⟩ := decompositionOf_mem he
      split_ifs at hm with h2
      · cases hm
        have hcomp := (hT.inverse e.first e.second e.codepoint).mpr ⟨hmem, h2, hx⟩
        refine ⟨?_, ?_⟩
        · rw [pair_table (hT.hangul_first e hmem)]
          exact lowerBound_entry hcomp
        · intro h0
          rw [h0, (hT.ascii 0 (by decide)).2] at he
          cases he
      · cases hm

theorem primary_of_composedPair (hT : FromUnicode T excluded)
    (h : T.composedPair a b ≠ 0) : (T.data excluded).Primary a b (T.composedPair a b) := by
  by_cases hl : HANGUL_L_BASE ≤ a ∧ a < HANGUL_L_BASE + HANGUL_L_COUNT ∧ HANGUL_V_BASE ≤ b ∧
      b < HANGUL_V_BASE + HANGUL_V_COUNT
  · have hdef := leading_vowel (T := T) ⟨hl.1, hl.2.1⟩ hl.2.2
    generalize T.composedPair a b = p at hdef h ⊢
    simp only [HANGUL_S_BASE, HANGUL_T_COUNT, HANGUL_L_BASE, HANGUL_L_COUNT, HANGUL_V_BASE,
      HANGUL_V_COUNT] at hl hdef
    have hp : IsSyllable p := by
      simp only [IsSyllable, HANGUL_S_BASE, HANGUL_S_COUNT, HANGUL_L_COUNT, HANGUL_N_COUNT,
        HANGUL_V_COUNT, HANGUL_T_COUNT]
      omega
    have hm : T.mapping p = [a, b] := by
      rw [pair_mapping hp (by simp only [HANGUL_S_BASE, HANGUL_T_COUNT]; omega), List.cons.injEq,
        List.cons.injEq]
      simp only [HANGUL_S_BASE, HANGUL_L_BASE, HANGUL_V_BASE, HANGUL_N_COUNT, HANGUL_V_COUNT,
        HANGUL_T_COUNT, and_true]
      omega
    exact ⟨hm, hT.not_excluded p hp⟩
  by_cases hs : HANGUL_S_BASE ≤ a ∧ a < HANGUL_S_BASE + HANGUL_S_COUNT ∧
      (a - HANGUL_S_BASE) % HANGUL_T_COUNT = 0 ∧ HANGUL_T_BASE < b ∧
        b < HANGUL_T_BASE + HANGUL_T_COUNT
  · have hdef := pair_trailing (T := T) ⟨hs.1, hs.2.1⟩ hs.2.2.1 hs.2.2.2
    generalize T.composedPair a b = p at hdef h ⊢
    simp only [HANGUL_S_BASE, HANGUL_S_COUNT, HANGUL_L_COUNT, HANGUL_N_COUNT, HANGUL_V_COUNT,
      HANGUL_T_COUNT, HANGUL_T_BASE] at hs hdef
    have hp : IsSyllable p := by
      simp only [IsSyllable, HANGUL_S_BASE, HANGUL_S_COUNT, HANGUL_L_COUNT, HANGUL_N_COUNT,
        HANGUL_V_COUNT, HANGUL_T_COUNT]
      omega
    have hm : T.mapping p = [a, b] := by
      rw [triple_mapping hp (by simp only [HANGUL_S_BASE, HANGUL_T_COUNT]; omega), List.cons.injEq,
        List.cons.injEq]
      simp only [HANGUL_S_BASE, HANGUL_T_COUNT, HANGUL_T_BASE, and_true]
      omega
    exact ⟨hm, hT.not_excluded p hp⟩
  · rw [composedPair, if_neg hl, if_neg hs] at h ⊢
    have hmem : ⟨a, b, composedFrom a b (lowerBound (·.first < a) T.COMPOSITIONS)⟩ ∈
      T.COMPOSITIONS :=
      (List.dropWhile_sublist _).subset (composedFrom_mem h)
    obtain ⟨hdec, h2, hx⟩ := (hT.inverse _ _ _).mp hmem
    have he := decompositionOf_entry hdec
    refine ⟨?_, hx⟩
    have hp : ¬ IsSyllable (composedFrom a b (lowerBound (·.first < a) T.COMPOSITIONS)) := by
      intro hp
      rw [(hT.hangul _ (.inl hp)).2] at he
      cases he
    exact (mapping_entry hp he).trans (if_pos h2)

/-- A pair that is composed begins with a starter, and is one. -/
theorem composedPair_starters (hT : FromUnicode T excluded) (h : T.composedPair a b ≠ 0) :
    T.combiningClass a = 0 ∧ T.combiningClass (T.composedPair a b) = 0 := by
  obtain ⟨hm, hx⟩ := primary_of_composedPair hT h
  change T.mapping (T.composedPair a b) = [a, b] at hm
  by_cases hp : IsSyllable (T.composedPair a b)
  · refine ⟨?_, (hT.hangul _ (.inl hp)).1⟩
    by_cases ht : (T.composedPair a b - HANGUL_S_BASE) % HANGUL_T_COUNT = 0
    · rw [pair_mapping hp ht] at hm
      exact (List.cons.inj hm).1 ▸ (hT.hangul _ (.inr (leading_jamo hp))).1
    · rw [triple_mapping hp ht] at hm
      have ha : IsSyllable (T.composedPair a b - (T.composedPair a b - HANGUL_S_BASE) %
        HANGUL_T_COUNT) := by
        simp only [IsSyllable, HANGUL_S_BASE, HANGUL_S_COUNT, HANGUL_L_COUNT, HANGUL_N_COUNT,
          HANGUL_V_COUNT, HANGUL_T_COUNT] at hp ⊢
        omega
      exact (List.cons.inj hm).1 ▸ (hT.hangul _ (.inl ha)).1
  · cases he : T.decompositionOf (T.composedPair a b) with
    | none =>
      rw [mapping, if_neg hp, he] at hm
      cases hm
    | some e =>
      rw [mapping_entry hp he] at hm
      obtain ⟨hmem, hc⟩ := decompositionOf_mem he
      split_ifs at hm with h2
      · cases hm
        rw [← hc] at hx
        have hcomp := (hT.inverse e.first e.second e.codepoint).mpr ⟨hmem, h2, hx⟩
        have hst := hT.starters _ hcomp
        rwa [hc] at hst
      · cases hm

/-! ## 5. Composition -/

variable (T) in
/-- INVARIANT of the loop: `kept` ends in a starter at `starter` and the marks behind it, the last
    of which has the class `lastClass` and none a higher one; or it has no starter yet. -/
def Kept (kept : List Nat) (starter lastClass prev : Nat) : Prop :=
  (∃ l s ms, kept = l ++ s :: ms ∧ starter = l.length ∧ T.combiningClass s = 0 ∧
    (∀ m ∈ ms, T.combiningClass m ≠ 0 ∧ T.combiningClass m ≤ lastClass) ∧
    (ms = [] ∧ lastClass = 0 ∨ ∃ m ∈ ms, T.combiningClass m = lastClass) ∧
    lastClass ≤ T.combiningClass prev) ∨
  ((∀ m ∈ kept, T.combiningClass m ≠ 0) ∧ starter = 0 ∧ kept ≠ [])

/-- One character that is composed. -/
theorem Kept.compose (hT : FromUnicode T excluded) {text : List Nat}
    {starter lastClass prev c : Nat} (hk : T.Kept text starter lastClass prev)
    (hcls : lastClass < T.combiningClass c ∨ (lastClass = 0 ∧ T.combiningClass c = 0))
    (hc : T.composedPair (text.getD starter 0) c ≠ 0) :
    (T.data excluded).Step text c (text.set starter (T.composedPair (text.getD starter 0) c)) ∧
      T.Kept (text.set starter (T.composedPair (text.getD starter 0) c)) starter lastClass c := by
  rcases hk with ⟨l, s, ms, rfl, rfl, hs, hms, hlast, hprev⟩ | ⟨hms, rfl, hne⟩
  · have hget : (l ++ s :: ms).getD l.length 0 = s := by
      rw [List.getD_append_right _ _ _ _ (Nat.le_refl _), Nat.sub_self, List.getD_cons_zero]
    have hset (p : Nat) : (l ++ s :: ms).set l.length p = l ++ p :: ms := by
      rw [List.set_append_right _ _ (Nat.le_refl _), Nat.sub_self, List.set_cons_zero]
    rw [hget] at hc ⊢
    rw [hset]
    have hmeets : (T.data excluded).Meets s ms c := by
      refine ⟨hs, fun m hm => ⟨(hms m hm).1, ?_⟩⟩
      have hm' := hms m hm
      change T.combiningClass m < T.combiningClass c
      omega
    refine ⟨.compose hmeets (primary_of_composedPair hT hc), .inl ⟨l, _, ms, rfl, rfl,
      (composedPair_starters hT hc).2, hms, hlast, ?_⟩⟩
    omega
  · have hfirst : text.getD 0 0 ∈ text := by
      cases text with
      | nil => exact absurd rfl hne
      | cons a text => exact List.mem_cons_self
    exact absurd (composedPair_starters hT hc).1 (hms _ hfirst)

/-- One character that is kept. -/
theorem Kept.keep (hT : FromUnicode T excluded) {text : List Nat} {starter lastClass prev c : Nat}
    (hk : T.Kept text starter lastClass prev)
    (hnext : T.combiningClass c = 0 ∨ T.combiningClass prev ≤ T.combiningClass c)
    (hc : (lastClass < T.combiningClass c ∨ (lastClass = 0 ∧ T.combiningClass c = 0)) →
      T.composedPair (text.getD starter 0) c = 0) :
    (T.data excluded).Step text c (text ++ [c]) ∧
      T.Kept (text ++ [c]) (if T.combiningClass c = 0 then text.length else starter)
        (T.combiningClass c) c := by
  constructor
  · refine .keep fun l' s' ms' htext hmeets p hp => ?_
    obtain ⟨hpair, h0⟩ := composedPair_of_primary hT hp
    rcases hk with ⟨l, s, ms, rfl, rfl, hs, hms, hlast, -⟩ | ⟨hms, -, -⟩
    · obtain ⟨rfl, rfl, rfl⟩ := UnicodeData.last_starter (D := T.data excluded) htext hs
        (fun m hm => (hms m hm).1) hmeets.1 fun m hm => (hmeets.2 m hm).1
      have hget : (l ++ s :: ms).getD l.length 0 = s := by
        rw [List.getD_append_right _ _ _ _ (Nat.le_refl _), Nat.sub_self, List.getD_cons_zero]
      rw [hget, hpair] at hc
      refine h0 (hc ?_)
      rcases hlast with ⟨rfl, rfl⟩ | ⟨m, hm, rfl⟩
      · omega
      · exact .inl (hmeets.2 m hm).2
    · refine hms s' ?_ hmeets.1
      rw [htext]
      exact List.mem_append_right l' List.mem_cons_self
  · by_cases h0 : T.combiningClass c = 0
    · rw [if_pos h0]
      exact .inl ⟨text, c, [], rfl, rfl, h0, fun m hm => absurd hm List.not_mem_nil, .inl ⟨rfl, h0⟩,
        Nat.le_refl _⟩
    · rw [if_neg h0]
      rcases hk with ⟨l, s, ms, rfl, rfl, hs, hms, hlast, hprev⟩ | ⟨hms, rfl, hne⟩
      · refine .inl ⟨l, s, ms ++ [c], by rw [List.append_assoc]; rfl, rfl, hs, fun m hm => ?_,
          .inr ⟨c, List.mem_append_right ms List.mem_cons_self, rfl⟩, Nat.le_refl _⟩
        rcases List.mem_append.mp hm with hm | hm
        · have hm' := hms m hm
          omega
        · cases List.mem_singleton.mp hm
          omega
      · refine .inr ⟨fun m hm => ?_, rfl, List.append_ne_nil_of_left_ne_nil hne [c]⟩
        rcases List.mem_append.mp hm with hm | hm
        · exact hms m hm
        · cases List.mem_singleton.mp hm
          exact h0

variable {text : List Nat}

/-- The loop composes what is left as it should: by induction on that. The places before `out` are
    what is kept, and nothing is written from `i` on. -/
theorem composeFrom_steps (hT : FromUnicode T excluded) {rest : List Nat}
    {starter lastClass prev out i : Nat} (hrest : text.drop i = rest) (hout : out ≤ i)
    (hk : T.Kept (text.take out) starter lastClass prev) (hord : (prev :: rest).IsChain fun a b =>
      T.combiningClass b = 0 ∨ T.combiningClass a ≤ T.combiningClass b) :
    (T.data excluded).Steps (text.take out) rest
      ((T.composeFrom text starter lastClass out i).1.take
        (T.composeFrom text starter lastClass out i).2) := by
  induction rest generalizing text starter lastClass prev out i with
  | nil =>
    have hle : ¬ i < text.length := by
      rw [List.drop_eq_nil_iff] at hrest
      omega
    rw [composeFrom, dif_neg hle]
    exact .done _
  | cons c rest ih =>
    have hi : i < text.length := by
      by_contra hle
      rw [List.drop_eq_nil_of_le (Nat.le_of_not_lt hle)] at hrest
      cases hrest
    obtain ⟨hget, hdrop⟩ := List.cons.inj ((List.drop_eq_getElem_cons hi).symm.trans hrest)
    have hgetD : text.getD i 0 = c := by rw [List.getD_eq_getElem _ _ hi, hget]
    obtain ⟨hnext, hord⟩ := List.isChain_cons_cons.mp hord
    have hlen : (text.take out).length = out := by rw [List.length_take]; omega
    -- the starter is among what is kept
    have hstarter : starter < out ∧ (text.take out).getD starter 0 = text.getD starter 0 := by
      have hlt : starter < out := by
        rw [← hlen]
        rcases hk with ⟨l, s, ms, htext, rfl, -⟩ | ⟨-, rfl, hne⟩
        · rw [htext, List.length_append, List.length_cons]
          omega
        · exact List.length_pos_iff.mpr hne
      refine ⟨hlt, ?_⟩
      rw [List.getD_eq_getElem?_getD, List.getD_eq_getElem?_getD, List.getElem?_take_of_lt hlt]
    have hkept (hc : (lastClass < T.combiningClass c ∨ (lastClass = 0 ∧ T.combiningClass c = 0)) →
        T.composedPair ((text.take out).getD starter 0) c = 0) :
        (T.data excluded).Steps (text.take out) (c :: rest)
          ((T.composeFrom (text.set out c) (if T.combiningClass c = 0 then out else starter)
              (T.combiningClass c) (out + 1) (i + 1)).1.take
            (T.composeFrom (text.set out c) (if T.combiningClass c = 0 then out else starter)
              (T.combiningClass c) (out + 1) (i + 1)).2) := by
      obtain ⟨hstep, hk'⟩ := hk.keep hT hnext hc
      have htake : (text.set out c).take (out + 1) = text.take out ++ [c] := by
        rw [List.take_add_one, List.take_set_of_le (Nat.le_refl _),
          List.getElem?_set_self (by omega)]
        rfl
      rw [hlen, ← htake] at hk'
      rw [← htake] at hstep
      refine .next hstep (ih ?_ (by omega) hk' hord)
      rw [List.drop_set_of_lt (by omega), hdrop]
    rw [composeFrom, dif_pos hi, hgetD, ← hstarter.2]
    dsimp only
    by_cases hcls : lastClass < T.combiningClass c ∨ (lastClass = 0 ∧ T.combiningClass c = 0)
    · rw [if_pos hcls]
      by_cases hc : T.composedPair ((text.take out).getD starter 0) c = 0
      · rw [if_neg (not_not.mpr hc)]
        exact hkept fun _ => hc
      · obtain ⟨hstep, hk'⟩ := hk.compose hT hcls hc
        rw [if_pos hc]
        rw [← List.take_set] at hstep hk'
        refine .next hstep (ih ?_ (by omega) hk' hord)
        rw [List.drop_set_of_lt (by omega), hdrop]
    · rw [if_neg hcls, if_neg (not_not.mpr rfl)]
      exact hkept fun h => absurd h hcls

theorem compose_steps (hT : FromUnicode T excluded)
    (hord : Ordered T.combiningClass text) : (T.data excluded).Steps [] text (T.compose text) := by
  cases text with
  | nil =>
    have hnone : T.compose [] = [] := by
      rw [compose, composeFrom]
      exact List.take_nil
    rw [hnone]
    exact .done []
  | cons c rest =>
    have hfirst : (T.data excluded).Step [] c [c] :=
      .keep fun l s ms h =>
      absurd h.symm (List.append_ne_nil_of_right_ne_nil l (List.cons_ne_nil s ms))
    have hkept : T.Kept [c] 0 (if T.combiningClass c = 0 then 0 else 255) c := by
      by_cases h0 : T.combiningClass c = 0
      · rw [if_pos h0]
        exact .inl ⟨[], c, [], rfl, rfl, h0, fun m hm => absurd hm List.not_mem_nil,
          .inl ⟨rfl, rfl⟩,
          Nat.zero_le _⟩
      · refine .inr ⟨fun m hm => ?_, rfl, List.cons_ne_nil c []⟩
        rwa [List.mem_singleton.mp hm]
    have hloop : (T.data excluded).Steps ((c :: rest).take 1) rest (T.compose (c :: rest)) :=
      composeFrom_steps hT rfl (Nat.le_refl 1) hkept hord
    exact .next hfirst hloop

/-! ## 6. What is composed is what it was -/

/-- A character of a decomposition is its own. -/
theorem decomposes_mem {D : UnicodeData} {x : Nat} {l : List Nat} (h : D.Decomposes x l) :
    ∀ c ∈ l, D.Decomposes c [c] := by
  induction h with
  | whole h =>
    intro c hc
    cases List.mem_singleton.mp hc
    exact .whole h
  | single _ _ ih => exact ih
  | pair _ _ _ iha ihb =>
    intro c hc
    exact (List.mem_append.mp hc).elim (iha c) (ihb c)

theorem decomposeInto_eq (hT : FromUnicode T excluded) {l : List Nat}
    (h : (T.data excluded).Decomposes c l) : T.decomposeInto c = l :=
  (decomposeInto_spec hT c).unique h

variable (T) in
/-- Normal form D, as it is computed. -/
def nfd (text : List Nat) : List Nat := order T.combiningClass (text.flatMap T.decomposeInto)

variable (hT : FromUnicode T excluded)

include hT

theorem nfd_isNfd (text : List Nat) :
    (T.data excluded).IsNfd text (T.nfd text) :=
  .of_parts (text_decomposes hT text)

theorem nfd_mem (hc : c ∈ T.nfd text) :
    T.decomposeInto c = [c] := by
  obtain ⟨x, _, hx⟩ := List.mem_flatMap.mp ((order_perm _).subset hc)
  exact decomposeInto_eq hT (decomposes_mem (decomposeInto_spec hT x) c hx)

omit hT in
theorem flatMap_whole (h : ∀ c ∈ text, T.decomposeInto c = [c]) :
    text.flatMap T.decomposeInto = text := by
  induction text with
  | nil => rfl
  | cons c text ih =>
    rw [List.flatMap_cons, h c List.mem_cons_self, ih fun x hx => h x (List.mem_cons_of_mem c hx)]
    rfl

theorem primary_starter (h : (T.data excluded).Primary a b p) : T.combiningClass p = 0 := by
  obtain ⟨rfl, h0⟩ := composedPair_of_primary hT h
  exact (composedPair_starters hT h0).2

/-- What is composed decomposes to what is left and what is kept: by induction on the steps. A mark
    that was passed by is put back in front of the one that was composed. -/
theorem steps_order {out rest res : List Nat}
    (h : (T.data excluded).Steps out rest res) (hrest : ∀ c ∈ rest, T.decomposeInto c = [c])
    (hout : ∀ m ∈ out, T.combiningClass m ≠ 0 → T.decomposeInto m = [m]) :
    T.nfd res = order T.combiningClass (out.flatMap T.decomposeInto ++ rest) := by
  induction h with
  | done out => rw [List.append_nil]; rfl
  | @next out out' res c text hstep hsteps ih =>
    have hc := hrest c List.mem_cons_self
    have hrest' := fun x hx => hrest x (List.mem_cons_of_mem c hx)
    cases hstep with
    | @compose l ms s c p hmeets hprim =>
      have hp : T.decomposeInto p = T.decomposeInto s ++ T.decomposeInto c :=
        decomposeInto_eq hT (.pair hprim.1 (decomposeInto_spec hT s) (decomposeInto_spec hT c))
      have hms : ms.flatMap T.decomposeInto = ms := flatMap_whole fun m hm =>
        hout m (List.mem_append_right l (List.mem_cons_of_mem s hm)) (hmeets.2 m hm).1
      have hlower : ∀ m ∈ ms, 0 < T.combiningClass m ∧ T.combiningClass m < T.combiningClass c :=
        fun m hm => ⟨Nat.pos_of_ne_zero (hmeets.2 m hm).1, (hmeets.2 m hm).2⟩
      have hbehind := order_behind hlower (l.flatMap T.decomposeInto ++ T.decomposeInto s) text
      have hout' : ∀ m ∈ l ++ p :: ms, T.combiningClass m ≠ 0 → T.decomposeInto m = [m] := by
        intro m hm hm0
        rcases List.mem_append.mp hm with hm | hm
        · exact hout m (List.mem_append_left _ hm) hm0
        · rcases List.mem_cons.mp hm with rfl | hm
          · exact absurd (primary_starter hT hprim) hm0
          · exact hout m (List.mem_append_right l (List.mem_cons_of_mem s hm)) hm0
      rw [ih hrest' hout']
      simp only [List.flatMap_append, List.flatMap_cons, hp, hc, hms, List.append_assoc,
        List.cons_append, List.nil_append] at hbehind ⊢
      exact hbehind
    | keep _ =>
      have hout' : ∀ m ∈ out ++ [c], T.combiningClass m ≠ 0 → T.decomposeInto m = [m] := by
        intro m hm hm0
        rcases List.mem_append.mp hm with hm | hm
        · exact hout m hm hm0
        · rwa [List.mem_singleton.mp hm]
      rw [ih hrest' hout', List.flatMap_append, List.append_assoc]
      simp only [List.flatMap_cons, List.flatMap_nil, hc, List.cons_append, List.nil_append]

/-- Normal form C has the normal form D of the text. -/
theorem nfc_nfd {res : List Nat}
    (h : (T.data excluded).Steps [] (T.nfd text) res) : T.nfd res = T.nfd text := by
  rw [steps_order hT h (fun c hc => nfd_mem hT hc) fun m hm => absurd hm List.not_mem_nil]
  exact order_of_ordered (order_ordered _)

theorem primary_unique {q : Nat}
    (hp : (T.data excluded).Primary a b p) (hq : (T.data excluded).Primary a b q) : p = q :=
  (composedPair_of_primary hT hp).1.symm.trans (composedPair_of_primary hT hq).1

end Tables

end Trustme.Lexing.Nfc
