/-
  Subject:   `unicodeNormaliseNfc`, from the bytes of a text to the bytes of its normal form C.

  * `decodeUtf8_encoded`, `appendUtf8_eq`: the bytes are those of the characters;
  * `normalise_spec`: the bytes of the form, be it by way of the short cut for ASCII;
  * **`nfc_correct`** -- the form, canonical equivalence and idempotence.
-/
import Trustme.Lexing.NfcRuns

namespace Trustme.Lexing.Nfc

open Trustme.Lib.MarkOrder

/-! ## 1. Bytes -/

/-- The codepoints of a text. -/
def codes (text : List Char) : List Nat := text.map Char.toNat

theorem char_lt (c : Char) : c.toNat < 0x110000 := by
  have hvalid : c.toNat.isValidChar := c.valid
  rcases hvalid with h | h <;> omega

/-- Six bits behind the mark of a continuation byte. -/
theorem continuation_or (x : Nat) : 0x80 ||| (x &&& 0x3F) = x % 0x40 + 0x80 := by
  have hmask : x &&& 0x3F = x % 2 ^ 6 := Nat.and_two_pow_sub_one_eq_mod x 6
  have hlt : x % 2 ^ 6 < 2 ^ 6 := Nat.mod_lt _ (by decide)
  rw [hmask, ← Nat.two_pow_add_eq_or_of_lt (i := 6) hlt 2]
  omega

/-- The bits of a lead byte behind its mark. -/
theorem lead_or {i x : Nat} (m : Nat) (hx : x < 2 ^ i) : 2 ^ i * m ||| x = x + 2 ^ i * m := by
  rw [← Nat.two_pow_add_eq_or_of_lt hx, Nat.add_comm]

theorem appendUtf8_eq (c : Char) : appendUtf8 c.toNat = String.utf8EncodeChar c := by
  have hlt := char_lt c
  have hval : c.val.toNat = c.toNat := rfl
  rw [String.utf8EncodeChar, appendUtf8, hval, continuation_or, Nat.shiftRight_eq_div_pow,
    Nat.shiftRight_eq_div_pow, Nat.shiftRight_eq_div_pow, continuation_or, continuation_or]
  by_cases h1 : c.toNat ≤ 0x7f
  · rw [if_pos h1, if_pos (show c.toNat < 0x80 by omega)]
  rw [if_neg h1, if_neg (show ¬ c.toNat < 0x80 by omega)]
  by_cases h2 : c.toNat ≤ 0x7ff
  · have hlead := lead_or 6 (show c.toNat / 2 ^ 6 < 2 ^ 5 by omega)
    rw [if_pos h2, if_pos (show c.toNat < 0x800 by omega),
      show (0xC0 : Nat) = 2 ^ 5 * 6 from rfl, hlead,
      Nat.mod_eq_of_lt (show c.toNat / 64 < 0x20 by omega)]
    rfl
  rw [if_neg h2, if_neg (show ¬ c.toNat < 0x800 by omega)]
  by_cases h3 : c.toNat ≤ 0xffff
  · have hlead := lead_or 14 (show c.toNat / 2 ^ 12 < 2 ^ 4 by omega)
    rw [if_pos h3, if_pos (show c.toNat < 0x10000 by omega),
      show (0xE0 : Nat) = 2 ^ 4 * 14 from rfl,
      hlead, Nat.mod_eq_of_lt (show c.toNat / 4096 < 0x10 by omega)]
    rfl
  · have hlead := lead_or 30 (show c.toNat / 2 ^ 18 < 2 ^ 3 by omega)
    rw [if_neg h3, if_neg (show ¬ c.toNat < 0x10000 by omega),
      show (0xF0 : Nat) = 2 ^ 3 * 30 from rfl,
      hlead, Nat.mod_eq_of_lt (show c.toNat / 262144 < 0x08 by omega)]
    rfl

theorem codes_append (text : List Char) : (codes text).flatMap appendUtf8 = encoded text := by
  rw [codes, encoded, List.flatMap_map]
  exact congrArg (text.flatMap ·) (funext appendUtf8_eq)

theorem lead_one (x : Nat) (h : x < 128) : leadOf (UInt8.ofNat x) = (1, x) := by
  have hbits : UInt8.ofNat x &&& 0xE0 ≠ 0xC0 ∧ UInt8.ofNat x &&& 0xF0 ≠ 0xE0 ∧
      UInt8.ofNat x &&& 0xF8 ≠ 0xF0 ∧ (UInt8.ofNat x).toNat = x := by
    decide +revert
  rw [leadOf, if_neg hbits.1, if_neg hbits.2.1, if_neg hbits.2.2.1, hbits.2.2.2]

/-- A character is decoded from its bytes, with any behind them. -/
theorem decodeUtf8_char (c : Char) (text : List UInt8) :
    decodeUtf8 (String.utf8EncodeChar c ++ text) = c.toNat :: decodeUtf8 text := by
  have hlt := char_lt c
  have hval : c.val.toNat = c.toNat := rfl
  rw [String.utf8EncodeChar, hval]
  by_cases h1 : c.toNat ≤ 0x7f
  · rw [if_pos h1, List.singleton_append, decodeUtf8, lead_one _ (by omega)]
    rfl
  rw [if_neg h1]
  by_cases h2 : c.toNat ≤ 0x7ff
  · obtain ⟨-, -, l3, l4, -, -⟩ := lead_two (c.toNat / 64 % 0x20) (by omega)
    obtain ⟨-, e2, -, -⟩ := continuation (c.toNat % 0x40) (by omega)
    have hlead : leadOf (UInt8.ofNat (c.toNat / 64 % 0x20 + 0xc0)) = (2, c.toNat / 64 % 0x20) := by
      rw [leadOf, if_pos l3, l4]
    have hcode : (c.toNat / 64 % 0x20) <<< 6 ||| c.toNat % 0x40 = c.toNat := by
      rw [shifted_or _ _ (by omega)]
      omega
    rw [if_pos h2, List.cons_append, List.singleton_append, decodeUtf8, hlead]
    change ((c.toNat / 64 % 0x20) <<< 6 ||| (UInt8.ofNat (c.toNat % 0x40 + 0x80) &&& 0x3F).toNat) ::
      decodeUtf8 text = _
    rw [e2, hcode]
  rw [if_neg h2]
  by_cases h3 : c.toNat ≤ 0xffff
  · obtain ⟨-, -, l3, l4, l5, -, -⟩ := lead_three (c.toNat / 4096 % 0x10) (by omega)
    obtain ⟨-, e2, -, -⟩ := continuation (c.toNat / 64 % 0x40) (by omega)
    obtain ⟨-, f2, -, -⟩ := continuation (c.toNat % 0x40) (by omega)
    have hlead : leadOf (UInt8.ofNat (c.toNat / 4096 % 0x10 + 0xe0)) =
      (3, c.toNat / 4096 % 0x10) := by
      rw [leadOf, if_neg l3, if_pos l4, l5]
    have hcode : ((c.toNat / 4096 % 0x10) <<< 6 ||| c.toNat / 64 % 0x40) <<< 6 ||| c.toNat % 0x40 =
        c.toNat := by
      rw [shifted_or _ _ (by omega), shifted_or _ _ (by omega)]
      omega
    rw [if_pos h3, List.cons_append, List.cons_append, List.singleton_append, decodeUtf8, hlead]
    change (((c.toNat / 4096 % 0x10) <<< 6 |||
        (UInt8.ofNat (c.toNat / 64 % 0x40 + 0x80) &&& 0x3F).toNat) <<< 6 |||
        (UInt8.ofNat (c.toNat % 0x40 + 0x80) &&& 0x3F).toNat) :: decodeUtf8 text = _
    rw [e2, f2, hcode]
  · obtain ⟨-, -, l3, l4, l5, l6, -, -⟩ := lead_four (c.toNat / 262144 % 0x08) (by omega)
    obtain ⟨-, e2, -, -⟩ := continuation (c.toNat / 4096 % 0x40) (by omega)
    obtain ⟨-, f2, -, -⟩ := continuation (c.toNat / 64 % 0x40) (by omega)
    obtain ⟨-, g2, -, -⟩ := continuation (c.toNat % 0x40) (by omega)
    have hlead : leadOf (UInt8.ofNat (c.toNat / 262144 % 0x08 + 0xf0)) =
        (4, c.toNat / 262144 % 0x08) := by
      rw [leadOf, if_neg l3, if_neg l4, if_pos l5, l6]
    have hcode : (((c.toNat / 262144 % 0x08) <<< 6 ||| c.toNat / 4096 % 0x40) <<< 6 |||
        c.toNat / 64 % 0x40) <<< 6 ||| c.toNat % 0x40 = c.toNat := by
      rw [shifted_or _ _ (by omega), shifted_or _ _ (by omega), shifted_or _ _ (by omega)]
      omega
    rw [if_neg h3, List.cons_append, List.cons_append, List.cons_append, List.singleton_append,
      decodeUtf8, hlead]
    change ((((c.toNat / 262144 % 0x08) <<< 6 |||
        (UInt8.ofNat (c.toNat / 4096 % 0x40 + 0x80) &&& 0x3F).toNat) <<< 6 |||
        (UInt8.ofNat (c.toNat / 64 % 0x40 + 0x80) &&& 0x3F).toNat) <<< 6 |||
        (UInt8.ofNat (c.toNat % 0x40 + 0x80) &&& 0x3F).toNat) :: decodeUtf8 text = _
    rw [e2, f2, g2, hcode]

theorem decodeUtf8_encoded (text : List Char) : decodeUtf8 (encoded text) = codes text := by
  induction text with
  | nil => rw [encoded, List.flatMap_nil, decodeUtf8]; rfl
  | cons c text ih =>
    change decodeUtf8 (String.utf8EncodeChar c ++ encoded text) = c.toNat :: codes text
    rw [decodeUtf8_char, ih]

/-- The first byte of a character that is not of ASCII is not either. -/
theorem isAscii_char (c : Char) : isAscii (String.utf8EncodeChar c) = true ↔ c.toNat < 0x80 := by
  have hval : c.val.toNat = c.toNat := rfl
  rw [String.utf8EncodeChar, hval]
  by_cases h1 : c.toNat ≤ 0x7f
  · have hbyte : UInt8.ofNat c.toNat < 0x80 := by
      rw [UInt8.lt_iff_toNat_lt, UInt8.toNat_ofNat', Nat.mod_eq_of_lt (by omega)]
      exact Nat.lt_of_le_of_lt h1 (by decide)
    rw [if_pos h1, isAscii, List.all_cons, decide_eq_true hbyte]
    exact iff_of_true rfl (by omega)
  · have hlead : ∀ {b : UInt8} {bs : List UInt8}, ¬ b < 128 → ¬ isAscii (b :: bs) = true := by
      intro b bs hb h
      exact hb (of_decide_eq_true ((Bool.and_eq_true _ _).mp h).1)
    refine iff_of_false ?_ (by omega)
    rw [if_neg h1]
    split_ifs
    · exact hlead (lead_two _ (by omega)).1
    · exact hlead (lead_three _ (by omega)).1
    · exact hlead (lead_four _ (by omega)).1

theorem isAscii_encoded (text : List Char) :
    isAscii (encoded text) = true ↔ ∀ c ∈ text, c.toNat < 0x80 := by
  induction text with
  | nil => exact iff_of_true rfl fun c hc => absurd hc List.not_mem_nil
  | cons c text ih =>
    have hsplit : isAscii (encoded (c :: text)) =
        (isAscii (String.utf8EncodeChar c) && isAscii (encoded text)) := List.all_append
    rw [hsplit, Bool.and_eq_true, isAscii_char, ih, List.forall_mem_cons]

/-! ## 2. Scalar values -/

section Scalars

variable {T : Tables} {excluded : Nat → Prop}

variable (hT : FromUnicode T excluded)

include hT

/-- A mapping has scalar values, and belongs to one. -/
theorem mapping_scalar {c x : Nat} (hx : x ∈ T.mapping c) :
    x.isValidChar ∧ c.isValidChar := by
  by_cases hs : IsSyllable c
  · have hc := hs
    simp only [IsSyllable, HANGUL_S_BASE, HANGUL_S_COUNT, HANGUL_L_COUNT, HANGUL_N_COUNT,
      HANGUL_V_COUNT, HANGUL_T_COUNT] at hc
    refine ⟨.inl ?_, .inl (by omega)⟩
    by_cases ht : (c - HANGUL_S_BASE) % HANGUL_T_COUNT = 0
    · rw [Tables.pair_mapping hs ht] at hx
      simp only [HANGUL_L_BASE, HANGUL_V_BASE, HANGUL_S_BASE, HANGUL_N_COUNT, HANGUL_V_COUNT,
        HANGUL_T_COUNT, List.mem_cons, List.not_mem_nil, or_false] at hx
      omega
    · rw [Tables.triple_mapping hs ht] at hx
      simp only [HANGUL_T_BASE, HANGUL_S_BASE, HANGUL_T_COUNT, List.mem_cons, List.not_mem_nil,
        or_false] at hx
      omega
  · rw [Tables.mapping, if_neg hs] at hx
    split at hx
    · next e he =>
      obtain ⟨hmem, rfl⟩ := Tables.decompositionOf_mem he
      obtain ⟨hc, h1, h2⟩ := hT.scalars e hmem
      refine ⟨?_, hc⟩
      split_ifs at hx
      · simp only [List.mem_cons, List.not_mem_nil, or_false] at hx
        rcases hx with rfl | rfl
        · exact h1
        · exact h2
      · rwa [List.mem_singleton.mp hx]
    · cases hx

theorem decomposes_scalar {c : Nat} {l : List Nat}
    (h : (T.data excluded).Decomposes c l) (hc : c.isValidChar) : ∀ x ∈ l, x.isValidChar := by
  induction h with
  | whole _ =>
    intro x hx
    rwa [List.mem_singleton.mp hx]
  | @single c a l h _ ih =>
    have ha : a ∈ T.mapping c := by
      rw [show T.mapping c = [a] from h]
      exact List.mem_cons_self
    exact ih (mapping_scalar hT ha).1
  | @pair c a b l m h _ _ iha ihb =>
    have hm : T.mapping c = [a, b] := h
    have ha : a ∈ T.mapping c := by
      rw [hm]
      exact List.mem_cons_self
    have hb : b ∈ T.mapping c := by
      rw [hm]
      exact List.mem_cons_of_mem a List.mem_cons_self
    intro x hx
    exact (List.mem_append.mp hx).elim (iha (mapping_scalar hT ha).1 x)
      (ihb (mapping_scalar hT hb).1 x)

theorem nfd_scalar {text : List Nat}
    (h : ∀ c ∈ text, c.isValidChar) : ∀ x ∈ T.nfd text, x.isValidChar := by
  intro x hx
  obtain ⟨c, hc, hx⟩ := List.mem_flatMap.mp ((order_perm _).subset hx)
  exact decomposes_scalar hT (Tables.decomposeInto_spec hT c) (h c hc) x hx

theorem steps_scalar {out rest res : List Nat}
    (h : (T.data excluded).Steps out rest res) (hout : ∀ x ∈ out, x.isValidChar)
    (hrest : ∀ x ∈ rest, x.isValidChar) : ∀ x ∈ res, x.isValidChar := by
  induction h with
  | done _ => exact hout
  | @next out out' res c text hstep _ ih =>
    refine ih ?_ fun x hx => hrest x (List.mem_cons_of_mem c hx)
    intro x hx
    cases hstep with
    | @compose l ms s _ p _ hprim =>
      rcases List.mem_append.mp hx with hx | hx
      · exact hout x (List.mem_append_left _ hx)
      · rcases List.mem_cons.mp hx with rfl | hx
        · have hs : s ∈ T.mapping x := by
            rw [show T.mapping x = [s, c] from hprim.1]
            exact List.mem_cons_self
          exact (mapping_scalar hT hs).2
        · exact hout x (List.mem_append_right l (List.mem_cons_of_mem s hx))
    | keep _ =>
      rcases List.mem_append.mp hx with hx | hx
      · exact hout x hx
      · cases List.mem_singleton.mp hx
        exact hrest _ List.mem_cons_self

omit hT in
/-- Scalar values are the codepoints of a text. -/
theorem codes_surjective {text : List Nat} (h : ∀ x ∈ text, x.isValidChar) :
    ∃ chars, codes chars = text := by
  refine ⟨text.map Char.ofNat, ?_⟩
  have hcode : ∀ x ∈ text, (Char.toNat ∘ Char.ofNat) x = id x := by
    intro x hx
    rw [Function.comp_apply, Char.ofNat, dif_pos (h x hx)]
    rfl
  rw [codes, List.map_map, List.map_congr_left hcode, List.map_id]

omit hT in
theorem codes_scalar (text : List Char) : ∀ x ∈ codes text, x.isValidChar := by
  intro x hx
  obtain ⟨c, -, rfl⟩ := List.mem_map.mp hx
  exact c.valid

/-! ## 3. Both ways to the form -/

/-- What is of ASCII is not composed. -/
theorem ascii_steps {out rest : List Nat} (hout : ∀ x ∈ out, x < 0x80)
    (hrest : ∀ x ∈ rest, x < 0x80) : (T.data excluded).Steps out rest (out ++ rest) := by
  induction rest generalizing out with
  | nil => rw [List.append_nil]; exact .done out
  | cons c rest ih =>
    have hc := hrest c List.mem_cons_self
    have hkeep : (T.data excluded).Step out c (out ++ [c]) := by
      refine .keep fun l s ms hl _ p hp => ?_
      have hs : s < 0x80 := hout s (hl ▸ List.mem_append_right l List.mem_cons_self)
      have hletter : ¬ IsSyllable s ∧ ¬ IsJamo s := by
        simp only [IsSyllable, IsJamo, HANGUL_S_BASE, HANGUL_L_BASE, HANGUL_V_BASE, HANGUL_T_BASE]
        omega
      obtain ⟨hpair, h0⟩ := Tables.composedPair_of_primary hT hp
      rw [Tables.pair_table hletter] at hpair
      have hmem := (List.dropWhile_sublist _).subset (Tables.composedFrom_mem (hpair.trans_ne h0))
      exact hT.ascii_pair _ hmem ⟨hs, hc⟩
    have hnext : ∀ x ∈ out ++ [c], x < 0x80 := by
      intro x hx
      rcases List.mem_append.mp hx with hx | hx
      · exact hout x hx
      · rwa [List.mem_singleton.mp hx]
    have hrun := ih hnext fun x hx => hrest x (List.mem_cons_of_mem c hx)
    rw [List.append_assoc, List.singleton_append] at hrun
    exact .next hkeep hrun

/-- A text of ASCII is its own normal form D. -/
theorem ascii_nfd {text : List Nat} (h : ∀ x ∈ text, x < 0x80) :
    T.nfd text = text := by
  have hwhole : text.flatMap T.decomposeInto = text := by
    refine Tables.flatMap_whole fun c hc => Tables.decomposeInto_whole ?_ (hT.ascii c (h c hc)).2
    have hlt := h c hc
    simp only [IsSyllable, HANGUL_S_BASE]
    omega
  have hordered : Ordered T.combiningClass text :=
    (List.pairwise_of_forall_mem_list fun _ _ b hb => .inl (hT.ascii b (h b hb)).1).isChain
  rw [Tables.nfd, hwhole]
  exact order_of_ordered hordered

/-- The bytes are those of what composition leaves of normal form D. -/
theorem normalise_spec (text : List Char) :
    ∃ out, unicodeNormaliseNfc T (encoded text) = encoded out ∧
      (T.data excluded).Steps [] (T.nfd (codes text)) (codes out) := by
  by_cases hascii : isAscii (encoded text) = true
  · have hcodes : ∀ x ∈ codes text, x < 0x80 := by
      intro x hx
      obtain ⟨c, hc, rfl⟩ := List.mem_map.mp hx
      exact (isAscii_encoded text).mp hascii c hc
    refine ⟨text, if_pos hascii, ?_⟩
    rw [ascii_nfd hT hcodes]
    exact ascii_steps hT (fun x hx => absurd hx List.not_mem_nil) hcodes
  · have hsteps : (T.data excluded).Steps [] (T.nfd (codes text))
      (T.compose (T.nfd (codes text))) :=
      Tables.compose_steps hT (order_ordered _)
    obtain ⟨out, hout⟩ := codes_surjective (steps_scalar hT hsteps
      (fun x hx => absurd hx List.not_mem_nil) (nfd_scalar hT (codes_scalar text)))
    rw [← hout] at hsteps
    refine ⟨out, ?_, hsteps⟩
    rw [unicodeNormaliseNfc, if_neg hascii, decodeUtf8_encoded]
    dsimp only
    rw [Tables.orderCanonically_eq, ← codes_append, hout]
    rfl

omit hT in
theorem codes_injective {text text' : List Char} (h : codes text = codes text') : text = text' :=
  List.map_injective_iff.mpr (fun _ _ h => Char.toNat_inj.mp h) h

omit hT in
/-- **Identifiers are put into normal form C.** The bytes of a text become those of its normal form,
    which is canonically equivalent to it; all texts that are equivalent to it become these bytes,
    and they stay what they are. -/
theorem nfc_correct (hT : FromUnicode T excluded) (text : List Char) :
    ∃ out, unicodeNormaliseNfc T (encoded text) = encoded out ∧
      (T.data excluded).IsNfc (codes text) (codes out) ∧
      (T.data excluded).Equivalent (codes text) (codes out) ∧
      (∀ text', (T.data excluded).Equivalent (codes text) (codes text') →
        unicodeNormaliseNfc T (encoded text') = encoded out) ∧
      unicodeNormaliseNfc T (encoded out) = encoded out := by
  obtain ⟨out, hbytes, hsteps⟩ := normalise_spec hT text
  have hsame : ∀ text', T.nfd (codes text') = T.nfd (codes text) →
      unicodeNormaliseNfc T (encoded text') = encoded out := by
    intro text' hnfd
    obtain ⟨out', hbytes', hsteps'⟩ := normalise_spec hT text'
    rw [hnfd] at hsteps'
    rw [hbytes', codes_injective (hsteps'.unique (Tables.primary_unique hT) hsteps)]
  have hequiv : (T.data excluded).Equivalent (codes text) (codes out) := by
    have hout := Tables.nfd_isNfd hT (codes out)
    rw [Tables.nfc_nfd hT hsteps] at hout
    exact ⟨_, Tables.nfd_isNfd hT _, hout⟩
  refine ⟨out, hbytes, ⟨_, Tables.nfd_isNfd hT _, hsteps⟩, hequiv, ?_,
    hsame out (Tables.nfc_nfd hT hsteps)⟩
  rintro text' ⟨nfd, hnfd, hnfd'⟩
  refine hsame text' ?_
  rw [(Tables.nfd_isNfd hT _).unique hnfd', (Tables.nfd_isNfd hT _).unique hnfd]

end Scalars

/-! ## 4. An accent -/

/-- The tables of a Unicode that has an acute accent, and one letter with it. -/
def accents : Tables where
  COMBINING := [⟨0x301, 230⟩]
  DECOMPOSITIONS := [⟨0xE9, 0x65, 0x301⟩]
  COMPOSITIONS := [⟨0x65, 0x301, 0xE9⟩]
  combining_sorted := List.pairwise_singleton _ _
  decompositions_sorted := List.pairwise_singleton _ _
  compositions_sorted := List.pairwise_singleton _ _
  height c := if c = 0xE9 then 1 else 0
  acyclic := by decide

theorem accents_class {c : Nat} (h : c ≠ 0x301) : accents.combiningClass c = 0 := by
  unfold Tables.combiningClass
  split
  · next found rest hfound =>
    have hmem : found ∈ lowerBound (·.codepoint < c) accents.COMBINING :=
      hfound ▸ List.mem_cons_self
    cases List.mem_singleton.mp ((List.dropWhile_sublist _).subset hmem)
    exact if_neg (Ne.symm h)
  · rfl

theorem accents_whole {c : Nat} (h : c ≠ 0xE9) : accents.decompositionOf c = none := by
  cases he : accents.decompositionOf c with
  | none => rfl
  | some e =>
    obtain ⟨hmem, rfl⟩ := Tables.decompositionOf_mem he
    cases List.mem_singleton.mp hmem
    exact absurd rfl h

theorem accents_fromUnicode : FromUnicode accents fun _ => False where
  inverse a b p := by
    simp only [accents, List.mem_singleton, UnicodeComposition.mk.injEq,
      UnicodeDecomposition.mk.injEq]
    constructor
    · rintro ⟨rfl, rfl, rfl⟩
      exact ⟨⟨rfl, rfl, rfl⟩, by decide, id⟩
    · rintro ⟨⟨rfl, rfl, rfl⟩, -⟩
      exact ⟨rfl, rfl, rfl⟩
  starters e he := by
    cases List.mem_singleton.mp he
    exact ⟨accents_class (by decide), accents_class (by decide)⟩
  hangul c hc := by
    simp only [IsSyllable, IsJamo, HANGUL_S_BASE, HANGUL_L_BASE, HANGUL_V_BASE, HANGUL_T_BASE] at hc
    exact ⟨accents_class (by omega), accents_whole (by omega)⟩
  hangul_first e he := by
    cases List.mem_singleton.mp he
    simp only [IsSyllable, IsJamo, HANGUL_S_BASE, HANGUL_L_BASE, HANGUL_V_BASE, HANGUL_T_BASE]
    omega
  not_excluded _ _ h := h
  ascii c hc := ⟨accents_class (by omega), accents_whole (by omega)⟩
  ascii_pair e he := by
    cases List.mem_singleton.mp he
    decide
  scalars e he := by
    cases List.mem_singleton.mp he
    exact ⟨.inl (by decide), .inl (by decide), .inl (by decide)⟩

/-- The letter and the accent behind it. -/
theorem nfc_correct_accent : FromUnicode accents (fun _ => False) ∧
    ∃ out, unicodeNormaliseNfc accents (encoded ['e', '\u0301']) = encoded out ∧
      (accents.data fun _ => False).IsNfc (codes ['e', '\u0301']) (codes out) ∧
      (accents.data fun _ => False).Equivalent (codes ['e', '\u0301']) (codes out) ∧
      (∀ text', (accents.data fun _ => False).Equivalent (codes ['e', '\u0301']) (codes text') →
        unicodeNormaliseNfc accents (encoded text') = encoded out) ∧
      unicodeNormaliseNfc accents (encoded out) = encoded out :=
  ⟨accents_fromUnicode, nfc_correct accents_fromUnicode ['e', '\u0301']⟩

end Trustme.Lexing.Nfc
