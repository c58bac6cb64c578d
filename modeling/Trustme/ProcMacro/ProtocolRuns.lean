/-
  Subject:   What the writer hands over to its stream, and what is read of it if all of it arrives.

  * `Token.slices`, `writeEnt_hands`: the slices of a token; the writer hands these over;
  * `Sends`: of the bytes of some slices a reader receives a value, and nothing of what follows;
  * `u128v_sends`: every number of 128 bits is received;
  * `signed_read`: a negative number is mapped to another one, but for two of them: the writer
    takes `v + 1` for its opposite;
  * `Kept`: the tokens that are received: `token_sends`, `token_lost`.
-/
import Trustme.ProcMacro.Protocol

namespace Trustme.ProcMacro

open Trustme.Lib Writer Reader

/-! ## 1. Slices -/

/-- The bytes of a number. -/
def u128vBytes (v : BitVec 128) : List Byte :=
  if _h : v ≥ 128#128 then ((v &&& 0x7F#128).setWidth 8 ||| 0x80#8) :: u128vBytes (v >>> 7)
  else [(v &&& 0x7F#128).setWidth 8]
termination_by v.toNat
decreasing_by
  rw [ge_iff_le, BitVec.le_def] at _h
  rw [BitVec.toNat_ushiftRight, Nat.shiftRight_eq_div_pow]
  exact Nat.div_lt_self (Nat.lt_of_lt_of_le (by decide) _h) (by decide)

/-- A number is handed over byte for byte. -/
def u128vSlices (v : BitVec 128) : List (List Byte) := (u128vBytes v).map fun b => [b]

/-- The number that `put_i128v` writes for another. -/
def zigzag (v : BitVec 128) : BitVec 128 :=
  if v.slt 0 then ((v + 1) <<< 1) ||| 1 else v <<< 1

/-- The bytes of a string are one slice. -/
def bytesSlices (v : List Byte) : List (List Byte) :=
  u128vSlices (BitVec.ofNat 128 v.length) ++ [v]

def wordSlices {w : Nat} (v : BitVec w) : List (List Byte) := u128vSlices (v.setWidth 128)

/-- The slices that the writer hands over for a token. -/
def Token.slices : Token → List (List Byte)
  | .EndOfStream => [[0]]
  | .Symbol v => [[1]] ++ bytesSlices (asBytes v)
  | .Ident v => [[2]] ++ bytesSlices (asBytes v)
  | .Lifetime v => [[3]] ++ bytesSlices (asBytes v)
  | .String v => [[4]] ++ bytesSlices (asBytes v)
  | .ByteString v => [[5]] ++ bytesSlices v
  | .Char v => [[6]] ++ u128vSlices (BitVec.ofNat 128 v.toNat)
  | .Unsigned v sz => [[7]] ++ ([[sz]] ++ u128vSlices v)
  | .Signed v sz => [[8]] ++ ([[sz]] ++ u128vSlices (zigzag v))
  | .Float v sz => [[9]] ++ ([[sz]] ++ [leBytes 8 v.toNat])
  | .SpanRef idx => [[10]] ++ wordSlices idx
  | .SpanDef sd =>
    [[11]] ++ (wordSlices sd.idx ++ (wordSlices sd.parentIdx ++ (bytesSlices (asBytes sd.path) ++
      ([[if sd.isPathReal then 1 else 0]] ++ (wordSlices sd.startLine ++ (wordSlices sd.endLine ++
        (wordSlices sd.startOfs ++ wordSlices sd.endOfs)))))))
  | .RawLiteral v => [[12]] ++ bytesSlices (asBytes v)
  | .Joined v => [[13]] ++ [[v]]
  | .OpenInvisible i => [[15]] ++ wordSlices i
  | .CloseInvisible => [[16]]
  | .Fragment i => [[17]] ++ wordSlices i

theorem u128vSlices_flatten (v : BitVec 128) : (u128vSlices v).flatten = u128vBytes v := by
  rw [u128vSlices, ← List.flatMap_def, List.flatMap_singleton']

section Handed

variable {S : Type} (inner : Sink Byte S)

/-- The slices are handed over to the stream, one `write` for each. -/
abbrev handed (vs : List (List Byte)) : Out S Unit := Write.hands inner (.expect "") vs

theorem write_hands (v : List Byte) : write inner v = handed inner [v] :=
  (hands_singleton ..).symm

theorem then_hands {w w' : Out S Unit} {vs vs' : List (List Byte)} (h : w = handed inner vs)
    (h' : w' = handed inner vs') : (do w; w') = handed inner (vs ++ vs') := by
  rw [h, h']
  exact (hands_append ..).symm

theorem putU128v_hands (v : BitVec 128) : putU128v inner v = handed inner (u128vSlices v) := by
  induction v using u128vBytes.induct with
  | case1 v hv ih =>
    rw [putU128v, dif_pos hv, u128vSlices, u128vBytes, dif_pos hv]
    exact then_hands inner (write_hands ..) ih
  | case2 v hv =>
    rw [putU128v, dif_neg hv, u128vSlices, u128vBytes, dif_neg hv]
    exact write_hands ..

theorem putI128v_hands (v : BitVec 128) :
    putI128v inner v = handed inner (u128vSlices (zigzag v)) := by
  unfold putI128v zigzag
  split_ifs <;> exact putU128v_hands ..

theorem putBytes_hands (v : List Byte) : putBytes inner v = handed inner (bytesSlices v) :=
  then_hands inner (putU128v_hands ..) (write_hands ..)

/-- The writer of a token does nothing else: one case for each kind. -/
theorem writeEnt_hands (t : Token) : writeEnt inner t = handed inner t.slices := by
  have hb (v : Byte) : putb inner v = handed inner [[v]] := write_hands ..
  have hw {w : Nat} (v : BitVec w) : putWord inner v = handed inner (wordSlices v) :=
    putU128v_hands ..
  cases t with
  | EndOfStream | CloseInvisible => exact hb _
  | Symbol v | Ident v | Lifetime v | String v | ByteString v | RawLiteral v =>
    exact then_hands inner (hb _) (putBytes_hands ..)
  | Char v => exact then_hands inner (hb _) (putU128v_hands ..)
  | Unsigned v sz => exact then_hands inner (hb _) (then_hands inner (hb _) (putU128v_hands ..))
  | Signed v sz => exact then_hands inner (hb _) (then_hands inner (hb _) (putI128v_hands ..))
  | Float v sz => exact then_hands inner (hb _) (then_hands inner (hb _) (write_hands ..))
  | SpanRef v | OpenInvisible v | Fragment v => exact then_hands inner (hb _) (hw _)
  | SpanDef sd =>
    exact then_hands inner (hb _) (then_hands inner (hw _) (then_hands inner (hw _)
      (then_hands inner (putBytes_hands ..) (then_hands inner (hb _) (then_hands inner (hw _)
        (then_hands inner (hw _) (then_hands inner (hw _) (hw _))))))))
  | Joined v => exact then_hands inner (hb _) (hb _)

end Handed

/-! ## 2. Receiving -/

/-- Of the bytes of the slices the reader receives the value, and takes no more than these. -/
abbrev Sends {α : Type} (vs : List (List Byte)) (r : In α) (a : α) : Prop :=
  Carries (fun _ : Empty => False) (fun _ : Unit => True) (fun _ _ => True) (fun _ _ => True)
    (Write.put vs.flatten) r a

section Rules

variable {α γ : Type} {vs vs' : List (List Byte)} {r : In α} {a : α}

theorem Sends.read (h : Sends vs r a) (rest : List Byte) :
    r (vs.flatten ++ rest) () = .ok (a, rest, ()) := by
  obtain ⟨t, hr, -⟩ := h.reads (s := ()) rfl trivial rest trivial
  exact hr

theorem Sends.of_read (h : ∀ rest, r (vs.flatten ++ rest) () = .ok (a, rest, ())) :
    Sends vs r a where
  stops he := by cases he
  kept _ _ := trivial
  reads hok _ _ rest _ := by
    cases hok
    exact ⟨(), h rest, trivial⟩

theorem Sends.bind {k : α → In γ} {c : γ} (h : Sends vs r a) (h' : Sends vs' (k a) c) :
    Sends (vs ++ vs') (r >>= k) c := by
  rw [Sends, List.flatten_append]
  exact Carries.bind h h'

end Rules

theorem byte_sends (v : Byte) (msg : String) : Sends [[v]] (getbExpect msg) v :=
  .of_read fun _ => rfl

/-! ## 3. Numbers -/

theorem group_wide : 0x7F#128 = (BitVec.allOnes 7).setWidth 128 := by decide

theorem group_narrow : 0x7F#8 = (BitVec.allOnes 7).setWidth 8 := by decide

/-- The lowest group of a number and the rest of it, put together again. -/
theorem groups_or (v : BitVec 128) (ofs : Nat) :
    ((v &&& 0x7F#128) <<< ofs) ||| ((v >>> 7) <<< (ofs + 7)) = v <<< ofs := by
  rw [group_wide]
  refine BitVec.eq_of_getLsbD_eq fun i hi => ?_
  simp only [BitVec.getLsbD_or, BitVec.getLsbD_shiftLeft, BitVec.getLsbD_and,
    BitVec.getLsbD_setWidth,
    BitVec.getLsbD_ushiftRight, BitVec.getLsbD_allOnes]
  by_cases h : i < ofs
  · have h' : i < ofs + 7 := by omega
    simp [h, h']
  · by_cases h' : i < ofs + 7
    · have hlow : i - ofs < 7 := by omega
      have hwide : i - ofs < 128 := by omega
      simp [h, h', hi, hlow, hwide]
    · have hlow : ¬ i - ofs < 7 := by omega
      have hi' : 7 + (i - (ofs + 7)) = i - ofs := by omega
      simp [h, h', hi, hlow, hi']

/-- The group comes out of its byte, with any mark in it. -/
theorem group_byte (v : BitVec 128) {m : BitVec 8} (hm : m &&& 0x7F#8 = 0#8) :
    (((v &&& 0x7F#128).setWidth 8 ||| m) &&& 0x7F#8).setWidth 128 = v &&& 0x7F#128 := by
  have hmark : ((v &&& 0x7F#128).setWidth 8 ||| m) &&& 0x7F#8 =
      (v &&& 0x7F#128).setWidth 8 &&& 0x7F#8 := by
    rw [BitVec.and_comm, BitVec.and_or_distrib_left, BitVec.and_comm _ m, hm, BitVec.or_zero,
      BitVec.and_comm]
  rw [hmark, group_wide, group_narrow]
  refine BitVec.eq_of_getLsbD_eq fun i hi => ?_
  simp only [BitVec.getLsbD_and, BitVec.getLsbD_setWidth, BitVec.getLsbD_allOnes]
  by_cases h : i < 7
  · have h' : i < 8 := by omega
    simp [h, h', hi]
  · simp [h]

theorem marked_ge (b : BitVec 8) : ¬ b ||| 0x80#8 < 128#8 := by
  intro h
  have hmsb : (b ||| 0x80#8).msb = true := by
    rw [BitVec.msb_or, show (0x80#8).msb = true from rfl, Bool.or_true]
  rw [BitVec.msb_eq_true_iff_two_mul_ge] at hmsb
  have hlt : (b ||| 0x80#8).toNat < 128 := BitVec.lt_def.mp h
  omega

/-- A number below 128 is its lowest group. -/
theorem group_eq {v : BitVec 128} (h : ¬ v ≥ 128#128) : v &&& 0x7F#128 = v := by
  have hmask : (0x7F#128).toNat = 2 ^ 7 - 1 := rfl
  have hlt : v.toNat < 128 := by
    rw [ge_iff_le, BitVec.le_def] at h
    exact Nat.lt_of_not_le h
  apply BitVec.eq_of_toNat_eq
  rw [BitVec.toNat_and, hmask, Nat.and_two_pow_sub_one_eq_mod, Nat.mod_eq_of_lt hlt]

/-- The loop reads the rest of a number, if it fits behind what was read. -/
theorem u128vFrom_bytes (v : BitVec 128) (ofs : Nat) (rawRv : BitVec 128) (rest : List Byte)
    (h : v.toNat * 2 ^ ofs < 2 ^ 128) :
    u128vFrom ofs rawRv (u128vBytes v ++ rest) () = .ok (rawRv ||| v <<< ofs, rest, ()) := by
  induction v using u128vBytes.induct generalizing ofs rawRv with
  | case1 v hv ih =>
    have hge : 128 ≤ v.toNat := BitVec.le_def.mp hv
    have hdiv : (v >>> 7).toNat = v.toNat / 2 ^ 7 := by
      rw [BitVec.toNat_ushiftRight, Nat.shiftRight_eq_div_pow]
    -- there is another group, so this one is not the last that fits
    have hofs : ofs < 18 * 7 := by
      by_contra hofs
      have hpow : 2 ^ 126 ≤ 2 ^ ofs := Nat.pow_le_pow_right (by decide) (by omega)
      have hmul := Nat.mul_le_mul hge hpow
      omega
    have hrest : (v >>> 7).toNat * 2 ^ (ofs + 7) < 2 ^ 128 := by
      have hle : v.toNat / 2 ^ 7 * 2 ^ 7 * 2 ^ ofs ≤ v.toNat * 2 ^ ofs :=
        Nat.mul_le_mul_right _ (Nat.div_mul_le_self ..)
      rw [hdiv, Nat.pow_add, Nat.mul_comm (2 ^ ofs), ← Nat.mul_assoc]
      omega
    rw [u128vBytes, dif_pos hv, List.cons_append, u128vFrom, if_neg (marked_ge _), if_pos hofs,
      group_byte v (by decide), ih _ _ hrest, BitVec.or_assoc, groups_or]
  | case2 v hv =>
    have hbyte : ((v &&& 0x7F#128).setWidth 8 : Byte) = (v &&& 0x7F#128).setWidth 8 ||| 0#8 :=
      BitVec.or_zero.symm
    have hlt : ((v &&& 0x7F#128).setWidth 8 : Byte) < 128#8 := by
      have hv' : v.toNat < 128 := by
        rw [ge_iff_le, BitVec.le_def] at hv
        exact Nat.lt_of_not_le hv
      rw [group_eq hv, BitVec.lt_def, BitVec.toNat_setWidth]
      exact Nat.lt_of_le_of_lt (Nat.mod_le ..) hv'
    rw [u128vBytes, dif_neg hv, List.singleton_append, u128vFrom, if_pos hlt]
    rw [hbyte, group_byte v (by decide), group_eq hv]

theorem u128v_sends (v : BitVec 128) : Sends (u128vSlices v) getU128v v := by
  refine .of_read fun rest => ?_
  rw [u128vSlices_flatten]
  have hread := u128vFrom_bytes v 0 0 rest (by rw [Nat.pow_zero, Nat.mul_one]; exact v.isLt)
  rw [BitVec.shiftLeft_zero, show (0 : BitVec 128) ||| v = v from BitVec.zero_or] at hread
  exact hread

theorem word_sends {w : Nat} (hw : w ≤ 128) (v : BitVec w) :
    Sends (wordSlices v) (getWord w) v := by
  refine (u128v_sends (v.setWidth 128)).last ?_
  rw [BitVec.setWidth_setWidth_of_le _ hw, BitVec.setWidth_eq]

theorem slice_sends (v : List Byte) : Sends [v] (Read.take v.length .shortRead) v := by
  rw [Sends, List.flatten_singleton]
  exact Carries.take

theorem f64_sends (v : BitVec 64) : Sends [leBytes 8 v.toNat] getF64 v := by
  have hbytes := slice_sends (leBytes 8 v.toNat)
  rw [leBytes_length] at hbytes
  refine hbytes.last ?_
  rw [leValue_leBytes v.isLt, BitVec.ofNat_toNat, BitVec.setWidth_eq]

/-! ## 4. Bytes and strings -/

theorem bytes_sends {v : List Byte} (hv : v.length < 2 ^ 30) :
    Sends (bytesSlices v) getByteVec v := by
  have hmod : v.length % 2 ^ 128 = v.length := Nat.mod_eq_of_lt (by omega)
  refine (u128v_sends _).bind ?_
  rw [if_pos (by rw [BitVec.lt_def, BitVec.toNat_ofNat, hmod]; exact hv), BitVec.toNat_ofNat, hmod]
  exact slice_sends v

theorem fromUtf8_asBytes (v : Text) : fromUtf8 (asBytes v) = some v := by
  have hbytes : ByteArray.mk ((asBytes v).map UInt8.ofBitVec).toArray = v.utf8Encode := by
    have hmap : (asBytes v).map UInt8.ofBitVec = v.flatMap String.utf8EncodeChar := by
      rw [asBytes, List.map_map]
      exact List.map_id' _
    apply ByteArray.ext
    rw [hmap, List.utf8Encode, List.data_toByteArray]
  rw [fromUtf8, hbytes, List.utf8Decode?_utf8Encode]
  rfl

theorem string_sends {v : Text} (hv : (asBytes v).length < 2 ^ 30) :
    Sends (bytesSlices (asBytes v)) getString v := by
  refine (bytes_sends hv).last ?_
  rw [fromUtf8_asBytes]

/-! ## 5. Signed numbers -/

/-- The number that `get_i128v` takes another for, where nothing overflows. -/
def unzigzag (rawRv : BitVec 128) : BitVec 128 :=
  if rawRv &&& 1 ≠ 0 then -((rawRv >>> 1) + 1) else rawRv >>> 1

theorem odd_iff (x : BitVec 128) : x &&& 1 ≠ 0 ↔ x.toNat % 2 = 1 := by
  rw [Ne, ← BitVec.toNat_inj, BitVec.toNat_and, show (1 : BitVec 128).toNat = 1 from rfl,
    Nat.and_one_is_mod, show (0 : BitVec 128).toNat = 0 from rfl]
  omega

theorem slt_zero_iff (v : BitVec 128) : v.slt 0 = true ↔ 2 ^ 127 ≤ v.toNat := by
  have hint := BitVec.toInt_eq_toNat_cond v
  have hlt := v.isLt
  rw [BitVec.slt_iff_toInt_lt, show (0 : BitVec 128).toInt = 0 from rfl, hint]
  split_ifs <;> omega

theorem zigzag_neg {v : BitVec 128} (hv : 2 ^ 127 ≤ v.toNat) :
    (zigzag v).toNat = 2 * ((v.toNat + 1) % 2 ^ 127) + 1 := by
  have hor (a : Nat) : 2 * a ||| 1 = 2 * a + 1 :=
    (Nat.two_pow_add_eq_or_of_lt (i := 1) (by decide) a).symm
  have hshift : (v.toNat + 1) % 2 ^ 128 * 2 ^ 1 % 2 ^ 128 =
    2 * ((v.toNat + 1) % 2 ^ 127) := by omega
  rw [zigzag, if_pos ((slt_zero_iff v).mpr hv), BitVec.toNat_or, BitVec.toNat_shiftLeft,
    BitVec.toNat_add, Nat.shiftLeft_eq, show (1 : BitVec 128).toNat = 1 from rfl, hshift, hor]

theorem zigzag_nonneg {v : BitVec 128} (hv : v.toNat < 2 ^ 127) :
    (zigzag v).toNat = 2 * v.toNat := by
  rw [zigzag, if_neg (by rw [slt_zero_iff]; omega), BitVec.toNat_shiftLeft, Nat.shiftLeft_eq]
  omega

/-- The numbers that come back: of the negative ones, `v + 1` has to be its own opposite in the bits
    that are left of it. -/
theorem unzigzag_zigzag (v : BitVec 128) :
    unzigzag (zigzag v) = v ↔ 0 ≤ v.toInt ∨ v.toInt = -1 ∨ v.toInt = -2 ^ 126 - 1 := by
  have hlt := v.isLt
  have hint := BitVec.toInt_eq_toNat_cond v
  rw [unzigzag, ← BitVec.toNat_inj]
  rcases Nat.lt_or_ge v.toNat (2 ^ 127) with hv | hv
  · have hz := zigzag_nonneg hv
    rw [if_neg (by rw [odd_iff]; omega), BitVec.toNat_ushiftRight, hz, Nat.shiftRight_eq_div_pow]
    split_ifs at hint <;> omega
  · have hz := zigzag_neg hv
    rw [if_pos (by rw [odd_iff]; omega), BitVec.toNat_neg, BitVec.toNat_add,
      BitVec.toNat_ushiftRight,
      hz, Nat.shiftRight_eq_div_pow, show (1 : BitVec 128).toNat = 1 from rfl]
    split_ifs at hint <;> omega

/-- Whether `get_i128v` overflows. -/
def Overflows (rawRv : BitVec 128) : Prop :=
  (rawRv >>> 1).saddOverflow 1 ∨ (rawRv >>> 1 + 1).negOverflow

theorem not_overflows {rawRv : BitVec 128} (h : rawRv.toNat < 2 ^ 128 - 2) : ¬ Overflows rawRv := by
  have hhalf : (rawRv >>> 1).toNat = rawRv.toNat / 2 := by
    rw [BitVec.toNat_ushiftRight, Nat.shiftRight_eq_div_pow]
  have hnext : (rawRv >>> 1 + 1).toNat = rawRv.toNat / 2 + 1 := by
    rw [BitVec.toNat_add, hhalf, show (1 : BitVec 128).toNat = 1 from rfl]
    omega
  have hint : (rawRv >>> 1).toInt = (rawRv.toNat / 2 : Nat) := by
    rw [BitVec.toInt_eq_toNat_of_lt (by omega), hhalf]
  have hint' : (rawRv >>> 1 + 1).toInt = (rawRv.toNat / 2 + 1 : Nat) := by
    rw [BitVec.toInt_eq_toNat_of_lt (by omega), hnext]
  unfold Overflows BitVec.saddOverflow BitVec.negOverflow
  rw [hint, hint', show (1 : BitVec 128).toInt = 1 from rfl]
  simp only [Bool.or_eq_true, decide_eq_true_eq, beq_iff_eq]
  omega

section Signed

variable (overflowChecks : Bool)

/-- What is read of a signed number is `unzigzag`, if anything. -/
theorem signed_read {x : BitVec 128} {bs bs' : List Byte} {t t' : Unit}
    (h : getI128v overflowChecks bs t = .ok (x, bs', t')) :
    ∃ rawRv, getU128v bs t = .ok (rawRv, bs', t') ∧ x = unzigzag rawRv := by
  obtain ⟨rawRv, bs₁, t₁, hraw, h⟩ := Read.bind_ok h
  refine ⟨rawRv, ?_⟩
  dsimp only at h
  unfold unzigzag
  split_ifs at h ⊢
  · cases h
  · cases h
    exact ⟨hraw, rfl⟩
  · cases h
    exact ⟨hraw, rfl⟩

theorem signed_sends {v : BitVec 128}
    (hv : 0 ≤ v.toInt ∨ v.toInt = -1 ∨ v.toInt = -2 ^ 126 - 1) :
    Sends (u128vSlices (zigzag v)) (getI128v overflowChecks) v := by
  have hback : unzigzag (zigzag v) = v := (unzigzag_zigzag v).mpr hv
  refine (u128v_sends (zigzag v)).last ?_
  dsimp only
  unfold unzigzag at hback
  split_ifs at hback ⊢ with hodd hover
  · -- the two negative numbers are far from the limit
    have hneg : 2 ^ 127 ≤ v.toNat := by
      by_contra hlt
      rw [odd_iff, zigzag_nonneg (by omega)] at hodd
      omega
    have hno : ¬ Overflows (zigzag v) := by
      have hint := BitVec.toInt_eq_toNat_cond v
      rw [if_neg (by omega)] at hint
      refine not_overflows ?_
      rw [zigzag_neg hneg]
      omega
    rw [Bool.and_eq_true, Bool.or_eq_true] at hover
    exact absurd hover.2 hno
  · rw [hback]
  · rw [hback]

end Signed

/-! ## 6. Tokens -/

theorem char_sends {v : Char} (hv : v.toNat ≠ 0x10FFFF) :
    Sends (u128vSlices (BitVec.ofNat 128 v.toNat)) getChar v := by
  have hvalid : v.toNat.isValidChar := v.valid
  have hmax : v.toNat < 0x110000 := by
    rcases hvalid with h | h <;> omega
  have hnum : (BitVec.ofNat 128 v.toNat).toNat = v.toNat := by
    rw [BitVec.toNat_ofNat, Nat.mod_eq_of_lt (by omega)]
  have hword : ((BitVec.ofNat 128 v.toNat).setWidth 32).toNat = v.toNat := by
    rw [BitVec.toNat_setWidth, hnum, Nat.mod_eq_of_lt (by omega)]
  have hlt : BitVec.ofNat 128 v.toNat < 0x10FFFF#128 := by
    rw [BitVec.lt_def, hnum, show (0x10FFFF#128).toNat = 0x10FFFF from rfl]
    omega
  refine (u128v_sends _).last ?_
  rw [if_pos hlt, fromU32, hword, if_pos hvalid, Char.ofNat_toNat]

/-- The strings of a token have less than 2^30 bytes. -/
def Token.Short : Token → Prop
  | .Symbol v | .Ident v | .Lifetime v | .String v | .RawLiteral v => (asBytes v).length < 2 ^ 30
  | .ByteString v => v.length < 2 ^ 30
  | .SpanDef sd => (asBytes sd.path).length < 2 ^ 30
  | _ => True

/-- The tokens that are received as they were sent. -/
def Token.Kept : Token → Prop
  | .Char v => v.toNat ≠ 0x10FFFF
  | .Signed v _ => 0 ≤ v.toInt ∨ v.toInt = -1 ∨ v.toInt = -2 ^ 126 - 1
  | _ => True

section Tokens

variable (overflowChecks : Bool)

theorem ent_sends {vs : List (List Byte)} {hdrB : Byte} {t : Token}
    (h : Sends vs (entOf overflowChecks hdrB) t) :
    Sends ([[hdrB]] ++ vs) (readEnt overflowChecks) (some t) := by
  have hb : Sends [[hdrB]] getb (some hdrB) := .of_read fun _ => rfl
  exact hb.bind h.map

/-- A kind of token that is nothing but its byte. -/
theorem bare_sends {hdrB : Byte} {t : Token} (h : entOf overflowChecks hdrB = pure t) :
    Sends [[hdrB]] (readEnt overflowChecks) (some t) := by
  have hb : Sends [[hdrB]] getb (some hdrB) := .of_read fun _ => rfl
  refine hb.last ?_
  dsimp only
  rw [h]
  rfl

/-- A token is received, if it is one of those: one case for each kind. -/
theorem token_sends {t : Token} (hs : t.Short) (hk : t.Kept) :
    Sends t.slices (readEnt overflowChecks) (some t) := by
  cases t with
  | EndOfStream => exact bare_sends _ rfl
  | Symbol v => exact ent_sends _ (string_sends hs).map
  | Ident v => exact ent_sends _ (string_sends hs).map
  | Lifetime v => exact ent_sends _ (string_sends hs).map
  | String v => exact ent_sends _ (string_sends hs).map
  | ByteString v => exact ent_sends _ (bytes_sends hs).map
  | Char v => exact ent_sends _ (char_sends hk).map
  | Unsigned v sz => exact ent_sends _ ((byte_sends sz _).bind (u128v_sends v).map)
  | Signed v sz => exact ent_sends _ ((byte_sends sz _).bind (signed_sends overflowChecks hk).map)
  | Float v sz => exact ent_sends _ ((byte_sends sz _).bind (f64_sends v).map)
  | SpanRef idx => exact ent_sends _ (word_sends (by decide) idx).map
  | SpanDef sd =>
    have hw (v : BitVec 64) : Sends (wordSlices v) (getWord 64) v := word_sends (by decide) v
    refine ent_sends _ ((hw sd.idx).bind ((hw sd.parentIdx).bind ((string_sends hs).bind
      ((byte_sends _ _).bind ((hw sd.startLine).bind ((hw sd.endLine).bind ((hw sd.startOfs).bind
        ((hw sd.endOfs).last ?_))))))))
    obtain ⟨_, _, _, isPathReal, _, _, _, _⟩ := sd
    cases isPathReal <;> rfl
  | RawLiteral v => exact ent_sends _ (string_sends hs).map
  | Joined v => exact ent_sends _ (byte_sends v _).map
  | OpenInvisible i => exact ent_sends _ (word_sends (by decide) i).map
  | CloseInvisible => exact bare_sends _ rfl
  | Fragment i => exact ent_sends _ (word_sends (by decide) i).map

end Tokens

end Trustme.ProcMacro
