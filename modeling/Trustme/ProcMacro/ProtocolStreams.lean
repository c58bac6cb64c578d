/-
  Subject:   Sequences of tokens over a stream that may take less than it is given.

  * `ent_takes`: for a token that is kept the reader takes as many bytes as it has, or more;
  * `signed_in_step`: a reader that is ahead of a signed number does not find it in its own bytes;
  * `in_step`: once the reader is ahead it stays ahead, by induction on the sequence;
  * `RoundTrips`: **`wire_round_trips`**.
-/
import Trustme.ProcMacro.ProtocolRuns

namespace Trustme.ProcMacro

open Trustme.Lib Writer Reader

/-! ## 1. How many bytes a number needs -/

theorem u128vBytes_ne_nil (v : BitVec 128) : u128vBytes v ≠ [] := by
  rw [u128vBytes]
  split <;> exact List.cons_ne_nil _ _

/-- A number has the least number of groups that hold it. -/
theorem u128vBytes_length_le (v : BitVec 128) : ∀ {k : Nat}, 1 ≤ k → v.toNat < 2 ^ (7 * k) →
    (u128vBytes v).length ≤ k := by
  induction v using u128vBytes.induct with
  | case1 v hv ih =>
    intro k hk hlt
    have hge : 128 ≤ v.toNat := BitVec.le_def.mp hv
    obtain ⟨k, rfl⟩ : ∃ j, k = j + 1 := ⟨k - 1, by omega⟩
    rw [Nat.mul_succ, Nat.pow_add] at hlt
    have hk' : 1 ≤ k := by
      rcases k with _ | k
      · rw [Nat.mul_zero] at hlt
        omega
      · exact Nat.succ_pos k
    have hdiv : (v >>> 7).toNat < 2 ^ (7 * k) := by
      rw [BitVec.toNat_ushiftRight, Nat.shiftRight_eq_div_pow]
      exact Nat.div_lt_of_lt_mul (by rwa [Nat.mul_comm])
    rw [u128vBytes, dif_pos hv, List.length_cons]
    exact Nat.succ_le_succ (ih hk' hdiv)
  | case2 v hv =>
    intro k hk _
    rw [u128vBytes, dif_neg hv]
    exact hk

/-- All bytes of a number but the last are marked. -/
theorem u128vBytes_marked (v : BitVec 128) : ∀ {pre post : List Byte} {b : Byte},
    u128vBytes v = pre ++ b :: post → post ≠ [] → ¬ b < 128#8 := by
  induction v using u128vBytes.induct with
  | case1 v hv ih =>
    intro pre post b h hpost
    rw [u128vBytes, dif_pos hv] at h
    cases pre with
    | nil =>
      cases h
      exact marked_ge _
    | cons p pre => exact ih (List.cons.inj h).2 hpost
  | case2 v hv =>
    intro pre post b h hpost
    rw [u128vBytes, dif_neg hv] at h
    have hlen := congrArg List.length h
    have hpos := List.length_pos_of_ne_nil hpost
    simp only [List.length_append, List.length_cons, List.length_nil] at hlen
    omega

/-- The loop of the reader: a number below the bound of the groups that were taken. -/
theorem u128vFrom_takes {bs bs' : List Byte} {ofs : Nat} {rawRv v : BitVec 128} {t t' : Unit}
    (hraw : rawRv.toNat < 2 ^ ofs) (h : u128vFrom ofs rawRv bs t = .ok (v, bs', t')) :
    ∃ taken, bs = taken ++ bs' ∧ 1 ≤ taken.length ∧ v.toNat < 2 ^ (ofs + 7 * taken.length) := by
  induction bs generalizing ofs rawRv with
  | nil => cases h
  | cons b bs ih =>
    have hgroup : ((b &&& 0x7F#8).setWidth 128).toNat < 2 ^ 7 := by
      have hmask : (b &&& 0x7F#8).toNat ≤ (0x7F#8).toNat := by
        rw [BitVec.toNat_and]
        exact Nat.and_le_right
      have hwide : ((b &&& 0x7F#8).setWidth 128).toNat ≤ (b &&& 0x7F#8).toNat := by
        rw [BitVec.toNat_setWidth]
        exact Nat.mod_le ..
      exact Nat.lt_of_le_of_lt (Nat.le_trans hwide hmask) (by decide)
    have hnext : (rawRv ||| ((b &&& 0x7F#8).setWidth 128 <<< ofs)).toNat < 2 ^ (ofs + 7) := by
      rw [BitVec.toNat_or, BitVec.toNat_shiftLeft, Nat.shiftLeft_eq]
      refine Nat.or_lt_two_pow (Nat.lt_of_lt_of_le hraw (Nat.pow_le_pow_right (by decide)
        (Nat.le_add_right ..))) (Nat.lt_of_le_of_lt (Nat.mod_le ..) ?_)
      rw [Nat.add_comm, Nat.pow_add]
      exact Nat.mul_lt_mul_of_pos_right hgroup (Nat.two_pow_pos ofs)
    rw [u128vFrom] at h
    split_ifs at h
    · cases h
      exact ⟨[b], rfl, Nat.le_refl _, hnext⟩
    · obtain ⟨taken, rfl, hpos, hlt⟩ := ih hnext h
      refine ⟨b :: taken, rfl, Nat.succ_pos _, ?_⟩
      rwa [List.length_cons, Nat.mul_succ, ← Nat.add_assoc, Nat.add_right_comm]

/-! ## 2. How many bytes a token needs -/

theorem u128v_takes : (getU128v).AtLeast fun v => (u128vSlices v).flatten.length where
  takes h := by
    obtain ⟨taken, hbs, hpos, hlt⟩ := u128vFrom_takes (by decide) h
    rw [Nat.zero_add] at hlt
    exact ⟨taken, hbs, u128vSlices_flatten _ ▸ u128vBytes_length_le _ hpos hlt⟩

theorem byte_takes (msg : String) : (getbExpect msg).AtLeast fun _ => 1 where
  takes {bs _ _ _ _} h := by
    rcases bs with _ | ⟨b, bs⟩
    · cases h
    · cases h
      exact ⟨[_], rfl, Nat.le_refl 1⟩

theorem u128vBytes_mono {v v' : BitVec 128} (h : v.toNat ≤ v'.toNat) :
    (u128vBytes v).length ≤ (u128vBytes v').length := by
  obtain ⟨taken, htaken, hpos, hlt⟩ := u128vFrom_takes (by decide) ((u128v_sends v').read [])
  rw [u128vSlices_flatten, List.append_nil, List.append_nil] at htaken
  subst htaken
  rw [Nat.zero_add] at hlt
  exact u128vBytes_length_le v hpos (Nat.lt_of_le_of_lt h hlt)

/-- A number that is made narrower has no more groups. -/
theorem word_takes (w : Nat) : (getWord w).AtLeast fun v => (wordSlices v).flatten.length := by
  refine u128v_takes.map fun v => ?_
  rw [wordSlices, u128vSlices_flatten, u128vSlices_flatten]
  refine u128vBytes_mono ?_
  rw [BitVec.toNat_setWidth, BitVec.toNat_setWidth]
  exact Nat.le_trans (Nat.mod_le ..) (Nat.mod_le ..)

theorem bytes_takes : getByteVec.AtLeast fun v => (bytesSlices v).flatten.length where
  takes h := by
    rw [getByteVec] at h
    obtain ⟨size, _, _, hsize, hrest⟩ := Read.bind_ok h
    obtain ⟨first, rfl, hfirst⟩ := u128v_takes.takes hsize
    split_ifs at hrest
    · obtain ⟨hlen, rfl⟩ := Read.take_ok hrest
      refine ⟨_, (List.append_assoc ..).symm, ?_⟩
      rw [bytesSlices, List.flatten_append, List.flatten_singleton, List.length_append,
        List.length_append, hlen, BitVec.ofNat_toNat, BitVec.setWidth_eq]
      exact Nat.add_le_add_right hfirst _
    · cases hrest

theorem asBytes_fromUtf8 {raw : List Byte} {v : Text} (h : fromUtf8 raw = some v) :
    asBytes v = raw := by
  obtain ⟨cs, hcs, rfl⟩ := Option.map_eq_some_iff.mp h
  have hsome := Option.isSome_of_eq_some hcs
  have henc := ByteArray.utf8Encode_get_utf8Decode? (h := hsome)
  rw [Option.get_of_eq_some hsome hcs, List.utf8Encode] at henc
  have hdata := congrArg (fun b => b.data.toList.map UInt8.toBitVec) henc
  simp only [List.data_toByteArray, List.toList_toArray, List.map_map] at hdata
  rw [asBytes, hdata]
  exact List.map_id' _

theorem string_takes : getString.AtLeast fun v => (bytesSlices (asBytes v)).flatten.length := by
  refine bytes_takes.bind fun raw => ?_
  split
  · next v hv => exact .pure (by rw [asBytes_fromUtf8 hv, Nat.sub_self])
  · exact .stop

theorem f64_takes : getF64.AtLeast fun _ => 8 where
  takes h := by
    rw [getF64] at h
    obtain ⟨buf, _, _, hbuf, hrest⟩ := Read.bind_ok h
    obtain ⟨hlen, rfl⟩ := Read.take_ok hbuf
    cases hrest
    exact ⟨buf, rfl, Nat.le_of_eq hlen.symm⟩

/-- A `char` that is read is its number, and that is not the largest one. -/
theorem char_read {c : Char} {bs bs' : List Byte} {t t' : Unit}
    (h : getChar bs t = .ok (c, bs', t')) :
    getU128v bs t = .ok (BitVec.ofNat 128 c.toNat, bs', t') ∧ c.toNat < 0x10FFFF := by
  rw [getChar] at h
  obtain ⟨v, _, _, hv, hrest⟩ := Read.bind_ok h
  split_ifs at hrest with hlt
  · have hv32 : (v.setWidth 32).toNat = v.toNat := by
      rw [BitVec.toNat_setWidth]
      exact Nat.mod_eq_of_lt (Nat.lt_trans (BitVec.lt_def.mp hlt) (by decide))
    rw [fromU32, hv32] at hrest
    split_ifs at hrest with hvalid
    · cases hrest
      have hc : (Char.ofNat v.toNat).toNat = v.toNat := by
        rw [Char.ofNat, dif_pos hvalid]
        rfl
      rw [hc, BitVec.ofNat_toNat, BitVec.setWidth_eq]
      exact ⟨hv, BitVec.lt_def.mp hlt⟩
    · cases hrest
  · cases hrest

theorem char_takes :
    getChar.AtLeast fun c => (u128vSlices (BitVec.ofNat 128 c.toNat)).flatten.length where
  takes h := u128v_takes.takes (char_read h).1

theorem unzigzag_injective {a b : BitVec 128} (h : unzigzag a = unzigzag b) : a = b := by
  have hcases (x : BitVec 128) : x.toNat % 2 = 0 ∧ (unzigzag x).toNat = x.toNat / 2 ∨
      x.toNat % 2 = 1 ∧ (unzigzag x).toNat = 2 ^ 128 - (x.toNat / 2 + 1) := by
    have hlt := x.isLt
    unfold unzigzag
    split_ifs with hodd
    · rw [odd_iff] at hodd
      refine .inr ⟨hodd, ?_⟩
      rw [BitVec.toNat_neg, BitVec.toNat_add, BitVec.toNat_ushiftRight, Nat.shiftRight_eq_div_pow,
        show (1 : BitVec 128).toNat = 1 from rfl]
      omega
    · rw [odd_iff] at hodd
      exact .inl ⟨by omega, by rw [BitVec.toNat_ushiftRight, Nat.shiftRight_eq_div_pow]⟩
  have ha := a.isLt
  have hb := b.isLt
  apply BitVec.eq_of_toNat_eq
  rcases hcases a with ⟨ha₂, hau⟩ | ⟨ha₂, hau⟩ <;> rcases hcases b with ⟨hb₂, hbu⟩ | ⟨hb₂, hbu⟩ <;>
    rw [h, hbu] at hau <;> omega

section Tokens

variable (overflowChecks : Bool)

theorem signed_takes : (getI128v overflowChecks).AtLeast fun v =>
    if unzigzag (zigzag v) = v then (u128vSlices (zigzag v)).flatten.length else 0 where
  takes h := by
    obtain ⟨rawRv, hraw, rfl⟩ := signed_read _ h
    obtain ⟨taken, hbs, hlen⟩ := u128v_takes.takes hraw
    refine ⟨taken, hbs, ?_⟩
    split_ifs with hback
    · rwa [unzigzag_injective hback]
    · exact Nat.zero_le _

/-- A bound for the bytes that a token is read of. -/
def Token.least : Token → Nat
  | .Signed v _ =>
    if unzigzag (zigzag v) = v then 2 + (u128vSlices (zigzag v)).flatten.length else 0
  | t => t.slices.flatten.length

theorem Token.least_of_kept {t : Token} (h : t.Kept) : t.least = t.slices.flatten.length := by
  cases t with
  | Signed v sz =>
    rw [Token.least, if_pos ((unzigzag_zigzag v).mpr h)]
    rw [Token.slices, List.flatten_append, List.flatten_append, List.length_append,
      List.length_append, ← Nat.add_assoc]
    rfl
  | _ => rfl

theorem getb_takes : getb.AtLeast fun b => b.toList.length where
  takes {bs _ _ _ _} h := by
    rcases bs with _ | ⟨b, bs⟩
    · cases h
      exact ⟨[], rfl, Nat.le_refl 0⟩
    · cases h
      exact ⟨[_], rfl, Nat.le_refl 1⟩

theorem tagged_length (b : Byte) (vs : List (List Byte)) :
    ([[b]] ++ vs).flatten.length - 1 = vs.flatten.length := by
  rw [List.flatten_append, List.length_append]
  exact Nat.add_sub_cancel_left ..

/-- What follows the byte of the kind: one case for each kind. -/
theorem entOf_takes (hdrB : Byte) :
    (entOf overflowChecks hdrB).AtLeast fun t => t.least - 1 := by
  have hbyte (b : Byte) (vs : List (List Byte)) :
      ([[b]] ++ vs).flatten.length - 1 ≤ vs.flatten.length := Nat.le_of_eq (tagged_length b vs)
  have hbytes (b ty : Byte) (vs : List (List Byte)) :
      ([[b]] ++ ([[ty]] ++ vs)).flatten.length - 1 - 1 ≤ vs.flatten.length := by
    rw [tagged_length, tagged_length]
  unfold entOf
  refine .ite (.pure rfl) <| .ite (string_takes.map fun v => hbyte 1 _) <|
    .ite (string_takes.map fun v => hbyte 2 _) <| .ite (string_takes.map fun v => hbyte 3 _) <|
    .ite (string_takes.map fun v => hbyte 4 _) <| .ite (bytes_takes.map fun v => hbyte 5 _) <|
    .ite (char_takes.map fun v => hbyte 6 _) <|
    .ite ((byte_takes _).bind fun ty => u128v_takes.map fun v => hbytes 7 ty _) <|
    .ite ((byte_takes _).bind fun ty => (signed_takes _).map fun v => ?_) <|
    .ite ((byte_takes _).bind fun ty => f64_takes.map fun v => ?_) <|
    .ite ((word_takes 64).map fun v => hbyte 10 _) <| .ite ?_ <|
    .ite (string_takes.map fun v => hbyte 12 _) <|
    .ite ((byte_takes _).map fun v => Nat.le_refl 1) <|
    .ite ((word_takes 32).map fun v => hbyte 15 _) <| .ite (.pure rfl) <|
    .ite ((word_takes 32).map fun v => hbyte 17 _) .stop
  · rw [Token.least]
    split_ifs <;> omega
  · refine Nat.le_trans (hbytes 9 ty _) ?_
    rw [List.flatten_singleton, leBytes_length]
  · refine (word_takes 64).bind fun idx => (word_takes 64).bind fun parentIdx =>
      string_takes.bind fun path => (byte_takes _).bind fun isPathReal =>
      (word_takes 64).bind fun startLine => (word_takes 64).bind fun endLine =>
      (word_takes 64).bind fun startOfs => (word_takes 64).map fun endOfs => ?_
    simp only [Token.least, Token.slices, List.flatten_append, List.length_append,
      List.flatten_singleton, List.length_singleton]
    omega

/-- For a token the reader takes as many bytes as it has, or more, if it is one of those. -/
theorem ent_takes : (readEnt overflowChecks).AtLeast fun t => t.elim 0 Token.least := by
  refine getb_takes.bind fun hdrB => ?_
  cases hdrB with
  | none => exact .pure rfl
  | some hdrB => exact (entOf_takes overflowChecks hdrB).map fun t => Nat.le_refl _

/-! ## 3. What a token is read of -/

theorem entOf_gives (hdrB : Byte) :
    (entOf overflowChecks hdrB).Gives fun t => t.slices.flatten.head? = some hdrB := by
  unfold entOf
  repeat' first
    | exact .stop
    | exact .pure (congrArg some ‹_ = _›.symm)
    | refine .ite (fun _ => ?_) ?_
    | refine .bind fun _ => ?_

variable {bs bs' : List Byte} {u u' : Unit}

theorem ent_read {t : Token} (h : readEnt overflowChecks bs u = .ok (some t, bs', u')) :
    ∃ hdrB bs₁, bs = hdrB :: bs₁ ∧ t.slices.flatten.head? = some hdrB ∧
      entOf overflowChecks hdrB bs₁ u = .ok (t, bs', u') := by
  rw [readEnt] at h
  obtain ⟨x, bs₁, u₁, hb, hrest⟩ := Read.bind_ok h
  rcases bs with _ | ⟨hdrB, bs⟩
  · cases hb
    cases hrest
  · cases hb
    obtain ⟨t', _, _, hent, hrest⟩ := Read.bind_ok hrest
    cases hrest
    exact ⟨hdrB, _, rfl, (entOf_gives overflowChecks hdrB).holds hent, hent⟩

/-- The largest `char` is not read. -/
theorem char_found {v : Char}
    (h : readEnt overflowChecks bs u = .ok (some (.Char v), bs', u')) : v.toNat ≠ 0x10FFFF := by
  obtain ⟨hdrB, bs₁, -, hhead, hent⟩ := ent_read overflowChecks h
  cases hhead
  obtain ⟨c, _, _, hc, hrest⟩ := Read.bind_ok (r := getChar) hent
  cases hrest
  exact Nat.ne_of_lt (char_read hc).2

/-- A signed number is read of its byte, its size, and a number that is mapped to it. -/
theorem signed_found {v : BitVec 128} {sz : Byte}
    (h : readEnt overflowChecks bs u = .ok (some (.Signed v sz), bs', u')) :
    ∃ bs₁ rawRv, bs = 8 :: sz :: bs₁ ∧ getU128v bs₁ u = .ok (rawRv, bs', u') ∧
      v = unzigzag rawRv := by
  obtain ⟨hdrB, bs₁, rfl, hhead, hent⟩ := ent_read overflowChecks h
  cases hhead
  obtain ⟨ty, bs₂, _, hty, hent⟩ := Read.bind_ok (r := getbExpect "getb int ty") hent
  obtain ⟨val, _, _, hval, hrest⟩ := Read.bind_ok (r := getI128v overflowChecks) hent
  cases hrest
  rcases bs₁ with _ | ⟨b, bs₁⟩
  · cases hty
  · cases hty
    obtain ⟨rawRv, hraw, hv⟩ := signed_read _ hval
    exact ⟨_, rawRv, rfl, hraw, hv⟩

/-! ## 4. In step -/

theorem signed_bytes (v : BitVec 128) (sz : Byte) :
    (Token.Signed v sz).slices.flatten = 8 :: sz :: u128vBytes (zigzag v) := by
  rw [← u128vSlices_flatten]
  rfl

/-- Of the bytes of a signed number that is not kept, and what follows, the reader does not read
    that number: it would be from the second byte of them on at the earliest, and a kind is no
    marked byte. So it is in what follows by then. -/
theorem signed_in_step {v : BitVec 128} {sz : Byte} (hk : ¬ (Token.Signed v sz).Kept)
    {pre more : List Byte} (hbs : (Token.Signed v sz).slices.flatten ++ more = pre ++ bs)
    (h : readEnt overflowChecks bs u = .ok (some (.Signed v sz), bs', u')) :
    bs'.length < more.length := by
  by_contra hlen
  obtain ⟨bs₁, rawRv, rfl, hraw, hv⟩ := signed_found overflowChecks h
  obtain ⟨num, rfl, hnum⟩ := u128v_takes.takes hraw
  rw [u128vSlices_flatten] at hnum
  have hne : num ≠ [] := List.ne_nil_of_length_pos
    (Nat.lt_of_lt_of_le (List.length_pos_of_ne_nil (u128vBytes_ne_nil rawRv)) hnum)
  rw [signed_bytes] at hbs
  have hsuffix : more <:+ bs' :=
    List.suffix_of_suffix_length_le ⟨_, hbs⟩ ⟨pre ++ 8 :: sz :: num, by simp⟩
      (Nat.le_of_not_lt hlen)
  obtain ⟨left, rfl⟩ := hsuffix
  have hne' : num ++ left ≠ [] := List.append_ne_nil_of_left_ne_nil hne _
  rcases pre with _ | ⟨p, _ | ⟨q, pre⟩⟩
  · -- in step the number is read as another
    have hnums : u128vBytes (zigzag v) ++ more = num ++ (left ++ more) :=
      (List.cons.inj (List.cons.inj hbs).2).2
    have hread := (u128v_sends (zigzag v)).read more
    rw [u128vSlices_flatten, hnums] at hread
    obtain rfl : rawRv = zigzag v := congrArg Prod.fst (Except.ok.inj (hraw.symm.trans hread))
    exact hk ((unzigzag_zigzag v).mp hv.symm)
  · obtain ⟨rfl, hnums⟩ := List.cons.inj (List.cons.inj hbs).2
    have heq : u128vBytes (zigzag v) = [] ++ 8 :: (num ++ left) :=
      List.append_cancel_right (hnums.trans (by simp) : _ ++ more = _ ++ more)
    exact u128vBytes_marked _ heq hne' (by decide)
  · have heq : u128vBytes (zigzag v) = pre ++ 8 :: sz :: (num ++ left) :=
      List.append_cancel_right
        ((List.cons.inj (List.cons.inj hbs).2).2.trans (by simp) : _ ++ more = _ ++ more)
    exact u128vBytes_marked _ heq (List.cons_ne_nil _ _) (by decide)

variable {S : Type} {inner : Sink Byte S}

theorem signed_whole (hw : Willing inner) {v : BitVec 128} {sz : Byte} {s s' : S}
    {out : List Byte} (h : handed inner (Token.Signed v sz).slices s = .ok ((), out, s')) :
    out = (Token.Signed v sz).slices.flatten := by
  refine hw.singles h fun slice hslice => ?_
  simp only [Token.slices, u128vSlices, List.singleton_append, List.mem_cons,
    List.mem_map] at hslice
  rcases hslice with rfl | rfl | ⟨b, -, rfl⟩ <;> rfl

/-- A reader that is behind the beginning of what went out for a token is behind its end after the
    token, and the further behind if the token is not kept. -/
theorem token_in_step (hw : Willing inner) {t : Token} {s s₁ : S} {out more : List Byte}
    (hout : handed inner t.slices s = .ok ((), out, s₁)) (hbs : bs <:+ out ++ more)
    (h : readEnt overflowChecks bs u = .ok (some t, bs', u')) :
    bs'.length ≤ more.length ∧ (more.length ≤ bs'.length → bs = out ++ more ∧ t.Kept ∧
      Whole inner s t.slices) := by
  obtain ⟨pre, hpre⟩ := hbs
  by_cases hk : t.Kept
  · obtain ⟨taken, rfl, hleast⟩ := (ent_takes overflowChecks).takes h
    obtain ⟨hle, hwhole⟩ := hands_length hout
    have hlens := congrArg List.length hpre
    rw [Option.elim_some, t.least_of_kept hk] at hleast
    simp only [List.length_append] at hlens
    refine ⟨by omega, fun hmore => ⟨?_, hk, hwhole (by omega)⟩⟩
    have hnil : pre = [] := List.eq_nil_of_length_eq_zero (by omega)
    rwa [hnil, List.nil_append] at hpre
  · have hless : bs'.length < more.length := by
      cases t with
      | Char v => exact absurd (char_found overflowChecks h) hk
      | Signed v sz =>
        rw [signed_whole hw hout] at hpre
        exact signed_in_step overflowChecks hk hpre.symm h
      | _ => exact absurd trivial hk
    exact ⟨Nat.le_of_lt hless, fun hmore => absurd hless (Nat.not_lt.mpr hmore)⟩

theorem times_succ {n : Nat} {x : Option Token} {xs : List (Option Token)}
    (h : Read.times (readEnt overflowChecks) (n + 1) bs u = .ok (x :: xs, bs', u')) :
    ∃ bs₁ u₁, readEnt overflowChecks bs u = .ok (x, bs₁, u₁) ∧
      Read.times (readEnt overflowChecks) n bs₁ u₁ = .ok (xs, bs', u') := by
  obtain ⟨y, bs₁, u₁, hy, h⟩ := Read.bind_ok h
  obtain ⟨ys, _, _, hys, h⟩ := Read.bind_ok h
  cases h
  exact ⟨bs₁, u₁, hy, hys⟩

/-- Once the reader is ahead it stays so: by induction on the sequence, with what is left when it is
    read as the measure of how far it is. -/
theorem in_step (hw : Willing inner) {rest : List Byte} : ∀ {ts : List Token} {s s' : S}
    {out bs bs' : List Byte} {u u' : Unit},
    handed inner (ts.flatMap Token.slices) s = .ok ((), out, s') → bs <:+ out ++ rest →
      Read.times (readEnt overflowChecks) ts.length bs u = .ok (ts.map some, bs', u') →
        bs'.length ≤ rest.length ∧ (rest.length ≤ bs'.length → bs = out ++ rest ∧
          (∀ t ∈ ts, t.Kept) ∧ Whole inner s (ts.flatMap Token.slices))
  | [], s, _, out, bs, bs', _, _, hout, hbs, h => by
    cases hout
    cases h
    exact ⟨hbs.length_le, fun hlen => ⟨hbs.eq_of_length_le hlen, List.forall_mem_nil _, trivial⟩⟩
  | t :: ts, s, _, out, bs, bs', _, _, hout, hbs, h => by
    rw [List.flatMap_cons, handed, hands_append] at hout
    obtain ⟨_, out₁, s₁, out₂, ht, hts, rfl⟩ := Write.bind_ok hout
    obtain ⟨bs₁, u₁, hx, hxs⟩ := times_succ overflowChecks h
    rw [List.append_assoc] at hbs
    obtain ⟨hless, hsame⟩ := token_in_step overflowChecks hw ht hbs hx
    obtain ⟨taken, htaken, -⟩ := (ent_takes overflowChecks).takes hx
    have hbs₁ : bs₁ <:+ out₂ ++ rest :=
      List.suffix_of_suffix_length_le (.trans ⟨taken, htaken.symm⟩ hbs) ⟨out₁, rfl⟩ hless
    obtain ⟨hlast, hall⟩ := in_step hw hts hbs₁ hxs
    refine ⟨hlast, fun hlen => ?_⟩
    obtain ⟨rfl, hks, hwholes⟩ := hall hlen
    obtain ⟨hbs, hk, hwhole⟩ := hsame (Nat.le_refl _)
    exact ⟨hbs.trans (List.append_assoc ..).symm, List.forall_mem_cons.mpr ⟨hk, hks⟩,
      hwhole.append ht hwholes⟩

end Tokens

/-! ## 5. Round trips -/

section RoundTrips

variable {S : Type}

theorem tokens_hands (inner : Sink Byte S) : ∀ ts : List Token,
    Write.each (writeEnt inner) ts = handed inner (ts.flatMap Token.slices)
  | [] => rfl
  | t :: ts => by
    rw [Write.each, tokens_hands inner ts]
    exact then_hands inner (writeEnt_hands inner t) rfl

theorem tokens_sends (overflowChecks : Bool) : ∀ {ts : List Token}, (∀ t ∈ ts, t.Short) →
    (∀ t ∈ ts, t.Kept) → Sends (ts.flatMap Token.slices)
      (Read.times (readEnt overflowChecks) ts.length) (ts.map some)
  | [], _, _ => .of_read fun _ => rfl
  | t :: ts, hs, hk => by
    obtain ⟨hs, hss⟩ := List.forall_mem_cons.mp hs
    obtain ⟨hk, hks⟩ := List.forall_mem_cons.mp hk
    exact (token_sends overflowChecks hs hk).bind (tokens_sends overflowChecks hss hks).map

/-- The writer comes to its end, and what the stream took of its slices is read as the sequence,
    with nothing of what follows. -/
def RoundTrips (inner : Sink Byte S) (s : S) (overflowChecks : Bool) (ts : List Token)
    (rest : List Byte) : Prop :=
  ∃ out s', Write.each (writeEnt inner) ts s = .ok ((), out, s') ∧
    Read.times (readEnt overflowChecks) ts.length (out ++ rest) () = .ok (ts.map some, rest, ())

variable {inner : Sink Byte S} {s : S} {overflowChecks : Bool} {ts : List Token}
  {rest : List Byte}

theorem roundTrips_of (hs : ∀ t ∈ ts, t.Short) (hwhole : Whole inner s (ts.flatMap Token.slices))
    (hk : ∀ t ∈ ts, t.Kept) : RoundTrips inner s overflowChecks ts rest := by
  obtain ⟨s', hout⟩ := hwhole.hands (e := Panic.expect "")
  exact ⟨_, s', by rw [tokens_hands]; exact hout, (tokens_sends overflowChecks hs hk).read rest⟩

theorem of_roundTrips (hw : Willing inner) (h : RoundTrips inner s overflowChecks ts rest) :
    Whole inner s (ts.flatMap Token.slices) ∧ ∀ t ∈ ts, t.Kept := by
  obtain ⟨out, s', hout, hread⟩ := h
  rw [tokens_hands] at hout
  obtain ⟨-, hall⟩ := in_step overflowChecks hw hout (List.suffix_refl _) hread
  obtain ⟨-, hk, hwhole⟩ := hall (Nat.le_refl _)
  exact ⟨hwhole, hk⟩

/-- A sequence makes the round trip if the stream takes each slice whole and none of the tokens is
    the largest `char` or one of the negative numbers that are mapped to others; over a stream that
    takes some of every slice, only then. -/
theorem wire_round_trips (inner : Sink Byte S) (s : S) (overflowChecks : Bool) (ts : List Token)
    (hs : ∀ t ∈ ts, t.Short) (rest : List Byte) :
    (Whole inner s (ts.flatMap Token.slices) ∧ (∀ t ∈ ts, t.Kept) →
      RoundTrips inner s overflowChecks ts rest) ∧
    (Willing inner → RoundTrips inner s overflowChecks ts rest →
      Whole inner s (ts.flatMap Token.slices) ∧ ∀ t ∈ ts, t.Kept) :=
  ⟨fun ⟨hwhole, hk⟩ => roundTrips_of hs hwhole hk, fun hw h => of_roundTrips hw h⟩

end RoundTrips

/-- A stream that takes at most so many bytes of a slice. -/
def upTo (limit : Nat) : Sink Byte Unit := fun _ v => some (min limit v.length, ())

theorem whole_upTo {limit : Nat} : ∀ {vs : List (List Byte)},
    Whole (upTo limit) () vs ↔ ∀ v ∈ vs, v.length ≤ limit
  | [] => iff_of_true trivial (List.forall_mem_nil _)
  | v :: vs => by
    rw [List.forall_mem_cons, ← whole_upTo, Whole]
    constructor
    · rintro ⟨n, _, hn, hle, h⟩
      cases hn
      exact ⟨by omega, h⟩
    · rintro ⟨hle, h⟩
      exact ⟨_, (), rfl, Nat.le_min.mpr ⟨hle, Nat.le_refl _⟩, h⟩

theorem upTo_willing {limit : Nat} (h : 0 < limit) :
    Willing (upTo limit) := fun _ v n _ hn hne => by
  cases hn
  exact Nat.lt_min.mpr ⟨h, List.length_pos_of_ne_nil hne⟩

theorem wire_round_trips_pair : RoundTrips (upTo 8) () true [.Ident ['x'], .Signed (-1) 4] [0] := by
  have hshort : (asBytes ['x']).length < 2 ^ 30 := by decide
  refine (wire_round_trips (upTo 8) () true [.Ident ['x'], .Signed (-1) 4] ?_ [0]).1
    ⟨whole_upTo.mpr ?_, ?_⟩
  · exact List.forall_mem_cons.mpr ⟨hshort, List.forall_mem_singleton.mpr trivial⟩
  · intro v hv
    simp only [List.flatMap_cons, List.flatMap_nil, Token.slices, bytesSlices, u128vSlices,
      List.mem_append, List.mem_singleton, List.mem_map, List.not_mem_nil, or_false] at hv
    rcases hv with (rfl | ⟨b, -, rfl⟩ | rfl) | rfl | rfl | ⟨b, -, rfl⟩
    all_goals exact Nat.succ_le_succ (Nat.zero_le 7)
  · exact List.forall_mem_cons.mpr ⟨trivial, List.forall_mem_singleton.mpr (.inr (.inl rfl))⟩

theorem asBytes_length (v : Text) : (asBytes v).length = (v.map Char.utf8Size).sum := by
  rw [asBytes, List.length_map, List.length_flatMap]
  simp only [String.length_utf8EncodeChar]

/-- A line of its own and 1500 characters more. -/
def longLiteral : Text := '\n' :: List.replicate 1500 'x'

theorem longLiteral_length : (asBytes longLiteral).length = 1501 := by
  rw [asBytes_length, longLiteral, List.map_cons, List.map_replicate, List.sum_cons,
    List.sum_replicate_nat]
  rfl

/-- `-2i128`, with and without checks for overflow; the last `char`; and a string of 1501 bytes
    over a stream that takes up to 1025 of a slice. -/
theorem minus_two_lost :
    Token.Short (.Signed (-2) 4) ∧ ¬ RoundTrips (upTo 8) () true [.Signed (-2) 4] [] ∧
      ¬ RoundTrips (upTo 8) () false [.Signed (-2) 4] [] ∧
      Token.Short (.Char (Char.ofNat 0x10FFFF)) ∧
      ¬ RoundTrips (upTo 8) () false [.Char (Char.ofNat 0x10FFFF)] [] ∧
      Token.Short (.RawLiteral longLiteral) ∧
      ¬ RoundTrips (upTo 1025) () false [.RawLiteral longLiteral, .EndOfStream] [] := by
  have hsigned : ¬ (Token.Signed (-2) 4).Kept := by
    unfold Token.Kept
    decide
  have hchar : ¬ (Token.Char (Char.ofNat 0x10FFFF)).Kept := by
    unfold Token.Kept
    decide
  have hlong : (asBytes longLiteral).length < 2 ^ 30 := by
    rw [longLiteral_length]
    decide
  have hpos : 0 < 8 := by decide
  refine ⟨trivial, fun h => ?_, fun h => ?_, trivial, fun h => ?_, hlong, fun h => ?_⟩
  · exact hsigned ((of_roundTrips (upTo_willing hpos) h).2 _ List.mem_cons_self)
  · exact hsigned ((of_roundTrips (upTo_willing hpos) h).2 _ List.mem_cons_self)
  · exact hchar ((of_roundTrips (upTo_willing hpos) h).2 _ List.mem_cons_self)
  · have hslice : asBytes longLiteral ∈
        [Token.RawLiteral longLiteral, .EndOfStream].flatMap Token.slices := by
      simp [Token.slices, bytesSlices]
    have hle := whole_upTo.mp (of_roundTrips (upTo_willing (by decide)) h).1 _ hslice
    rw [longLiteral_length] at hle
    exact absurd hle (by decide)

end Trustme.ProcMacro
