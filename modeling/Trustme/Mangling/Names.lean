/-
  Subject:   The text of a name marks its own end and tells which name it is, but for its signs.

  * `readSigns`: a name as its text keeps it: its last sign, underscores for the others;
  * `fmtBase26Int_append_inj`, `fmtCString_append_inj`: what the texts determine;
  * `NamesApart`: the names that the mangler does not merge;
  * `fmtName_splits`: with them, a name or a reference determines the name.
-/
import Trustme.Mangling.Mangler

namespace Trustme.Mangling

open Lib (Text Printer)
open Lib.Printer

/-! ## 1. Numbers of base 26 -/

theorem toNat_ofNat_of_lt {n : Nat} (h : n < 256) : (Char.ofNat n).toNat = n := by
  have hv : n.isValidChar := Or.inl (by omega)
  rw [Char.ofNat, dif_pos hv]
  rfl

theorem ofNat_ne {m n : Nat} (hm : m < 256) (hn : n < 256) (h : m ≠ n) :
    Char.ofNat m ≠ Char.ofNat n := by
  intro he
  have := congrArg Char.toNat he
  rw [toNat_ofNat_of_lt hm, toNat_ofNat_of_lt hn] at this
  exact h this

/-- A letter comes first. -/
theorem fmtBase26Int_head (val : Nat) :
    ∃ c t, fmtBase26Int val = c :: t ∧ c.isDigit = false ∧ c ≠ '_' := by
  have hA : 'A'.toNat = 65 := rfl
  have ha : 'a'.toNat = 97 := rfl
  have h : ∀ k, 65 ≤ k → k ≠ 95 → k < 123 →
      (Char.ofNat k).isDigit = false ∧ Char.ofNat k ≠ '_' := by
    intro k h₁ h₂ h₃
    refine ⟨?_, ofNat_ne (n := 95) (by omega) (by omega) (by omega)⟩
    have h9 : '9'.toNat = 57 := rfl
    rw [Bool.eq_false_iff]
    intro hd
    rw [Char.isDigit_iff_toNat, toNat_ofNat_of_lt (n := k) (by omega)] at hd
    omega
  unfold fmtBase26Int
  split
  · exact ⟨_, _, rfl, h _ (by omega) (by omega) (by omega)⟩
  · exact ⟨_, _, rfl, h _ (by omega) (by omega) (by omega)⟩

/-- The capital is the end. -/
theorem fmtBase26Int_append_inj {m n : Nat} {r r' : Text}
    (h : fmtBase26Int m ++ r = fmtBase26Int n ++ r') : m = n ∧ r = r' := by
  have hA : 'A'.toNat = 65 := rfl
  have ha : 'a'.toNat = 97 := rfl
  induction m using Nat.strongRecOn generalizing n with
  | _ m ih =>
    rw [fmtBase26Int, fmtBase26Int.eq_def n] at h
    by_cases hm : m < 26 <;> by_cases hn : n < 26 <;>
      simp only [hm, hn, if_true, if_false, List.cons_append, List.nil_append,
        List.cons.injEq] at h
    · refine ⟨?_, h.2⟩
      by_contra hne
      exact ofNat_ne (by omega) (by omega) (by omega) h.1
    · exact absurd h.1 (ofNat_ne (by omega) (by omega) (by omega))
    · exact absurd h.1 (ofNat_ne (by omega) (by omega) (by omega))
    · obtain ⟨hq, hr⟩ := ih (m / 26) (by omega) h.2
      refine ⟨?_, hr⟩
      have hmod : m % 26 = n % 26 := by
        by_contra hne
        exact ofNat_ne (by omega) (by omega) (by omega) h.1
      omega

/-! ## 2. Signs -/

/-- A name as its text keeps it: of its signs only the last is one, and which of the two signs it
    is does not show. -/
def readSigns : List Char → List Char
  | [] => []
  | c :: cs => (if isSign c then if cs.any isSign then '_' else '#' else c) :: readSigns cs

/-- Without its last sign, and with underscores for the others. -/
def withoutSign (name : List Char) (i : Nat) : List Char :=
  (name.take i).map (fun c => if isSign c then '_' else c) ++ name.drop (i + 1)

variable {name s s' : List Char}

theorem hashPos_eq_none (h : hashPos name = none) :
    name.any isSign = false := by
  induction name with
  | nil => rfl
  | cons c cs ih =>
    unfold hashPos at h
    cases hcs : hashPos cs with
    | some i => simp [hcs] at h
    | none =>
      rw [List.any_cons, ih hcs, Bool.or_false]
      simpa [hcs] using h

theorem any_isSign_of_hashPos {i : Nat} (h : hashPos name = some i) :
    name.any isSign = true := by
  induction name generalizing i with
  | nil => simp [hashPos] at h
  | cons c cs ih =>
    unfold hashPos at h
    cases hcs : hashPos cs with
    | some j => rw [List.any_cons, ih hcs, Bool.or_true]
    | none =>
      simp only [hcs] at h
      cases hc : isSign c with
      | false => simp [hc] at h
      | true => simp [hc]

theorem readSigns_of_none (h : name.any isSign = false) :
    readSigns name = name := by
  induction name with
  | nil => rfl
  | cons c cs ih =>
    rw [List.any_cons, Bool.or_eq_false_iff] at h
    rw [readSigns, h.1, ih h.2]
    rfl

theorem readSigns_of_some {i : Nat} (h : hashPos name = some i) :
    readSigns name = (withoutSign name i).take i ++ '#' :: (withoutSign name i).drop i
      ∧ i < name.length ∧ (withoutSign name i).length = name.length - 1 := by
  induction name generalizing i with
  | nil => simp [hashPos] at h
  | cons c cs ih =>
    unfold hashPos at h
    cases hcs : hashPos cs with
    | some j =>
      simp only [hcs, Option.some.injEq] at h
      subst h
      obtain ⟨h₁, h₂, h₃⟩ := ih hcs
      have hw : withoutSign (c :: cs) (j + 1)
          = (if isSign c then '_' else c) :: withoutSign cs j := rfl
      refine ⟨?_, by simpa using h₂, ?_⟩
      · rw [readSigns, any_isSign_of_hashPos hcs, h₁, hw]
        rfl
      · rw [hw, List.length_cons, h₃, List.length_cons]
        omega
    | none =>
      simp only [hcs] at h
      cases hc : isSign c with
      | false => simp [hc] at h
      | true =>
        obtain rfl : 0 = i := by simpa [hc] using h
        have hw : withoutSign (c :: cs) 0 = cs := rfl
        refine ⟨?_, by simp, by rw [hw]; simp⟩
        rw [readSigns, hc, hashPos_eq_none hcs, readSigns_of_none (hashPos_eq_none hcs), hw]
        rfl

/-! ## 3. The text of a name -/

/-- With an underscore in front where the name begins like a number or with an underscore. -/
def escape (b : List Char) : List Char := leadingEscape (needsLeadingEscape b) ++ b

theorem length_escape (b : List Char) :
    (escape b).length = b.length + (needsLeadingEscape b).toNat := by
  unfold escape leadingEscape
  cases needsLeadingEscape b <;> simp

theorem escape_noDigit (b : List Char) (r : Text) (h : escape b ≠ []) :
    NoDigit (escape b ++ r) := by
  unfold escape leadingEscape at h ⊢
  cases hb : needsLeadingEscape b with
  | true => exact NoDigit.cons rfl
  | false =>
    cases b with
    | nil => simp [hb] at h
    | cons c cs =>
      refine NoDigit.cons ?_
      simp only [needsLeadingEscape, Bool.or_eq_false_iff] at hb
      exact hb.1

/-- The underscore is there only where the name itself would be escaped. -/
theorem escape_injective {b b' : List Char} (h : escape b = escape b') : b = b' := by
  have key : ∀ {a a' : List Char}, needsLeadingEscape a = true → needsLeadingEscape a' = false →
      escape a ≠ escape a' := by
    intro a a' ha ha' he
    simp only [escape, ha, ha', leadingEscape, if_true, List.cons_append, List.nil_append,
      Bool.false_eq_true, if_false] at he
    subst he
    simp [needsLeadingEscape] at ha'
  cases hb : needsLeadingEscape b <;> cases hb' : needsLeadingEscape b'
  · simpa [escape, hb, hb', leadingEscape] using h
  · exact absurd h.symm (key hb' hb)
  · exact absurd h (key hb hb')
  · simpa [escape, hb, hb', leadingEscape] using h

/-- A length and a text of that length. -/
theorem counted_append_inj {b b' : List Char} {r r' : Text}
    (h : Nat.toDigits 10 (escape b).length ++ (escape b ++ r)
      = Nat.toDigits 10 (escape b').length ++ (escape b' ++ r')) : b = b' ∧ r = r' := by
  have hnd : ∀ (a : List Char) (q : Text), (escape a).length ≠ 0 → NoDigit (escape a ++ q) :=
    fun a q ha => escape_noDigit a q (fun he => ha (by rw [he]; rfl))
  obtain ⟨hlen, hrest⟩ := toDigits_append_inj (hnd b r) (hnd b' r') h
  obtain ⟨hb, hr⟩ := List.append_inj hrest hlen
  exact ⟨escape_injective hb, hr⟩

/-- Names with a sign in front that have no other, and names without a sign in front. -/
def Tidy (name : List Char) : Prop :=
  ∀ c cs, name = c :: cs → isSign c = true → cs.any isSign = false

/-- The three forms of a text. -/
theorem fmtCString_forms {t : Text} (hs : Tidy (encoded s)) (h : fmtCString s = some t) :
    (hashPos (encoded s) = none
      ∧ t = Nat.toDigits 10 (escape (encoded s)).length ++ escape (encoded s))
    ∨ ∃ i, hashPos (encoded s) = some i ∧
      (t = fmtBase26Int i ++ (Nat.toDigits 10 (escape (withoutSign (encoded s) i)).length
          ++ escape (withoutSign (encoded s) i))
        ∨ i = 0 ∧ t = fmtBase26Int (withoutSign (encoded s) i).length
          ++ ('_' :: withoutSign (encoded s) i)) := by
  unfold fmtCString at h
  generalize encoded s = name at h hs ⊢
  simp only at h
  split at h
  · exact absurd h (by simp)
  cases hp : hashPos name with
  | none =>
    simp only [hp, Option.some.injEq] at h
    refine Or.inl ⟨rfl, ?_⟩
    rw [← h, length_escape, escape, List.append_assoc]
  | some i =>
    simp only [hp] at h
    obtain ⟨_, hi, hlen⟩ := readSigns_of_some hp
    refine Or.inr ⟨i, rfl, ?_⟩
    split at h
    · rename_i hlead
      split at h
      · exact absurd h (by simp)
      · simp only [Option.some.injEq] at h
        obtain ⟨rfl, _⟩ := hlead
        refine Or.inr ⟨rfl, ?_⟩
        rw [← h, hlen]
        simp [withoutSign]
    · rename_i hlead
      simp only [Option.some.injEq] at h
      refine Or.inl ?_
      -- the escape is decided by the name, and written in front of what is left of it
      have hesc : needsLeadingEscape (withoutSign name i) = needsLeadingEscape name := by
        cases name with
        | nil => simp [hashPos] at hp
        | cons c cs =>
          have hsign := hs c cs rfl
          cases i with
          | zero =>
            have hc : isSign c = true := by
              unfold hashPos at hp
              cases hcs : hashPos cs with
              | some j => simp [hcs] at hp
              | none => simpa [hcs] using hp
            have hneed : needsLeadingEscape cs = false := by simpa using hlead
            have hw : withoutSign (c :: cs) 0 = cs := rfl
            rw [hw, hneed]
            simp only [isSign, Bool.or_eq_true, beq_iff_eq] at hc
            rcases hc with rfl | rfl <;> rfl
          | succ j =>
            have hc : isSign c = false := by
              rw [Bool.eq_false_iff]
              intro hc
              have hcs := any_isSign_of_hashPos (show hashPos cs = some j by
                unfold hashPos at hp
                cases hcs : hashPos cs with
                | some k => simpa [hcs] using hp
                | none => simp [hcs, hc] at hp)
              rw [hsign hc] at hcs
              exact Bool.false_ne_true hcs
            simp [withoutSign, hc, needsLeadingEscape]
      rw [← h, length_escape, hlen, escape, hesc]
      simp [withoutSign, List.append_assoc]

theorem head_ne_underscore_of_digits (n : Nat) (r : Text) :
    ∃ c t, Nat.toDigits 10 n ++ r = c :: t ∧ c.isDigit = true ∧ c ≠ '_' := by
  obtain ⟨c, t, h, hc⟩ := toDigits_eq_cons n
  refine ⟨c, t ++ r, by rw [h]; rfl, hc, ?_⟩
  rintro rfl
  exact absurd hc (by decide)

/-- **A text determines its name but for the signs, and where it ends.** -/
theorem fmtCString_append_inj {t t' r r' : Text} (hs : Tidy (encoded s)) (hs' : Tidy (encoded s'))
    (h : fmtCString s = some t) (h' : fmtCString s' = some t')
    (he : t ++ r = t' ++ r') : readSigns (encoded s) = readSigns (encoded s') ∧ r = r' := by
  -- a number first or a letter first; then a number or an underscore
  have digit_letter : ∀ {n k : Nat} {a b : Text},
      Nat.toDigits 10 n ++ a ≠ fmtBase26Int k ++ b := by
    intro n k a b hab
    obtain ⟨c, u, hc, hd, _⟩ := head_ne_underscore_of_digits n a
    obtain ⟨c', u', hc', hd', _⟩ := fmtBase26Int_head k
    rw [hc, hc', List.cons_append, List.cons.injEq] at hab
    rw [← hab.1, hd] at hd'
    exact absurd hd' (by decide)
  have digit_underscore : ∀ {n : Nat} {a b : Text}, Nat.toDigits 10 n ++ a ≠ '_' :: b := by
    intro n a b hab
    obtain ⟨c, u, hc, _, hne⟩ := head_ne_underscore_of_digits n a
    rw [hc, List.cons.injEq] at hab
    exact hne hab.1
  rcases fmtCString_forms hs h with ⟨_, rfl⟩ | ⟨i, hp, hform⟩ <;>
    rcases fmtCString_forms hs' h' with ⟨_, rfl⟩ | ⟨j, hp', hform'⟩
  · simp only [List.append_assoc] at he
    obtain ⟨hb, hr⟩ := counted_append_inj he
    exact ⟨by rw [hb], hr⟩
  · rcases hform' with rfl | ⟨_, rfl⟩ <;> simp only [List.append_assoc] at he
    · exact absurd he digit_letter
    · exact absurd he digit_letter
  · rcases hform with rfl | ⟨_, rfl⟩ <;> simp only [List.append_assoc] at he
    · exact absurd he.symm digit_letter
    · exact absurd he.symm digit_letter
  · obtain ⟨hread, _, _⟩ := readSigns_of_some hp
    obtain ⟨hread', _, _⟩ := readSigns_of_some hp'
    rcases hform with rfl | ⟨rfl, rfl⟩ <;> rcases hform' with rfl | ⟨rfl, rfl⟩ <;>
      simp only [List.append_assoc, List.cons_append] at he <;>
      obtain ⟨hij, hrest⟩ := fmtBase26Int_append_inj he
    · obtain ⟨hb, hr⟩ := counted_append_inj hrest
      exact ⟨by rw [hread, hread', hb, hij], hr⟩
    · exact absurd hrest digit_underscore
    · exact absurd hrest.symm digit_underscore
    · rw [List.cons.injEq] at hrest
      obtain ⟨hb, hr⟩ := List.append_inj hrest.2 hij
      exact ⟨by rw [hread, hread', hb], hr⟩

/-! ## 4. Bytes in hexadecimal -/

/-- Two digits for each number. -/
def hexText (ns : List Nat) : Text := ns.flatMap (fun n => [hexDigit (n / 16), hexDigit n])

theorem hexDigit_injective {m n : Nat} (h : hexDigit m = hexDigit n) : m % 16 = n % 16 := by
  have key : ∀ a < 16, ∀ b < 16, Nat.digitChar a = Nat.digitChar b → a = b := by decide
  exact key _ (by omega) _ (by omega) h

theorem hexDigit_plain (n : Nat) : isSign (hexDigit n) = false ∧ hexDigit n ≠ 'U' := by
  have key : ∀ a < 16, isSign (Nat.digitChar a) = false ∧ Nat.digitChar a ≠ 'U' := by decide
  exact key _ (by omega)

theorem hexText_injective {ms ns : List Nat} (hm : ∀ a ∈ ms, a < 256) (hn : ∀ a ∈ ns, a < 256)
    (h : hexText ms = hexText ns) : ms = ns := by
  induction ms generalizing ns with
  | nil =>
    cases ns with
    | nil => rfl
    | cons b ns => simp [hexText] at h
  | cons a ms ih =>
    cases ns with
    | nil => simp [hexText] at h
    | cons b ns =>
      simp only [hexText, List.flatMap_cons, List.cons_append, List.nil_append,
        List.cons.injEq] at h
      have h₁ := hexDigit_injective h.1
      have h₂ := hexDigit_injective h.2.1
      have ha := hm a List.mem_cons_self
      have hb := hn b List.mem_cons_self
      have hrest := ih (fun c hc => hm c (List.mem_cons_of_mem _ hc))
        (fun c hc => hn c (List.mem_cons_of_mem _ hc)) h.2.2
      rw [hrest, show a = b by omega]

theorem length_hexText (ns : List Nat) : (hexText ns).length = 2 * ns.length := by
  induction ns with
  | nil => rfl
  | cons n ns ih =>
    have : hexText (n :: ns) = hexDigit (n / 16) :: hexDigit n :: hexText ns := rfl
    rw [this, List.length_cons, List.length_cons, ih, List.length_cons]
    omega

theorem hexText_noSign (ns : List Nat) : (hexText ns).any isSign = false := by
  induction ns with
  | nil => rfl
  | cons n ns ih =>
    have : hexText (n :: ns) = hexDigit (n / 16) :: hexDigit n :: hexText ns := rfl
    rw [this, List.any_cons, List.any_cons, ih, (hexDigit_plain _).1, (hexDigit_plain _).1]
    rfl

theorem fmtBytes_eq (bytes : List (BitVec 8)) :
    fmtBytes bytes = hexText (bytes.map BitVec.toNat) := by
  rw [hexText, List.flatMap_map]
  rfl

theorem fmtBytes_injective {bs bs' : List (BitVec 8)} (h : fmtBytes bs = fmtBytes bs') :
    bs = bs' := by
  rw [fmtBytes_eq, fmtBytes_eq] at h
  have hlt : ∀ (xs : List (BitVec 8)), ∀ a ∈ xs.map BitVec.toNat, a < 256 := by
    intro xs a ha
    obtain ⟨b, _, rfl⟩ := List.mem_map.1 ha
    exact b.isLt
  refine List.map_injective_iff.2 ?_ (hexText_injective (hlt bs) (hlt bs') h)
  exact fun a b hab => BitVec.eq_of_toNat_eq hab

/-! ## 5. Names told apart -/

/-- What the text of a name keeps of it. -/
def kept (s : List Char) : List Char := if needsByteEncoding s then s else readSigns s

theorem encoded_of_needs (h : needsByteEncoding s = true) :
    encoded s = 'U' :: hexText (s.map Char.toNat) := by
  rw [encoded, if_pos h, hexText, List.flatMap_map]

/-- The escape `U` keeps names in hexadecimal away from the others. -/
theorem readSigns_encoded_ne (h : needsByteEncoding s = true)
    (h' : needsByteEncoding s' = false) : readSigns (encoded s) ≠ readSigns (encoded s') := by
  rw [encoded_of_needs h, readSigns_of_none
    (by rw [List.any_cons, hexText_noSign]; rfl)]
  rw [encoded, if_neg (by rw [h']; exact Bool.false_ne_true)]
  intro he
  cases s with
  | nil => simp [needsByteEncoding] at h
  | cons c cs =>
    have hhex : hexText ((c :: cs).map Char.toNat)
        = hexDigit (c.toNat / 16) :: hexDigit c.toNat :: hexText (cs.map Char.toNat) := rfl
    rw [hhex] at he
    by_cases hU : s'.head? = some 'U'
    · rw [if_pos hU] at he
      cases s' with
      | nil => simp at hU
      | cons d ds =>
        obtain rfl : d = 'U' := by simpa using hU
        have hread : readSigns ('U' :: 'U' :: ds) = 'U' :: 'U' :: readSigns ds := rfl
        rw [hread, List.cons.injEq, List.cons.injEq] at he
        exact (hexDigit_plain _).2 he.2.1
    · rw [if_neg hU] at he
      cases s' with
      | nil => simp [readSigns] at he
      | cons d ds =>
        rw [readSigns, List.cons.injEq] at he
        cases hd : isSign d with
        | false =>
          rw [hd] at he
          exact hU (by rw [he.1]; rfl)
        | true =>
          rw [hd] at he
          have := he.1
          cases hds : ds.any isSign <;> simp [hds] at this

theorem readSigns_encoded (h : needsByteEncoding s = false) :
    readSigns (encoded s) = if s.head? = some 'U' then 'U' :: readSigns s else readSigns s := by
  rw [encoded, if_neg (by rw [h]; exact Bool.false_ne_true)]
  split <;> rfl

theorem readSigns_head_U : (readSigns s).head? = some 'U' ↔ s.head? = some 'U' := by
  cases s with
  | nil => simp [readSigns]
  | cons c cs =>
    cases hc : isSign c with
    | false => simp [readSigns, hc]
    | true =>
      have hne : c ≠ 'U' := by rintro rfl; exact absurd hc (by decide)
      cases hcs : cs.any isSign <;> simp [readSigns, hc, hcs, hne]

theorem kept_eq_of_encoded (hb : ∀ c ∈ s, c.toNat < 256) (hb' : ∀ c ∈ s', c.toNat < 256)
    (h : readSigns (encoded s) = readSigns (encoded s')) :
    kept s = kept s' := by
  cases hs : needsByteEncoding s <;> cases hs' : needsByteEncoding s'
  · rw [readSigns_encoded hs, readSigns_encoded hs'] at h
    simp only [kept, hs, hs', Bool.false_eq_true, if_false]
    by_cases hU : s.head? = some 'U' <;> by_cases hU' : s'.head? = some 'U' <;>
      simp only [hU, hU', if_true, if_false] at h
    · exact (List.cons.inj h).2
    · exact absurd (readSigns_head_U.1 (by rw [← h]; rfl)) hU'
    · exact absurd (readSigns_head_U.1 (by rw [h]; rfl)) hU
    · exact h
  · exact absurd h.symm (readSigns_encoded_ne hs' hs)
  · exact absurd h (readSigns_encoded_ne hs hs')
  · simp only [kept, hs, hs', if_true]
    rw [encoded_of_needs hs, encoded_of_needs hs', readSigns_of_none
      (by rw [List.any_cons, hexText_noSign]; rfl), readSigns_of_none
      (by rw [List.any_cons, hexText_noSign]; rfl)] at h
    have hlt : ∀ {x : List Char}, (∀ c ∈ x, c.toNat < 256) → ∀ a ∈ x.map Char.toNat, a < 256 := by
      intro x hx a ha
      obtain ⟨c, hc, rfl⟩ := List.mem_map.1 ha
      exact hx c hc
    refine List.map_injective_iff.2 ?_ (hexText_injective (hlt hb) (hlt hb') (List.cons.inj h).2)
    intro c d hcd
    rw [← Char.ofNat_toNat c, hcd, Char.ofNat_toNat]

/-- Names that the mangler does not merge: no two of them are the same but for their signs, and one
    that is written with a sign in front has no other sign. -/
structure NamesApart (N : RcString → Prop) : Prop where
  tidy : ∀ s, N s → needsByteEncoding s.bytes = false → Tidy s.bytes
  apart : ∀ s s', N s → N s' → kept s.bytes = kept s'.bytes → s = s'

namespace NamesApart

variable {N : RcString → Prop} (hN : NamesApart N)

theorem tidy_of_U {cs : List Char} : Tidy ('U' :: cs) := by
  intro c cs' h hc
  obtain rfl : 'U' = c := (List.cons.inj h).1
  exact absurd hc (by decide)

include hN

theorem tidy_encoded {s : RcString} (hs : N s) : Tidy (encoded s.bytes) := by
  unfold encoded
  split
  · exact tidy_of_U
  · rename_i hneeds
    split
    · exact tidy_of_U
    · exact hN.tidy s hs (by simpa using hneeds)

/-- The texts of two such names. -/
theorem eq_of_append {a b : RcString} {t t' r r' : Text} (ha : N a) (hb : N b)
    (h : fmtCString a.bytes = some t) (h' : fmtCString b.bytes = some t')
    (he : t ++ r = t' ++ r') : a = b ∧ r = r' := by
  obtain ⟨hread, hr⟩ := fmtCString_append_inj (hN.tidy_encoded ha) (hN.tidy_encoded hb) h h' he
  exact ⟨hN.apart a b ha hb (kept_eq_of_encoded (fun c hc => (a.isBytes c hc).2)
    (fun c hc => (b.isBytes c hc).2) hread), hr⟩

/-- A text in full never looks like a reference. -/
theorem head_ne_underscore {a : RcString} {t r : Text} (ha : N a)
    (h : fmtCString a.bytes = some t) : (t ++ r).head? ≠ some '_' := by
  rcases fmtCString_forms (hN.tidy_encoded ha) h with ⟨_, rfl⟩ | ⟨i, _, rfl | ⟨_, rfl⟩⟩
  · obtain ⟨c, u, hc, _, hne⟩ := head_ne_underscore_of_digits (escape (encoded a.bytes)).length
      (escape (encoded a.bytes) ++ r)
    rw [List.append_assoc, hc]
    simpa using hne
  · obtain ⟨c, u, hc, _, hne⟩ := fmtBase26Int_head i
    rw [hc]
    simpa using hne
  · obtain ⟨c, u, hc, _, hne⟩ := fmtBase26Int_head (withoutSign (encoded a.bytes) i).length
    rw [hc]
    simpa using hne

end NamesApart

/-! ## 6. Names in a window -/

namespace Mangler

variable (m : Mangler) {N : RcString → Prop} {F : Text → Prop}

/-- A name is written as a reference to a place in the window where it is, or in full, and then
    it is in the window afterwards. -/
theorem fmtName_cases {s : RcString} {w w' : List RcString} {t : Text}
    (h : m.fmtName s w = some (t, w')) :
    (∃ idx, w[idx]? = some s ∧ t = '_' :: fmtBase26Int idx ∧ w' = w)
    ∨ fmtCString s.bytes = some t ∧ w' = if s ∈ w then w else w ++ [s] := by
  unfold fmtName at h
  cases hf : w.findIdx? (· = s) with
  | some idx =>
    obtain ⟨hlt, hs, _⟩ := List.findIdx?_eq_some_iff_getElem.1 hf
    have hs' : w[idx] = s := by simpa using hs
    simp only [hf] at h
    split at h
    · simp only [Option.some.injEq, Prod.mk.injEq] at h
      obtain ⟨rfl, rfl⟩ := h
      exact Or.inl ⟨idx, by rw [List.getElem?_eq_getElem hlt, hs'], rfl, rfl⟩
    · obtain ⟨u, hu, hp⟩ := Option.map_eq_some_iff.1 h
      obtain ⟨rfl, rfl⟩ := Prod.mk.inj hp
      exact Or.inr ⟨hu, by rw [if_pos (hs' ▸ List.getElem_mem hlt)]⟩
  | none =>
    have hmem : s ∉ w := by
      intro hmem
      have := List.findIdx?_eq_none_iff.1 hf s hmem
      simp at this
    simp only [hf] at h
    obtain ⟨u, hu, hp⟩ := Option.map_eq_some_iff.1 h
    obtain ⟨rfl, rfl⟩ := Prod.mk.inj hp
    exact Or.inr ⟨hu, by rw [if_neg hmem]⟩

/-- **Two names of such a set are told apart by their texts in one window.** -/
theorem fmtName_splits (hN : NamesApart N) {a b : RcString} (ha : N a) (hb : N b) :
    Splits F (m.fmtName a) (m.fmtName b) (a = b) := by
  intro w t w₁ t' w₂ r r' h h' _ _ he
  rcases m.fmtName_cases h with ⟨i, hi, rfl, rfl⟩ | ⟨ht, rfl⟩ <;>
    rcases m.fmtName_cases h' with ⟨j, hj, rfl, rfl⟩ | ⟨ht', rfl⟩
  · rw [List.cons_append, List.cons_append, List.cons.injEq] at he
    obtain ⟨rfl, hr⟩ := fmtBase26Int_append_inj he.2
    rw [hi] at hj
    exact ⟨Option.some.inj hj, hr, rfl⟩
  · exact absurd (by rw [← he]; rfl) (hN.head_ne_underscore (r := r') hb ht')
  · exact absurd (by rw [he]; rfl) (hN.head_ne_underscore (r := r) ha ht)
  · obtain ⟨rfl, hr⟩ := hN.eq_of_append ha hb ht ht' he
    exact ⟨rfl, hr, rfl⟩

end Mangler

end Trustme.Mangling
