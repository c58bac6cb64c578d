/-
  Subject:   Printers that keep a state, and which of them can be told apart by their texts.

  A printer writes a text and changes a state (a table of what it has written, say), or stops. Two
  printers `Splits` when from one state they cannot write the same text, whatever follows, unless
  a given property holds -- and then they end at the same place and in the same state. The rules
  build this for a concatenation out of its parts, so a grammar of printers is shown uniquely
  readable by following its syntax, with no reader written down.

  * `Printer`, `put`, `stop`, `++`: printers;
  * `Leads`: what the texts of a printer can begin with;
  * `Splits`, `Splits.append`: telling two printers apart;
  * `number`, `Splits.number_append`: decimal numbers, which do not mark their own end.
-/
import Mathlib.Data.Nat.Digits.Defs
import Mathlib.Data.List.Basic

namespace Trustme.Lib

/-- What is written. -/
abbrev Text := List Char

/-- Writes a text and changes a state, or stops. -/
def Printer (σ : Type) := σ → Option (Text × σ)

namespace Printer

variable {σ : Type}

/-! ## 1. Printers -/

/-- Writes `t`. -/
def put (t : Text) : Printer σ := fun s => some (t, s)

/-- Gives up. -/
def stop : Printer σ := fun _ => none

/-- Writes nothing. -/
def skip : Printer σ := put []

/-- One after the other. -/
def seq (p q : Printer σ) : Printer σ := fun s =>
  match p s with
  | none => none
  | some (t, s₁) =>
    match q s₁ with
    | none => none
    | some (t', s₂) => some (t ++ t', s₂)

instance : Append (Printer σ) := ⟨seq⟩

@[simp] theorem put_eq_some {t u : Text} {s s' : σ} :
    put t s = some (u, s') ↔ u = t ∧ s' = s := by
  simp only [put, Option.some.injEq, Prod.mk.injEq]
  exact ⟨fun ⟨h, h'⟩ => ⟨h.symm, h'.symm⟩, fun ⟨h, h'⟩ => ⟨h.symm, h'.symm⟩⟩

@[simp] theorem skip_eq_some {u : Text} {s s' : σ} :
    (skip : Printer σ) s = some (u, s') ↔ u = [] ∧ s' = s := put_eq_some

@[simp] theorem stop_eq_some {u : Text} {s s' : σ} : ¬ (stop : Printer σ) s = some (u, s') := by
  simp [stop]

theorem append_eq_some {p q : Printer σ} {t : Text} {s s' : σ} :
    (p ++ q) s = some (t, s') ↔
      ∃ t₁ s₁ t₂, p s = some (t₁, s₁) ∧ q s₁ = some (t₂, s') ∧ t = t₁ ++ t₂ := by
  show seq p q s = _ ↔ _
  unfold seq
  constructor
  · intro h
    cases hp : p s with
    | none => simp [hp] at h
    | some x =>
      obtain ⟨t₁, s₁⟩ := x
      cases hq : q s₁ with
      | none => simp [hp, hq] at h
      | some y =>
        obtain ⟨t₂, s₂⟩ := y
        simp only [hp, hq, Option.some.injEq, Prod.mk.injEq] at h
        obtain ⟨rfl, rfl⟩ := h
        exact ⟨t₁, s₁, t₂, rfl, hq, rfl⟩
  · rintro ⟨t₁, s₁, t₂, hp, hq, rfl⟩
    simp [hp, hq]

theorem append_assoc (p q r : Printer σ) : p ++ q ++ r = p ++ (q ++ r) := by
  funext s
  refine Option.ext fun ⟨t, s'⟩ => ?_
  simp only [append_eq_some]
  constructor
  · rintro ⟨_, s₂, t₃, ⟨t₁, s₁, t₂, hp, hq, rfl⟩, hr, rfl⟩
    exact ⟨t₁, s₁, t₂ ++ t₃, hp, ⟨t₂, s₂, t₃, hq, hr, rfl⟩, by rw [List.append_assoc]⟩
  · rintro ⟨t₁, s₁, _, hp, ⟨t₂, s₂, t₃, hq, hr, rfl⟩, rfl⟩
    exact ⟨t₁ ++ t₂, s₂, t₃, ⟨t₁, s₁, t₂, hp, hq, rfl⟩, hr, by rw [List.append_assoc]⟩

theorem skip_append (p : Printer σ) : skip ++ p = p := by
  funext s
  refine Option.ext fun ⟨t, s'⟩ => ?_
  simp only [append_eq_some, skip_eq_some]
  constructor
  · rintro ⟨_, _, t₂, ⟨rfl, rfl⟩, hp, rfl⟩
    exact hp
  · exact fun hp => ⟨[], s, t, ⟨rfl, rfl⟩, hp, rfl⟩

theorem append_skip (p : Printer σ) : p ++ skip = p := by
  funext s
  refine Option.ext fun ⟨t, s'⟩ => ?_
  simp only [append_eq_some, skip_eq_some]
  constructor
  · rintro ⟨t₁, _, _, hp, ⟨rfl, rfl⟩, rfl⟩
    rw [hp, List.append_nil]
  · exact fun hp => ⟨t, s', [], hp, ⟨rfl, rfl⟩, by rw [List.append_nil]⟩

/-! ## 2. How texts begin -/

/-- The texts of `p`, followed by a text in `F`, are texts in `G`. -/
def Leads (F : Text → Prop) (p : Printer σ) (G : Text → Prop) : Prop :=
  ∀ s t s' r, p s = some (t, s') → F r → G (t ++ r)

section Leads

variable {F G H : Text → Prop} {p q : Printer σ}

theorem Leads.append (hp : Leads G p H) (hq : Leads F q G) : Leads F (p ++ q) H := by
  intro s t s' r h hr
  obtain ⟨t₁, s₁, t₂, h₁, h₂, rfl⟩ := append_eq_some.1 h
  rw [List.append_assoc]
  exact hp s t₁ s₁ _ h₁ (hq s₁ t₂ s' r h₂ hr)

theorem Leads.of_skip : Leads F (skip : Printer σ) F := by
  intro s t s' r h hr
  obtain ⟨rfl, _⟩ := skip_eq_some.1 h
  exact hr

theorem Leads.of_stop : Leads F (stop : Printer σ) G :=
  fun _ _ _ _ h _ => absurd h stop_eq_some

/-- A printer that begins with a fixed text leads wherever any text with that beginning does. -/
theorem Leads.put_append {t : Text} (h : ∀ r, G (t ++ r)) : Leads F (put t ++ p) G := by
  intro s u s' r hu _
  obtain ⟨t₁, s₁, t₂, h₁, _, rfl⟩ := append_eq_some.1 hu
  obtain ⟨rfl, _⟩ := put_eq_some.1 h₁
  rw [List.append_assoc]
  exact h _

/-- A fixed first part carries what every text that begins with it has. -/
theorem Leads.of_append (hp : ∀ F, Leads F p G) : Leads F (p ++ q) G := by
  refine Leads.append (G := fun _ => True) (hp _) ?_
  exact fun _ _ _ _ _ _ => trivial

end Leads

/-! ## 3. Telling printers apart -/

/-- Followed by texts in `F`, the two printers write the same text from the same state only if
    `P` holds; they then end at the same place and in the same state. -/
def Splits (F : Text → Prop) (p q : Printer σ) (P : Prop) : Prop :=
  ∀ s t s₁ t' s₂ r r', p s = some (t, s₁) → q s = some (t', s₂) → F r → F r' →
    t ++ r = t' ++ r' → P ∧ r = r' ∧ s₁ = s₂

section Splits

variable {F G : Text → Prop} {p q p' q' : Printer σ} {P Q : Prop}

theorem Splits.imp (h : Splits F p q P) (hP : P → Q) : Splits F p q Q :=
  fun s t s₁ t' s₂ r r' h₁ h₂ hr hr' he =>
    let ⟨a, b, c⟩ := h s t s₁ t' s₂ r r' h₁ h₂ hr hr' he
    ⟨hP a, b, c⟩

theorem Splits.symm (h : Splits F p q P) : Splits F q p P :=
  fun s t s₁ t' s₂ r r' h₁ h₂ hr hr' he =>
    let ⟨a, b, c⟩ := h s t' s₂ t s₁ r' r h₂ h₁ hr' hr he.symm
    ⟨a, b.symm, c.symm⟩

theorem Splits.of_stop : Splits F (stop : Printer σ) q P :=
  fun _ _ _ _ _ _ _ h _ _ _ _ => absurd h stop_eq_some

theorem Splits.same {t : Text} : Splits F (put t : Printer σ) (put t) True := by
  intro s u s₁ u' s₂ r r' h₁ h₂ _ _ he
  obtain ⟨rfl, rfl⟩ := put_eq_some.1 h₁
  obtain ⟨rfl, rfl⟩ := put_eq_some.1 h₂
  exact ⟨trivial, List.append_cancel_left he, rfl⟩

/-- Texts of one length. -/
theorem Splits.texts {t t' : Text} (h : t.length = t'.length) :
    Splits F (put t : Printer σ) (put t') (t = t') := by
  intro s u s₁ u' s₂ r r' h₁ h₂ _ _ he
  obtain ⟨rfl, rfl⟩ := put_eq_some.1 h₁
  obtain ⟨rfl, rfl⟩ := put_eq_some.1 h₂
  obtain ⟨ht, hr⟩ := List.append_inj he h
  exact ⟨ht, hr, rfl⟩

theorem Splits.char {c d : Char} : Splits F (put [c] : Printer σ) (put [d]) (c = d) := by
  have h : [c].length = [d].length := rfl
  exact (Splits.texts h).imp (fun he => (List.cons.inj he).1)

/-- **The rule of concatenation.** The second parts are compared only where the first parts agree,
    and what follows a first part is a second part. -/
theorem Splits.append (h : Splits G p q P) (h' : P → Splits F p' q' Q)
    (hp : Leads F p' G) (hq : Leads F q' G) : Splits F (p ++ p') (q ++ q') (P ∧ Q) := by
  intro s t s₁ t' s₂ r r' h₁ h₂ hr hr' he
  obtain ⟨t₁, u₁, t₂, hp₁, hp₂, rfl⟩ := append_eq_some.1 h₁
  obtain ⟨t₁', u₁', t₂', hq₁, hq₂, rfl⟩ := append_eq_some.1 h₂
  rw [List.append_assoc, List.append_assoc] at he
  obtain ⟨hP, hrest, rfl⟩ := h _ _ _ _ _ _ _ hp₁ hq₁ (hp _ _ _ _ hp₂ hr) (hq _ _ _ _ hq₂ hr') he
  obtain ⟨hQ, hr₁, hs⟩ := h' hP _ _ _ _ _ _ _ hp₂ hq₂ hr hr' hrest
  exact ⟨⟨hP, hQ⟩, hr₁, hs⟩

/-- The first part marks its own end. -/
theorem Splits.append_free (h : ∀ G, Splits G p q P) (h' : P → Splits F p' q' Q) :
    Splits F (p ++ p') (q ++ q') (P ∧ Q) :=
  Splits.append (G := fun _ => True) (h _) h' (fun _ _ _ _ _ _ => trivial)
    (fun _ _ _ _ _ _ => trivial)

/-- The same text first. -/
theorem Splits.put_append {t : Text} (h : Splits F p q P) : Splits F (put t ++ p) (put t ++ q) P :=
  (Splits.append_free (fun _ => Splits.same) (fun _ => h)).imp And.right

/-- Different characters first. -/
theorem Splits.of_head {c d : Char} {a b : Text} (hne : c ≠ d) :
    Splits F (put (c :: a) ++ p) (put (d :: b) ++ q) P := by
  intro s t s₁ t' s₂ r r' h₁ h₂ _ _ he
  obtain ⟨_, _, _, hp, _, rfl⟩ := append_eq_some.1 h₁
  obtain ⟨_, _, _, hq, _, rfl⟩ := append_eq_some.1 h₂
  obtain ⟨rfl, _⟩ := put_eq_some.1 hp
  obtain ⟨rfl, _⟩ := put_eq_some.1 hq
  simp only [List.cons_append, List.cons.injEq] at he
  exact absurd he.1 hne

/-- Texts that begin in two ways which exclude each other. -/
theorem Splits.of_leads {A B : Text → Prop} (hp : Leads F p A) (hq : Leads F q B)
    (hAB : ∀ t, A t → ¬ B t) : Splits F p q P := by
  intro s t s₁ t' s₂ r r' h₁ h₂ hr hr' he
  refine absurd (hq _ _ _ _ h₂ hr') (hAB _ ?_)
  rw [← he]
  exact hp _ _ _ _ h₁ hr

end Splits

/-! ## 4. Decimal numbers -/

/-- Does not begin with a digit. -/
def NoDigit (r : Text) : Prop := ∀ c, r.head? = some c → c.isDigit = false

theorem NoDigit.cons {c : Char} {r : Text} (h : c.isDigit = false) : NoDigit (c :: r) := by
  intro d hd
  obtain rfl : c = d := by simpa using hd
  exact h

/-- A number in base ten. -/
def number (n : Nat) : Printer σ := put (Nat.toDigits 10 n)

theorem isDigit_of_mem_toDigits {n : Nat} {c : Char} (h : c ∈ Nat.toDigits 10 n) :
    c.isDigit = true := Nat.isDigit_of_mem_toDigits (by omega) (by omega) h

theorem toDigits_eq_cons (n : Nat) : ∃ c t, Nat.toDigits 10 n = c :: t ∧ c.isDigit = true := by
  cases h : Nat.toDigits 10 n with
  | nil => exact absurd h Nat.toDigits_ne_nil
  | cons c t => exact ⟨c, t, rfl, isDigit_of_mem_toDigits (by rw [h]; exact List.mem_cons_self)⟩

theorem toDigits_injective {m n : Nat} (h : Nat.toDigits 10 m = Nat.toDigits 10 n) : m = n := by
  rw [← Nat.ofDigitChars_toDigits (b := 10) (n := m) (by omega) (by omega), h,
    Nat.ofDigitChars_toDigits (by omega) (by omega)]

/-- No number but zero begins with the digit zero. -/
theorem head_toDigits_ne_zero {n : Nat} (hn : n ≠ 0) :
    (Nat.toDigits 10 n).head? ≠ some '0' := by
  induction n using Nat.strongRecOn with
  | _ n ih =>
    by_cases h : n < 10
    · rw [Nat.toDigits_of_lt_base h]
      obtain _ | _ | _ | _ | _ | _ | _ | _ | _ | _ | n := n
      · exact absurd rfl hn
      all_goals first | decide | omega
    · rw [Nat.toDigits_eq_if (by omega), if_neg h]
      have ih' := ih (n / 10) (by omega) (by omega)
      cases hd : Nat.toDigits 10 (n / 10) with
      | nil => exact absurd hd Nat.toDigits_ne_nil
      | cons c t => simpa [hd] using ih'

theorem takeWhile_toDigits {n : Nat} {r : Text} (h : NoDigit r) :
    (Nat.toDigits 10 n ++ r).takeWhile Char.isDigit = Nat.toDigits 10 n := by
  rw [List.takeWhile_append_of_pos (fun c hc => isDigit_of_mem_toDigits hc)]
  cases r with
  | nil => simp
  | cons c r => simp [h c rfl]

/-- Zero marks its own end; another number needs something else than a digit behind it. -/
theorem toDigits_append_inj {m n : Nat} {r r' : Text} (hr : m ≠ 0 → NoDigit r)
    (hr' : n ≠ 0 → NoDigit r') (h : Nat.toDigits 10 m ++ r = Nat.toDigits 10 n ++ r') :
    m = n ∧ r = r' := by
  have hz : Nat.toDigits 10 0 = ['0'] := by decide
  have hzero : ∀ {k : Nat} {a b : Text}, k ≠ 0 →
      Nat.toDigits 10 0 ++ a ≠ Nat.toDigits 10 k ++ b := by
    intro k a b hk he
    obtain ⟨c, t, ht, _⟩ := toDigits_eq_cons k
    have hc := head_toDigits_ne_zero hk
    rw [hz, ht] at he
    rw [ht] at hc
    simp only [List.cons_append, List.cons.injEq] at he
    exact hc (by rw [← he.1]; rfl)
  have hmn : m = n := by
    rcases Nat.eq_zero_or_pos m with rfl | hm
    · rcases Nat.eq_zero_or_pos n with rfl | hn
      · rfl
      · exact absurd h (hzero (by omega))
    · rcases Nat.eq_zero_or_pos n with rfl | hn
      · exact absurd h.symm (hzero (by omega))
      · apply toDigits_injective
        rw [← takeWhile_toDigits (hr (by omega)), h, takeWhile_toDigits (hr' (by omega))]
  subst hmn
  exact ⟨rfl, List.append_cancel_left h⟩

section Number

variable {F : Text → Prop} {p q : Printer σ} {P : Prop}

variable {m n : Nat}

theorem Splits.number_append (h : m = n → Splits F p q P) (hp : m ≠ 0 → Leads F p NoDigit)
    (hq : n ≠ 0 → Leads F q NoDigit) :
    Splits F (number m ++ p) (number n ++ q) (m = n ∧ P) := by
  intro s t s₁ t' s₂ r r' h₁ h₂ hr hr' he
  obtain ⟨_, _, t₂, hp₁, hp₂, rfl⟩ := append_eq_some.1 h₁
  obtain ⟨_, _, t₂', hq₁, hq₂, rfl⟩ := append_eq_some.1 h₂
  obtain ⟨rfl, rfl⟩ := put_eq_some.1 hp₁
  obtain ⟨rfl, rfl⟩ := put_eq_some.1 hq₁
  rw [List.append_assoc, List.append_assoc] at he
  obtain ⟨hmn, hrest⟩ := toDigits_append_inj (fun hm => hp hm _ _ _ _ hp₂ hr)
    (fun hn => hq hn _ _ _ _ hq₂ hr') he
  obtain ⟨hP, hr₁, hs⟩ := h hmn _ _ _ _ _ _ _ hp₂ hq₂ hr hr' hrest
  exact ⟨⟨hmn, hP⟩, hr₁, hs⟩

/-- A number and a character that marks its end. -/
theorem Splits.number_put {c : Char} (hc : c.isDigit = false) (h : m = n → Splits F p q P) :
    Splits F (number m ++ (put [c] ++ p)) (number n ++ (put [c] ++ q)) (m = n ∧ P) :=
  Splits.number_append (fun hmn => Splits.put_append (h hmn))
    (fun _ => Leads.put_append (fun _ => NoDigit.cons hc))
    (fun _ => Leads.put_append (fun _ => NoDigit.cons hc))

/-- Numbers that different characters follow. -/
theorem Splits.number_of_head {c d : Char} (hc : c.isDigit = false) (hd : d.isDigit = false)
    (hne : c ≠ d) :
    Splits F (number m ++ (put [c] ++ p)) (number n ++ (put [d] ++ q)) P :=
  (Splits.number_append (P := False) (fun _ => Splits.of_head hne)
    (fun _ => Leads.put_append (fun _ => NoDigit.cons hc))
    (fun _ => Leads.put_append (fun _ => NoDigit.cons hd))).imp (fun h => h.2.elim)

/-- One digit needs nothing behind it. -/
theorem Splits.digit (hm : m < 10) (hn : n < 10) :
    Splits F (number m : Printer σ) (number n) (m = n) := by
  intro s t s₁ t' s₂ r r' h₁ h₂ _ _ he
  obtain ⟨rfl, rfl⟩ := put_eq_some.1 h₁
  obtain ⟨rfl, rfl⟩ := put_eq_some.1 h₂
  rw [Nat.toDigits_of_lt_base hm, Nat.toDigits_of_lt_base hn] at he
  simp only [List.cons_append, List.nil_append, List.cons.injEq] at he
  refine ⟨toDigits_injective ?_, he.2, rfl⟩
  rw [Nat.toDigits_of_lt_base hm, Nat.toDigits_of_lt_base hn, he.1]

theorem Leads.number_append {G : Text → Prop}
    (h : ∀ c r, c.isDigit = true → G (c :: r)) : Leads F (number n ++ p) G := by
  obtain ⟨c, t, ht, hc⟩ := toDigits_eq_cons n
  refine Leads.put_append (fun r => ?_)
  rw [ht]
  exact h c _ hc

end Number

end Printer

end Trustme.Lib
