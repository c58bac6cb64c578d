/-
  Subject:   Writers and readers that belong together, over a stream and two states.

  * `Write`, `Read`: a writer appends to the stream, a reader takes from it;
  * `Carries`: what a writer writes, a reader reads as a given value, and takes no more than that,
    from one relation of the states to another;
  * `Carries.bind`, `last`, `list`: the rules for a sequence, a last part and a loop;
  * `leBytes`, `leValue`: numbers in bytes, the lowest first.
-/
import Mathlib.Data.List.Basic
import Mathlib.Tactic.Ring

namespace Trustme.Lib

variable {β ω ρ ε δ α γ : Type}

/-! ## 1. Writers and readers -/

/-- A writer over the state `ω`: what it appends, or where it stops. -/
def Write (β ω ε α : Type) : Type := ω → Except ε (α × List β × ω)

/-- A reader over the state `ρ`: a value and what is left, or where it stops. -/
def Read (β ρ δ α : Type) : Type := List β → ρ → Except δ (α × List β × ρ)

namespace Write

protected def pure (a : α) : Write β ω ε α := fun s => .ok (a, [], s)

protected def bind (w : Write β ω ε α) (k : α → Write β ω ε γ) : Write β ω ε γ := fun s =>
  match w s with
  | .error e => .error e
  | .ok (a, bs, s) =>
    match k a s with
    | .error e => .error e
    | .ok (c, bs', s) => .ok (c, bs ++ bs', s)

instance : Monad (Write β ω ε) where
  pure := Write.pure
  bind := Write.bind

def stop (e : ε) : Write β ω ε α := fun _ => .error e

def put (bs : List β) : Write β ω ε Unit := fun s => .ok ((), bs, s)

/-- A look at the state. -/
def look (f : ω → α) : Write β ω ε α := fun s => .ok (f s, [], s)

/-- A change of the state. -/
def change (f : ω → ω) : Write β ω ε Unit := fun s => .ok ((), [], f s)

/-- An assertion: without it the writer stops. -/
def check (c : Bool) (e : ε) : Write β ω ε Unit := if c then pure () else stop e

/-- The loop over the elements. -/
def each (w : α → Write β ω ε Unit) : List α → Write β ω ε Unit
  | [] => pure ()
  | x :: xs => do
      w x
      each w xs

end Write

namespace Read

protected def pure (a : α) : Read β ρ δ α := fun bs t => .ok (a, bs, t)

protected def bind (r : Read β ρ δ α) (k : α → Read β ρ δ γ) : Read β ρ δ γ := fun bs t =>
  match r bs t with
  | .error e => .error e
  | .ok (a, bs, t) => k a bs t

instance : Monad (Read β ρ δ) where
  pure := Read.pure
  bind := Read.bind

def stop (e : δ) : Read β ρ δ α := fun _ _ => .error e

/-- `n` symbols. -/
def take (n : Nat) (short : δ) : Read β ρ δ (List β) := fun bs t =>
  if bs.length < n then .error short else .ok (bs.take n, bs.drop n, t)

/-- The loop that reads `n` elements. -/
def times (r : Read β ρ δ α) : Nat → Read β ρ δ (List α)
  | 0 => pure []
  | n + 1 => do
      let x ← r
      let xs ← times r n
      return x :: xs

end Read

/-! ## 2. What belongs together -/

/-- What `w` writes from states in `P` on, `r` reads as `a`, and nothing of what follows; then the
    states are in `Q`. The writer stops as `stop` says, and `keep` goes from its last state to those
    before. -/
structure Carries (stop : ε → Prop) (keep : ω → Prop) (P Q : ω → ρ → Prop) (w : Write β ω ε Unit)
    (r : Read β ρ δ α) (a : α) : Prop where
  stops : ∀ {s e}, w s = .error e → stop e
  kept : ∀ {s bs s'}, w s = .ok ((), bs, s') → keep s' → keep s
  reads : ∀ {s bs s'}, w s = .ok ((), bs, s') → keep s' → ∀ {t} (rest : List β), P s t →
    ∃ t', r (bs ++ rest) t = .ok (a, rest, t') ∧ Q s' t'

section Rules

variable {w w' : Write β ω ε Unit} {r : Read β ρ δ α} {a : α}

theorem Write.bind_error {w : Write β ω ε α} {k : α → Write β ω ε γ} {s : ω} {e : ε}
    (h : (w >>= k) s = .error e) :
    w s = .error e ∨ ∃ x bs s', w s = .ok (x, bs, s') ∧ k x s' = .error e := by
  change Write.bind w k s = .error e at h
  unfold Write.bind at h
  split at h
  · next e' he =>
    cases h
    exact .inl he
  · next x bs s' hw =>
    refine .inr ⟨x, bs, s', hw, ?_⟩
    split at h
    · next e' he =>
      cases h
      exact he
    · cases h

theorem Write.bind_ok {w : Write β ω ε α} {k : α → Write β ω ε γ} {s s'' : ω} {c : γ}
    {bs : List β} (h : (w >>= k) s = .ok (c, bs, s'')) :
    ∃ x bs₁ s' bs₂, w s = .ok (x, bs₁, s') ∧ k x s' = .ok (c, bs₂, s'') ∧ bs = bs₁ ++ bs₂ := by
  change Write.bind w k s = _ at h
  unfold Write.bind at h
  split at h
  · cases h
  · next x bs₁ s' hw =>
    split at h
    · cases h
    · next c' bs₂ s₂ hk =>
      cases h
      exact ⟨x, bs₁, s', bs₂, hw, hk, rfl⟩

theorem Read.bind_of_ok {r : Read β ρ δ α} {k : α → Read β ρ δ γ} {bs bs' : List β} {t t' : ρ}
    {x : α} (h : r bs t = .ok (x, bs', t')) : (r >>= k) bs t = k x bs' t' := by
  change Read.bind r k bs t = _
  unfold Read.bind
  rw [h]

theorem Read.bind_ok {r : Read β ρ δ α} {k : α → Read β ρ δ γ} {bs bs' : List β} {t t' : ρ} {c : γ}
    (h : (r >>= k) bs t = .ok (c, bs', t')) :
    ∃ x bs₁ t₁, r bs t = .ok (x, bs₁, t₁) ∧ k x bs₁ t₁ = .ok (c, bs', t') := by
  change Read.bind r k bs t = _ at h
  unfold Read.bind at h
  split at h
  · cases h
  · next x bs₁ t₁ hr => exact ⟨x, bs₁, t₁, hr, h⟩

namespace Carries

variable {stop : ε → Prop} {keep : ω → Prop} {P Q T : ω → ρ → Prop}

/-- Nothing is written for a value that the reader's state tells. -/
theorem told {f : ρ → ρ} (h : ∀ s t, P s t → ∀ rest, r rest t = .ok (a, rest, f t) ∧ Q s (f t)) :
    Carries stop keep P Q (Pure.pure () : Write β ω ε Unit) r a where
  stops he := by cases he
  kept hok hk := by
    cases hok
    exact hk
  reads hok _ t rest hs := by
    cases hok
    exact ⟨f t, h _ t hs rest⟩

/-- Nothing is written for a value that is known. -/
theorem pure (a : α) :
    Carries stop keep P P (Pure.pure () : Write β ω ε Unit) (Pure.pure a : Read β ρ δ α) a :=
  told (f := id) fun _ _ hs _ => ⟨rfl, hs⟩

variable (h : Carries stop keep P Q w r a)

include h

/-- One part after another. -/
theorem bind {k : α → Read β ρ δ γ} {c : γ}
    (h' : Carries stop keep Q T w' (k a) c) : Carries stop keep P T (do w; w') (r >>= k) c where
  stops he := by
    rcases Write.bind_error he with he | ⟨_, _, _, _, he⟩
    · exact h.stops he
    · exact h'.stops he
  kept hok hk := by
    obtain ⟨_, _, _, _, h₁, h₂, _⟩ := Write.bind_ok hok
    exact h.kept h₁ (h'.kept h₂ hk)
  reads hok hk t rest hs := by
    obtain ⟨_, bs₁, _, bs₂, h₁, h₂, rfl⟩ := Write.bind_ok hok
    obtain ⟨t₁, hr₁, hs₁⟩ := h.reads h₁ (h'.kept h₂ hk) (bs₂ ++ rest) hs
    obtain ⟨t₂, hr₂, hs₂⟩ := h'.reads h₂ hk rest hs₁
    refine ⟨t₂, ?_, hs₂⟩
    rw [List.append_assoc, Read.bind_of_ok hr₁, hr₂]

/-- The last part that is written, after which the reader looks at its state. -/
theorem finish {k : α → Read β ρ δ γ} {c : γ} {f : ρ → ρ}
    (hk : ∀ s t, Q s t → ∀ rest, k a rest t = .ok (c, rest, f t) ∧ T s (f t)) :
    Carries stop keep P T w (r >>= k) c where
  stops := h.stops
  kept := h.kept
  reads hok hkept t rest hs := by
    obtain ⟨t', hr, hs'⟩ := h.reads hok hkept rest hs
    obtain ⟨hr', ht⟩ := hk _ t' hs' rest
    exact ⟨f t', by rw [Read.bind_of_ok hr, hr'], ht⟩

/-- The last part, after which nothing is read. -/
theorem last {k : α → Read β ρ δ γ} {c : γ}
    (hk : k a = Pure.pure c) : Carries stop keep P Q w (r >>= k) c :=
  finish (f := id) h fun _ _ hs _ => ⟨by rw [hk]; rfl, hs⟩

/-- The last part, from which the value is made. -/
theorem map {f : α → γ} :
    Carries stop keep P Q w (r >>= fun x => Pure.pure (f x)) (f a) :=
  h.last rfl

/-- Less is known before, or asked after. -/
theorem imp {P' Q' : ω → ρ → Prop} (hP : ∀ s t, P' s t → P s t) (hQ : ∀ s t, Q s t → Q' s t) :
    Carries stop keep P' Q' w r a where
  stops := h.stops
  kept := h.kept
  reads hok hkept t rest hs := by
    obtain ⟨t', hr, hs'⟩ := h.reads hok hkept rest (hP _ t hs)
    exact ⟨t', hr, hQ _ t' hs'⟩

omit h

/-- What does not speak of the states stays true. -/
theorem frame (φ : Prop) (h : Carries stop keep P Q w r a) :
    Carries stop keep (fun s t => P s t ∧ φ) (fun s t => Q s t ∧ φ) w r a where
  stops := h.stops
  kept := h.kept
  reads hok hkept _ rest hs := by
    obtain ⟨t', hr, hs'⟩ := h.reads hok hkept rest hs.1
    exact ⟨t', hr, hs', hs.2⟩

/-- Something of the state is taken for known. -/
theorem given {χ : Type} (f : ω → χ)
    (h : ∀ x, Carries stop keep (fun s t => P s t ∧ f s = x) Q w r a) :
    Carries stop keep P Q w r a where
  stops {s _} := (h (f s)).stops
  kept {s _ _} := (h (f s)).kept
  reads {s _ _} hok hkept _ rest hs := (h (f s)).reads hok hkept rest ⟨hs, rfl⟩

/-- The writer looks at its state. -/
theorem look {χ : Type} {f : ω → χ} {k : χ → Write β ω ε Unit}
    (h : ∀ x, Carries stop keep (fun s t => P s t ∧ f s = x) Q (k x) r a) :
    Carries stop keep P Q (Write.look f >>= k) r a := by
  have hrun : ∀ s, (Write.look f >>= k) s = k (f s) s := by
    intro s
    change Write.bind (Write.look f) k s = _
    unfold Write.bind Write.look
    rcases hk : k (f s) s with e | ⟨c, bs, s'⟩
    · simp only [hk]
    · simp only [hk, List.nil_append]
  constructor
  · intro s e he
    rw [hrun] at he
    exact (h (f s)).stops he
  · intro s bs s' hok
    rw [hrun] at hok
    exact (h (f s)).kept hok
  · intro s bs s' hok hkept t rest hs
    rw [hrun] at hok
    exact (h (f s)).reads hok hkept rest ⟨hs, rfl⟩

/-- Writer and reader change their states. -/
theorem changes {f : ω → ω} {g : ρ → ρ} (h : ∀ s t, P s t → Q (f s) (g t))
    (hr : ∀ rest t, r rest t = .ok (a, rest, g t)) (hf : ∀ s, keep (f s) → keep s) :
    Carries stop keep P Q (Write.change f : Write β ω ε Unit) r a where
  stops he := by cases he
  kept hok hk := by
    cases hok
    exact hf _ hk
  reads hok _ t rest hs := by
    cases hok
    exact ⟨g t, hr rest t, h _ t hs⟩

/-- The writer changes its state. -/
theorem change {f : ω → ω} (h : ∀ s t, P s t → Q (f s) t) (hf : ∀ s, keep (f s) → keep s) :
    Carries stop keep P Q (Write.change f : Write β ω ε Unit) (Pure.pure () : Read β ρ δ Unit) () :=
  changes (g := id) h (fun _ _ => rfl) hf

/-- A part that reads nothing. -/
theorem after (h : Carries stop keep P Q w (Pure.pure () : Read β ρ δ Unit) ())
    (h' : Carries stop keep Q T w' r a) : Carries stop keep P T (do w; w') r a :=
  h.bind (k := fun _ => r) h'

/-- An assertion that holds. -/
theorem check {c : Bool} {e : ε} (h : c = true) :
    Carries stop keep P P (Write.check c e : Write β ω ε Unit)
      (Pure.pure () : Read β ρ δ Unit) () := by
  subst h
  exact Carries.pure ()

/-- An assertion at which the writer may stop. -/
theorem may {c : Bool} {e : ε} (h : stop e) :
    Carries stop keep P P (Write.check c e : Write β ω ε Unit)
      (Pure.pure () : Read β ρ δ Unit) () := by
  cases c with
  | true => exact Carries.pure ()
  | false =>
    constructor
    · intro s e' he
      cases he
      exact h
    · intro s bs s' hok
      cases hok
    · intro s bs s' hok
      cases hok

/-- As many symbols as are written. -/
theorem take {bs : List β} {short : δ} :
    Carries stop keep P P (Write.put bs : Write β ω ε Unit) (Read.take bs.length short) bs where
  stops he := by cases he
  kept hok hk := by
    cases hok
    exact hk
  reads hok _ t rest hs := by
    cases hok
    refine ⟨t, ?_, hs⟩
    unfold Read.take
    rw [if_neg (by rw [List.length_append]; omega), List.take_left, List.drop_left]

/-- A loop of the writer against a loop of the reader. -/
theorem list {x : γ → Write β ω ε Unit} {f : γ → α} : ∀ {l : List γ},
    (∀ c ∈ l, Carries stop keep P P (x c) r (f c)) →
      Carries stop keep P P (Write.each x l) (Read.times r l.length) (l.map f)
  | [], _ => Carries.pure []
  | c :: l, h => by
    have hrest : Carries stop keep P P (Write.each x l) (Read.times r l.length) (l.map f) :=
      list fun c' hc' => h c' (List.mem_cons_of_mem _ hc')
    exact (h c List.mem_cons_self).bind hrest.map

end Carries

end Rules

/-! ## 3. Numbers in bytes -/

/-- The `n` lowest bytes of a number, the lowest first. -/
def leBytes : Nat → Nat → List (BitVec 8)
  | 0, _ => []
  | n + 1, v => BitVec.ofNat 8 v :: leBytes n (v / 256)

def leValue : List (BitVec 8) → Nat
  | [] => 0
  | b :: bs => b.toNat + 256 * leValue bs

@[simp] theorem leBytes_length : ∀ n v, (leBytes n v).length = n
  | 0, _ => rfl
  | n + 1, v => congrArg (· + 1) (leBytes_length n (v / 256))

theorem leValue_leBytes : ∀ {n v : Nat}, v < 256 ^ n → leValue (leBytes n v) = v
  | 0, v, h => by
    rw [Nat.pow_zero, Nat.lt_one_iff] at h
    rw [h]
    rfl
  | n + 1, v, h => by
    have hdiv : v / 256 < 256 ^ n := by
      rw [Nat.pow_succ] at h
      exact Nat.div_lt_of_lt_mul (by rwa [Nat.mul_comm])
    rw [leBytes, leValue, leValue_leBytes hdiv, BitVec.toNat_ofNat]
    exact Nat.mod_add_div v 256

end Trustme.Lib
