/-
  Subject:   Streams that may take less of a slice than they are given, and how much a reader takes.

  * `Sink`, `Write.hand`: a stream, and a writer that does not look at how much was taken;
  * `Whole`, `Willing`: all of each slice is taken; of a slice that has any, some symbol is;
  * `Whole.hands`, `hands_length`: as much goes out as was handed over if and only if all is
    taken;
  * `Read.AtLeast`, `Read.Gives`: how many symbols a reader takes for a value, and what it reads.
-/
import Trustme.Lib.Codec

namespace Trustme.Lib

variable {β ω ρ ε δ α γ : Type}

/-! ## 1. Slices -/

/-- A stream: of a slice, how many symbols it takes and the stream after them; `none` where it
    fails. -/
abbrev Sink (β ω : Type) : Type := ω → List β → Option (Nat × ω)

theorem Write.id_map (w : Write β ω ε α) : id <$> w = w := by
  funext s
  change Write.bind w _ s = w s
  unfold Write.bind
  rcases w s with _ | ⟨_, bs, _⟩
  · rfl
  · exact congrArg (fun bs => Except.ok (_, bs, _)) (List.append_nil bs)

theorem Write.pure_bind (a : α) (k : α → Write β ω ε γ) : Pure.pure a >>= k = k a := by
  funext s
  change Write.bind (Write.pure a) k s = k a s
  unfold Write.bind Write.pure
  dsimp only
  rcases k a s with _ | _ <;> rfl

theorem Write.bind_assoc {κ : Type} (w : Write β ω ε α) (k : α → Write β ω ε γ)
    (l : γ → Write β ω ε κ) : w >>= k >>= l = w >>= fun a => k a >>= l := by
  funext s
  change Write.bind (Write.bind w k) l s = Write.bind w (fun a => Write.bind (k a) l) s
  unfold Write.bind
  rcases w s with _ | ⟨a, bs, s⟩
  · rfl
  · dsimp only
    rcases k a s with _ | ⟨b, bs', s⟩
    · rfl
    · dsimp only
      rcases l b s with _ | ⟨c, bs'', s⟩
      · rfl
      · exact congrArg (fun bs => Except.ok (_, bs, _)) (List.append_assoc ..)

instance : LawfulMonad (Write β ω ε) :=
  LawfulMonad.mk' _ Write.id_map Write.pure_bind Write.bind_assoc

section Hands

variable (inner : Sink β ω) (e : ε)

/-- A slice is handed over; how much of it was taken is not looked at. -/
def Write.hand (v : List β) : Write β ω ε Unit := fun s =>
  match inner s v with
  | some (n, s) => .ok ((), v.take n, s)
  | none => .error e

/-- One slice after another. -/
abbrev Write.hands (vs : List (List β)) : Write β ω ε Unit := Write.each (Write.hand inner e) vs

theorem hands_singleton (v : List β) : Write.hands inner e [v] = Write.hand inner e v :=
  bind_pure_unit

theorem hands_append : ∀ vs vs' : List (List β),
    Write.hands inner e (vs ++ vs') = (do Write.hands inner e vs; Write.hands inner e vs')
  | [], _ => (pure_bind ..).symm
  | v :: vs, vs' => by
    rw [List.cons_append, Write.hands, Write.each, Write.hands, Write.each, bind_assoc]
    exact congrArg _ (funext fun _ => hands_append vs vs')

end Hands

section Whole

/-- The stream takes all of each slice. -/
def Whole (inner : Sink β ω) : ω → List (List β) → Prop
  | _, [] => True
  | s, v :: vs => ∃ n s', inner s v = some (n, s') ∧ v.length ≤ n ∧ Whole inner s' vs

/-- Of a slice with any symbols the stream takes one at least, or fails. -/
def Willing (inner : Sink β ω) : Prop :=
  ∀ s v n s', inner s v = some (n, s') → v ≠ [] → 0 < n

variable {inner : Sink β ω} {e : ε} {s s' : ω} {v out : List β} {vs : List (List β)}

theorem hand_ok (h : Write.hand inner e v s = .ok ((), out, s')) :
    ∃ n, inner s v = some (n, s') ∧ out = v.take n := by
  unfold Write.hand at h
  split at h
  · next n s' hn =>
    cases h
    exact ⟨n, hn, rfl⟩
  · cases h

theorem Whole.hands : ∀ {s : ω} {vs : List (List β)}, Whole inner s vs →
    ∃ s', Write.hands inner e vs s = .ok ((), vs.flatten, s')
  | s, [], _ => ⟨s, rfl⟩
  | s, v :: vs, ⟨n, s₁, hv, hn, h⟩ => by
    obtain ⟨s', hs'⟩ := Whole.hands h
    refine ⟨s', ?_⟩
    change Write.bind (Write.hand inner e v) (fun _ => Write.hands inner e vs) s = _
    unfold Write.bind Write.hand
    simp only [hv, hs', List.take_of_length_le hn, List.flatten_cons]

/-- No more goes out than was handed over, and as much only if all is taken. -/
theorem hands_length : ∀ {s : ω} {vs : List (List β)} {out : List β},
    Write.hands inner e vs s = .ok ((), out, s') → out.length ≤ vs.flatten.length ∧
      (vs.flatten.length ≤ out.length → Whole inner s vs)
  | s, [], out, h => by
    cases h
    exact ⟨Nat.le_refl _, fun _ => trivial⟩
  | s, v :: vs, out, h => by
    obtain ⟨_, out₁, s₁, out₂, hv, hvs, rfl⟩ := Write.bind_ok h
    obtain ⟨n, hn, rfl⟩ := hand_ok hv
    obtain ⟨hle, hwhole⟩ := hands_length hvs
    rw [List.flatten_cons, List.length_append, List.length_append, List.length_take]
    exact ⟨by omega, fun hlen => ⟨n, s₁, hn, by omega, hwhole (by omega)⟩⟩

theorem Whole.append : ∀ {s : ω} {vs vs' : List (List β)} {out : List β}, Whole inner s vs →
    Write.hands inner e vs s = .ok ((), out, s') → Whole inner s' vs' → Whole inner s (vs ++ vs')
  | s, [], vs', out, _, h, h' => by
    cases h
    exact h'
  | s, v :: vs, vs', out, ⟨n, s₁, hv, hn, hwhole⟩, h, h' => by
    obtain ⟨_, _, s₂, _, hhand, hvs, -⟩ := Write.bind_ok h
    obtain ⟨n₂, hn₂, -⟩ := hand_ok hhand
    rw [hv] at hn₂
    cases hn₂
    exact ⟨n, s₁, hv, hn, hwhole.append hvs h'⟩

/-- Slices of one symbol go out as they are. -/
theorem Willing.singles (hw : Willing inner) : ∀ {s : ω} {vs : List (List β)} {out : List β},
    Write.hands inner e vs s = .ok ((), out, s') → (∀ v ∈ vs, v.length = 1) → out = vs.flatten
  | s, [], out, h, _ => by
    cases h
    rfl
  | s, v :: vs, out, h, hone => by
    obtain ⟨_, out₁, s₁, out₂, hv, hvs, rfl⟩ := Write.bind_ok h
    obtain ⟨n, hn, rfl⟩ := hand_ok hv
    obtain ⟨hlen, hrest⟩ := List.forall_mem_cons.mp hone
    have hpos : 0 < n := hw s v n s₁ hn (List.ne_nil_of_length_pos (by omega))
    rw [List.flatten_cons, Willing.singles hw hvs hrest, List.take_of_length_le (by omega)]

end Whole

/-! ## 2. How much a reader takes -/

/-- For a value `a` the reader takes `n a` symbols or more off the front. -/
structure Read.AtLeast (r : Read β ρ δ α) (n : α → Nat) : Prop where
  takes : ∀ {bs t a bs' t'}, r bs t = .ok (a, bs', t') →
    ∃ taken, bs = taken ++ bs' ∧ n a ≤ taken.length

namespace Read.AtLeast

variable {r : Read β ρ δ α} {n : α → Nat} {m : γ → Nat}

theorem pure {a : α} (h : n a = 0) : AtLeast (Pure.pure a : Read β ρ δ α) n where
  takes hok := by
    cases hok
    exact ⟨[], rfl, Nat.le_of_eq h⟩

theorem stop {e : δ} : AtLeast (Read.stop e : Read β ρ δ α) n where
  takes hok := by cases hok

/-- One part after another. -/
theorem bind {k : α → Read β ρ δ γ} (h : AtLeast r n)
    (hk : ∀ x, AtLeast (k x) fun c => m c - n x) : AtLeast (r >>= k) m where
  takes hok := by
    obtain ⟨x, _, _, hr, hx⟩ := Read.bind_ok hok
    obtain ⟨first, rfl, hfirst⟩ := h.takes hr
    obtain ⟨second, rfl, hsecond⟩ := (hk x).takes hx
    refine ⟨first ++ second, (List.append_assoc ..).symm, ?_⟩
    rw [List.length_append]
    omega

/-- The last part, from which the value is made. -/
theorem map {f : α → γ} (h : AtLeast r n) (hf : ∀ x, m (f x) ≤ n x) :
    AtLeast (r >>= fun x => Pure.pure (f x)) m :=
  h.bind fun x => .pure (Nat.sub_eq_zero_of_le (hf x))

theorem ite {c : Prop} [Decidable c] {r' : Read β ρ δ α} (h : AtLeast r n) (h' : AtLeast r' n) :
    AtLeast (if c then r else r') n := by
  split
  · exact h
  · exact h'

end Read.AtLeast

/-- A value that is read is one of which `φ` holds. -/
structure Read.Gives (r : Read β ρ δ α) (φ : α → Prop) : Prop where
  holds : ∀ {bs t a bs' t'}, r bs t = .ok (a, bs', t') → φ a

namespace Read.Gives

variable {r : Read β ρ δ α} {φ : γ → Prop}

theorem pure {c : γ} (h : φ c) : Gives (Pure.pure c : Read β ρ δ γ) φ where
  holds hok := by
    cases hok
    exact h

theorem stop {e : δ} : Gives (Read.stop e : Read β ρ δ γ) φ where
  holds hok := by cases hok

theorem bind {k : α → Read β ρ δ γ} (h : ∀ x, Gives (k x) φ) : Gives (r >>= k) φ where
  holds hok := by
    obtain ⟨x, _, _, -, hx⟩ := Read.bind_ok hok
    exact (h x).holds hx

theorem ite {c : Prop} [Decidable c] {r r' : Read β ρ δ γ} (h : c → Gives r φ)
    (h' : Gives r' φ) : Gives (if c then r else r') φ := by
  split
  · next hc => exact h hc
  · exact h'

end Read.Gives

/-- A reader of so many symbols takes just these. -/
theorem Read.take_ok {k : Nat} {short : δ} {bs bs' v : List β} {t t' : ρ}
    (h : Read.take k short bs t = .ok (v, bs', t')) : v.length = k ∧ bs = v ++ bs' := by
  unfold Read.take at h
  split at h
  · cases h
  · next hlen =>
    cases h
    exact ⟨List.length_take_of_le (Nat.le_of_not_lt hlen), (List.take_append_drop k bs).symm⟩

end Trustme.Lib
