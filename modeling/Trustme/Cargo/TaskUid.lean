/-
  Subject:   Which tasks have the same name for their results (src/bin/cargo/tasks.go).

  * `Work`, `workOf`: what of a task goes into its name;
  * `preimage_injective`: the bytes that are hashed tell the strings that are written;
  * `base64URL_injective`: the name tells the hash;
  * `Recut`, `uid_tells`: the strings do not tell where one list ends and the next begins: exactly
    the works that differ in nothing else share their bytes.
-/
import Trustme.Cargo.Tasks
import Trustme.Lib.Framing
import Trustme.Lib.Printers

namespace Trustme.Cargo

open Trustme.Lib

/-! ## 1. What is hashed -/

/-- What of a task goes into its name: its inputs with their digests, its dependencies by their
    names. -/
structure Work where
  key : Str
  kind : Str
  signature : List Str
  deps : List Str
  inputs : List (Str × Str)
  outputs : List TaskOutput

def workOf {τ ε : Type} (ex : TaskExecutor ε) (g : TaskGraph τ) (state : τ → Option Str) (t : τ) :
    Except (Exception ε) Work := do
  let task := g.task t
  let deps ← depUids g state task.deps
  let inputs ← (digests ex task.inputs).mapError .thrown
  return { key := task.key, kind := task.kind, signature := task.signature, deps := deps
           inputs := inputs, outputs := task.outputs }

/-- The strings of the four lists, one list after the other. -/
def Work.strings (w : Work) : List Str :=
  w.signature ++ w.deps ++ w.inputs.flatMap (fun p => [p.1, p.2]) ++
    w.outputs.flatMap (fun o => [o.name, outputFlags o])

/-- The bytes that are hashed for a work. -/
def Work.bytes (w : Work) (toolHash : Str) : Str :=
  preimage ([taskCacheVersion, toolHash, w.key, w.kind] ++ w.strings)

/-- The same work: of the inputs it is the set that counts. -/
structure Work.Same (w w' : Work) : Prop where
  key : w.key = w'.key
  kind : w.kind = w'.kind
  signature : w.signature = w'.signature
  deps : w.deps = w'.deps
  inputs : ∀ i, i ∈ w.inputs ↔ i ∈ w'.inputs
  outputs : w.outputs = w'.outputs

/-- The same strings in the same order, cut into lists at other places. -/
structure Recut (toolHash toolHash' : Str) (w w' : Work) : Prop where
  toolHash : toolHash = toolHash'
  key : w.key = w'.key
  kind : w.kind = w'.kind
  strings : w.strings = w'.strings
  cut : w.signature.length ≠ w'.signature.length ∨ w.deps.length ≠ w'.deps.length ∨
    w.inputs.length ≠ w'.inputs.length

theorem taskPreimage_eq {τ ε : Type} (ex : TaskExecutor ε) (g : TaskGraph τ)
    (state : τ → Option Str) (t : τ) :
    taskPreimage ex g state t = (workOf ex g state t).map (·.bytes ex.toolHash) := by
  unfold taskPreimage workOf
  cases hd : depUids (ε := ε) g state (g.task t).deps with
  | error x =>
    simp only [hd]
    rfl
  | ok deps =>
    cases hi : digests ex (g.task t).inputs with
    | error e =>
      simp only [hd, hi]
      rfl
    | ok inputs =>
      simp only [hd, hi]
      show Except.ok _ = Except.ok _
      simp only [Work.bytes, Work.strings, hashedStrings, List.append_assoc]

/-! ## 2. The bytes tell the strings -/

/-- A digit, read back from its byte. -/
theorem digit_byte {c : Char} (hc : c.isDigit = true) :
    Char.ofNat (Fin.ofNat 256 c.toNat).val = c ∧ Fin.ofNat 256 c.toNat ≠ 58 := by
  have hr : 48 ≤ c.toNat ∧ c.toNat ≤ 57 := by
    simp only [Char.isDigit, Bool.and_eq_true, decide_eq_true_eq] at hc
    exact ⟨hc.1, hc.2⟩
  have hv : (Fin.ofNat 256 c.toNat).val = c.toNat := Nat.mod_eq_of_lt (by omega)
  refine ⟨by rw [hv, Char.ofNat_toNat], fun h => ?_⟩
  have := congrArg Fin.val h
  rw [hv] at this
  simp at this
  omega

theorem decimal_injective {m n : Nat} (h : decimal m = decimal n) : m = n := by
  have hback : ∀ k, (decimal k).map (fun b => Char.ofNat b.val) = Nat.toDigits 10 k := by
    intro k
    unfold decimal
    rw [List.map_map]
    conv_rhs => rw [← List.map_id (Nat.toDigits 10 k)]
    exact List.map_congr_left fun c hc => (digit_byte (Printer.isDigit_of_mem_toDigits hc)).1
  apply Printer.toDigits_injective
  rw [← hback, h, hback]

theorem colon_notMem_decimal (n : Nat) : (58 : Byte) ∉ decimal n := by
  intro h
  obtain ⟨c, hc, he⟩ := List.mem_map.1 h
  exact (digit_byte (Printer.isDigit_of_mem_toDigits hc)).2 he

/-- **Every string is read back from the bytes**, whatever bytes it holds itself. -/
theorem preimage_injective {l l' : List Str} (h : preimage l = preimage l') : l = l' := by
  have hframes : ∀ l, preimage l = frames decimal 58 l := by
    intro l
    have hcolon : ascii ":" = [58] := by decide
    simp only [preimage, frames]
    refine List.flatMap_congr fun v _ => ?_
    rw [writeHashString, hcolon, frame, List.append_assoc]
    rfl
  rw [hframes, hframes] at h
  exact frames_injective decimal_injective colon_notMem_decimal h

/-! ## 3. The name tells the hash -/

theorem base64Digit_injective {m n : Nat} (hm : m < 64) (hn : n < 64)
    (h : base64URL.digit m = base64URL.digit n) : m = n := by
  have hinv : ∀ k : Fin 64,
      (ascii "ABCDEFGHIJKLMNOPQRSTUVWXYZabcdefghijklmnopqrstuvwxyz0123456789-_").idxOf
        (base64URL.digit k.val) = k.val := by decide +kernel
  have h₁ := hinv ⟨m, hm⟩
  have h₂ := hinv ⟨n, hn⟩
  simp only [h] at h₁ h₂
  exact h₁.symm.trans h₂

/-- Base64 is read back: four digits hold three bytes. -/
theorem base64URL_injective : ∀ {a b : Str}, base64URL a = base64URL b → a = b
  | [], [], _ => rfl
  | [a], [b], h => by
    simp only [base64URL, List.cons.injEq, and_true] at h
    have h₁ := base64Digit_injective (by omega) (by omega) h.1
    have h₂ := base64Digit_injective (by omega) (by omega) h.2
    have : a = b := Fin.ext (by omega)
    rw [this]
  | [a₁, a₂], [b₁, b₂], h => by
    simp only [base64URL, List.cons.injEq, and_true] at h
    have h₁ := base64Digit_injective (by omega) (by omega) h.1
    have h₂ := base64Digit_injective (by omega) (by omega) h.2.1
    have h₃ := base64Digit_injective (by omega) (by omega) h.2.2
    have : a₁ = b₁ := Fin.ext (by omega)
    have : a₂ = b₂ := Fin.ext (by omega)
    simp_all
  | a₁ :: a₂ :: a₃ :: a, b₁ :: b₂ :: b₃ :: b, h => by
    simp only [base64URL, List.cons.injEq] at h
    have h₁ := base64Digit_injective (by omega) (by omega) h.1
    have h₂ := base64Digit_injective (by omega) (by omega) h.2.1
    have h₃ := base64Digit_injective (by omega) (by omega) h.2.2.1
    have h₄ := base64Digit_injective (by omega) (by omega) h.2.2.2.1
    have e₁ : a₁ = b₁ := Fin.ext (by omega)
    have e₂ : a₂ = b₂ := Fin.ext (by omega)
    have e₃ : a₃ = b₃ := Fin.ext (by omega)
    rw [e₁, e₂, e₃, base64URL_injective h.2.2.2.2]
  | [], [_], h | [], [_, _], h | [], _ :: _ :: _ :: _, h => by simp [base64URL] at h
  | [_], [], h | [_], [_, _], h | [_], _ :: _ :: _ :: _, h => by simp [base64URL] at h
  | [_, _], [], h | [_, _], [_], h | [_, _], _ :: _ :: _ :: _, h => by simp [base64URL] at h
  | _ :: _ :: _ :: _, [], h | _ :: _ :: _ :: _, [_], h | _ :: _ :: _ :: _, [_, _], h => by
    simp [base64URL] at h

/-! ## 4. Which works share their bytes -/

/-- A list of pairs is read back from their components in a row. -/
theorem flatMap_pair_injective {α : Type} {f g : α → Str}
    (hfg : ∀ a b, f a = f b → g a = g b → a = b) : ∀ {l l' : List α},
    l.flatMap (fun a => [f a, g a]) = l'.flatMap (fun a => [f a, g a]) → l = l'
  | [], [], _ => rfl
  | [], _ :: _, h => by simp at h
  | _ :: _, [], h => by simp at h
  | a :: l, b :: l', h => by
    simp only [List.flatMap_cons, List.cons_append, List.nil_append, List.cons.injEq] at h
    rw [hfg a b h.1 h.2.1, flatMap_pair_injective hfg h.2.2]

theorem outputs_injective {l l' : List TaskOutput}
    (h : l.flatMap (fun o => [o.name, outputFlags o]) =
      l'.flatMap (fun o => [o.name, outputFlags o])) : l = l' := by
  have hbools : ∀ tree exe tree' exe' : Bool,
      ascii (toString tree) ++ ascii ":" ++ ascii (toString exe) =
        ascii (toString tree') ++ ascii ":" ++ ascii (toString exe') →
      tree = tree' ∧ exe = exe' := by decide +kernel
  refine flatMap_pair_injective (fun a b hname hflags => ?_) h
  obtain ⟨n, tree, exe⟩ := a
  obtain ⟨n', tree', exe'⟩ := b
  obtain ⟨rfl, rfl⟩ := hbools tree exe tree' exe' hflags
  rw [TaskOutput.mk.injEq]
  exact ⟨hname, rfl, rfl⟩

theorem length_flatMap_pair {α : Type} (f g : α → Str) (l : List α) :
    (l.flatMap fun a => [f a, g a]).length = 2 * l.length := by
  induction l with
  | nil => rfl
  | cons a l ih =>
    simp only [List.flatMap_cons, List.length_append, List.length_cons, List.length_nil, ih]
    omega

theorem bytes_eq_iff {w w' : Work} {toolHash toolHash' : Str} :
    w.bytes toolHash = w'.bytes toolHash' ↔
      toolHash = toolHash' ∧ w.key = w'.key ∧ w.kind = w'.kind ∧ w.strings = w'.strings := by
  constructor
  · intro h
    have hs := preimage_injective h
    simp only [List.cons_append, List.nil_append, List.cons.injEq, true_and] at hs
    exact hs
  · intro ⟨ht, hkey, hkind, hs⟩
    simp only [Work.bytes, ht, hkey, hkind, hs]

/-- Cut at the same places, the same strings are the same lists. -/
theorem same_of_strings {w w' : Work} (hkey : w.key = w'.key) (hkind : w.kind = w'.kind)
    (h : w.strings = w'.strings) (hsig : w.signature.length = w'.signature.length)
    (hdeps : w.deps.length = w'.deps.length) (hin : w.inputs.length = w'.inputs.length) :
    w.Same w' := by
  unfold Work.strings at h
  rw [List.append_assoc, List.append_assoc, List.append_assoc, List.append_assoc] at h
  obtain ⟨esig, h⟩ := List.append_inj h hsig
  obtain ⟨edeps, h⟩ := List.append_inj h hdeps
  obtain ⟨ein, eout⟩ := List.append_inj h (by rw [length_flatMap_pair, length_flatMap_pair, hin])
  have einputs : w.inputs = w'.inputs :=
    flatMap_pair_injective (fun a b h₁ h₂ => Prod.ext h₁ h₂) ein
  exact ⟨hkey, hkind, esig, edeps, fun i => by rw [einputs], outputs_injective eout⟩

/-- The bytes of two works, by what differs: they tell the works unless only the cuts differ. -/
theorem bytes_tell_iff {w w' : Work} {toolHash toolHash' : Str} :
    (w.bytes toolHash = w'.bytes toolHash' → w.Same w') ↔ ¬ Recut toolHash toolHash' w w' := by
  rw [bytes_eq_iff]
  constructor
  · intro h hcut
    have hsame := h ⟨hcut.toolHash, hcut.key, hcut.kind, hcut.strings⟩
    have hs := hcut.strings
    unfold Work.strings at hs
    rw [hsame.signature, hsame.deps, hsame.outputs] at hs
    have hin := List.append_cancel_left (List.append_cancel_right hs)
    have hlen := congrArg List.length hin
    rw [length_flatMap_pair, length_flatMap_pair] at hlen
    rcases hcut.cut with hne | hne | hne
    · exact hne (by rw [hsame.signature])
    · exact hne (by rw [hsame.deps])
    · omega
  · intro hcut ⟨ht, hkey, hkind, hs⟩
    have hlens : ¬ (w.signature.length ≠ w'.signature.length ∨ w.deps.length ≠ w'.deps.length ∨
        w.inputs.length ≠ w'.inputs.length) := fun hc => hcut ⟨ht, hkey, hkind, hs, hc⟩
    simp only [not_or, not_not] at hlens
    exact same_of_strings hkey hkind hs hlens.1 hlens.2.1 hlens.2.2

theorem taskUID_eq {τ ε : Type} {ex : TaskExecutor ε} {g : TaskGraph τ} {state : τ → Option Str}
    {t : τ} {w : Work} (hw : workOf ex g state t = .ok w) :
    taskUID ex g state t = .ok (base64URL ((ex.sum256 (w.bytes ex.toolHash)).take 16)) := by
  unfold taskUID
  rw [taskPreimage_eq, hw]
  rfl

/-- **What the name of a result tells.** Of two tasks whose names can be computed, the hashed bytes
    -- and the names, when the truncated hash does not take the two to one value -- tell whether the
    work is the same, except for works whose strings are the same ones in the same order and differ
    only in where one list ends and the next begins. -/
theorem uid_tells {τ τ' ε : Type} (ex ex' : TaskExecutor ε) (g : TaskGraph τ) (g' : TaskGraph τ')
    (state : τ → Option Str) (state' : τ' → Option Str) (t : τ) (t' : τ') (w w' : Work)
    (hw : workOf ex g state t = .ok w) (hw' : workOf ex' g' state' t' = .ok w') :
    ∃ p p', taskPreimage ex g state t = .ok p ∧ taskPreimage ex' g' state' t' = .ok p' ∧
      ((p = p' → w.Same w') ↔ ¬ Recut ex.toolHash ex'.toolHash w w') ∧
      (ex'.sum256 = ex.sum256 → ((ex.sum256 p).take 16 = (ex.sum256 p').take 16 → p = p') →
        ((taskUID ex g state t = taskUID ex' g' state' t' → w.Same w') ↔
          ¬ Recut ex.toolHash ex'.toolHash w w')) := by
  refine ⟨w.bytes ex.toolHash, w'.bytes ex'.toolHash, ?_, ?_, bytes_tell_iff, fun hsum hone => ?_⟩
  · rw [taskPreimage_eq, hw]
    rfl
  · rw [taskPreimage_eq, hw']
    rfl
  · have hname : taskUID ex g state t = taskUID ex' g' state' t' ↔
        w.bytes ex.toolHash = w'.bytes ex'.toolHash := by
      rw [taskUID_eq hw, taskUID_eq hw', hsum]
      constructor
      · intro h
        exact hone (base64URL_injective (Except.ok.inj h))
      · intro h
        rw [h]
    rw [hname]
    exact bytes_tell_iff

/-- Three tasks with one key and kind and no dependency or input: one with a signature and an
    output, one with two outputs, one with another signature. -/
def recutTasks : TaskGraph (Fin 3) where
  task t :=
    { key := ascii "crate", name := ascii "crate", kind := ascii "RUN", deps := [], inputs := []
      signature := match t with
        | 0 => [ascii "a", ascii "false:false"]
        | 1 => []
        | 2 => [ascii "a", ascii "true:false"]
      outputs := match t with
        | 1 => [⟨ascii "a", false, false⟩, ⟨ascii "b", false, false⟩]
        | _ => [⟨ascii "b", false, false⟩] }
  acyclic := ⟨fun _ => ⟨_, fun _ h => absurd h List.not_mem_nil⟩⟩

theorem uid_tells_signature : ∃ p p',
    taskPreimage (makeExecutor 1 [] (fun _ => .ok []) id : TaskExecutor Unit) recutTasks
      (fun _ => none) 0 = .ok p ∧
    taskPreimage (makeExecutor 1 [] (fun _ => .ok []) id : TaskExecutor Unit) recutTasks
      (fun _ => none) 2 = .ok p' ∧ p ≠ p' := by
  obtain ⟨p, p', hp, hp', htell, _⟩ := uid_tells
    (makeExecutor 1 [] (fun _ => .ok []) id : TaskExecutor Unit)
    (makeExecutor 1 [] (fun _ => .ok []) id) recutTasks recutTasks (fun _ => none) (fun _ => none)
    0 2 _ _ rfl rfl
  refine ⟨p, p', hp, hp', fun he => ?_⟩
  have hsame := htell.2 (fun hcut => by
    rcases hcut.cut with h | h | h
    · exact h rfl
    · exact h rfl
    · exact h rfl) he
  have hsig := hsame.signature
  revert hsig
  decide

/-- The first two of these tasks have the same bytes: a signature of two strings is taken for an
    output. -/
theorem uid_confuses : ¬ ∀ (τ ε : Type) (ex : TaskExecutor ε) (g : TaskGraph τ)
    (state : τ → Option Str) (t t' : τ) (w w' : Work), workOf ex g state t = .ok w →
    workOf ex g state t' = .ok w' → ¬ w.Same w' →
    taskPreimage ex g state t ≠ taskPreimage ex g state t' := by
  intro h
  refine h (Fin 3) Unit (makeExecutor 1 [] (fun _ => .ok []) id) recutTasks (fun _ => none) 0 1
    _ _ rfl rfl (fun hsame => ?_) ?_
  · have hsig := congrArg List.length hsame.signature
    cases hsig
  · have hs : ascii "false:false" = outputFlags ⟨ascii "a", false, false⟩ := by decide +kernel
    rw [taskPreimage_eq, taskPreimage_eq]
    show Except.ok _ = Except.ok _
    refine congrArg Except.ok (bytes_eq_iff.2 ⟨rfl, rfl, rfl, ?_⟩)
    show [ascii "a", ascii "false:false", ascii "b", _] = [ascii "a", _, ascii "b", _]
    rw [hs]

end Trustme.Cargo
