/-
  Subject:   What is initialised, part by part: the list of the parts that a state says are there,
             and that this list holds each of them once.

  * `VarState.parts`: the initialised parts of a place that have one state, in the order in which
    a drop of the place takes them;
  * `Live`: the place lies in the active variants, `Regular` -- the state is one that a body
    accepted by the borrow checker leads to;
  * `count_parts`: a place is in one part when it is initialised and in none otherwise.
-/
import Mathlib.Algebra.Ring.Nat
import Trustme.Lowering.DropCode

namespace Trustme.Lowering

open Lib (OrdMap Source)

/-! ## 1. Parts -/

/-- A part of a place: a value with all it holds, or the allocation of a box alone. -/
abbrev Part := DropKind × List Step

namespace Part

/-- The part seen from the value around its place. -/
def inside (s : Step) (ps : List Part) : List Part := ps.map fun p => (p.1, s :: p.2)

/-- Whether a place belongs to the part. -/
def covers : DropKind → List Step → SubPlace → Bool
  | .deep, [], _ => true
  | .shallow, [], .boxAlloc => true
  | kind, .field i :: path, .field j p => i == j && covers kind path p
  | kind, .variant i :: path, .variant j p => i == j && covers kind path p
  | kind, .deref :: path, .deref p => covers kind path p
  | _, _, _ => false

/-- How many of the parts a place belongs to. -/
def count (ps : List Part) (p : SubPlace) : Nat := ps.countP fun q => covers q.1 q.2 p

@[simp] theorem count_nil (p : SubPlace) : count [] p = 0 := rfl

@[simp] theorem count_append (ps qs : List Part) (p : SubPlace) :
    count (ps ++ qs) p = count ps p + count qs p := List.countP_append

@[simp] theorem count_whole (p : SubPlace) : count [(.deep, [])] p = 1 := by
  simp [count, covers]

theorem count_inside (s : Step) (ps : List Part) (p q : SubPlace)
    (h : ∀ kind path, covers kind (s :: path) p = covers kind path q) :
    count (inside s ps) p = count ps q := by
  simp only [count, inside, List.countP_map]
  exact List.countP_congr fun r _ => by simp [h r.1 r.2]

theorem count_inside_other (s : Step) (ps : List Part) (p : SubPlace)
    (h : ∀ kind path, covers kind (s :: path) p = false) : count (inside s ps) p = 0 := by
  simp only [count, inside, List.countP_map, List.countP_eq_zero]
  intro r _
  simp [h r.1 r.2]

end Part

section Parts

variable {Ty : Type} (tt : TypeTable Ty) (typeNeedsDropGlue : Ty → Bool) (env : DropEnv)
  (root : Storage)

mutual

/-- The initialised parts of the place at `base` that need dropping. -/
def VarState.parts : VarState → Ty → List Step → List Part
  | .invalid _, _, _ => []
  | .valid, ty, _ => if typeNeedsDropGlue ty then [(.deep, [])] else []
  | .optional flag, ty, _ => if typeNeedsDropGlue ty && env.flags flag then [(.deep, [])] else []
  | .movedOut innerState outerFlag, ty, base =>
    if typeNeedsDropGlue ty then
      Part.inside .deref (innerState.parts (tt.pointee ty) (base ++ [.deref])) ++
        (if env.taken outerFlag then [(.shallow, [])] else [])
    else []
  | .partialOf innerStates outerFlag, ty, base =>
    if !typeNeedsDropGlue ty then []
    else if tt.isEnum ty then
      if innerStates.all VarState.isInvalid || !env.taken outerFlag then []
      else if tt.hasDropImpl ty then [(.deep, [])]
      else partsVariant innerStates ty base (env.disc root base) (env.disc root base)
    else if tt.isUnion ty then []
    else partsFields innerStates ty base 0
  | .partialArray fillState otherStates count, ty, base =>
    if typeNeedsDropGlue ty then
      partsElements otherStates ty base
        (fun i => Part.inside (.field i)
          (fillState.parts (tt.field ty 0) (base ++ [.field i]))) 0 count
    else []

/-- The parts of the active variant `v`; `n` of the states are before it. -/
def partsVariant : List VarState → Ty → List Step → Nat → Nat → List Part
  | [], _, _, _, _ => []
  | s :: _, ty, base, v, 0 =>
    Part.inside (.variant v) (s.parts (tt.variant ty v) (base ++ [.variant v]))
  | _ :: ss, ty, base, v, n + 1 => partsVariant ss ty base v n

def partsFields : List VarState → Ty → List Step → Nat → List Part
  | [], _, _, _ => []
  | s :: ss, ty, base, i =>
    Part.inside (.field i) (s.parts (tt.field ty i) (base ++ [.field i])) ++
      partsFields ss ty base (i + 1)

/-- The elements from `prev` on, the exceptions between the shared ones. -/
def partsElements : List (Nat × VarState) → Ty → List Step → (Nat → List Part) → Nat → Nat →
    List Part
  | [], _, _, fillParts, prev, count => (List.range' prev (count - prev)).flatMap fillParts
  | (k, s) :: ss, ty, base, fillParts, prev, count =>
    (List.range' prev (k - prev)).flatMap fillParts ++
      Part.inside (.field k) (s.parts (tt.field ty k) (base ++ [.field k])) ++
      partsElements ss ty base fillParts (k + 1) count

end

/-! ## 2. Places and states that occur -/

/-- Whether the place is initialised. As `reads`, but an enum with a drop impl of its own is a place
    also where its state has a part for each variant. -/
def VarState.initialised : VarState → Ty → SubPlace → Option Bool
  | .invalid _, _, _ => some false
  | .valid, _, _ => some true
  | .optional flag, _, _ => some (env.flags flag)
  | .partialOf innerStates outerFlag, ty, .here =>
    if tt.isEnum ty && tt.hasDropImpl ty then
      some (env.taken outerFlag && !innerStates.all VarState.isInvalid)
    else none
  | .partialOf innerStates _, ty, .field i p =>
    innerStates[i]?.bind fun s => s.initialised (tt.field ty i) p
  | .partialOf innerStates outerFlag, ty, .variant i p =>
    innerStates[i]?.bind fun s => (s.initialised (tt.variant ty i) p).map (env.taken outerFlag && ·)
  | .partialArray fillState otherStates count, ty, .field i p =>
    if i < count then
      (VarState.element fillState otherStates i).initialised (tt.field ty i) p
    else none
  | .movedOut _ outerFlag, _, .boxAlloc => some (env.taken outerFlag)
  | .movedOut innerState _, ty, .deref p => innerState.initialised (tt.pointee ty) p
  | _, _, _ => none

/-- The place lies in the variants that are active. -/
def Live : List Step → SubPlace → Prop
  | _, .here => True
  | _, .boxAlloc => True
  | base, .field i p => Live (base ++ [.field i]) p
  | base, .variant i p => env.disc root base = i ∧ Live (base ++ [.variant i]) p
  | base, .deref p => Live (base ++ [.deref]) p

/-- Exceptions of an array in order, with numbers of elements. -/
def Exceptions : List (Nat × VarState) → Nat → Nat → Prop
  | [], _, _ => True
  | (k, _) :: ss, prev, count => prev ≤ k ∧ k < count ∧ Exceptions ss (k + 1) count

theorem exceptions_le : ∀ {ss : OrdMap VarState} {prev count k : Nat} {s : VarState},
    Exceptions ss prev count → (k, s) ∈ ss → prev ≤ k
  | (j, t) :: ss, prev, count, k, s, h, hk => by
    obtain ⟨hj, -, h⟩ := h
    rcases List.mem_cons.mp hk with e | hk
    · cases e
      exact hj
    · have := exceptions_le h hk
      omega

mutual

/-- The state is one of a place that needs dropping in an accepted body: boxes alone are moved out
    of, no union and no value with a drop impl of its own is moved out of in part, and the elements
    of an array that are not told apart have one state. -/
def Regular : VarState → Ty → List Step → Prop
  | .invalid _, _, _ => True
  | .valid, _, _ => True
  | .optional _, _, _ => True
  | .movedOut innerState _, ty, base => typeNeedsDropGlue ty = true →
      tt.isTypeOwnedBox ty = true ∧ Regular innerState (tt.pointee ty) (base ++ [.deref])
  | .partialOf innerStates outerFlag, ty, base => typeNeedsDropGlue ty = true →
      tt.isUnion ty = false ∧
      (tt.isEnum ty = true → tt.hasDropImpl ty = true → env.taken outerFlag = true →
        innerStates.all VarState.isInvalid = false →
        ∀ s, innerStates[env.disc root base]? = some s → ∀ p, s.reads env.flags p = some true) ∧
      (tt.isEnum ty = true → RegularVariant innerStates ty base (env.disc root base)
        (env.disc root base)) ∧
      (tt.isEnum ty = false → tt.hasDropImpl ty = false ∧ RegularFields innerStates ty base 0)
  | .partialArray fillState otherStates count, ty, base => typeNeedsDropGlue ty = true →
      tt.isArray ty = true ∧ fillState.isWhole = true ∧ Exceptions otherStates 0 count ∧
      RegularElements otherStates ty base

def RegularVariant : List VarState → Ty → List Step → Nat → Nat → Prop
  | [], _, _, _, _ => True
  | s :: _, ty, base, v, 0 => Regular s (tt.variant ty v) (base ++ [.variant v])
  | _ :: ss, ty, base, v, n + 1 => RegularVariant ss ty base v n

def RegularFields : List VarState → Ty → List Step → Nat → Prop
  | [], _, _, _ => True
  | s :: ss, ty, base, i => Regular s (tt.field ty i) (base ++ [.field i]) ∧
      RegularFields ss ty base (i + 1)

def RegularElements : List (Nat × VarState) → Ty → List Step → Prop
  | [], _, _ => True
  | (k, s) :: ss, ty, base => Regular s (tt.field ty k) (base ++ [.field k]) ∧
      RegularElements ss ty base

end

/-! ## 3. Each initialised place is in one part -/

variable {tt typeNeedsDropGlue env root}

theorem count_partsFields_lt {ty : Ty} {base : List Step} {j : Nat} {q : SubPlace} :
    ∀ {ss : List VarState} {i : Nat}, j < i →
      Part.count (partsFields tt typeNeedsDropGlue env root ss ty base i) (.field j q) = 0
  | [], i, _ => by rw [partsFields, Part.count_nil]
  | s :: ss, i, h => by
    rw [partsFields, Part.count_append, count_partsFields_lt (Nat.lt_succ_of_lt h),
      Part.count_inside_other]
    intro kind path
    simp [Part.covers, Nat.ne_of_gt h]

/-- The shared elements from `a` on. -/
theorem count_fill {fillParts : Nat → List Part} {i c : Nat} {q : SubPlace}
    (h : ∀ j, Part.count (fillParts j) (.field i q) = if j = i then c else 0) :
    ∀ n a : Nat, Part.count ((List.range' a n).flatMap fillParts) (.field i q) =
      if a ≤ i ∧ i < a + n then c else 0
  | 0, a => by
    have : ¬ (a ≤ i ∧ i < a + 0) := by omega
    rw [if_neg this]
    rfl
  | n + 1, a => by
    rw [List.range'_succ, List.flatMap_cons, Part.count_append, h, count_fill h n (a + 1)]
    by_cases ha : a = i
    · have hn : ¬ (a + 1 ≤ i ∧ i < a + 1 + n) := by omega
      have hi : a ≤ i ∧ i < a + (n + 1) := by omega
      rw [if_pos ha, if_neg hn, if_pos hi, Nat.add_zero]
    · rw [if_neg ha, Nat.zero_add]
      have : (a + 1 ≤ i ∧ i < a + 1 + n) ↔ (a ≤ i ∧ i < a + (n + 1)) := by omega
      simp only [this]

/-- The element `i`, where the exceptions before `prev` are done. -/
theorem count_partsElements {ty : Ty} {base : List Step} {fillParts : Nat → List Part} {i c : Nat}
    {q : SubPlace} (h : ∀ j, Part.count (fillParts j) (.field i q) = if j = i then c else 0) :
    ∀ {ss : OrdMap VarState} {prev count : Nat}, Exceptions ss prev count →
      Part.count (partsElements tt typeNeedsDropGlue env root ss ty base fillParts prev count)
        (.field i q) =
      if prev ≤ i ∧ i < count then
        match OrdMap.find i ss with
        | none => c
        | some s => Part.count (s.parts tt typeNeedsDropGlue env root (tt.field ty i)
            (base ++ [.field i])) q
      else 0
  | [], prev, count, _ => by
    rw [partsElements, count_fill h]
    have : (prev ≤ i ∧ i < prev + (count - prev)) ↔ (prev ≤ i ∧ i < count) := by omega
    simp only [this, OrdMap.find_nil]
  | (k, s) :: ss, prev, count, hx => by
    obtain ⟨hk, hkc, hx⟩ := hx
    rw [partsElements, Part.count_append, Part.count_append, count_fill h,
      count_partsElements h hx]
    by_cases hik : i = k
    · subst hik
      have h₁ : ¬ (prev ≤ i ∧ i < prev + (i - prev)) := by omega
      have h₂ : ¬ (i + 1 ≤ i ∧ i < count) := by omega
      rw [if_neg h₁, if_neg h₂, if_pos ⟨hk, hkc⟩, OrdMap.find_cons, if_pos rfl,
        Part.count_inside _ _ _ q (fun kind path => by simp [Part.covers])]
      simp
    · rw [Part.count_inside_other _ _ _ (fun kind path => by simp [Part.covers, Ne.symm hik]),
        OrdMap.find_cons, if_neg hik]
      by_cases hlt : i < k
      · have h₁ : (prev ≤ i ∧ i < prev + (k - prev)) ↔ (prev ≤ i ∧ i < count) := by omega
        have h₂ : ¬ (k + 1 ≤ i ∧ i < count) := by omega
        have h₃ : OrdMap.find i ss = none := by
          cases hf : OrdMap.find i ss with
          | none => rfl
          | some t =>
            have := exceptions_le hx (OrdMap.find_mem hf)
            omega
        simp only [h₁, if_neg h₂, h₃, Nat.add_zero]
      · have h₁ : ¬ (prev ≤ i ∧ i < prev + (k - prev)) := by omega
        have h₂ : (k + 1 ≤ i ∧ i < count) ↔ (prev ≤ i ∧ i < count) := by omega
        simp only [if_neg h₁, h₂, Nat.zero_add]

theorem RegularElements.of_mem {ty : Ty} {base : List Step} : ∀ {ss : OrdMap VarState} {k : Nat}
    {s : VarState}, RegularElements tt typeNeedsDropGlue env root ss ty base → (k, s) ∈ ss →
      Regular tt typeNeedsDropGlue env root s (tt.field ty k) (base ++ [.field k])
  | (j, t) :: ss, k, s, h, hk => by
    rw [RegularElements] at h
    rcases List.mem_cons.mp hk with e | hk
    · cases e
      exact h.1
    · exact h.2.of_mem hk

theorem count_partsVariant {ty : Ty} {base : List Step} {v : Nat} {q : SubPlace} :
    ∀ {ss : List VarState} {n : Nat},
      Part.count (partsVariant tt typeNeedsDropGlue env root ss ty base v n) (.variant v q) =
        match ss[n]? with
        | none => 0
        | some s => Part.count (s.parts tt typeNeedsDropGlue env root (tt.variant ty v)
            (base ++ [.variant v])) q
  | [], n => by rw [partsVariant]; rfl
  | s :: ss, 0 => by
    rw [partsVariant, Part.count_inside _ _ _ q (fun kind path => by simp [Part.covers])]
    rfl
  | s :: ss, n + 1 => by
    rw [partsVariant, count_partsVariant]
    rfl

theorem count_partsFields {ty : Ty} {base : List Step} {q : SubPlace} {k : Nat} :
    ∀ {ss : List VarState} {i j : Nat} {s : VarState}, k = i + j → ss[j]? = some s →
      Part.count (partsFields tt typeNeedsDropGlue env root ss ty base i) (.field k q) =
        Part.count (s.parts tt typeNeedsDropGlue env root (tt.field ty k) (base ++ [.field k])) q
  | t :: ss, i, 0, s, hk, h => by
    cases h
    obtain rfl : k = i := hk
    rw [partsFields, Part.count_append, count_partsFields_lt (Nat.lt_succ_self k),
      Part.count_inside _ _ _ q (fun kind path => by simp [Part.covers]), Nat.add_zero]
  | t :: ss, i, j + 1, s, hk, h => by
    have hne : i ≠ k := by omega
    rw [partsFields, Part.count_append,
      Part.count_inside_other _ _ _ (fun kind path => by simp [Part.covers, hne]),
      count_partsFields (i := i + 1) (show k = i + 1 + j by omega) h,
      Nat.zero_add]

theorem RegularVariant.getElem {ty : Ty} {base : List Step} {v : Nat} : ∀ {ss : List VarState}
    {n : Nat} {s : VarState}, RegularVariant tt typeNeedsDropGlue env root ss ty base v n →
      ss[n]? = some s → Regular tt typeNeedsDropGlue env root s (tt.variant ty v)
        (base ++ [.variant v])
  | t :: ss, 0, s, h, hs => by
    cases hs
    rwa [RegularVariant] at h
  | t :: ss, n + 1, s, h, hs => by
    rw [RegularVariant] at h
    exact h.getElem hs

theorem RegularFields.getElem {ty : Ty} {base : List Step} {k : Nat} : ∀ {ss : List VarState}
    {i j : Nat} {s : VarState}, RegularFields tt typeNeedsDropGlue env root ss ty base i →
      k = i + j → ss[j]? = some s →
      Regular tt typeNeedsDropGlue env root s (tt.field ty k) (base ++ [.field k])
  | t :: ss, i, 0, s, h, hk, hs => by
    cases hs
    obtain rfl : k = i := hk
    rw [RegularFields] at h
    exact h.1
  | t :: ss, i, j + 1, s, h, hk, hs => by
    rw [RegularFields] at h
    exact h.2.getElem (show k = i + 1 + j by omega) hs

theorem initialised_of_reads : ∀ {p : SubPlace} {s : VarState} {ty : Ty} {v : Bool},
    s.reads env.flags p = some v → s.initialised tt env ty p = some v
  | p, .invalid why, ty, v, h => by rw [VarState.reads] at h; rwa [VarState.initialised]
  | p, .valid, ty, v, h => by rw [VarState.reads] at h; rwa [VarState.initialised]
  | p, .optional flag, ty, v, h => by rw [VarState.reads] at h; rwa [VarState.initialised]
  | .boxAlloc, .movedOut s outerFlag, ty, v, h => h
  | .deref p, .movedOut s outerFlag, ty, v, h => by
    rw [VarState.reads] at h
    rw [VarState.initialised]
    exact initialised_of_reads h
  | .field i p, .partialOf ss outerFlag, ty, v, h => by
    rw [VarState.reads] at h
    obtain ⟨s, hs, h⟩ := Option.bind_eq_some_iff.mp h
    rw [VarState.initialised, hs]
    exact initialised_of_reads h
  | .variant i p, .partialOf ss outerFlag, ty, v, h => by
    rw [VarState.reads] at h
    obtain ⟨s, hs, h⟩ := Option.bind_eq_some_iff.mp h
    obtain ⟨w, hw, rfl⟩ := Option.map_eq_some_iff.mp h
    rw [VarState.initialised, hs, Option.bind_some, initialised_of_reads hw]
    rfl
  | .field i p, .partialArray fill ss count, ty, v, h => by
    rw [VarState.reads] at h
    rw [VarState.initialised]
    split at h
    · rename_i hlt
      rw [if_pos hlt]
      exact initialised_of_reads h
    · cases h

/-- Whole places: one part, or none. -/
theorem count_parts_whole {s : VarState} {ty : Ty} {base : List Step} {p : SubPlace} {v : Bool}
    (hs : s.isWhole = true) (hg : typeNeedsDropGlue ty = true)
      (hv : s.initialised tt env ty p = some v) :
    Part.count (s.parts tt typeNeedsDropGlue env root ty base) p = if v then 1 else 0 := by
  cases s, hs using VarState.isWhole_rec with
  | invalid why =>
    rw [VarState.initialised] at hv
    cases hv
    rw [VarState.parts]
    rfl
  | valid =>
    rw [VarState.initialised] at hv
    cases hv
    rw [VarState.parts, if_pos hg, Part.count_whole]
    rfl
  | optional flag =>
    rw [VarState.initialised] at hv
    cases hv
    rw [VarState.parts, hg, Bool.true_and]
    cases env.flags flag <;> simp

theorem count_inside_fill {ty : Ty} {base : List Step} {i : Nat} {q : SubPlace}
    (h : tt.field ty 0 = tt.field ty i) (s : VarState) (j : Nat) :
    Part.count (Part.inside (.field j) (s.parts tt typeNeedsDropGlue env root (tt.field ty 0)
        (base ++ [.field j]))) (.field i q) =
      if j = i then Part.count (s.parts tt typeNeedsDropGlue env root (tt.field ty i)
        (base ++ [.field i])) q else 0 := by
  by_cases hj : j = i
  · subst hj
    rw [if_pos rfl, h, Part.count_inside _ _ _ q (fun kind path => by simp [Part.covers])]
  · rw [if_neg hj, Part.count_inside_other _ _ _ (fun kind path => by simp [Part.covers, hj])]

/-- A place that needs dropping is in one of the parts when it is initialised, and in none
    otherwise. -/
theorem count_parts : ∀ {p : SubPlace} {s : VarState} {ty : Ty} {base : List Step} {v : Bool},
    Regular tt typeNeedsDropGlue env root s ty base → NeedsDrop tt typeNeedsDropGlue ty p →
    Live env root base p → s.initialised tt env ty p = some v →
    Part.count (s.parts tt typeNeedsDropGlue env root ty base) p = if v then 1 else 0
  | p, .invalid why, ty, base, v, _, hp, _, hv => count_parts_whole rfl hp.glue hv
  | p, .valid, ty, base, v, _, hp, _, hv => count_parts_whole rfl hp.glue hv
  | p, .optional flag, ty, base, v, _, hp, _, hv => count_parts_whole rfl hp.glue hv
  | .boxAlloc, .movedOut s outerFlag, ty, base, v, _, hp, _, hv => by
    rw [VarState.initialised] at hv
    cases hv
    rw [VarState.parts, if_pos hp.glue, Part.count_append,
      Part.count_inside_other _ _ _ (fun kind path => by simp [Part.covers]), Nat.zero_add]
    cases env.taken outerFlag <;> rfl
  | .deref q, .movedOut s outerFlag, ty, base, v, hs, hp, hl, hv => by
    rw [Regular] at hs
    rw [VarState.initialised] at hv
    rw [VarState.parts, if_pos hp.glue, Part.count_append,
      Part.count_inside _ _ _ q (fun kind path => by simp [Part.covers]),
      count_parts (hs hp.glue).2 hp.2.2 hl hv]
    cases env.taken outerFlag <;> simp [Part.count, Part.covers]
  | .here, .partialOf ss outerFlag, ty, base, v, hs, hp, hl, hv => by
    rw [VarState.initialised] at hv
    split at hv
    · rename_i hd
      obtain ⟨hen, himpl⟩ := Bool.and_eq_true_iff.mp hd
      cases hv
      rw [VarState.parts, show typeNeedsDropGlue ty = true from hp, hen, himpl]
      cases ss.all VarState.isInvalid <;> cases env.taken outerFlag <;> simp
    · cases hv
  | .field i q, .partialOf ss outerFlag, ty, base, v, hs, hp, hl, hv => by
    rw [Regular] at hs
    obtain ⟨hu, -, -, hf⟩ := hs hp.glue
    rw [VarState.initialised] at hv
    obtain ⟨s, hi, hv⟩ := Option.bind_eq_some_iff.mp hv
    rw [VarState.parts, hp.glue, hp.2.1, hu]
    simp only [Bool.not_true, Bool.false_eq_true, if_false]
    rw [count_partsFields (Nat.zero_add i).symm hi,
      count_parts ((hf hp.2.1).2.getElem (Nat.zero_add i).symm hi) hp.2.2 hl hv]
  | .variant i q, .partialOf ss outerFlag, ty, base, v, hs, hp, hl, hv => by
    rw [Regular] at hs
    obtain ⟨-, hd, hvar, -⟩ := hs hp.glue
    rw [VarState.initialised] at hv
    obtain ⟨s, hi, hv⟩ := Option.bind_eq_some_iff.mp hv
    obtain ⟨w, hw, rfl⟩ := Option.map_eq_some_iff.mp hv
    obtain ⟨hdisc, hl⟩ := hl
    rw [VarState.parts, hp.glue, hp.2.1]
    simp only [Bool.not_true, Bool.false_eq_true, if_false, if_true]
    have hall : ss.all VarState.isInvalid = true → w = false := by
      intro hall
      have hs := List.all_eq_true.mp hall s (List.mem_of_getElem? hi)
      cases s with
      | invalid why =>
        rw [VarState.initialised] at hw
        exact (Option.some.inj hw).symm
      | _ => cases hs
    by_cases ht : env.taken outerFlag = true
    · rw [ht, Bool.true_and]
      cases ha : ss.all VarState.isInvalid with
      | true =>
        rw [hall ha]
        rfl
      | false =>
        simp only [Bool.not_true, Bool.or_false, Bool.false_eq_true, if_false]
        by_cases himpl : tt.hasDropImpl ty = true
        · have hone := hd hp.2.1 himpl ht ha s (by rwa [hdisc]) q
          rw [initialised_of_reads hone] at hw
          cases hw
          rw [if_pos himpl, Part.count_whole]
          rfl
        · rw [if_neg himpl, hdisc, count_partsVariant, hi]
          dsimp only
          have hreg := hvar hp.2.1
          rw [hdisc] at hreg
          exact count_parts (hreg.getElem hi) hp.2.2 hl hw
    · rw [Bool.eq_false_iff.mpr ht]
      simp
  | .field i q, .partialArray fillState ss count, ty, base, v, hs, hp, hl, hv => by
    rw [Regular] at hs
    obtain ⟨ha, hw, hx, he⟩ := hs hp.glue
    rw [VarState.initialised] at hv
    split at hv
    · rename_i hlt
      rw [VarState.parts, if_pos hp.glue,
        count_partsElements (count_inside_fill (tt.field_of_isArray ha 0 i) fillState) hx,
        if_pos ⟨Nat.zero_le i, hlt⟩]
      unfold VarState.element at hv
      cases hf : OrdMap.find i ss with
      | none =>
        rw [hf] at hv
        exact count_parts_whole hw hp.2.2.glue hv
      | some s =>
        rw [hf] at hv
        exact count_parts (he.of_mem (OrdMap.find_mem hf)) hp.2.2 hl hv
    · cases hv

end Parts

end Trustme.Lowering
