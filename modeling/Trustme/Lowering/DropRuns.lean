/-
  Subject:   What the code of `dropValueFromState` drops: the initialised parts, in order.

  * `Emits`: an action emits code that performs these drops, and keeps the invariant it is about;
  * `dropValueFromState_emits`: the drops are those of `VarState.parts`;
  * `VarState.eq_of_beq`: `operator==` on states is equality.
-/
import Trustme.Lowering.DropParts
import Trustme.Lowering.Unwinding

namespace Trustme.Lowering

open Lib (OrdMap)

/-! ## 1. Equality of states -/

namespace VarState

mutual

theorem eq_of_beq : ∀ {s t : VarState}, s.beq t = true → s = t
  | .invalid why, .invalid why', h => by
    rw [beq, beq_iff_eq] at h
    rw [h]
  | .valid, .valid, _ => rfl
  | .optional flag, .optional flag', h => by
    rw [beq, beq_iff_eq] at h
    rw [h]
  | .movedOut s o, .movedOut t o', h => by
    rw [beq, Bool.and_eq_true, beq_iff_eq] at h
    rw [h.1, eq_of_beq h.2]
  | .partialOf ss o, .partialOf ts o', h => by
    rw [beq, Bool.and_eq_true, beq_iff_eq] at h
    rw [h.1, eq_of_beqInner h.2]
  | .partialArray f ss n, .partialArray g ts m, h => by
    rw [beq, Bool.and_eq_true, Bool.and_eq_true, beq_iff_eq] at h
    rw [h.1.1, eq_of_beq h.1.2, eq_of_beqOther h.2]

theorem eq_of_beqInner : ∀ {ss ts : List VarState}, beqInner ss ts = true → ss = ts
  | [], [], _ => rfl
  | s :: ss, t :: ts, h => by
    rw [beqInner, Bool.and_eq_true] at h
    rw [eq_of_beq h.1, eq_of_beqInner h.2]

theorem eq_of_beqOther : ∀ {ss ts : List (Nat × VarState)}, beqOther ss ts = true → ss = ts
  | [], [], _ => rfl
  | (j, s) :: ss, (k, t) :: ts, h => by
    rw [beqOther, Bool.and_eq_true, Bool.and_eq_true, beq_iff_eq] at h
    rw [h.1.1, eq_of_beq h.1.2, eq_of_beqOther h.2]

end

end VarState

/-! ## 2. Code and what it drops -/

/-- The drops of parts of the place at `base`. -/
def placed (root : Storage) (base : List Step) (ps : List Part) : List Dropped :=
  ps.map fun q => ⟨root, q.1, base ++ q.2⟩

@[simp] theorem placed_nil (root : Storage) (base : List Step) : placed root base [] = [] := rfl

@[simp] theorem placed_append (root : Storage) (base : List Step) (ps qs : List Part) :
    placed root base (ps ++ qs) = placed root base ps ++ placed root base qs := List.map_append

theorem placed_inside (root : Storage) (base : List Step) (s : Step) (ps : List Part) :
    placed root base (Part.inside s ps) = placed root (base ++ [s]) ps := by
  simp [placed, Part.inside, Function.comp_def]

/-- An invariant of the builder, and a property of unwind actions, and of the root of what is
    dropped, that more blocks do not end. -/
structure Upkeep where
  inv : DropBuilder → Prop
  good : DropBuilder → Storage → UnwindAction → Prop
  inv_locals : ∀ b n, inv b → inv { b with locals := n }
  good_mono : ∀ b b' root a, b.blocks <+: b'.blocks → good b root a → good b' root a

/-- The action keeps the invariant, and its code performs the drops `ds`, each with a good unwind
    action. -/
def Emits (U : Upkeep) (x : Emit (List DropStep)) (ds : DropEnv → List Dropped) : Prop :=
  ∀ b code b', U.inv b → x b = .ok (code, b') → U.inv b' ∧ b.blocks <+: b'.blocks ∧ ∀ env,
    (runSteps env code).map Event.dropped = ds env ∧ ∀ e ∈ runSteps env code,
      U.good b' e.dropped.root e.unwind

/-- The action gives good unwind actions. -/
def UnwindsWell (U : Upkeep) (unwindOf : LValue → Emit UnwindAction) : Prop :=
  ∀ val b a b', U.inv b → unwindOf val b = .ok (a, b') →
    U.inv b' ∧ b.blocks <+: b'.blocks ∧ U.good b' val.root a

section Rules

variable {U : Upkeep}

theorem Emits.nil : Emits U (return []) (fun _ => []) := by
  intro b code b' hb h
  cases build_pure.mp h
  exact ⟨hb, List.prefix_refl _, fun env => ⟨rfl, nofun⟩⟩

variable {x : Emit (List DropStep)} {ds es : DropEnv → List Dropped}

theorem Emits.append {y : Emit (List DropStep)} (hx : Emits U x ds) (hy : Emits U y es) :
    Emits U (do let code ← x; return code ++ (← y)) (fun env => ds env ++ es env) := by
  intro b code b' hb h
  obtain ⟨c₁, b₁, h₁, h⟩ := build_bind.mp h
  obtain ⟨c₂, b₂, h₂, h⟩ := build_bind.mp h
  cases build_pure.mp h
  obtain ⟨hb₁, hp₁, hr₁⟩ := hx b c₁ b₁ hb h₁
  obtain ⟨hb₂, hp₂, hr₂⟩ := hy b₁ c₂ b' hb₁ h₂
  refine ⟨hb₂, hp₁.trans hp₂, fun env => ⟨?_, fun e he => ?_⟩⟩
  · rw [runSteps_append, List.map_append, (hr₁ env).1, (hr₂ env).1]
  · rw [runSteps_append] at he
    rcases List.mem_append.mp he with he | he
    · exact U.good_mono b₁ b' _ _ hp₂ ((hr₁ env).2 e he)
    · exact (hr₂ env).2 e he

theorem Emits.append₃ {y z : Emit (List DropStep)} {fs : DropEnv → List Dropped} (hx : Emits U x ds)
    (hy : Emits U y es) (hz : Emits U z fs) :
    Emits U (do
      let c ← x
      let d ← y
      return c ++ d ++ (← z)) (fun env => ds env ++ es env ++ fs env) := by
  have hxy := (hx.append hy).append hz
  intro b code b' hb h
  refine hxy b code b' hb ?_
  simp only [bind_assoc, pure_bind]
  exact h

theorem Emits.congr (hx : Emits U x ds) (h : ∀ env, ds env = es env) : Emits U x es := by
  rwa [← funext h]

theorem Emits.each {α : Type} {emit : α → Emit (List DropStep)}
    {ds : α → DropEnv → List Dropped} : ∀ {as : List α}, (∀ a ∈ as, Emits U (emit a) (ds a)) →
      Emits U (emitEach emit as) (fun env => as.flatMap fun a => ds a env)
  | [], _ => Emits.nil
  | a :: as, h => by
    have hrest := Emits.each fun c hc => h c (List.mem_cons_of_mem a hc)
    exact ((h a List.mem_cons_self).append hrest).congr fun env => by rw [List.flatMap_cons]

end Rules

/-! ## 3. The drop of a value -/

section DropValue

variable {Ty : Type} {tt : TypeTable Ty} {typeNeedsDropGlue : Ty → Bool} {rootTy : Storage → Ty}
  {U : Upkeep} {unwindOf : LValue → Emit UnwindAction} (hu : UnwindsWell U unwindOf)

include hu

theorem pushDropTerminator_emits (kind : DropKind) (val : LValue) (flag : Option DropFlag) :
    Emits U (pushDropTerminator unwindOf kind val flag)
      (fun env => if env.taken flag then [⟨val.root, kind, env.path val⟩] else []) := by
  intro b code b' hb h
  obtain ⟨a, b₁, ha, h⟩ := build_bind.mp h
  cases build_pure.mp h
  obtain ⟨hb₁, hp, hgood⟩ := hu val b a b' hb ha
  refine ⟨hb₁, hp, fun env => ?_⟩
  rw [runSteps_singleton, DropStep.run]
  dsimp only
  split
  · refine ⟨rfl, fun e he => ?_⟩
    rw [List.mem_singleton.mp he]
    exact hgood
  · exact ⟨rfl, nofun⟩

theorem pushStmtDrop_emits (val : LValue) (flag : Option DropFlag) :
    Emits U (pushStmtDrop tt typeNeedsDropGlue rootTy unwindOf val flag) (fun env =>
      if typeNeedsDropGlue (valType tt rootTy val) && env.taken flag then
        [⟨val.root, .deep, env.path val⟩] else []) := by
  unfold pushStmtDrop
  cases typeNeedsDropGlue (valType tt rootTy val) with
  | false => exact Emits.nil
  | true => exact pushDropTerminator_emits hu .deep val flag

theorem emitArrayElementDropLoop_emits (arrLv : LValue) (start stop : Nat)
    (flag : Option DropFlag) :
    Emits U (emitArrayElementDropLoop tt typeNeedsDropGlue rootTy unwindOf arrLv start stop flag)
      (fun env => if typeNeedsDropGlue (tt.field (valType tt rootTy arrLv) 0) && env.taken flag then
        (List.range' start (stop - start)).map fun i =>
          ⟨arrLv.root, .deep, env.path arrLv ++ [.field i]⟩
        else []) := by
  intro b code b' hb h
  unfold emitArrayElementDropLoop at h
  split at h
  · rename_i hle
    cases build_pure.mp h
    refine ⟨hb, List.prefix_refl _, fun env => ⟨?_, nofun⟩⟩
    dsimp only
    rw [Nat.sub_eq_zero_of_le hle]
    split <;> rfl
  · obtain ⟨idxLocal, b₁, h₁, h⟩ := build_bind.mp h
    obtain ⟨cmpLocal, b₂, h₂, h⟩ := build_bind.mp h
    cases h₁
    cases h₂
    rw [LValue.newIndex, valType_wrap, wrapperType] at h
    have hb₂ := U.inv_locals _ (b.locals + 1 + 1) hb
    cases hg : typeNeedsDropGlue (tt.field (valType tt rootTy arrLv) 0) with
    | false =>
      rw [hg] at h
      cases build_pure.mp h
      exact ⟨hb₂, List.prefix_refl _, fun env => ⟨rfl, nofun⟩⟩
    | true =>
      rw [hg] at h
      obtain ⟨a, b₃, ha, h⟩ := build_bind.mp h
      cases build_pure.mp h
      obtain ⟨hb₃, hp, hgood⟩ := hu _ _ a b' hb₂ ha
      refine ⟨hb₃, hp, fun env => ?_⟩
      rw [runSteps_singleton, DropStep.run]
      simp only [Bool.true_and]
      split
      · refine ⟨by rw [List.map_map]; rfl, fun e he => ?_⟩
        obtain ⟨i, -, rfl⟩ := List.mem_map.mp he
        exact hgood
      · exact ⟨rfl, nofun⟩

/-- The elements with the shared state, from `start` on. -/
theorem emitFill_emits {fillState : VarState} (hw : fillState.isWhole = true) (arrLv : LValue)
    (start stop : Nat) :
    Emits U (emitFill tt typeNeedsDropGlue rootTy unwindOf arrLv fillState start stop)
      (fun env => placed arrLv.root (env.path arrLv) ((List.range' start (stop - start)).flatMap
        fun i => Part.inside (.field i) (fillState.parts tt typeNeedsDropGlue env arrLv.root
          (tt.field (valType tt rootTy arrLv) 0) (env.path arrLv ++ [.field i])))) := by
  have hmap (env : DropEnv) (is : List Nat) :
      placed arrLv.root (env.path arrLv) (is.flatMap fun i => Part.inside (.field i) [(.deep, [])])
        = is.map fun i => ⟨arrLv.root, .deep, env.path arrLv ++ [.field i]⟩ := by
    induction is with
    | nil => rfl
    | cons i is ih =>
      rw [List.flatMap_cons, placed_append, ih]
      rfl
  have hnil (env : DropEnv) (is : List Nat) :
      placed arrLv.root (env.path arrLv) (is.flatMap fun i => Part.inside (.field i) []) = [] := by
    induction is with
    | nil => rfl
    | cons i is ih =>
      rw [List.flatMap_cons, placed_append, ih]
      rfl
  cases fillState, hw using VarState.isWhole_rec with
  | invalid why =>
    refine Emits.nil.congr fun env => ?_
    simp only [VarState.parts]
    exact (hnil env _).symm
  | valid =>
    refine (emitArrayElementDropLoop_emits hu arrLv start stop none).congr fun env => ?_
    simp only [VarState.parts]
    cases typeNeedsDropGlue (tt.field (valType tt rootTy arrLv) 0) with
    | false => exact (hnil env _).symm
    | true => exact (hmap env _).symm
  | optional flag =>
    refine (emitArrayElementDropLoop_emits hu arrLv start stop (some flag)).congr fun env => ?_
    simp only [VarState.parts]
    have ht : env.taken (some flag) = env.flags flag := rfl
    rw [ht]
    cases typeNeedsDropGlue (tt.field (valType tt rootTy arrLv) 0) && env.flags flag with
    | false => exact (hnil env _).symm
    | true => exact (hmap env _).symm

/-- Code for each of the variants from `i` on; an arm drops the parts of its variant. -/
def EmitsArms (U : Upkeep) (x : Emit (List (List DropStep))) (ds : DropEnv → Nat → List Dropped) :
    Prop :=
  ∀ b arms b', U.inv b → x b = .ok (arms, b') → U.inv b' ∧ b.blocks <+: b'.blocks ∧ ∀ env n,
    (runSteps env (arms.getD n [])).map Event.dropped = ds env n ∧
    ∀ e ∈ runSteps env (arms.getD n []), U.good b' e.dropped.root e.unwind

omit hu in
theorem EmitsArms.nil : EmitsArms U (return []) (fun _ _ => []) := by
  intro b arms b' hb h
  cases build_pure.mp h
  exact ⟨hb, List.prefix_refl _, fun env n => ⟨rfl, nofun⟩⟩

omit hu in
theorem EmitsArms.congr {x : Emit (List (List DropStep))} {ds es : DropEnv → Nat → List Dropped}
    (hx : EmitsArms U x ds) (h : ∀ env n, ds env n = es env n) : EmitsArms U x es := by
  rwa [← funext fun env => funext (h env)]

omit hu in
theorem EmitsArms.cons {x : Emit (List DropStep)} {y : Emit (List (List DropStep))}
    {ds : DropEnv → List Dropped} {es : DropEnv → Nat → List Dropped} (hx : Emits U x ds)
    (hy : EmitsArms U y es) :
    EmitsArms U (do let arm ← x; return arm :: (← y)) (fun env n =>
      match n with
      | 0 => ds env
      | n + 1 => es env n) := by
  intro b arms b' hb h
  obtain ⟨c, b₁, h₁, h⟩ := build_bind.mp h
  obtain ⟨cs, b₂, h₂, h⟩ := build_bind.mp h
  cases build_pure.mp h
  obtain ⟨hb₁, hp₁, hr₁⟩ := hx b c b₁ hb h₁
  obtain ⟨hb₂, hp₂, hr₂⟩ := hy b₁ cs b' hb₁ h₂
  refine ⟨hb₂, hp₁.trans hp₂, fun env n => ?_⟩
  cases n with
  | zero => exact ⟨(hr₁ env).1, fun e he => U.good_mono b₁ b' _ _ hp₂ ((hr₁ env).2 e he)⟩
  | succ n => exact hr₂ env n

omit hu in
/-- The switch over the arms. -/
theorem EmitsArms.switch {x : Emit (List (List DropStep))} {ds : DropEnv → Nat → List Dropped}
    (hx : EmitsArms U x ds) (lv : LValue) (flag : Option DropFlag) :
    Emits U (do let arms ← x; return [.switch lv flag arms]) (fun env =>
      if env.taken flag then ds env (env.disc lv.root (env.path lv)) else []) := by
  intro b code b' hb h
  obtain ⟨arms, b₁, h₁, h⟩ := build_bind.mp h
  cases build_pure.mp h
  obtain ⟨hb₁, hp₁, hr₁⟩ := hx b arms b' hb h₁
  refine ⟨hb₁, hp₁, fun env => ?_⟩
  rw [runSteps_singleton, DropStep.run, runArm_eq]
  dsimp only
  split
  · exact hr₁ env _
  · exact ⟨rfl, nofun⟩

omit hu

mutual

/-- The code of the drop of a value drops the initialised parts of its state, in order. -/
theorem dropValueFromState_emits (hu : UnwindsWell U unwindOf) : ∀ (s : VarState) (lv : LValue),
    Emits U (dropValueFromState tt typeNeedsDropGlue rootTy unwindOf s lv) (fun env =>
      placed lv.root (env.path lv) (s.parts tt typeNeedsDropGlue env lv.root (valType tt rootTy lv)
        (env.path lv)))
  | .invalid why, lv => by
    rw [dropValueFromState]
    exact Emits.nil.congr fun env => by rw [VarState.parts]; rfl
  | .valid, lv => by
    rw [dropValueFromState]
    refine (pushStmtDrop_emits hu lv none).congr fun env => ?_
    rw [VarState.parts, show env.taken none = true from rfl, Bool.and_true]
    split
    · simp [placed]
    · rfl
  | .optional flag, lv => by
    rw [dropValueFromState]
    refine (pushStmtDrop_emits hu lv (some flag)).congr fun env => ?_
    rw [VarState.parts, show env.taken (some flag) = env.flags flag from rfl]
    split
    · simp [placed]
    · rfl
  | .movedOut s outerFlag, lv => by
    rw [dropValueFromState]
    cases hg : typeNeedsDropGlue (valType tt rootTy lv) with
    | false => exact Emits.nil.congr fun env => by rw [VarState.parts, hg]; rfl
    | true =>
      cases hbox : tt.isTypeOwnedBox (valType tt rootTy lv) with
      | false => exact fun b code b' _ h => absurd h build_bug
      | true =>
        refine ((dropValueFromState_emits hu s lv.newDeref).append
          (pushDropTerminator_emits hu .shallow lv outerFlag)).congr fun env => ?_
        rw [VarState.parts, if_pos hg, placed_append, placed_inside, LValue.newDeref,
          DropEnv.path_wrap, valType_wrap]
        congr 1
        split
        · simp [placed]
        · rfl
  | .partialOf ss outerFlag, lv => by
    rw [dropValueFromState]
    cases hg : typeNeedsDropGlue (valType tt rootTy lv) with
    | false => exact Emits.nil.congr fun env => by rw [VarState.parts, hg]; rfl
    | true =>
      cases hen : tt.isEnum (valType tt rootTy lv) with
      | false =>
        cases hun : tt.isUnion (valType tt rootTy lv) with
        | true => exact Emits.nil.congr fun env => by rw [VarState.parts, hg, hen, hun]; rfl
        | false =>
          exact (dropFields_emits hu ss lv 0).congr fun env => by
            rw [VarState.parts, hg, hen, hun]; rfl
      | true =>
        cases hall : ss.all VarState.isInvalid with
        | true =>
          exact Emits.nil.congr fun env => by rw [VarState.parts, hg, hen, hall]; rfl
        | false =>
          cases himpl : tt.hasDropImpl (valType tt rootTy lv) with
          | true =>
            refine (pushStmtDrop_emits hu lv outerFlag).congr fun env => ?_
            rw [VarState.parts, hg, hen, hall, himpl]
            cases env.taken outerFlag <;> simp [placed]
          | false =>
            refine ((dropVariants_emits hu ss lv 0).switch lv outerFlag).congr fun env => ?_
            rw [VarState.parts, hg, hen, hall, himpl, Nat.zero_add]
            cases env.taken outerFlag <;> rfl
  | .partialArray fillState ss count, lv => by
    rw [dropValueFromState]
    cases hg : typeNeedsDropGlue (valType tt rootTy lv) with
    | false => exact Emits.nil.congr fun env => by rw [VarState.parts, hg]; rfl
    | true =>
      cases hw : fillState.isWhole with
      | false => exact fun b code b' _ h => absurd h build_bug
      | true =>
        exact (dropElements_emits hu hw ss lv 0 count).congr fun env => by
          rw [VarState.parts, if_pos hg]

theorem dropVariants_emits (hu : UnwindsWell U unwindOf) :
    ∀ (ss : List VarState) (lv : LValue) (i : Nat),
    EmitsArms U (dropVariants tt typeNeedsDropGlue rootTy unwindOf ss lv i) (fun env n =>
      placed lv.root (env.path lv) (partsVariant tt typeNeedsDropGlue env lv.root ss
        (valType tt rootTy lv) (env.path lv) (i + n) n))
  | [], lv, i => by
    rw [dropVariants]
    exact EmitsArms.nil.congr fun env n => by rw [partsVariant]; rfl
  | s :: ss, lv, i => by
    rw [dropVariants]
    have hrest := dropVariants_emits hu ss lv (i + 1)
    have hparts (env : DropEnv) (n : Nat) :
        placed lv.root (env.path lv) (partsVariant tt typeNeedsDropGlue env lv.root ss
            (valType tt rootTy lv) (env.path lv) (i + 1 + n) n) =
          placed lv.root (env.path lv) (partsVariant tt typeNeedsDropGlue env lv.root (s :: ss)
            (valType tt rootTy lv) (env.path lv) (i + (n + 1)) (n + 1)) := by
      rw [partsVariant, show i + (n + 1) = i + 1 + n by omega]
    split
    · rename_i hs
      refine (EmitsArms.cons Emits.nil hrest).congr fun env n => ?_
      cases n with
      | zero =>
        cases s with
        | invalid why => rw [partsVariant, VarState.parts]; rfl
        | _ => cases hs
      | succ n => exact hparts env n
    · refine (EmitsArms.cons (dropValueFromState_emits hu s (lv.newDowncast i)) hrest).congr
        fun env n => ?_
      cases n with
      | zero =>
        rw [partsVariant, placed_inside, LValue.newDowncast, DropEnv.path_wrap, valType_wrap]
        rfl
      | succ n => exact hparts env n

theorem dropFields_emits (hu : UnwindsWell U unwindOf) :
    ∀ (ss : List VarState) (lv : LValue) (i : Nat),
    Emits U (dropFields tt typeNeedsDropGlue rootTy unwindOf ss lv i) (fun env =>
      placed lv.root (env.path lv) (partsFields tt typeNeedsDropGlue env lv.root ss
        (valType tt rootTy lv) (env.path lv) i))
  | [], lv, i => by
    rw [dropFields]
    exact Emits.nil.congr fun env => by rw [partsFields]; rfl
  | s :: ss, lv, i => by
    rw [dropFields]
    refine ((dropValueFromState_emits hu s (lv.newField i)).append
      (dropFields_emits hu ss lv (i + 1))).congr fun env => ?_
    rw [partsFields, placed_append, placed_inside, LValue.newField, DropEnv.path_wrap,
      valType_wrap]
    rfl

theorem dropElements_emits (hu : UnwindsWell U unwindOf) {fillState : VarState}
    (hw : fillState.isWhole = true) :
    ∀ (ss : List (Nat × VarState)) (lv : LValue) (prev count : Nat),
    Emits U (dropElements tt typeNeedsDropGlue rootTy unwindOf fillState ss lv prev count)
      (fun env => placed lv.root (env.path lv) (partsElements tt typeNeedsDropGlue env lv.root ss
        (valType tt rootTy lv) (env.path lv) (fun i => Part.inside (.field i)
          (fillState.parts tt typeNeedsDropGlue env lv.root (tt.field (valType tt rootTy lv) 0)
            (env.path lv ++ [.field i]))) prev count))
  | [], lv, prev, count => by
    rw [dropElements]
    exact (emitFill_emits hu hw lv prev count).congr fun env => by rw [partsElements]
  | (k, s) :: ss, lv, prev, count => by
    rw [dropElements]
    refine ((emitFill_emits hu hw lv prev k).append₃ (dropValueFromState_emits hu s (lv.newField k))
      (dropElements_emits hu hw ss lv (k + 1) count)).congr fun env => ?_
    rw [partsElements, placed_append, placed_append, placed_inside _ _ (.field k),
      LValue.newField, DropEnv.path_wrap, valType_wrap]
    rfl

end

end DropValue

end Trustme.Lowering
