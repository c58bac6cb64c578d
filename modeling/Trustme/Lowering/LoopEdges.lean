/-
  Subject:   A back edge: when the flags of a head can be set from the state there, and what the
             head says afterwards.

  * `OneStatus`: all such parts of a place have one status, in a form the code accepts;
  * `Told`: the condition on a head and the state at the back edge;
  * `headMeetings`: the flags of the head with what they are set from;
  * `writeLoopHeadState_edge`: under the condition no assertion fails, and the head reads as the
    state did in every part that needs dropping.
-/
import Trustme.Lowering.LoopEntries

namespace Trustme.Lowering

open Lib (OrdMap Source Touches)

section Edges

variable {Ty : Type} (tt : TypeTable Ty) (typeNeedsDropGlue : Ty → Bool)

/-! ## 1. The condition -/

variable (ρ : DropFlag → Bool)

/-- All parts of the place that need dropping have the status `v`, and `writeLoopHeadWhole` does
    not stop: the fields of a struct have one tag, an enum is under its outer flag alone. -/
inductive OneStatus (v : Bool) : Ty → VarState → Prop where
  | gone {ty : Ty} {why : InvalidType} (h : v = false) : OneStatus v ty (.invalid why)
  | there {ty : Ty} (h : v = true) : OneStatus v ty .valid
  | flag {ty : Ty} {f : DropFlag} (h : ρ f = v) : OneStatus v ty (.optional f)
  | fields {ty : Ty} {inner : List VarState} (hty : tt.isEnum ty = false)
      (huniform : uniform (glueFields tt typeNeedsDropGlue ty inner) = true)
      (h : ∀ p ∈ glueFields tt typeNeedsDropGlue ty inner, OneStatus v (tt.field ty p.1) p.2) :
      OneStatus v ty (.partialOf inner none)
  | variants {ty : Ty} {inner : List VarState} {outerFlag : Option DropFlag}
      (hty : tt.isEnum ty = true) (houter : (outerSource outerFlag).read ρ = v)
      (h : v = true → ∀ i s p w, inner[i]? = some s →
        NeedsDrop tt typeNeedsDropGlue (tt.variant ty i) p → s.reads ρ p = some w → w = true) :
      OneStatus v ty (.partialOf inner outerFlag)

/-- The condition on a head and the state at a back edge, where the flags have the values `ρ`.

    * a flag of the head for a place whose parts were moved: they have one status (`OneStatus`);
    * a head with parts: so has the state, with no more outer flags, or it is one of the whole;
    * a box whose shell has no flag in the head: the box is there;
    * an array: an element without an exception in the head is as the shared state says. -/
inductive Told : Ty → VarState → VarState → Prop where
  | flag {ty : Ty} {f : DropFlag} {cur : VarState} (h : typeNeedsDropGlue ty = true →
      ∃ v, OneStatus tt typeNeedsDropGlue ρ v ty cur) : Told ty (.optional f) cur
  | parts {ty : Ty} {inner curInner : List VarState} {outerFlag curFlag : Option DropFlag}
      (hlen : curInner.length = inner.length) (houter : outerFlag = none → curFlag = none)
      (h : ∀ i s t, inner[i]? = some s → curInner[i]? = some t → Told (tt.part ty i) s t) :
      Told ty (.partialOf inner outerFlag) (.partialOf curInner curFlag)
  | whole {ty : Ty} {inner : List VarState} {outerFlag : Option DropFlag} {cur : VarState}
      (hcur : cur.isWhole = true)
      (h : ∀ i s, inner[i]? = some s → Told (tt.part ty i) s cur) :
      Told ty (.partialOf inner outerFlag) cur
  | box {ty : Ty} {inner curInner : VarState} {outerFlag curFlag : Option DropFlag}
      (houter : outerFlag = none → (outerSource curFlag).read ρ = true)
      (h : Told (tt.pointee ty) inner curInner) :
      Told ty (.movedOut inner outerFlag) (.movedOut curInner curFlag)
  | boxWhole {ty : Ty} {inner : VarState} {outerFlag : Option DropFlag} {cur : VarState}
      (hcur : cur.isWhole = true) (houter : outerFlag = none → cur.source.read ρ = true)
      (h : Told (tt.pointee ty) inner cur) : Told ty (.movedOut inner outerFlag) cur
  | array {ty : Ty} {fill curFill : VarState} {others curOthers : OrdMap VarState}
      {count curCount : Nat} (hfill : Told (tt.field ty 0) fill curFill)
      (hothers : ∀ k s, (k, s) ∈ others →
        Told (tt.field ty k) s (.element curFill curOthers k))
      (hrest : ∀ i, i < count → OrdMap.find i others = none → ∀ p w,
        NeedsDrop tt typeNeedsDropGlue (tt.field ty i) p →
        (VarState.element curFill curOthers i).reads ρ p = some w → curFill.reads ρ p = some w) :
      Told ty (.partialArray fill others count) (.partialArray curFill curOthers curCount)
  | arrayWhole {ty : Ty} {fill : VarState} {others : OrdMap VarState} {count : Nat}
      {cur : VarState} (hcur : cur.isWhole = true) (hfill : Told (tt.field ty 0) fill cur)
      (hothers : ∀ k s, (k, s) ∈ others → Told (tt.field ty k) s cur) :
      Told ty (.partialArray fill others count) cur

/-! ## 2. What is set from what -/

/-- A flag of the head and the source it is set from; the same flag is left alone. -/
def flagMeeting (flag : DropFlag) : Source DropFlag Bool → Meeting
  | .const v => .overwrite flag (.const v)
  | .reg other => if other = flag then .same (.reg flag) else .overwrite flag (.reg other)

/-- The meeting of a flag for a whole place. -/
def wholeMeetings (ty : Ty) (flag : DropFlag) (cur : VarState) : List Meeting :=
  if typeNeedsDropGlue ty = false then []
  else match cur with
    | .partialOf innerStates outerFlag =>
      if tt.isEnum ty = true then [flagMeeting flag (outerSource outerFlag)]
      else match _h : glueFields tt typeNeedsDropGlue ty innerStates with
        | [] => match anyOptional innerStates with
            | some other => [.overwrite flag (.reg other)]
            | none => [.overwrite flag (.const (innerStates.all VarState.isValid))]
        | (common, state) :: _ => wholeMeetings (tt.field ty common) flag state
    | .valid => [flagMeeting flag (.const true)]
    | .invalid _ => [flagMeeting flag (.const false)]
    | .optional other => [flagMeeting flag (.reg other)]
    | .movedOut _ _ => []
    | .partialArray _ _ _ => []
termination_by cur.depth
decreasing_by
  rw [VarState.depth]
  exact depth_of_mem_glueFields tt typeNeedsDropGlue (_h ▸ List.mem_cons_self)

def outerMeetings (headFlag curFlag : Option DropFlag) : List Meeting :=
  match headFlag with
  | some h => [flagMeeting h (outerSource curFlag)]
  | none => []

def outerWholeMeetings (ty : Ty) (headFlag : Option DropFlag) (cur : VarState) : List Meeting :=
  match headFlag with
  | some h => wholeMeetings tt typeNeedsDropGlue ty h cur
  | none => []

mutual

/-- The meetings of a head and the state at a back edge, in the order of the statements. -/
def headMeetings : Ty → VarState → VarState → List Meeting
  | ty, .optional flag, cur => wholeMeetings tt typeNeedsDropGlue ty flag cur
  | ty, .partialOf innerStates outerFlag, cur =>
    match cur with
    | .partialOf curStates curFlag =>
      headMeetingsParts ty 0 innerStates (fun i => curStates.getD i .valid) ++
        outerMeetings outerFlag curFlag
    | cur => headMeetingsParts ty 0 innerStates (fun _ => cur) ++
        outerWholeMeetings tt typeNeedsDropGlue ty outerFlag cur
  | ty, .movedOut innerState outerFlag, cur =>
    match cur with
    | .movedOut curState curFlag =>
      headMeetings (tt.pointee ty) innerState curState ++ outerMeetings outerFlag curFlag
    | cur => headMeetings (tt.pointee ty) innerState cur ++
        outerWholeMeetings tt typeNeedsDropGlue ty outerFlag cur
  | ty, .partialArray fillState otherStates _, cur =>
    match cur with
    | .partialArray curFill curOther _ =>
      headMeetings (tt.field ty 0) fillState curFill ++
        headMeetingsOthers ty otherStates (.element curFill curOther)
    | cur => headMeetings (tt.field ty 0) fillState cur ++
        headMeetingsOthers ty otherStates fun _ => cur
  | _, .valid, _ => []
  | _, .invalid _, _ => []

def headMeetingsParts : Ty → Nat → List VarState → (Nat → VarState) → List Meeting
  | _, _, [], _ => []
  | ty, i, s :: ss, curAt =>
    headMeetings (tt.part ty i) s (curAt i) ++ headMeetingsParts ty (i + 1) ss curAt

def headMeetingsOthers : Ty → List (Nat × VarState) → (Nat → VarState) → List Meeting
  | _, [], _ => []
  | ty, (k, s) :: ss, curAt =>
    headMeetings (tt.field ty k) s (curAt k) ++ headMeetingsOthers ty ss curAt

end

end Edges

/-! ## 3. Statements and what they set -/

/-- The builder with more statements. -/
def Builder.withStmts (b : Builder) (ss : List SetDropFlag) : Builder :=
  { b with statements := b.statements ++ ss }

theorem Builder.withStmts_nil (b : Builder) : b.withStmts [] = b := by
  rw [Builder.withStmts, List.append_nil]

theorem Builder.withStmts_append (b : Builder) (ss ts : List SetDropFlag) :
    (b.withStmts ss).withStmts ts = b.withStmts (ss ++ ts) := by
  simp only [Builder.withStmts, List.append_assoc]

/-- The action only adds statements; it meets `l`, and `R` holds of the flag values once the cells
    are filled. -/
def Sets (B : Nat) (ρ : DropFlag → Bool) (x : Build Unit) (l : List Meeting)
    (R : (DropFlag → Bool) → Prop) : Prop :=
  ∀ b : Builder, b.WF → B ≤ b.dropFlags.length → ∃ ss ms, x b = .ok ((), b.withStmts ss) ∧
    ms.map (·.meeting) = l ∧ Ran B (fun _ => False) b (b.withStmts ss) ms ∧
    ∀ σ, (∀ m ∈ ms, m.cell.read σ = m.meeting.want.read ρ) → R σ

section Sets

variable {B : Nat} {ρ : DropFlag → Bool} {x y : Build Unit} {l l' : List Meeting}
  {R R' : (DropFlag → Bool) → Prop}

theorem sets_nothing (h : ∀ σ, R σ) : Sets B ρ (return ()) [] R := fun b hb _ =>
  ⟨[],
  [], by rw [b.withStmts_nil]; rfl, rfl, by rw [b.withStmts_nil]; exact .nil hb, fun σ _ => h σ⟩

theorem Sets.imp (h : Sets B ρ x l R) (himp : ∀ σ, R σ → R' σ) : Sets B ρ x l R' := by
  intro b hb hB
  obtain ⟨ss, ms, hx, hms, hran, hR⟩ := h b hb hB
  exact ⟨ss, ms, hx, hms, hran, fun σ hσ => himp σ (hR σ hσ)⟩

theorem Sets.andThen (h : Sets B ρ x l R) (h' : Sets B ρ y l' R') :
    Sets B ρ (do x; y) (l ++ l') fun σ => R σ ∧ R' σ := by
  intro b hb hB
  obtain ⟨ss, ms, hx, hms, hran, hR⟩ := h b hb hB
  obtain ⟨ss', ms', hy, hms', hran', hR'⟩ := h' (b.withStmts ss) hran.wf hB
  rw [b.withStmts_append] at hy hran'
  refine ⟨ss ++ ss', ms ++ ms', build_bind.mpr ⟨(), _, hx, hy⟩, by rw [List.map_append, hms, hms'],
    hran.append hran' hB (fun _ _ _ _ _ h => h.elim) fun _ _ h => h.elim, fun σ hσ => ⟨?_, ?_⟩⟩
  · exact hR σ fun m hm => hσ m (List.mem_append_left _ hm)
  · exact hR' σ fun m hm => hσ m (List.mem_append_right _ hm)

theorem sets_val {f : DropFlag} (hf : f < B) (v : Bool) :
    Sets B ρ (pushStmtSetDropflagVal f v) [.overwrite f (.const v)] fun σ => σ f = v :=
  fun _ hb _ => ⟨_, _, rfl, rfl, .overwrite hb hf bound_const, fun _ hσ => hσ _ List.mem_cons_self⟩

theorem sets_other {f g : DropFlag} (hf : f < B) (hg : g < B) :
    Sets B ρ (pushStmtSetDropflagOther f (some g)) [.overwrite f (.reg g)] fun σ => σ f = ρ g :=
  fun _ hb _ => ⟨_, _, rfl, rfl, .overwrite hb hf (bound_reg hg),
    fun _ hσ => hσ _ List.mem_cons_self⟩

/-- The same flag is left alone. -/
theorem sets_flag {f g : DropFlag} (hf : f < B) (hg : g < B) :
    Sets B ρ (if g ≠ f then pushStmtSetDropflagOther f (some g) else return ())
      [flagMeeting f (.reg g)] fun σ => σ f = ρ g := by
  unfold flagMeeting
  by_cases h : g = f
  · subst h
    simp only [ne_eq, not_true_eq_false, if_false, if_true]
    intro b hb _
    refine ⟨[], [⟨.same (.reg g), .reg g⟩], by rw [b.withStmts_nil]; rfl, rfl, ?_,
      fun _ hσ => hσ _ List.mem_cons_self⟩
    rw [b.withStmts_nil]
    exact .keep hb ⟨bound_reg hg, rfl⟩ rfl
  · simp only [ne_eq, h, not_false_eq_true, if_true, if_false]
    exact sets_other hf hg

theorem sets_outer {headFlag curFlag : Option DropFlag} (hh : ∀ f, headFlag = some f → f < B)
    (hc : ∀ f, curFlag = some f → f < B) :
    Sets B ρ (writeLoopHeadOuter headFlag curFlag) (outerMeetings headFlag curFlag)
      fun σ => ∀ f, headFlag = some f → σ f = (outerSource curFlag).read ρ := by
  cases headFlag with
  | none => exact sets_nothing fun _ => nofun
  | some f =>
    cases curFlag with
    | none => exact (sets_val (hh f rfl) true).imp fun _ h _ e => by cases e; exact h
    | some g => exact (sets_flag (hh f rfl) (hc g rfl)).imp fun _ h _ e => by cases e; exact h

/-- The same, in a head with parts: a discriminant that needs no flag has none. -/
theorem sets_parts_outer {headFlag curFlag : Option DropFlag} {message : String}
    (houter : headFlag = none → curFlag = none) (hh : ∀ f, headFlag = some f → f < B)
    (hc : ∀ f, curFlag = some f → f < B) :
    Sets B ρ (if headFlag.isNone && curFlag.isSome then bug message
      else writeLoopHeadOuter headFlag curFlag) (outerMeetings headFlag curFlag)
      fun σ => ∀ f, headFlag = some f → σ f = (outerSource curFlag).read ρ := by
  rw [if_neg ?_]
  · exact sets_outer hh hc
  · cases headFlag with
    | none => simp [houter rfl]
    | some f => simp

end Sets

/-! ## 4. A flag for a whole place -/

section Whole

variable {Ty : Type} {tt : TypeTable Ty} {typeNeedsDropGlue : Ty → Bool} {B : Nat}
  {ρ : DropFlag → Bool} {v : Bool} {ty : Ty} {cur : VarState} {flag : DropFlag}

theorem mem_glueFields {inner : List VarState} {i : Nat} {s : VarState} :
    (i, s) ∈ glueFields tt typeNeedsDropGlue ty inner ↔
      inner[i]? = some s ∧ typeNeedsDropGlue (tt.field ty i) = true := by
  rw [glueFields, List.mem_filter]
  refine and_congr_left fun _ => ⟨fun h => ?_, fun h => ?_⟩
  · obtain ⟨k, hk⟩ := List.getElem?_of_mem h
    rw [getElem?_byIndex] at hk
    obtain ⟨t, ht, e⟩ := Option.map_eq_some_iff.mp hk
    cases e
    exact ht
  · exact List.mem_of_getElem? (i := i) (by rw [getElem?_byIndex, h]; rfl)

theorem isWhole_of_sameState {s t : VarState} (h : sameState s t = true) : t.isWhole = true := by
  cases s <;> cases t <;> first | rfl | cases h

theorem OneStatus.status (h : OneStatus tt typeNeedsDropGlue ρ v ty cur) {p : SubPlace} {w : Bool}
    (hp : NeedsDrop tt typeNeedsDropGlue ty p) (hw : cur.reads ρ p = some w) : w = v := by
  induction h generalizing p w with
  | gone hv =>
    rw [leafOf_invalid] at hw
    cases hw
    exact hv.symm
  | there hv =>
    rw [leafOf_valid] at hw
    cases hw
    exact hv.symm
  | flag hv =>
    rw [leafOf_optional] at hw
    cases hw
    exact hv
  | @fields ty inner hty _ _ ih =>
    cases p with
    | field i q =>
      rw [(partsOf_partialOf inner none).field] at hw
      obtain ⟨s, hs, hw⟩ := Option.bind_eq_some_iff.mp hw
      exact ih (i, s) (mem_glueFields.mpr ⟨hs, hp.2.2.glue⟩) hp.2.2 hw
    | variant i q => exact absurd hp.2.1 (by simp [hty])
    | here => simp [VarState.reads] at hw
    | boxAlloc => simp [VarState.reads] at hw
    | deref q => simp [VarState.reads] at hw
  | @variants ty inner outerFlag hty houter hall =>
    cases p with
    | variant i q =>
      rw [(partsOf_partialOf inner outerFlag).variant, houter] at hw
      obtain ⟨s, hs, hw⟩ := Option.bind_eq_some_iff.mp hw
      obtain ⟨u, hu, rfl⟩ := Option.map_eq_some_iff.mp hw
      cases hv : v with
      | false => rfl
      | true => rw [hall hv i s q u hs hp.2.2 hu, Bool.and_self]
    | field i q => exact absurd hp.2.1 (by simp [hty])
    | here => simp [VarState.reads] at hw
    | boxAlloc => simp [VarState.reads] at hw
    | deref q => simp [VarState.reads] at hw

/-- A state of the whole place has one status. -/
theorem oneStatus_of_isWhole (h : cur.isWhole = true) :
    OneStatus tt typeNeedsDropGlue ρ (cur.source.read ρ) ty cur := by
  cases cur, h using VarState.isWhole_rec with
  | valid => exact .there rfl
  | invalid why => exact .gone rfl
  | optional f => exact .flag rfl

theorem mem_of_anyOptional {inner : List VarState} {f : DropFlag} (h : anyOptional inner = some f) :
    .optional f ∈ inner := by
  unfold anyOptional at h
  split at h
  · rename_i g hg
    cases h
    exact List.mem_of_find?_eq_some hg
  · cases h

section Unfold

variable (hglue : typeNeedsDropGlue ty = true)

include hglue

theorem writeLoopHeadWhole_isWhole (h : cur.isWhole = true) :
    writeLoopHeadWhole tt typeNeedsDropGlue ty flag cur = match cur.source with
      | .const v => pushStmtSetDropflagVal flag v
      | .reg g => if g ≠ flag then pushStmtSetDropflagOther flag (some g) else return () := by
  rw [writeLoopHeadWhole.eq_def, if_neg (by simp [hglue])]
  cases cur, h using VarState.isWhole_rec with
  | valid => rfl
  | invalid why => rfl
  | optional f => rfl

theorem wholeMeetings_isWhole (h : cur.isWhole = true) :
    wholeMeetings tt typeNeedsDropGlue ty flag cur = [flagMeeting flag cur.source] := by
  rw [wholeMeetings.eq_def, if_neg (by simp [hglue])]
  cases cur, h using VarState.isWhole_rec with
  | valid => rfl
  | invalid why => rfl
  | optional f => rfl

variable {inner : List VarState} {outerFlag : Option DropFlag}

theorem writeLoopHeadWhole_enum (hty : tt.isEnum ty = true) :
    writeLoopHeadWhole tt typeNeedsDropGlue ty flag (.partialOf inner outerFlag) =
      writeLoopHeadOuter (some flag) outerFlag := by
  rw [writeLoopHeadWhole.eq_def, if_neg (by simp [hglue])]
  dsimp only
  rw [if_neg (by simp [hty])]
  cases outerFlag <;> rfl

theorem wholeMeetings_enum (hty : tt.isEnum ty = true) :
    wholeMeetings tt typeNeedsDropGlue ty flag (.partialOf inner outerFlag) =
      outerMeetings (some flag) outerFlag := by
  rw [wholeMeetings.eq_def, if_neg (by simp [hglue])]
  dsimp only
  rw [if_pos hty]
  rfl

variable (hty : tt.isEnum ty = false)

include hty

theorem writeLoopHeadWhole_nil (h : glueFields tt typeNeedsDropGlue ty inner = []) :
    writeLoopHeadWhole tt typeNeedsDropGlue ty flag (.partialOf inner none) =
      match anyOptional inner with
      | some other => pushStmtSetDropflagOther flag (some other)
      | none => pushStmtSetDropflagVal flag (inner.all VarState.isValid) := by
  rw [writeLoopHeadWhole.eq_def, if_neg (by simp [hglue])]
  dsimp only
  rw [if_pos (by simp [hty]),
    if_neg (by simp [h, uniform])]
  split
  · rfl
  · rename_i hcons
    rw [h] at hcons
    cases hcons

theorem wholeMeetings_nil (h : glueFields tt typeNeedsDropGlue ty inner = []) :
    wholeMeetings tt typeNeedsDropGlue ty flag (.partialOf inner none) =
      match anyOptional inner with
      | some other => [.overwrite flag (.reg other)]
      | none => [.overwrite flag (.const (inner.all VarState.isValid))] := by
  rw [wholeMeetings.eq_def, if_neg (by simp [hglue])]
  dsimp only
  rw [if_neg (by simp [hty])]
  split
  · rfl
  · rename_i hcons
    rw [h] at hcons
    cases hcons

variable {common : Nat} {state : VarState} {rest : OrdMap VarState}

theorem writeLoopHeadWhole_cons (hu : uniform ((common, state) :: rest) = true)
    (h : glueFields tt typeNeedsDropGlue ty inner = (common, state) :: rest) :
    writeLoopHeadWhole tt typeNeedsDropGlue ty flag (.partialOf inner none) =
      writeLoopHeadWhole tt typeNeedsDropGlue (tt.field ty common) flag state := by
  rw [writeLoopHeadWhole.eq_def, if_neg (by simp [hglue])]
  dsimp only
  rw [if_pos (by simp [hty]),
    if_neg (by simp [h, hu])]
  split
  · rename_i hnil
    rw [h] at hnil
    cases hnil
  · rename_i hcons
    rw [h] at hcons
    cases hcons
    rfl

theorem wholeMeetings_cons
    (h : glueFields tt typeNeedsDropGlue ty inner = (common, state) :: rest) :
    wholeMeetings tt typeNeedsDropGlue ty flag (.partialOf inner none) =
      wholeMeetings tt typeNeedsDropGlue (tt.field ty common) flag state := by
  rw [wholeMeetings.eq_def, if_neg (by simp [hglue])]
  dsimp only
  rw [if_neg (by simp [hty])]
  split
  · rename_i hnil
    rw [h] at hnil
    cases hnil
  · rename_i hcons
    rw [h] at hcons
    cases hcons
    rfl

end Unfold

/-- The flag of a place in a state of the whole. -/
theorem sets_isWhole (hglue : typeNeedsDropGlue ty = true) (hcur : cur.isWhole = true)
    (hflag : flag < B) (hfits : tt.Fits B ty cur) :
    Sets B ρ (writeLoopHeadWhole tt typeNeedsDropGlue ty flag cur)
      (wholeMeetings tt typeNeedsDropGlue ty flag cur) fun σ => σ flag = cur.source.read ρ := by
  rw [writeLoopHeadWhole_isWhole hglue hcur, wholeMeetings_isWhole hglue hcur]
  have hbound := VarState.bound_source hfits
  cases hs : cur.source with
  | const v => exact sets_val hflag v
  | reg g => exact sets_flag hflag (hbound g hs)

/-- What is set from a place with one status has that status. -/
theorem writeLoopHeadWhole_sets (h : OneStatus tt typeNeedsDropGlue ρ v ty cur)
    (hglue : typeNeedsDropGlue ty = true) (hflag : flag < B) (hcur : tt.Fits B ty cur) :
    Sets B ρ (writeLoopHeadWhole tt typeNeedsDropGlue ty flag cur)
      (wholeMeetings tt typeNeedsDropGlue ty flag cur)
      fun σ => ∀ p w, NeedsDrop tt typeNeedsDropGlue ty p → cur.reads ρ p = some w →
        σ flag = w := by
  induction h with
  | @gone ty why hv =>
    exact (sets_isWhole hglue rfl hflag hcur).imp fun σ hσ p w _ hw => by
      cases (leafOf_invalid why ρ p).symm.trans hw
      exact hσ
  | @there ty hv =>
    exact (sets_isWhole hglue rfl hflag hcur).imp fun σ hσ p w _ hw => by
      cases (leafOf_valid ρ p).symm.trans hw
      exact hσ
  | @flag ty f hv =>
    exact (sets_isWhole hglue rfl hflag hcur).imp fun σ hσ p w _ hw => by
      cases (leafOf_optional f ρ p).symm.trans hw
      exact hσ
  | @fields ty inner hty huniform hall ih =>
    rw [TypeTable.Fits] at hcur
    have hread {p : SubPlace} {w : Bool} (hp : NeedsDrop tt typeNeedsDropGlue ty p)
        (hw : (VarState.partialOf inner none).reads ρ p = some w) : ∃ i s q, p = .field i q ∧
          (i, s) ∈ glueFields tt typeNeedsDropGlue ty inner ∧
          NeedsDrop tt typeNeedsDropGlue (tt.field ty i) q ∧ s.reads ρ q = some w := by
      cases p with
      | field i q =>
        rw [(partsOf_partialOf inner none).field] at hw
        obtain ⟨s, hs, hw⟩ := Option.bind_eq_some_iff.mp hw
        exact ⟨i, s, q, rfl, mem_glueFields.mpr ⟨hs, hp.2.2.glue⟩, hp.2.2, hw⟩
      | variant i q => exact absurd hp.2.1 (by simp [hty])
      | here => simp [VarState.reads] at hw
      | boxAlloc => simp [VarState.reads] at hw
      | deref q => simp [VarState.reads] at hw
    cases hfields : glueFields tt typeNeedsDropGlue ty inner with
    | nil =>
      -- no field needs dropping, so any value will do
      have hnone : ∀ p w, NeedsDrop tt typeNeedsDropGlue ty p →
          (VarState.partialOf inner none).reads ρ p = some w → False := by
        intro p w hp hw
        obtain ⟨i, s, q, -, hmem, -⟩ := hread hp hw
        rw [hfields] at hmem
        cases hmem
      rw [writeLoopHeadWhole_nil hglue hty hfields, wholeMeetings_nil hglue hty hfields]
      cases hopt : anyOptional inner with
      | none => exact (sets_val hflag _).imp fun σ _ p w hp hw => (hnone p w hp hw).elim
      | some other =>
        refine (sets_other hflag ?_).imp fun σ _ p w hp hw => (hnone p w hp hw).elim
        obtain ⟨i, hi⟩ := List.getElem?_of_mem (mem_of_anyOptional hopt)
        have := hcur.2.getElem hi
        rwa [TypeTable.Fits] at this
    | cons head rest =>
      obtain ⟨common, state⟩ := head
      rw [hfields] at ih hall huniform
      rw [writeLoopHeadWhole_cons hglue hty huniform hfields,
        wholeMeetings_cons hglue hty hfields]
      have hmem : (common, state) ∈ glueFields tt typeNeedsDropGlue ty inner := by simp [hfields]
      obtain ⟨hstate, hcommon⟩ := mem_glueFields.mp hmem
      have hfit := hcur.2.getElem hstate
      rw [Nat.zero_add, tt.part_of_not_isEnum hty] at hfit
      refine (ih _ List.mem_cons_self hcommon hfit).imp fun σ hσ p w hp hw => ?_
      obtain ⟨i, s, q, rfl, his, hq, hw⟩ := hread hp hw
      rw [hfields] at his
      rcases List.mem_cons.mp his with e | his
      · cases e
        exact hσ q w hq hw
      · -- another field: the common one is under one source, with the same status
        have hwhole := isWhole_of_sameState (List.all_eq_true.mp huniform _ his)
        have hv := (hall _ List.mem_cons_self).status (p := .here) hcommon
          (VarState.leafOf_source hwhole ρ .here)
        have hw' := (hall _ (List.mem_cons_of_mem _ his)).status hq hw
        rw [hσ .here _ hcommon (VarState.leafOf_source hwhole ρ .here), hv, hw']
  | @variants ty inner outerFlag hty houter hall =>
    rw [writeLoopHeadWhole_enum hglue hty, wholeMeetings_enum hglue hty]
    have hbound := hcur
    rw [TypeTable.Fits] at hbound
    refine (sets_outer (bound_some hflag) hbound.1).imp fun σ hσ p w hp hw => ?_
    rw [hσ flag rfl, houter]
    exact ((OneStatus.variants hty houter hall).status hp hw).symm

/-- The outer flag of a head, from a state of the whole place. -/
theorem sets_outerWhole {headFlag : Option DropFlag} (hcur : cur.isWhole = true)
    (hh : ∀ f, headFlag = some f → f < B) (hfits : tt.Fits B ty cur) :
    Sets B ρ (writeLoopHeadOuterWhole tt typeNeedsDropGlue ty headFlag cur)
      (outerWholeMeetings tt typeNeedsDropGlue ty headFlag cur) fun σ =>
        typeNeedsDropGlue ty = true → ∀ f, headFlag = some f → σ f = cur.source.read ρ := by
  cases headFlag with
  | none => exact sets_nothing fun _ _ => nofun
  | some f =>
    cases hglue : typeNeedsDropGlue ty with
    | true =>
      exact (sets_isWhole hglue hcur (hh f rfl) hfits).imp fun _ h _ _ e => by cases e; exact h
    | false =>
      unfold writeLoopHeadOuterWhole outerWholeMeetings
      dsimp only
      rw [writeLoopHeadWhole.eq_def, if_pos (by simp [hglue]), wholeMeetings.eq_def,
        if_pos hglue]
      exact sets_nothing fun _ => nofun

/-! ## 5. A head -/

/-- What the flags of the head say of the place behind the statements. -/
def Retold (tt : TypeTable Ty) (typeNeedsDropGlue : Ty → Bool) (ρ : DropFlag → Bool) (ty : Ty)
    (head cur : VarState) (σ : DropFlag → Bool) : Prop :=
  ∀ p v w, NeedsDrop tt typeNeedsDropGlue ty p → head.reads σ p = some v →
    cur.reads ρ p = some w → v = w

/-- The statements for a head meet its meetings, and retell the state. -/
abbrev Edge (tt : TypeTable Ty) (typeNeedsDropGlue : Ty → Bool) (B : Nat) (ρ : DropFlag → Bool)
    (ty : Ty) (head cur : VarState) : Prop :=
  Sets B ρ (writeLoopHeadState tt typeNeedsDropGlue ty head cur)
    (headMeetings tt typeNeedsDropGlue ty head cur) (Retold tt typeNeedsDropGlue ρ ty head cur)

theorem parts_sets {curAt : Nat → VarState} : ∀ {inner : List VarState} {i : Nat},
    (∀ j s, inner[j]? = some s →
      Edge tt typeNeedsDropGlue B ρ (tt.part ty (i + j)) s (curAt (i + j))) →
    Sets B ρ (writeLoopHeadParts tt typeNeedsDropGlue ty i inner curAt)
      (headMeetingsParts tt typeNeedsDropGlue ty i inner curAt) fun σ => ∀ j s, inner[j]? = some s →
        Retold tt typeNeedsDropGlue ρ (tt.part ty (i + j)) s (curAt (i + j)) σ
  | [], _, _ => by
    rw [writeLoopHeadParts, headMeetingsParts]
    exact sets_nothing fun _ _ _ => nofun
  | s :: ss, i, h => by
    rw [writeLoopHeadParts, headMeetingsParts]
    refine ((h 0 s rfl).andThen (parts_sets (i := i + 1) fun j t ht => ?_)).imp ?_
    · rw [Nat.add_right_comm]
      exact h (j + 1) t ht
    · rintro σ ⟨hs, hss⟩ (_ | j) t ht
      · cases ht
        exact hs
      · have := hss j t ht
        rwa [Nat.add_right_comm] at this

theorem others_sets {curAt : Nat → VarState} : ∀ {others : OrdMap VarState},
    (∀ k s, (k, s) ∈ others → Edge tt typeNeedsDropGlue B ρ (tt.field ty k) s (curAt k)) →
    Sets B ρ (writeLoopHeadOthers tt typeNeedsDropGlue ty others curAt)
      (headMeetingsOthers tt typeNeedsDropGlue ty others curAt) fun σ => ∀ k s, (k, s) ∈ others →
        Retold tt typeNeedsDropGlue ρ (tt.field ty k) s (curAt k) σ
  | [], _ => by
    rw [writeLoopHeadOthers, headMeetingsOthers]
    exact sets_nothing fun _ _ _ => nofun
  | (k, s) :: ss, h => by
    rw [writeLoopHeadOthers, headMeetingsOthers]
    refine ((h k s List.mem_cons_self).andThen
      (others_sets fun j t ht => h j t (List.mem_cons_of_mem _ ht))).imp ?_
    rintro σ ⟨hs, hss⟩ j t ht
    rcases List.mem_cons.mp ht with e | ht
    · cases e
      exact hs
    · exact hss j t ht

section Shapes

variable {inner curInner fill curFill : VarState} {inners curInners : List VarState}
  {others curOthers : OrdMap VarState} {outerFlag curFlag : Option DropFlag}
  {count curCount : Nat} {σ : DropFlag → Bool}

theorem retold_parts (hcur : PartsOf cur (outerSource curFlag) fun i => curInners[i]?)
    (h : ∀ (i : Nat) s t, inners[i]? = some s → curInners[i]? = some t →
      Retold tt typeNeedsDropGlue ρ (tt.part ty i) s t σ)
    (houter : (outerSource outerFlag).read σ = (outerSource curFlag).read ρ) :
    Retold tt typeNeedsDropGlue ρ ty (.partialOf inners outerFlag) cur σ := by
  intro p v w hp hv hw
  cases p with
  | field i q =>
    rw [(partsOf_partialOf inners outerFlag).field] at hv
    rw [hcur.field] at hw
    obtain ⟨s, hs, hv⟩ := Option.bind_eq_some_iff.mp hv
    obtain ⟨t, ht, hw⟩ := Option.bind_eq_some_iff.mp hw
    have hi := h i s t hs ht
    rw [tt.part_of_not_isEnum hp.2.1] at hi
    exact hi q v w hp.2.2 hv hw
  | variant i q =>
    rw [(partsOf_partialOf inners outerFlag).variant] at hv
    rw [hcur.variant] at hw
    obtain ⟨s, hs, hv⟩ := Option.bind_eq_some_iff.mp hv
    obtain ⟨t, ht, hw⟩ := Option.bind_eq_some_iff.mp hw
    obtain ⟨v', hv', rfl⟩ := Option.map_eq_some_iff.mp hv
    obtain ⟨w', hw', rfl⟩ := Option.map_eq_some_iff.mp hw
    have hi := h i s t hs ht
    rw [tt.part_of_isEnum hp.2.1] at hi
    rw [houter, hi q v' w' hp.2.2 hv' hw']
  | here => simp [VarState.reads] at hv
  | boxAlloc => simp [VarState.reads] at hv
  | deref q => simp [VarState.reads] at hv

theorem retold_parts_whole (hcur : cur.isWhole = true)
    (h : ∀ (i : Nat) s, inners[i]? = some s →
      Retold tt typeNeedsDropGlue ρ (tt.part ty i) s cur σ)
    (houter : typeNeedsDropGlue ty = true → ∀ f, outerFlag = some f →
      σ f = cur.source.read ρ) :
    Retold tt typeNeedsDropGlue ρ ty (.partialOf inners outerFlag) cur σ := by
  intro p v w hp hv hw
  have hleaf := VarState.leafOf_source hcur
  cases p with
  | field i q =>
    rw [(partsOf_partialOf inners outerFlag).field] at hv
    obtain ⟨s, hs, hv⟩ := Option.bind_eq_some_iff.mp hv
    have hi := h i s hs
    rw [tt.part_of_not_isEnum hp.2.1] at hi
    rw [hleaf] at hw
    exact hi q v w hp.2.2 hv ((hleaf ρ q).trans hw)
  | variant i q =>
    rw [(partsOf_partialOf inners outerFlag).variant] at hv
    obtain ⟨s, hs, hv⟩ := Option.bind_eq_some_iff.mp hv
    obtain ⟨v', hv', rfl⟩ := Option.map_eq_some_iff.mp hv
    have hi := h i s hs
    rw [tt.part_of_isEnum hp.2.1] at hi
    rw [hleaf] at hw
    have e := hi q v' w hp.2.2 hv' ((hleaf ρ q).trans hw)
    cases hw
    cases outerFlag with
    | none => rw [e]; exact Bool.true_and _
    | some f => rw [outerSource, Source.read_reg, houter hp.1 f rfl, e, Bool.and_self]
  | here => simp [VarState.reads] at hv
  | boxAlloc => simp [VarState.reads] at hv
  | deref q => simp [VarState.reads] at hv

theorem retold_box {outer : Source DropFlag Bool} (hcur : BoxOf cur outer curInner)
    (h : Retold tt typeNeedsDropGlue ρ (tt.pointee ty) inner curInner σ)
    (houter : typeNeedsDropGlue ty = true → (outerSource outerFlag).read σ = outer.read ρ) :
    Retold tt typeNeedsDropGlue ρ ty (.movedOut inner outerFlag) cur σ := by
  intro p v w hp hv hw
  cases p with
  | boxAlloc =>
    rw [(boxOf_movedOut inner outerFlag).alloc] at hv
    rw [hcur.alloc] at hw
    cases hv
    cases hw
    exact houter hp.1
  | deref q =>
    rw [(boxOf_movedOut inner outerFlag).deref] at hv
    rw [hcur.deref] at hw
    exact h q v w hp.2.2 hv hw
  | here => simp [VarState.reads] at hv
  | field i q => simp [VarState.reads] at hv
  | variant i q => simp [VarState.reads] at hv

theorem retold_array {curElement : Nat → VarState} (harray : tt.isArray ty = true)
    (hcur : ∀ i q, i < count → ∀ w, cur.reads ρ (.field i q) = some w →
      (curElement i).reads ρ q = some w)
    (h : Retold tt typeNeedsDropGlue ρ (tt.field ty 0) fill curFill σ)
    (hothers : ∀ k s, (k, s) ∈ others →
      Retold tt typeNeedsDropGlue ρ (tt.field ty k) s (curElement k) σ)
    (hrest : ∀ i, i < count → OrdMap.find i others = none → ∀ p w,
      NeedsDrop tt typeNeedsDropGlue (tt.field ty i) p →
      (curElement i).reads ρ p = some w → curFill.reads ρ p = some w) :
    Retold tt typeNeedsDropGlue ρ ty (.partialArray fill others count) cur σ := by
  intro p v w hp hv hw
  cases p with
  | field i q =>
    have hi : i < count := by
      by_contra hi
      simp [VarState.reads, hi] at hv
    rw [elementsOf_partialArray _ _ _ _ _ _ hi, VarState.element] at hv
    have hw' := hcur i q hi w hw
    cases hf : OrdMap.find i others with
    | none =>
      rw [hf] at hv
      have hq := hp.2.2
      have hlast := hrest i hi hf q w hq hw'
      rw [tt.field_of_isArray harray i 0] at hq
      exact h q v w hq hv hlast
    | some s =>
      rw [hf] at hv
      exact hothers i s (OrdMap.find_mem hf) q v w hp.2.2 hv hw'
  | here => simp [VarState.reads] at hv
  | boxAlloc => simp [VarState.reads] at hv
  | variant i q => simp [VarState.reads] at hv
  | deref q => simp [VarState.reads] at hv

end Shapes

variable (tt typeNeedsDropGlue) in
/-- What a head with parts is set from by a state of the whole place, and the meetings. -/
def wholeEdge (ty : Ty) (cur : VarState) : VarState → Build Unit × List Meeting
  | .partialOf inner outerFlag =>
    (do writeLoopHeadParts tt typeNeedsDropGlue ty 0 inner fun _ => cur
        writeLoopHeadOuterWhole tt typeNeedsDropGlue ty outerFlag cur,
      headMeetingsParts tt typeNeedsDropGlue ty 0 inner (fun _ => cur) ++
        outerWholeMeetings tt typeNeedsDropGlue ty outerFlag cur)
  | .movedOut inner outerFlag =>
    (do writeLoopHeadState tt typeNeedsDropGlue (tt.pointee ty) inner cur
        writeLoopHeadOuterWhole tt typeNeedsDropGlue ty outerFlag cur,
      headMeetings tt typeNeedsDropGlue (tt.pointee ty) inner cur ++
        outerWholeMeetings tt typeNeedsDropGlue ty outerFlag cur)
  | .partialArray fill others _ =>
    (do writeLoopHeadState tt typeNeedsDropGlue (tt.field ty 0) fill cur
        writeLoopHeadOthers tt typeNeedsDropGlue ty others fun _ => cur,
      headMeetings tt typeNeedsDropGlue (tt.field ty 0) fill cur ++
        headMeetingsOthers tt typeNeedsDropGlue ty others fun _ => cur)
  | head =>
    (writeLoopHeadState tt typeNeedsDropGlue ty head cur,
      headMeetings tt typeNeedsDropGlue ty head cur)

/-- A head with parts, and a state of the whole place. -/
theorem sets_whole {R : (DropFlag → Bool) → Prop} {head : VarState} (hcur : cur.isWhole = true)
    (h : Sets B ρ (wholeEdge tt typeNeedsDropGlue ty cur head).1
      (wholeEdge tt typeNeedsDropGlue ty cur head).2 R) :
    Sets B ρ (writeLoopHeadState tt typeNeedsDropGlue ty head cur)
      (headMeetings tt typeNeedsDropGlue ty head cur) R := by
  cases cur, hcur using VarState.isWhole_rec <;> cases head <;> exact h

/-- A back edge under the condition: no assertion fails, and the head says of every part that needs
    dropping what the state at the back edge did. -/
theorem writeLoopHeadState_edge {head : VarState} (h : Told tt typeNeedsDropGlue ρ ty head cur)
    (hhead : tt.Fits B ty head) (hcur : tt.Fits B ty cur) :
    Edge tt typeNeedsDropGlue B ρ ty head cur := by
  induction h with
  | @flag ty f cur hstatus =>
    rw [TypeTable.Fits] at hhead
    rw [Edge, writeLoopHeadState, headMeetings]
    cases hglue : typeNeedsDropGlue ty with
    | true =>
      obtain ⟨v, hv⟩ := hstatus hglue
      refine (writeLoopHeadWhole_sets hv hglue hhead hcur).imp fun σ hσ p u w hp hu hw => ?_
      rw [leafOf_optional] at hu
      cases hu
      exact hσ p w hp hw
    | false =>
      rw [writeLoopHeadWhole.eq_def, if_pos (by simp [hglue]), wholeMeetings.eq_def,
        if_pos hglue]
      exact sets_nothing fun σ p u w hp => absurd hp.glue (by simp [hglue])
  | @parts ty inner curInner outerFlag curFlag hlen houter _ ih =>
    rw [TypeTable.Fits] at hhead hcur
    have hget (i : Nat) (s : VarState) (hs : inner[i]? = some s) :
        curInner[i]? = some (curInner.getD i .valid) := by
      have hi := (List.getElem?_eq_some_iff.mp hs).1
      rw [List.getD_eq_getElem?_getD, List.getElem?_eq_getElem (hlen ▸ hi)]
      rfl
    have hedge (j : Nat) (s : VarState) (hs : inner[j]? = some s) : Edge tt typeNeedsDropGlue B ρ
        (tt.part ty (0 + j)) s (curInner.getD (0 + j) .valid) := by
      rw [Nat.zero_add]
      have hfit := hhead.2.getElem hs
      have hfit' := hcur.2.getElem (hget j s hs)
      rw [Nat.zero_add] at hfit hfit'
      exact ih j s _ hs (hget j s hs) hfit hfit'
    rw [Edge, writeLoopHeadState.eq_def, headMeetings.eq_def]
    dsimp only
    rw [if_neg (by simp [hlen])]
    refine ((parts_sets hedge).andThen (sets_parts_outer houter hhead.1 hcur.1)).imp ?_
    rintro σ ⟨hp, ho⟩
    refine retold_parts (partsOf_partialOf curInner curFlag) (fun i s t hs ht => ?_) ?_
    · have hi := hp i s hs
      rw [Nat.zero_add, List.getD_eq_getElem?_getD, ht] at hi
      exact hi
    · cases outerFlag with
      | none => rw [houter rfl]; rfl
      | some f => exact ho f rfl
  | @whole ty inner outerFlag cur hw _ ih =>
    rw [TypeTable.Fits] at hhead
    have hedge (j : Nat) (s : VarState) (hs : inner[j]? = some s) : Edge tt typeNeedsDropGlue B ρ
        (tt.part ty (0 + j)) s cur := by
      have hfit := hhead.2.getElem hs
      rw [Nat.zero_add] at hfit ⊢
      exact ih j s hs hfit (fits_of_isWhole hw hcur _)
    refine sets_whole hw
      (((parts_sets hedge).andThen (sets_outerWhole hw hhead.1 hcur)).imp ?_)
    rintro σ ⟨hp, ho⟩
    refine retold_parts_whole hw (fun i s hs => ?_) ho
    have hi := hp i s hs
    rwa [Nat.zero_add] at hi
  | @box ty inner curInner outerFlag curFlag houter _ ih =>
    rw [TypeTable.Fits] at hhead hcur
    rw [Edge, writeLoopHeadState.eq_def, headMeetings.eq_def]
    refine ((ih hhead.2 hcur.2).andThen (sets_outer hhead.1 hcur.1)).imp ?_
    rintro σ ⟨hi, ho⟩
    refine retold_box (boxOf_movedOut curInner curFlag) hi fun _ => ?_
    cases outerFlag with
    | none => exact (houter rfl).symm
    | some f => exact ho f rfl
  | @boxWhole ty inner outerFlag cur hw houter _ ih =>
    rw [TypeTable.Fits] at hhead
    refine sets_whole hw (((ih hhead.2 (fits_of_isWhole hw hcur _)).andThen
      (sets_outerWhole hw hhead.1 hcur)).imp ?_)
    rintro σ ⟨hi, ho⟩
    refine retold_box (VarState.leafOf_source hw).box hi fun hglue => ?_
    cases outerFlag with
    | none => exact (houter rfl).symm
    | some f => exact ho hglue f rfl
  | @array ty fill curFill others curOthers count curCount _ _ hrest ihfill ihothers =>
    rw [TypeTable.Fits] at hhead hcur
    rw [Edge, writeLoopHeadState.eq_def, headMeetings.eq_def]
    refine ((ihfill hhead.2.1 hcur.2.1).andThen (others_sets fun k s hs =>
      ihothers k s hs (hhead.2.2.of_mem hs) (.element hcur.1 hcur.2.1 hcur.2.2 k))).imp ?_
    rintro σ ⟨hf, ho⟩
    refine retold_array hhead.1 (fun i q _ w hw => ?_) hf ho hrest
    have hi : i < curCount := by
      by_contra hi
      simp [VarState.reads, hi] at hw
    rwa [elementsOf_partialArray _ _ _ _ _ _ hi] at hw
  | @arrayWhole ty fill others count cur hw _ _ ihfill ihothers =>
    rw [TypeTable.Fits] at hhead
    have hleaf := VarState.leafOf_source hw
    refine sets_whole hw (((ihfill hhead.2.1 (fits_of_isWhole hw hcur _)).andThen
      (others_sets fun k s hs => ihothers k s hs (hhead.2.2.of_mem hs)
        (fits_of_isWhole hw hcur _))).imp ?_)
    rintro σ ⟨hf, ho⟩
    refine retold_array hhead.1 (fun i q _ w h => ?_) hf ho fun _ _ _ _ _ _ h => h
    rw [hleaf] at h ⊢
    exact h

end Whole

end Trustme.Lowering
