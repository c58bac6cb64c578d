/-
  Subject:   `mergeState` never reaches the bound on its depth.

  The two states get flatter together: a part of a state is flatter than the state, and where one
  state has no parts it is handed on as it is.

  * `Ends`: an action that stops by itself;
  * `mergeState_ends`: `mergeState` does.
-/
import Trustme.Lowering.MergeState

namespace Trustme.Lowering

open Lib (OrdMap)

/-- The action stops with a result or where the source calls `BUG`. -/
def Ends {α : Type} (x : Build α) : Prop := ∀ b, x b ≠ .error .outOfFuel

section Actions

variable {α β : Type}

theorem ends_pure (a : α) : Ends (pure a : Build α) := fun _ h => by cases h

theorem ends_bug (message : String) : Ends (bug message : Build α) := fun _ h => by cases h

/-- What follows only has to end from where the first action gets. -/
theorem ends_bind_of {x : Build α} {f : α → Build β} (hx : Ends x)
    (hf : ∀ b a b₁, x b = .ok (a, b₁) → f a b₁ ≠ .error .outOfFuel) : Ends (x >>= f) := by
  intro b h
  cases hr : x b with
  | error e =>
    have hxb := hx b
    rw [hr] at hxb
    have h' : (.error e : Except BuildError (β × Builder)) = .error .outOfFuel := by
      rw [← h]
      show _ = (x b >>= fun p => f p.1 p.2)
      rw [hr]
      rfl
    cases h'
    exact hxb rfl
  | ok p =>
    refine hf b p.1 p.2 hr ?_
    rw [← h]
    show _ = (x b >>= fun p => f p.1 p.2)
    rw [hr]
    rfl

theorem ends_bind {x : Build α} {f : α → Build β} (hx : Ends x) (hf : ∀ a, Ends (f a)) :
    Ends (x >>= f) :=
  ends_bind_of hx fun _ a b₁ _ => hf a b₁

theorem ends_ite {c : Prop} [Decidable c] {x y : Build α} (hx : Ends x) (hy : Ends y) :
    Ends (if c then x else y) := by
  split
  · exact hx
  · exact hy

end Actions

theorem ends_pushVal (x : DropFlag) (v : Bool) : Ends (pushStmtSetDropflagVal x v) :=
  fun _ h => by cases h

theorem ends_pushOther (x : DropFlag) (y : Option DropFlag) : Ends (pushStmtSetDropflagOther x y) :=
  fun _ h => by cases h

theorem ends_newDropFlag (d : Bool) : Ends (newDropFlag d) := fun _ h => by cases h

theorem ends_newDropFlagAndSet (v : Bool) : Ends (newDropFlagAndSet v) := fun _ h => by cases h

theorem ends_default (x : DropFlag) : Ends (getDropFlagDefault x) := fun _ h => by cases h

theorem ends_newAliasFlag (x : DropFlag) : Ends (newAliasFlag x) := fun _ h => by cases h

/-- The helpers of `mergeState` have no recursion: they end, case by case. -/
theorem ends_takeFlag (was : Bool) (g : DropFlag) : Ends (takeFlag was g) :=
  ends_bind (ends_default g) fun _ => ends_ite
    (ends_bind (ends_newDropFlag was) fun _ => ends_bind (ends_pushOther _ _) fun _ => ends_pure _)
    (ends_pure _)

theorem ends_mergeOuterValidity (f : Option DropFlag) (v : Bool) :
    Ends (mergeOuterValidity f v) := by
  cases f with
  | none => exact ends_ite (ends_pure _) (ends_bind (ends_newDropFlagAndSet _) fun _ => ends_pure _)
  | some f => exact ends_bind (ends_pushVal _ _) fun _ => ends_pure _

theorem ends_mergeOuterValidityFlag (f : Option DropFlag) (g : DropFlag) :
    Ends (mergeOuterValidityFlag f g) := by
  unfold mergeOuterValidityFlag
  refine ends_ite (ends_pure _) ?_
  cases f with
  | none => exact ends_bind (ends_takeFlag _ _) fun _ => ends_pure _
  | some f => exact ends_bind (ends_pushOther _ _) fun _ => ends_pure _

theorem ends_mergeOuterOf (f g : Option DropFlag) : Ends (mergeOuterOf f g) := by
  cases g with
  | none => exact ends_mergeOuterValidity _ _
  | some g => exact ends_mergeOuterValidityFlag _ _

theorem ends_mergeInvalidShell (g : Option DropFlag) : Ends (mergeInvalidShell g) := by
  cases g with
  | none => exact fun _ h => by cases h
  | some g => exact ends_takeFlag _ _

theorem ends_mergeValidShell (g : Option DropFlag) : Ends (mergeValidShell g) := by
  cases g with
  | none => exact ends_pure _
  | some g => exact ends_bind (ends_takeFlag _ _) fun _ => ends_pure _

theorem ends_mergeInvalidWithPartialOuter (g : Option DropFlag) :
    Ends (mergeInvalidWithPartialOuter g) := by
  cases g with
  | none => exact fun _ h => by cases h
  | some g => exact fun _ h => by cases h

theorem ends_mergeMovedOutShellVal (f : Option DropFlag) (v : Bool) :
    Ends (mergeMovedOutShellVal f v) :=
  mergeMovedOutShellVal_eq f v ▸ ends_mergeOuterValidity f v

theorem ends_mergeMovedOutShellFlag (f : Option DropFlag) (g : DropFlag) :
    Ends (mergeMovedOutShellFlag f g) := by
  cases f with
  | none => exact ends_bind (ends_takeFlag _ _) fun _ => ends_pure _
  | some f => exact fun _ h => by cases h

theorem ends_mergeMovedOutShells (f g : Option DropFlag) : Ends (mergeMovedOutShells f g) := by
  cases f with
  | none => exact ends_pure _
  | some f => exact fun _ h => by cases h

theorem ends_newAliasFlags (flag : DropFlag) : ∀ ks, Ends (newAliasFlags flag ks)
  | [] => ends_pure _
  | _ :: ks => ends_bind (ends_newAliasFlag flag) fun _ =>
    ends_bind (ends_newAliasFlags flag ks) fun _ => ends_pure _

theorem ends_addedElement (fill : VarState) : Ends (addedElement fill) := by
  cases fill with
  | optional flag => exact ends_bind (ends_newAliasFlag flag) fun _ => ends_pure _
  | _ => exact ends_pure _

theorem ends_addElements (fill : VarState) : ∀ news others, Ends (addElements fill others news)
  | [], _ => ends_pure _
  | (k, _) :: news, others => by
    rw [addElements]
    split
    · exact ends_addElements fill news others
    · exact ends_bind (ends_addedElement fill) fun _ => ends_addElements fill news _

/-- Parts are merged one after another; each has to end. -/
theorem ends_mergeEach {merge : Nat → VarState → VarState → Build VarState} : ∀ {ps : Pairs},
    (∀ p ∈ ps, Ends (merge p.1 p.2.1 p.2.2)) → Ends (mergeEach merge ps)
  | [], _ => ends_pure _
  | p :: _, h => ends_bind (h p List.mem_cons_self) fun _ =>
    ends_bind (ends_mergeEach fun q hq => h q (List.mem_cons_of_mem _ hq)) fun _ => ends_pure _

/-! ## The depth of what is made on the way -/

/-- All states of the map are leaves. -/
def Flat (m : OrdMap VarState) : Prop := ∀ p ∈ m, p.2.depth = 0

/-- The flags that stand for a conditional value are leaves. -/
theorem newAliasFlags_flat {flag : DropFlag} : ∀ {ks : List Nat} {b b' : Builder}
    {rs : OrdMap VarState}, newAliasFlags flag ks b = .ok (rs, b') → Flat rs
  | [], _, _, _, h => by
    cases h
    exact fun _ hp => absurd hp List.not_mem_nil
  | k :: ks, b, b', rs, h => by
    obtain ⟨r, b₁, -, h⟩ := build_bind.mp h
    obtain ⟨rs', b₂, h₂, h⟩ := build_bind.mp h
    cases build_pure.mp h
    intro p hp
    rcases List.mem_cons.mp hp with rfl | hp
    · rw [VarState.depth]
    · exact newAliasFlags_flat h₂ p hp

/-- An element that is made of the filling is as deep. -/
theorem addedElement_depth {fill state : VarState} {b b' : Builder}
    (h : addedElement fill b = .ok (state, b')) : state.depth = fill.depth := by
  cases fill with
  | optional flag =>
    obtain ⟨a, b₁, -, h⟩ := build_bind.mp h
    cases build_pure.mp h
    rw [VarState.depth, VarState.depth]
  | _ =>
    cases build_pure.mp h
    rfl

theorem addElements_depth {fill : VarState} {d : Nat} (hf : fill.depth ≤ d) :
    ∀ {news others others' : OrdMap VarState} {b b' : Builder}, (∀ p ∈ others, p.2.depth ≤ d) →
      addElements fill others news b = .ok (others', b') → ∀ p ∈ others', p.2.depth ≤ d
  | [], others, others', b, b', ho, h => by
    cases build_pure.mp h
    exact ho
  | (k, _) :: news, others, others', b, b', ho, h => by
    cases hk : others.find k with
    | some s =>
      rw [addElements, hk] at h
      exact addElements_depth hf ho h
    | none =>
      rw [addElements, hk] at h
      obtain ⟨state, b₁, hs, h⟩ := build_bind.mp h
      refine addElements_depth hf (fun p hp => ?_) h
      rw [OrdMap.insert, hk] at hp
      rcases List.mem_cons.mp ((OrdMap.place_perm k state others).mem_iff.mp hp) with rfl | hp
      · exact (addedElement_depth hs).symm ▸ hf
      · exact ho p hp

theorem depth_of_mem_byIndex {states : List VarState} {p : Nat × VarState}
    (h : p ∈ byIndex states) : p.2.depth ≤ VarState.depthInner states := by
  obtain ⟨q, hq, rfl⟩ := List.mem_map.mp h
  exact VarState.depth_le_of_mem (List.fst_mem_of_mem_zipIdx hq)

/-! ## The cases -/

section Cases

variable {Ty : Type} {tt : TypeTable Ty} {merge : Ty → VarState → VarState → Build VarState}
  {n : Nat}

/-- The pairs are flatter than `n` together. -/
def Below (n : Nat) (ps : Pairs) : Prop := ∀ p ∈ ps, p.2.1.depth + p.2.2.depth < n

variable (hm : ∀ ty old new, old.depth + new.depth < n → Ends (merge ty old new))

include hm

variable {ty : Ty}

theorem ends_mergeParts {ps : Pairs} (h : Below n ps) :
    Ends (mergeParts tt merge ty ps) :=
  ends_mergeEach fun p hp => hm _ _ _ (h p hp)

theorem ends_mergeElements {ps : Pairs} (h : Below n ps) :
    Ends (mergeElements tt merge ty ps) :=
  ends_mergeEach fun p hp => hm _ _ _ (h p hp)

omit hm in
/-- The parts of a new state, against old ones of at most the depth `d`. -/
theorem below_innerPairs {olds : OrdMap VarState} {news : List VarState} {d : Nat}
    (ho : ∀ p ∈ olds, p.2.depth ≤ d) (hn : d + VarState.depthInner news < n) :
    Below n (innerPairs olds news) := by
  intro p hp
  obtain ⟨q, hq, rfl⟩ := List.mem_map.mp hp
  have h₁ := ho q.1 (List.of_mem_zip hq).1
  have h₂ := VarState.depth_le_of_mem (List.of_mem_zip hq).2
  show q.1.2.depth + q.2.depth < n
  omega

omit hm in
/-- Elements, against the new state at their places. -/
theorem below_otherPairs {olds : OrdMap VarState} {newAt : Nat → VarState} {d e : Nat}
    (ho : ∀ p ∈ olds, p.2.depth ≤ d) (hw : ∀ k, (newAt k).depth ≤ e) (hn : d + e < n) :
    Below n (otherPairs olds newAt) := by
  intro p hp
  obtain ⟨q, hq, rfl⟩ := List.mem_map.mp hp
  have h₁ := ho q hq
  have h₂ := hw q.1
  show q.2.depth + (newAt q.1).depth < n
  omega

omit hm in
theorem ends_ifEnum {f : Option DropFlag} {x : Build (Option DropFlag)} (hx : Ends x) :
    Ends (ifEnum tt ty f x) := ends_ite hx (ends_pure _)

variable {new s fill : VarState}

/-- One part is merged and put into a box. -/
theorem ends_box {old : VarState} (h : old.depth + new.depth < n) {α : Type}
    (f : VarState → α) : Ends (do return f (← merge ty old new)) :=
  ends_bind (hm ty old new h) fun _ => ends_pure _

theorem ends_partsOf {ps : Pairs} (h : Below n ps) (f : Option DropFlag) :
    Ends (do
      let merged ← mergeParts tt merge ty ps
      return VarState.partialOf (parts merged) f) :=
  ends_bind (ends_mergeParts hm h) fun _ => ends_pure _

variable {count : Nat}

theorem ends_arrayOf {old : VarState} {ps : Pairs} (h : old.depth + new.depth < n)
    (hp : Below n ps) :
    Ends (do
      let fill ← merge (tt.field ty 0) old new
      let other ← mergeElements tt merge ty ps
      return VarState.partialArray fill other count) :=
  ends_bind (hm _ _ _ h) fun _ => ends_bind (ends_mergeElements hm hp) fun _ => ends_pure _

omit hm in
theorem depth_le_of_all_eq (hs : s.depth = 0) (k : List VarState) :
    ∀ p ∈ byIndex (k.map fun _ => s), p.2.depth ≤ 0 := by
  intro p hp
  obtain ⟨q, hq, rfl⟩ := List.mem_map.mp hp
  obtain ⟨_, -, e⟩ := List.mem_map.mp (List.fst_mem_of_mem_zipIdx hq)
  exact Nat.le_of_eq (e ▸ hs)

omit hm in
theorem depth_le_of_all_eq_other (hs : s.depth = 0) (k : OrdMap VarState) :
    ∀ p ∈ (k.map fun p => (p.1, s) : OrdMap VarState), p.2.depth ≤ 0 := by
  intro p hp
  obtain ⟨q, -, rfl⟩ := List.mem_map.mp hp
  exact Nat.le_of_eq hs

/-- A state without parts on the old arm. -/
theorem ends_parts_of_flat (hs : s.depth = 0) {news : List VarState} {newFlag : Option DropFlag}
    (hn : (VarState.partialOf news newFlag).depth < n + 1) (f : Option DropFlag) :
    Ends (do
      let merged ← mergeParts tt merge ty (innerPairs (byIndex (news.map fun _ => s)) news)
      return VarState.partialOf (parts merged) f) := by
  rw [VarState.depth] at hn
  exact ends_partsOf hm (below_innerPairs (depth_le_of_all_eq hs news) (by omega)) f

variable {others : OrdMap VarState}

theorem ends_array_of_flat (hs : s.depth = 0)
    (hn : (VarState.partialArray fill others count).depth < n + 1) :
    Ends (do
      let fill' ← merge (tt.field ty 0) s fill
      let other ← mergeElements tt merge ty
        (otherPairs (others.map fun p => (p.1, s)) (.element fill others))
      return VarState.partialArray fill' other count) := by
  rw [VarState.depth] at hn
  refine ends_arrayOf hm (by omega) (below_otherPairs (depth_le_of_all_eq_other hs others)
    (VarState.depth_element fill others) (by omega))

/-- One lemma for each old state, with the states of the new arm as its cases. -/
theorem ends_mergeIntoInvalid {why : InvalidType}
    (hn : new.depth < n + 1) : Ends (mergeIntoInvalid tt merge ty why new) := by
  have hs : (VarState.invalid why).depth = 0 := by rw [VarState.depth]
  cases new with
  | invalid _ => exact ends_pure _
  | valid => exact fun _ h => by cases h
  | optional g => exact fun _ h => by cases h
  | movedOut inner outerFlag =>
    rw [VarState.depth] at hn
    exact ends_bind (ends_mergeInvalidShell _) fun _ => ends_box hm (by omega) _
  | partialOf news outerFlag =>
    refine ends_bind (ends_ifEnum ?_) fun f => ends_parts_of_flat hm hs hn f
    exact ends_bind (ends_mergeInvalidWithPartialOuter _) fun _ => ends_pure _
  | partialArray fill others count => exact ends_array_of_flat hm hs hn

theorem ends_mergeIntoValid (hn : new.depth < n + 1) :
    Ends (mergeIntoValid tt merge ty new) := by
  have hs : VarState.valid.depth = 0 := by rw [VarState.depth]
  cases new with
  | invalid _ => exact fun _ h => by cases h
  | valid => exact ends_pure _
  | optional g => exact ends_bind (ends_takeFlag _ _) fun _ => ends_pure _
  | movedOut inner outerFlag =>
    rw [VarState.depth] at hn
    exact ends_bind (ends_mergeValidShell _) fun _ => ends_box hm (by omega) _
  | partialOf news outerFlag =>
    refine ends_bind (ends_ifEnum ?_) fun f => ends_parts_of_flat hm hs hn f
    cases outerFlag with
    | none => exact ends_pure _
    | some g => exact ends_mergeOuterValidityFlag _ _
  | partialArray fill others count => exact ends_array_of_flat hm hs hn

theorem ends_mergeIntoOptional {flag : DropFlag}
    (hn : new.depth < n + 1) : Ends (mergeIntoOptional tt merge ty flag new) := by
  cases new with
  | invalid _ => exact fun _ h => by cases h
  | valid => exact fun _ h => by cases h
  | optional g =>
    exact ends_ite (ends_bind (ends_pushOther _ _) fun _ => ends_pure _) (ends_pure _)
  | movedOut inner outerFlag =>
    rw [VarState.depth] at hn
    refine ends_bind (ends_ite (ends_pushOther _ _) (ends_pure _)) fun _ => ends_box hm ?_ _
    rw [VarState.depth]
    omega
  | partialOf news outerFlag =>
    rw [VarState.depth] at hn
    refine ends_ite (ends_bug _) (ends_bind_of (ends_newAliasFlags _ _) fun b inner b₁ hi => ?_)
    refine ends_bind (ends_ifEnum (ends_mergeOuterOf _ _)) (fun f => ends_partsOf hm ?_ f) b₁
    exact below_innerPairs (fun p hp => Nat.le_of_eq (newAliasFlags_flat hi p hp)) (by omega)
  | partialArray fill others count =>
    rw [VarState.depth] at hn
    refine ends_bind_of (ends_newAliasFlags _ _) fun b other b₁ ho => ?_
    refine ends_bind (ends_newAliasFlag _) (fun f => ends_arrayOf hm ?_ ?_) b₁
    · rw [VarState.depth]
      omega
    · exact below_otherPairs (fun p hp => Nat.le_of_eq (newAliasFlags_flat ho p hp))
        (VarState.depth_element fill others) (by omega)

variable {outerFlag : Option DropFlag}

theorem ends_mergeIntoMovedOut {inner : VarState}
    (hn : (VarState.movedOut inner outerFlag).depth + new.depth < n + 1) :
    Ends (mergeIntoMovedOut tt merge ty inner outerFlag new) := by
  rw [VarState.depth] at hn
  cases new with
  | invalid _ =>
    exact ends_bind (ends_mergeMovedOutShellVal _ _) fun _ => ends_box hm (by omega) _
  | valid => exact ends_bind (ends_mergeMovedOutShellVal _ _) fun _ => ends_box hm (by omega) _
  | optional g =>
    exact ends_bind (ends_mergeMovedOutShellFlag _ _) fun _ => ends_box hm (by omega) _
  | movedOut newInner newOuter =>
    rw [VarState.depth] at hn
    exact ends_bind (ends_mergeMovedOutShells _ _) fun _ => ends_box hm (by omega) _
  | partialOf _ _ => exact ends_bug _
  | partialArray _ _ _ => exact ends_bug _

theorem ends_mergePartialWhole {inners : List VarState} {outer : Build (Option DropFlag)}
    (ho : Ends outer) (hn : VarState.depthInner inners + new.depth < n) :
    Ends (mergePartialWhole tt merge ty inners new outer outerFlag) :=
  ends_bind (ends_ifEnum ho) fun f => ends_partsOf hm
    (below_otherPairs (fun _ hp => depth_of_mem_byIndex hp) (fun _ => Nat.le_refl _) hn) f

theorem ends_mergeIntoPartial {inners : List VarState}
    (hn : (VarState.partialOf inners outerFlag).depth + new.depth < n + 1) :
    Ends (mergeIntoPartial tt merge ty inners outerFlag new) := by
  rw [VarState.depth] at hn
  refine ends_ite (ends_bug _) ?_
  cases new with
  | invalid _ => exact ends_mergePartialWhole hm (ends_mergeOuterValidity _ _) (by omega)
  | valid => exact ends_mergePartialWhole hm (ends_mergeOuterValidity _ _) (by omega)
  | optional g => exact ends_mergePartialWhole hm (ends_mergeOuterValidityFlag _ _) (by omega)
  | movedOut _ _ => exact ends_bug _
  | partialArray _ _ _ => exact ends_bug _
  | partialOf newInner newOuter =>
    rw [VarState.depth] at hn
    refine ends_ite (ends_bug _) (ends_bind (ends_ifEnum (ends_mergeOuterOf _ _)) fun f => ?_)
    exact ends_partsOf hm (below_innerPairs (fun _ hp => depth_of_mem_byIndex hp) (by omega)) f

theorem ends_mergeArrayWhole (hn : max fill.depth (VarState.depthOther others) + new.depth < n) :
    Ends (mergeArrayWhole tt merge ty fill others count new) := by
  refine ends_arrayOf hm (by omega) (below_otherPairs (d := VarState.depthOther others)
    (fun p hp => VarState.depth_le_of_mem_other (k := p.1) (s := p.2) hp)
    (fun _ => Nat.le_refl _) (by omega))

theorem ends_mergeIntoPartialArray
    (hn : (VarState.partialArray fill others count).depth + new.depth < n + 1) :
    Ends (mergeIntoPartialArray tt merge ty fill others count new) := by
  rw [VarState.depth] at hn
  cases new with
  | invalid _ => exact ends_mergeArrayWhole hm (by omega)
  | valid => exact ends_mergeArrayWhole hm (by omega)
  | optional g => exact ends_mergeArrayWhole hm (by omega)
  | movedOut _ _ => exact ends_bug _
  | partialOf _ _ => exact ends_bug _
  | partialArray newFill newOther newCount =>
    rw [VarState.depth] at hn
    refine ends_ite (ends_bug _)
      (ends_bind_of (ends_addElements _ _ _) fun b others' b₁ ho => ?_)
    refine ends_arrayOf hm (by omega) ?_ b₁
    refine below_otherPairs (d := max fill.depth (VarState.depthOther others))
      (addElements_depth (Nat.le_max_left _ _) (fun p hp => ?_) ho)
      (VarState.depth_element newFill newOther) (by omega)
    exact Nat.le_trans (VarState.depth_le_of_mem_other (k := p.1) (s := p.2) hp)
      (Nat.le_max_right _ _)

end Cases

/-! ## The recursion -/

variable {Ty : Type} (tt : TypeTable Ty)

/-- By induction on the bound: the parts of two states have less depth together. -/
theorem mergeStateTo_ends : ∀ (n : Nat) (ty : Ty) (old new : VarState),
    old.depth + new.depth < n → Ends (mergeStateTo tt n ty old new)
  | n + 1, ty, old, new, h => by
    have ih := mergeStateTo_ends n
    cases old with
    | invalid why => exact ends_mergeIntoInvalid ih (by omega)
    | valid => exact ends_mergeIntoValid ih (by omega)
    | optional flag => exact ends_mergeIntoOptional ih (by omega)
    | movedOut innerState outerFlag => exact ends_mergeIntoMovedOut ih h
    | partialOf innerStates outerFlag => exact ends_mergeIntoPartial ih h
    | partialArray fillState otherStates count => exact ends_mergeIntoPartialArray ih h

/-- `mergeState` returns, or stops where the source calls `BUG`: the bound it starts the recursion
    with is not reached. -/
theorem mergeState_ends (ty : Ty) (oldState newState : VarState) :
    Ends (mergeState tt ty oldState newState) :=
  mergeStateTo_ends tt _ ty oldState newState (Nat.lt_succ_self _)

end Trustme.Lowering
