/-
  Subject:   What meets what when two states are merged, and when the merge is exact.

  A MEETING is one reading of the old state (a leaf, the discriminant of an enum, the shell of a
  box) that the merge brings together with the reading of the new state in the same place. The
  meetings of two states depend on the states, the types and the defaults of the flags only; they
  are listed in the order in which the statements for them are emitted.

  * `meetings`: the list;
  * `Meeting.Compatible`: the condition under which the merge keeps both arms' readings.
-/
import Trustme.Lowering.MergeState

namespace Trustme.Lowering

open Lib (OrdMap Source Touches)

/-! ## 1. Meetings -/

/-- How a reading of the old state meets one of the new state.

    * `same` -- both arms read the same source already; nothing is emitted;
    * `reuse` -- the old arm has the constant `was` there, and the new arm's flag `g` is taken over;
    * `fresh` -- the old arm has `was`, and a new flag with that default is set on the new arm;
    * `overwrite` -- the old arm reads its flag `f`, which is set on the new arm;
    * `overwriteCopy` -- as before, for a new alias of `f`;
    * `lost` -- a box shell whose flag is not set to what the new arm has. -/
inductive Meeting where
  | same (c : Source DropFlag Bool)
  | reuse (was : Bool) (g : DropFlag)
  | fresh (was : Bool) (new : Source DropFlag Bool)
  | overwrite (f : DropFlag) (new : Source DropFlag Bool)
  | overwriteCopy (f : DropFlag) (new : Source DropFlag Bool)
  | lost
  deriving DecidableEq, Repr

namespace Meeting

/-- What the new arm reads. -/
def want : Meeting → Source DropFlag Bool
  | .same c => c
  | .reuse _ g => .reg g
  | .fresh _ new => new
  | .overwrite _ new => new
  | .overwriteCopy _ new => new
  | .lost => .const true

/-- The flag of the two states that is read after the merge, or that the flag read then follows. -/
def root : Meeting → Option DropFlag
  | .same (.reg f) => some f
  | .reuse _ g => some g
  | .overwrite f _ => some f
  | .overwriteCopy f _ => some f
  | _ => none

/-- The flag of the old state that the new arm sets. -/
def target : Meeting → Option DropFlag
  | .overwrite f _ => some f
  | _ => none

/-- A flag of the new arm that is taken over has the old arm's value on the old arm's path. -/
def Holds (ρ : DropFlag → Bool) : Meeting → Prop
  | .reuse was g => ρ g = was
  | .lost => False
  | _ => True

instance (ρ : DropFlag → Bool) : ∀ m : Meeting, Decidable (m.Holds ρ)
  | .same _ => isTrue trivial
  | .reuse was g => inferInstanceAs (Decidable (ρ g = was))
  | .fresh _ _ => isTrue trivial
  | .overwrite _ _ => isTrue trivial
  | .overwriteCopy _ _ => isTrue trivial
  | .lost => isFalse not_false

/-- The meeting `m`, which comes first, and `m'` do not disturb each other on the new arm, where
    the flags have the values `ρ` before the merge: a flag that one of them sets, or an alias of
    it, is not a flag the other one reads, unless with the same value. -/
structure Compatible (b : Builder) (ρ : DropFlag → Bool) (m m' : Meeting) : Prop where
  later : ∀ f ∈ m'.target, ∀ g ∈ m.root, Touches b.mirrors f g → m'.want.read ρ = m.want.read ρ
  earlier : ∀ f ∈ m.target, ∀ g, m'.want = .reg g → Touches b.mirrors f g →
    m.want.read ρ = m'.want.read ρ

end Meeting

/-! ## 2. The meetings of two states -/

/-- A state of the old arm, or a new alias of one of its flags. -/
inductive OldView where
  | own (s : VarState)
  | copyOf (f : DropFlag)

def OldView.depth : OldView → Nat
  | .own s => s.depth
  | .copyOf _ => 0

section Meet

variable {Ty : Type} (tt : TypeTable Ty) (df : DropFlag → Bool)

/-- The old arm has `was`, the new arm the flag `g`: the flag is taken over when its default is
    `was`. -/
def meetFlag (was : Bool) (g : DropFlag) : Meeting :=
  if df g = was then .reuse was g else .fresh was (.reg g)

/-- The outer flags of an enum. -/
def meetOuter (outerFlag : Option DropFlag) (new : Source DropFlag Bool) : Meeting :=
  match outerFlag, new with
  | none, .const true => .same (.const true)
  | none, .const false => .fresh true (.const false)
  | none, .reg g => meetFlag df true g
  | some f, .const v => .overwrite f (.const v)
  | some f, .reg g => if f = g then .same (.reg f) else .overwrite f (.reg g)

/-- The shell of a box that is gone on the old arm. -/
def meetInvalidShell : Option DropFlag → Meeting
  | none => .fresh false (.const true)
  | some g => meetFlag df false g

/-- The outer flags of two boxes with moved contents. -/
def meetShells : Option DropFlag → Option DropFlag → Meeting
  | none, none => .same (.const true)
  | none, some g => .reuse true g
  | some _, none => .lost
  | some f, some g => .overwrite f (.reg g)

/-- The outer flag of a box with moved contents and a state of the whole box. -/
def meetShell (outerFlag : Option DropFlag) (new : Source DropFlag Bool) : Meeting :=
  match outerFlag, new with
  | some f, new => .overwrite f new
  | none, new => meetOuter df none new

end Meet

/-- The pairs of a merge as they are seen here. -/
abbrev Views := List (Nat × OldView × VarState)

/-- Parts that all have the one old state. -/
def viewConst (view : OldView) (news : OrdMap VarState) : Views := news.map fun p =>
    (p.1, view, p.2)

def viewPairs (ps : Pairs) : Views := ps.map fun p => (p.1, .own p.2.1, p.2.2)

/-- The exceptions of an array, each with its key. -/
def viewOther (otherStates : OrdMap VarState) : OrdMap OldView :=
  otherStates.map fun p => (p.1, .own p.2)

/-- The elements of the old array, once the exceptions of the new one are added. -/
def viewElements (fillState : VarState) : OrdMap OldView → OrdMap VarState → OrdMap OldView
  | views, [] => views
  | views, (k, _) :: news =>
    let view := match fillState with
      | .optional flag => .copyOf flag
      | state => .own state
    viewElements fillState (views.insert k view) news

def viewElementPairs (views : OrdMap OldView) (newAt : Nat → VarState) : Views :=
  views.map fun p => (p.1, p.2, newAt p.1)

/-- The meetings of the parts. -/
def meetEach (meet : Nat → OldView → VarState → List Meeting) (vs : Views) : List Meeting :=
  vs.flatMap fun v => meet v.1 v.2.1 v.2.2

section Meet

variable {Ty : Type} (tt : TypeTable Ty) (df : DropFlag → Bool)
  (meet : Ty → OldView → VarState → List Meeting)

/-- Only an enum has an outer flag that is merged. -/
def meetEnum (ty : Ty) (m : Meeting) : List Meeting := if tt.isEnum ty then [m] else []

def meetParts (ty : Ty) (vs : Views) : List Meeting := meetEach (fun i => meet (tt.part ty i)) vs

def meetElements (ty : Ty) (vs : Views) : List Meeting :=
  meetEach (fun i => meet (tt.field ty i)) vs

/-- The meetings of the elements of an array and one old state. -/
def meetArray (ty : Ty) (view : OldView) (fillState : VarState) (otherStates : OrdMap VarState) :
    List Meeting :=
  meet (tt.field ty 0) view fillState ++
    meetElements tt meet ty (viewElementPairs (otherStates.map fun p => (p.1, view))
      (.element fillState otherStates))

/-- The old state is gone. -/
def meetInvalid (ty : Ty) (why : InvalidType) : VarState → List Meeting
  | .invalid _ => [.same (.const false)]
  | .valid => [.fresh false (.const true)]
  | .optional g => [.fresh false (.reg g)]
  | .movedOut innerState outerFlag =>
    meetInvalidShell df outerFlag :: meet (tt.pointee ty) (.own (.invalid why)) innerState
  | .partialOf innerStates outerFlag =>
    meetEnum tt ty (.fresh false (outerSource outerFlag)) ++
      meetParts tt meet ty (viewConst (.own (.invalid why)) (byIndex innerStates))
  | .partialArray fillState otherStates _ =>
    meetArray tt meet ty (.own (.invalid why)) fillState otherStates

/-- The old state is there. -/
def meetValid (ty : Ty) : VarState → List Meeting
  | .invalid _ => [.fresh true (.const false)]
  | .valid => [.same (.const true)]
  | .optional g => [meetFlag df true g]
  | .movedOut innerState outerFlag =>
    meetOuter df none (outerSource outerFlag) :: meet (tt.pointee ty) (.own .valid) innerState
  | .partialOf innerStates outerFlag =>
    meetEnum tt ty (meetOuter df none (outerSource outerFlag)) ++
      meetParts tt meet ty (viewConst (.own .valid) (byIndex innerStates))
  | .partialArray fillState otherStates _ =>
    meetArray tt meet ty (.own .valid) fillState otherStates

/-- The old state is under the flag `f`. -/
def meetOptional (ty : Ty) (f : DropFlag) : VarState → List Meeting
  | .invalid _ => [.overwrite f (.const false)]
  | .valid => [.overwrite f (.const true)]
  | .optional g => [meetOuter df (some f) (.reg g)]
  | .movedOut _ _ => [.lost]
  | .partialOf innerStates outerFlag =>
    meetEnum tt ty (meetOuter df (some f) (outerSource outerFlag)) ++
      meetParts tt meet ty (viewConst (.copyOf f) (byIndex innerStates))
  | .partialArray fillState otherStates _ => meetArray tt meet ty (.copyOf f) fillState otherStates

/-- The old state is under a new alias of `f`. -/
def meetCopy (ty : Ty) (f : DropFlag) : VarState → List Meeting
  | .invalid _ => [.overwriteCopy f (.const false)]
  | .valid => [.overwriteCopy f (.const true)]
  | .optional g => [.overwriteCopy f (.reg g)]
  | .movedOut _ _ => [.lost]
  | .partialOf innerStates outerFlag =>
    meetEnum tt ty (.overwriteCopy f (outerSource outerFlag)) ++
      meetParts tt meet ty (viewConst (.copyOf f) (byIndex innerStates))
  | .partialArray fillState otherStates _ => meetArray tt meet ty (.copyOf f) fillState otherStates

/-- A box whose contents were moved. -/
def meetMovedOut (ty : Ty) (innerState : VarState) (outerFlag : Option DropFlag) :
    VarState → List Meeting
  | .invalid why => meetShell df outerFlag (.const false) ::
      meet (tt.pointee ty) (.own innerState) (.invalid why)
  | .valid => meetShell df outerFlag (.const true) :: meet (tt.pointee ty) (.own innerState) .valid
  | .optional g => meetShell df outerFlag (.reg g) ::
      meet (tt.pointee ty) (.own innerState) (.optional g)
  | .movedOut newInner newOuter =>
    meetShells outerFlag newOuter :: meet (tt.pointee ty) (.own innerState) newInner
  | .partialOf _ _ => []
  | .partialArray _ _ _ => []

/-- A value with moved parts. -/
def meetPartial (ty : Ty) (innerStates : List VarState) (outerFlag : Option DropFlag)
    (newState : VarState) : List Meeting :=
  let whole (new : Source DropFlag Bool) : List Meeting :=
    meetEnum tt ty (meetOuter df outerFlag new) ++
      meetParts tt meet ty (viewPairs (otherPairs (byIndex innerStates) fun _ => newState))
  match newState with
  | .invalid _ => whole (.const false)
  | .valid => whole (.const true)
  | .optional g => whole (.reg g)
  | .movedOut _ _ => []
  | .partialArray _ _ _ => []
  | .partialOf newInner newOuter =>
    meetEnum tt ty (meetOuter df outerFlag (outerSource newOuter)) ++
      meetParts tt meet ty (viewPairs (innerPairs (byIndex innerStates) newInner))

/-- An array with moved elements. -/
def meetPartialArray (ty : Ty) (fillState : VarState) (otherStates : OrdMap VarState)
    (newState : VarState) : List Meeting :=
  let whole : List Meeting :=
    meet (tt.field ty 0) (.own fillState) newState ++
      meetElements tt meet ty (viewPairs (otherPairs otherStates fun _ => newState))
  match newState with
  | .invalid _ => whole
  | .valid => whole
  | .optional _ => whole
  | .movedOut _ _ => []
  | .partialOf _ _ => []
  | .partialArray newFill newOther _ =>
    meet (tt.field ty 0) (.own fillState) newFill ++
      meetElements tt meet ty
        (viewElementPairs (viewElements fillState (viewOther otherStates) newOther)
          (.element newFill newOther))

/-- The meetings of an old and a new state, to a nesting depth. -/
def meetingsTo : Nat → Ty → OldView → VarState → List Meeting
  | 0, _, _, _ => []
  | n + 1, ty, view, newState =>
    match view with
    | .copyOf f => meetCopy tt (meetingsTo n) ty f newState
    | .own (.invalid why) => meetInvalid tt df (meetingsTo n) ty why newState
    | .own .valid => meetValid tt df (meetingsTo n) ty newState
    | .own (.optional f) => meetOptional tt df (meetingsTo n) ty f newState
    | .own (.movedOut innerState outerFlag) =>
      meetMovedOut tt df (meetingsTo n) ty innerState outerFlag newState
    | .own (.partialOf innerStates outerFlag) =>
      meetPartial tt df (meetingsTo n) ty innerStates outerFlag newState
    | .own (.partialArray fillState otherStates _) =>
      meetPartialArray tt (meetingsTo n) ty fillState otherStates newState

/-- The meetings of the two states of a place. -/
def meetings (ty : Ty) (view : OldView) (newState : VarState) : List Meeting :=
  meetingsTo tt df (view.depth + newState.depth + 1) ty view newState

end Meet

end Trustme.Lowering
