/-
  Subject:   The discriminants of enums (`visitEnumVariant`, `visitEnumInner`,
             `checkEnumDiscriminants`, src/bin/rustc/hir_conv_constant_evaluation.cpp).

  * `Repr`, `HIREnum`, `HIRExpr`: enums; what the evaluation of an expression asks for, and its
    value;
  * `visitEnumVariant`, `visitEnumInner`: the values are recorded, those of others first;
  * `Derives`: what the values are, by the definitions of the enums alone;
  * `Derives.unique`, `Derives.not_circular`: they are unique, and there are none in a circle;
  * `Agrees`: all that is recorded is so.

  An expression is a tree: the evaluator asks for the discriminant of a variant, or for all those of
  an enum (to lay it out), and goes on with the answer.
-/
import Trustme.Eval.Memory
import Trustme.Metadata.MirBody

namespace Trustme.Discriminants

open Metadata Eval

/-! ## 1. Enums -/

/-- `HIREnum::Repr`. -/
inductive Repr where
  | Auto | Usize | U8 | U16 | U32 | U64 | Isize | I8 | I16 | I32 | I64 | U128 | I128
  deriving DecidableEq

def getReprType : Repr → HIRCoreType
  | .Auto | .Isize => .Isize
  | .Usize => .Usize
  | .U8 => .U8
  | .U16 => .U16
  | .U32 => .U32
  | .U64 => .U64
  | .U128 => .U128
  | .I8 => .I8
  | .I16 => .I16
  | .I32 => .I32
  | .I64 => .I64
  | .I128 => .I128

/-- The types that are no tags are signed or not by the way; the source stops at them. -/
def enumTagIsSigned : HIRCoreType → Bool
  | .I8 | .I16 | .I32 | .I64 | .Isize | .I128 => true
  | _ => false

def enumTagUnsignedMax : HIRCoreType → Option (BitVec 128)
  | .U8 => some 0xFF
  | .U16 => some 0xFFFF
  | .U32 => some 0xFFFFFFFF
  | _ => none

/-- The bits of a tag. -/
def tagBits (arch : TargetArch) : Repr → Nat
  | .Auto | .Isize | .Usize => arch.pointerBits
  | .U8 | .I8 => 8
  | .U16 | .I16 => 16
  | .U32 | .I32 => 32
  | .U64 | .I64 => 64
  | .U128 | .I128 => 128

section Definitions

variable (E : Type)

/-- The literal of a value is given by its bytes, as a number. -/
inductive HIRExpr where
  | value (literal : Nat)
  | fails
  | discriminant (enm : E) (idx : Nat) (k : BitVec 128 → HIRExpr)
  | layout (enm : E) (k : List (BitVec 128) → HIRExpr)

/-- A variant of either class of enums. -/
structure Variant where
  name : RcString
  expr : Option (HIRExpr E)

structure HIREnum where
  tagRepr : Repr
  variants : List (Variant E)

inductive EnumError where
  | cycle (enm : E) (varName : RcString)
  | notInRange (value : BitVec 128) (varName : RcString)
  | assignedTwice (value : BitVec 128) (first varName : RcString)
  | evaluation

/-- `val` or `discriminantValue` of the variants, `valueKnown`, and `discriminantsEvaluated`. -/
structure State where
  slot : E → Nat → BitVec 128
  known : E → Nat → Bool
  evaluated : E → Bool

end Definitions

variable {E : Type}

inductive Stop (E : Type) where
  | fuel
  | error (e : EnumError E)

/-- The text of an error; `p` is the path of an enum. -/
def EnumError.text (p : E → String) : EnumError E → String
  | .cycle enm varName =>
    "cycle detected when evaluating discriminant of `" ++ p enm ++ "::" ++
    String.ofList varName ++ "`"
  | .notInRange value varName =>
    "discriminant value `" ++ toString value.toNat ++ "` for variant `" ++ String.ofList varName ++
      "` is not in the range of the enum's tag type"
  | .assignedTwice value first varName =>
    "discriminant value `" ++ toString value.toNat ++ "` assigned more than once - `" ++
      String.ofList first ++ "` and `" ++ String.ofList varName ++ "`"
  | .evaluation => ""

/-- `EncodedLiteralSlice::readUint` and `readSint`. -/
def readUint (bits literal : Nat) : BitVec 128 := BitVec.ofNat 128 (literal % 2 ^ bits)

def readSint (bits literal : Nat) : BitVec 128 :=
  let v := readUint bits literal
  if bits < 128 ∧ v >>> (bits - 1) ≠ 0 then v ||| BitVec.allOnes 128 <<< bits else v

/-- The value of an explicit discriminant. -/
def readTag (arch : TargetArch) (r : Repr) (literal : Nat) : BitVec 128 :=
  if enumTagIsSigned (getReprType r) then readSint (tagBits arch r) literal else readUint
    (tagBits arch r) literal

/-- The loop of `checkEnumDiscriminants` over variants with their values; `seen` has those
    before. -/
def checkFrom (max : Option (BitVec 128)) : List (BitVec 128 × RcString) →
    List (RcString × BitVec 128) →
    Except (Stop E) Unit
  | _, [] => .ok ()
  | seen, (name, value) :: rest =>
    if max.any (· < value) then .error (.error (.notInRange value name))
    else
      match seen.find? (·.1 == value) with
      | some first => .error (.error (.assignedTwice value first.2 name))
      | none => checkFrom max (seen ++ [(value, name)]) rest

section Visit

variable [DecidableEq E] (arch : TargetArch) (enums : E → HIREnum E)

/-- The recorded values of an enum. -/
def State.values (s : State E) (enm : E) : List (BitVec 128) :=
  (List.range (enums enm).variants.length).map (s.slot enm)

def checkEnumDiscriminants (enm : E) (values : List (BitVec 128)) : Except (Stop E) Unit :=
  checkFrom (enumTagUnsignedMax (getReprType (enums enm).tagRepr)) []
    (((enums enm).variants.map (·.name)).zip values)

def State.record (s : State E) (enm : E) (idx : Nat) (value : BitVec 128) : State E :=
  { s with
    slot := Function.update s.slot enm (Function.update (s.slot enm) idx value)
    known := Function.update s.known enm (Function.update (s.known enm) idx true) }

/-- Evaluate an expression, where the answers are asked for by `variant` and `whole`. -/
def evaluateConstant (variant : E → Nat → State E → Except (Stop E) (State E))
    (whole : E → State E → Except (Stop E) (State E)) :
    HIRExpr E → State E → Except (Stop E) (Nat × State E)
  | .value literal, s => .ok (literal, s)
  | .fails, _ => .error (.error .evaluation)
  | .discriminant enm idx k, s => do
    let s ← variant enm idx s
    evaluateConstant variant whole (k (s.slot enm idx)) s
  | .layout enm k, s => do
    let s ← whole enm s
    evaluateConstant variant whole (k (s.values enums enm)) s

/-- `visitEnumInner`, over the function that visits a variant. -/
def visitEnumWith (variant : E → Nat → State E → Except (Stop E) (State E)) (enm : E)
    (s : State E) :
    Except (Stop E) (State E) :=
  if s.evaluated enm then .ok s
  else do
    let s ← (List.range (enums enm).variants.length).foldlM (fun s idx => variant enm idx s) s
    checkEnumDiscriminants enums enm (s.values enums enm)
    .ok { s with evaluated := Function.update s.evaluated enm true }

/-- `active` are the variants that are being evaluated (`activeDiscriminants_`). -/
def visitEnumVariant : Nat → List (E × Nat) → E → Nat → State E → Except (Stop E) (State E)
  | 0, _, _, _, _ => .error .fuel
  | fuel + 1, active, enm, idx, s =>
    match (enums enm).variants[idx]? with
    | none => .error (.error .evaluation)
    | some var =>
      if s.evaluated enm then .ok s
      else if s.known enm idx then .ok s
      else if (enm, idx) ∈ active then .error (.error (.cycle enm var.name))
      else
        let variant := visitEnumVariant fuel ((enm, idx) :: active)
        match var.expr, idx with
        | some expr, _ => do
          let (literal, s) ← evaluateConstant enums variant (visitEnumWith enums variant) expr s
          .ok (s.record enm idx (readTag arch (enums enm).tagRepr literal))
        | none, 0 => .ok (s.record enm 0 0)
        | none, before + 1 => do
          let s ← variant enm before s
          .ok (s.record enm (before + 1) (s.slot enm before + 1))

def visitEnumInner (fuel : Nat) (active : List (E × Nat)) (enm : E) (s : State E) :
    Except (Stop E) (State E) :=
  visitEnumWith enums (visitEnumVariant arch enums fuel active) enm s

end Visit

/-! ## 2. What the values are -/

/-- The variants of an enum have values, and so have expressions. -/
inductive Judgement (E : Type) where
  | variant (enm : E) (idx : Nat) (value : BitVec 128)
  | expr (x : HIRExpr E) (literal : Nat)

section Values

variable (arch : TargetArch) (enums : E → HIREnum E)

/-- The values by the definitions of the enums alone, in whatever order they are asked for. -/
inductive Derives : Judgement E → Prop where
  | explicit {enm : E} {idx : Nat} {var : Variant E} {x : HIRExpr E} {literal : Nat}
      (hvar : (enums enm).variants[idx]? = some var) (hexpr : var.expr = some x)
      (h : Derives (.expr x literal)) :
      Derives (.variant enm idx (readTag arch (enums enm).tagRepr literal))
  | first {enm : E} {var : Variant E} (hvar : (enums enm).variants[0]? = some var)
      (hexpr : var.expr = none) :
      Derives (.variant enm 0 0)
  | next {enm : E} {idx : Nat} {var : Variant E} {v : BitVec 128}
      (hvar : (enums enm).variants[idx + 1]? = some var) (hexpr : var.expr = none)
      (h : Derives (.variant enm idx v)) : Derives (.variant enm (idx + 1) (v + 1))
  | value {literal : Nat} : Derives (.expr (.value literal) literal)
  | discriminant {enm : E} {idx : Nat} {k : BitVec 128 → HIRExpr E} {v : BitVec 128} {literal : Nat}
      (hv : Derives (.variant enm idx v)) (h : Derives (.expr (k v) literal)) :
      Derives (.expr (.discriminant enm idx k) literal)
  | layout {enm : E} {k : List (BitVec 128) → HIRExpr E} {values : List (BitVec 128)}
      {literal : Nat}
      (hlen : values.length = (enums enm).variants.length)
      (hv : ∀ i v, values[i]? = some v → Derives (.variant enm i v))
      (hcheck : checkEnumDiscriminants enums enm values = .ok ())
      (h : Derives (.expr (k values) literal)) : Derives (.expr (.layout enm k) literal)

/-- The variants that an expression asks for, as long as there are answers. -/
inductive AsksFrom : HIRExpr E → E × Nat → Prop where
  | here {enm : E} {idx : Nat} {k : BitVec 128 → HIRExpr E} : AsksFrom (.discriminant enm idx k)
      (enm, idx)
  | after {enm : E} {idx : Nat} {k : BitVec 128 → HIRExpr E} {v : BitVec 128} {y : E × Nat}
      (hv : Derives arch enums (.variant enm idx v)) (h : AsksFrom (k v) y) :
        AsksFrom (.discriminant enm idx k) y
  | layout {enm : E} {idx : Nat} {k : List (BitVec 128) → HIRExpr E}
      (hlt : idx < (enums enm).variants.length)
      (hbefore : ∀ j, j < idx → ∃ v, Derives arch enums (.variant enm j v)) :
        AsksFrom (.layout enm k) (enm, idx)
  | afterLayout {enm : E} {k : List (BitVec 128) → HIRExpr E} {values : List (BitVec 128)}
      {y : E × Nat}
      (hlen : values.length = (enums enm).variants.length)
      (hv : ∀ i v, values[i]? = some v → Derives arch enums (.variant enm i v))
      (hcheck : checkEnumDiscriminants enums enm values = .ok ())
      (h : AsksFrom (k values) y) : AsksFrom (.layout enm k) y

/-- The variants that the evaluation of a variant asks for. -/
inductive Asks : E × Nat → E × Nat → Prop where
  | expr {enm : E} {idx : Nat} {var : Variant E} {x : HIRExpr E} {y : E × Nat}
      (hvar : (enums enm).variants[idx]? = some var) (hexpr : var.expr = some x)
      (h : AsksFrom arch enums x y) : Asks (enm, idx) y
  | before {enm : E} {idx : Nat} {var : Variant E}
      (hvar : (enums enm).variants[idx + 1]? = some var)
      (hexpr : var.expr = none) : Asks (enm, idx + 1) (enm, idx)

/-- A discriminant that depends on itself. -/
def Circular (x : E × Nat) : Prop := Relation.TransGen (Asks arch enums) x x

end Values

section Unique

variable {arch : TargetArch} {enums : E → HIREnum E}

/-- There is one value. -/
def Judgement.Unique (arch : TargetArch) (enums : E → HIREnum E) : Judgement E → Prop
  | .variant enm idx v => ∀ v', Derives arch enums (.variant enm idx v') → v' = v
  | .expr x literal => ∀ literal', Derives arch enums (.expr x literal') → literal' = literal

theorem Derives.unique_aux {j : Judgement E} (h : Derives arch enums j) : j.Unique arch enums := by
  induction h with
  | explicit hvar hexpr h ih =>
    intro v' h'
    cases h' with
    | explicit hvar' hexpr' h' =>
      cases hvar.symm.trans hvar'
      cases hexpr.symm.trans hexpr'
      rw [ih _ h']
    | first hvar' hexpr' =>
      cases hvar.symm.trans hvar'
      exact nomatch hexpr.symm.trans hexpr'
    | next hvar' hexpr' h' =>
      cases hvar.symm.trans hvar'
      exact nomatch hexpr.symm.trans hexpr'
  | first hvar hexpr =>
    intro v' h'
    cases h' with
    | explicit hvar' hexpr' h' =>
      cases hvar.symm.trans hvar'
      exact nomatch hexpr.symm.trans hexpr'
    | first _ _ => rfl
  | next hvar hexpr h ih =>
    intro v' h'
    cases h' with
    | explicit hvar' hexpr' h' =>
      cases hvar.symm.trans hvar'
      exact nomatch hexpr.symm.trans hexpr'
    | next hvar' hexpr' h' => rw [ih _ h']
  | value =>
    intro literal' h'
    cases h' with
    | value => rfl
  | discriminant hv h ihv ih =>
    intro literal' h'
    cases h' with
    | discriminant hv' h' =>
      cases ihv _ hv'
      exact ih _ h'
  | @layout enm k values literal hlen hv hcheck h ihv ih =>
    intro literal' h'
    cases h' with
    | @layout _ _ values' _ hlen' hv' hcheck' h' =>
      have hvalues : values' = values := by
        refine List.ext_getElem (hlen'.trans hlen.symm) fun i hi hi' => ?_
        exact ihv i _ (List.getElem?_eq_getElem hi') _ (hv' i _ (List.getElem?_eq_getElem hi))
      subst hvalues
      exact ih _ h'

theorem Derives.unique {enm : E} {idx : Nat} {v v' : BitVec 128}
    (h : Derives arch enums (.variant enm idx v))
    (h' : Derives arch enums (.variant enm idx v')) : v' = v :=
  h.unique_aux v' h'

theorem values_unique {enm : E} {values values' : List (BitVec 128)}
    (hlen : values.length = values'.length)
    (h : ∀ i v, values[i]? = some v → Derives arch enums (.variant enm i v))
    (h' : ∀ i v, values'[i]? = some v → Derives arch enums (.variant enm i v)) :
      values' = values := by
  refine List.ext_getElem hlen.symm fun i hi hi' => ?_
  exact (h i _ (List.getElem?_eq_getElem hi')).unique (h' i _ (List.getElem?_eq_getElem hi))

/-- From what has a value, chains of questions end. -/
def Judgement.Ends (arch : TargetArch) (enums : E → HIREnum E) : Judgement E → Prop
  | .variant enm idx _ => Acc (fun y x => Asks arch enums x y) (enm, idx)
  | .expr x _ => ∀ y, AsksFrom arch enums x y → Acc (fun y x => Asks arch enums x y) y

theorem Derives.ends {j : Judgement E} (h : Derives arch enums j) : j.Ends arch enums := by
  induction h with
  | explicit hvar hexpr h ih =>
    refine Acc.intro _ fun y hy => ?_
    cases hy with
    | expr hvar' hexpr' hasks =>
      cases hvar.symm.trans hvar'
      cases hexpr.symm.trans hexpr'
      exact ih y hasks
    | before hvar' hexpr' =>
      cases hvar.symm.trans hvar'
      exact nomatch hexpr.symm.trans hexpr'
  | first hvar hexpr =>
    refine Acc.intro _ fun y hy => ?_
    cases hy with
    | expr hvar' hexpr' hasks =>
      cases hvar.symm.trans hvar'
      exact nomatch hexpr.symm.trans hexpr'
  | next hvar hexpr h ih =>
    refine Acc.intro _ fun y hy => ?_
    cases hy with
    | expr hvar' hexpr' hasks =>
      cases hvar.symm.trans hvar'
      exact nomatch hexpr.symm.trans hexpr'
    | before _ _ => exact ih
  | value =>
    intro y hy
    exact nomatch hy
  | discriminant hv h ihv ih =>
    intro y hy
    cases hy with
    | here => exact ihv
    | after hv' hasks =>
      cases hv.unique hv'
      exact ih y hasks
  | layout hlen hv hcheck h ihv ih =>
    intro y hy
    cases hy with
    | layout hlt hbefore => exact ihv _ _ (List.getElem?_eq_getElem (hlen.symm ▸ hlt))
    | afterLayout hlen' hv' hcheck' hasks =>
      cases values_unique (hlen.trans hlen'.symm) hv hv'
      exact ih y hasks

/-- What depends on itself has no value, nor has what leads to it. -/
theorem Derives.not_circular {enm : E} {idx : Nat} {v : BitVec 128}
    (h : Derives arch enums (.variant enm idx v))
    {y : E × Nat} (hy : Relation.ReflTransGen (Asks arch enums) (enm, idx) y) :
    ¬ Circular arch enums y := by
  have hacc : Acc (fun y x => Asks arch enums x y) y := by
    have hstart : Acc (fun y x => Asks arch enums x y) (enm, idx) := h.ends
    induction hy with
    | refl => exact hstart
    | tail _ hstep ih => exact ih.inv hstep
  clear hy h
  induction hacc with
  | intro y _ ih =>
    intro hcirc
    obtain ⟨z, hyz, hzy⟩ := Relation.TransGen.head'_iff.1 hcirc
    exact ih z hyz (Relation.TransGen.tail'_iff.2 ⟨y, hzy, hyz⟩)

end Unique

/-! ## 3. What is recorded -/

theorem bind_ok {ε α β : Type} {x : Except ε α} {f : α → Except ε β} {b : β} (h : x >>= f = .ok b) :
    ∃ a, x = .ok a ∧ f a = .ok b := by
  cases x with
  | error e => exact nomatch h
  | ok a => exact ⟨a, rfl, h⟩

section Sound

variable {arch : TargetArch} {enums : E → HIREnum E} {s s' : State E} {enm : E} {idx : Nat}

/-- Nothing is forgotten. -/
structure Grows (s s' : State E) : Prop where
  known : ∀ e i, s.known e i = true → s'.known e i = true
  evaluated : ∀ e, s.evaluated e = true → s'.evaluated e = true

/-- All that is recorded is what it should be, and enums that are done have passed the check. -/
structure Agrees (arch : TargetArch) (enums : E → HIREnum E) (s : State E) : Prop where
  known : ∀ e i, s.known e i = true → Derives arch enums (.variant e i (s.slot e i))
  evaluated : ∀ e, s.evaluated e = true →
    (∀ i, i < (enums e).variants.length → s.known e i = true) ∧
      checkEnumDiscriminants enums e (s.values enums e) = .ok ()

theorem Grows.refl (s : State E) : Grows s s := ⟨fun _ _ h => h, fun _ h => h⟩

theorem Grows.trans {s'' : State E} (h : Grows s s') (h' : Grows s' s'') : Grows s s'' :=
  ⟨fun e i hi => h'.known e i (h.known e i hi), fun e he => h'.evaluated e (h.evaluated e he)⟩

/-- What a function that visits variants is to do, when it ends without an error. -/
def Sound (arch : TargetArch) (enums : E → HIREnum E)
    (variant : E → Nat → State E → Except (Stop E) (State E)) : Prop :=
  ∀ e i s s', Agrees arch enums s → variant e i s = .ok s' →
    Agrees arch enums s' ∧ Grows s s' ∧ s'.known e i = true

theorem values_get {s : State E} {i : Nat} {v : BitVec 128}
    (h : (s.values enums enm)[i]? = some v) :
    i < (enums enm).variants.length ∧ v = s.slot enm i := by
  rw [State.values, List.getElem?_map, Option.map_eq_some_iff] at h
  obtain ⟨j, hj, rfl⟩ := h
  obtain ⟨hlt, rfl⟩ := List.getElem?_eq_some_iff.1 hj
  rw [List.length_range] at hlt
  rw [List.getElem_range]
  exact ⟨hlt, rfl⟩

/-- The values of an enum all of whose variants are known. -/
theorem Agrees.values (h : Agrees arch enums s)
    (hall : ∀ i, i < (enums enm).variants.length → s.known enm i = true) :
    (s.values enums enm).length = (enums enm).variants.length ∧
      ∀ i v, (s.values enums enm)[i]? = some v → Derives arch enums (.variant enm i v) := by
  refine ⟨by rw [State.values, List.length_map, List.length_range], fun i v hv => ?_⟩
  obtain ⟨hlt, rfl⟩ := values_get hv
  exact h.known enm i (hall i hlt)

/-- Values are recorded once: what is recorded again is the same. -/
theorem Agrees.record [DecidableEq E] (h : Agrees arch enums s) {v : BitVec 128}
    (hv : Derives arch enums (.variant enm idx v)) :
    Agrees arch enums (s.record enm idx v) ∧ Grows s (s.record enm idx v) ∧
      (s.record enm idx v).known enm idx = true := by
  have hslot : ∀ e i, (s.record enm idx v).slot e i = if e = enm ∧
    i = idx then v else s.slot e i := by
    intro e i
    simp only [State.record, Function.update_apply]
    split
    · subst_vars
      simp only [Function.update_apply, true_and]
    · simp [*]
  have hknown : ∀ e i, (s.record enm idx v).known e i = if e = enm ∧
    i = idx then true else s.known e i := by
    intro e i
    simp only [State.record, Function.update_apply]
    split
    · subst_vars
      simp only [Function.update_apply, true_and]
    · simp [*]
  have hgrows : Grows s (s.record enm idx v) := by
    refine ⟨fun e i hi => ?_, fun e he => he⟩
    rw [hknown]
    split
    · rfl
    · exact hi
  refine ⟨⟨fun e i hi => ?_, fun e he => ?_⟩, hgrows, by rw [hknown, if_pos ⟨rfl, rfl⟩]⟩
  · rw [hslot]
    rw [hknown] at hi
    split
    · rename_i heq
      obtain ⟨rfl, rfl⟩ := heq
      exact hv
    · rename_i hne
      rw [if_neg hne] at hi
      exact h.known e i hi
  · obtain ⟨hall, hcheck⟩ := h.evaluated e he
    have hsame : (s.record enm idx v).values enums e = s.values enums e := by
      refine List.map_congr_left fun i hi => ?_
      rw [hslot]
      split
      · rename_i heq
        obtain ⟨rfl, rfl⟩ := heq
        exact (h.known e i (hall i (List.mem_range.1 hi))).unique hv
      · rfl
    rw [hsame]
    exact ⟨fun i hi => hgrows.known e i (hall i hi), hcheck⟩

variable {variant : E → Nat → State E → Except (Stop E) (State E)}

/-- All variants are visited, one after the other. -/
theorem visitAll_sound (hvariant : Sound arch enums variant) {l : List Nat}
    (h : Agrees arch enums s) (hok : l.foldlM (fun s idx => variant enm idx s) s = .ok s') :
    Agrees arch enums s' ∧ Grows s s' ∧ ∀ i ∈ l, s'.known enm i = true := by
  induction l generalizing s with
  | nil =>
    cases hok
    exact ⟨h, .refl _, nofun⟩
  | cons i l ih =>
    rw [List.foldlM_cons] at hok
    obtain ⟨t, ht, hok⟩ := bind_ok hok
    obtain ⟨hagrees, hgrows, hknown⟩ := hvariant enm i s t h ht
    obtain ⟨hagrees', hgrows', hknown'⟩ := ih hagrees hok
    refine ⟨hagrees', hgrows.trans hgrows', fun j hj => ?_⟩
    rcases List.mem_cons.1 hj with rfl | hj
    · exact hgrows'.known enm j hknown
    · exact hknown' j hj

variable [DecidableEq E]

theorem visitEnumWith_sound (hvariant : Sound arch enums variant) (h : Agrees arch enums s)
    (hok : visitEnumWith enums variant enm s = .ok s') :
    Agrees arch enums s' ∧ Grows s s' ∧ s'.evaluated enm = true := by
  rw [visitEnumWith] at hok
  by_cases hdone : s.evaluated enm = true
  · rw [if_pos hdone] at hok
    cases hok
    exact ⟨h, .refl s, hdone⟩
  · rw [if_neg hdone] at hok
    obtain ⟨t, ht, hok⟩ := bind_ok hok
    obtain ⟨⟨⟩, hcheck, hok⟩ := bind_ok hok
    cases hok
    obtain ⟨hagrees, hgrows, hknown⟩ := visitAll_sound hvariant h ht
    have hall : ∀ i, i < (enums enm).variants.length → t.known enm i = true :=
      fun i hi => hknown i (List.mem_range.2 hi)
    refine ⟨⟨hagrees.known, fun e he => ?_⟩, ⟨hgrows.known, fun e he => ?_⟩,
      Function.update_self ..⟩
    · by_cases heq : e = enm
      · subst heq
        exact ⟨hall, hcheck⟩
      · have hold : Function.update t.evaluated enm true e = true := he
        rw [Function.update_of_ne heq] at hold
        exact hagrees.evaluated e hold
    · by_cases heq : e = enm
      · subst heq
        exact Function.update_self ..
      · show Function.update t.evaluated enm true e = true
        rw [Function.update_of_ne heq]
        exact hgrows.evaluated e he

theorem evaluateConstant_sound (hvariant : Sound arch enums variant) {x : HIRExpr E} {literal : Nat}
    (h : Agrees arch enums s)
    (hok : evaluateConstant enums variant (visitEnumWith enums variant) x s = .ok (literal, s')) :
    Derives arch enums (.expr x literal) ∧ Agrees arch enums s' ∧ Grows s s' := by
  induction x generalizing s with
  | value l =>
    cases hok
    exact ⟨.value, h, .refl _⟩
  | fails => exact nomatch hok
  | discriminant enm idx k ih =>
    obtain ⟨t, ht, hok⟩ := bind_ok hok
    obtain ⟨hagrees, hgrows, hknown⟩ := hvariant enm idx s t h ht
    obtain ⟨hderives, hagrees', hgrows'⟩ := ih _ hagrees hok
    exact ⟨.discriminant (hagrees.known enm idx hknown) hderives, hagrees', hgrows.trans hgrows'⟩
  | layout enm k ih =>
    obtain ⟨t, ht, hok⟩ := bind_ok hok
    obtain ⟨hagrees, hgrows, hdone⟩ := visitEnumWith_sound hvariant h ht
    obtain ⟨hderives, hagrees', hgrows'⟩ := ih _ hagrees hok
    obtain ⟨hall, hcheck⟩ := hagrees.evaluated enm hdone
    obtain ⟨hlen, hvalues⟩ := hagrees.values hall
    exact ⟨.layout hlen hvalues hcheck hderives, hagrees', hgrows.trans hgrows'⟩

/-- A variant that has been visited is recorded, with its value. -/
theorem visitEnumVariant_sound : ∀ (fuel : Nat) (active : List (E × Nat)),
    Sound arch enums (visitEnumVariant arch enums fuel active) := by
  intro fuel
  induction fuel with
  | zero => exact fun active e i s s' _ hok => nomatch hok
  | succ fuel ih =>
    intro active e i s s' h hok
    rw [visitEnumVariant] at hok
    cases hvar : (enums e).variants[i]? with
    | none =>
      rw [hvar] at hok
      exact nomatch hok
    | some var =>
      simp only [hvar] at hok
      by_cases hdone : s.evaluated e = true
      · rw [if_pos hdone] at hok
        cases hok
        exact ⟨h, .refl s, (h.evaluated e hdone).1 i (List.getElem?_eq_some_iff.1 hvar).1⟩
      · rw [if_neg hdone] at hok
        by_cases hknown : s.known e i = true
        · rw [if_pos hknown] at hok
          cases hok
          exact ⟨h, .refl s, hknown⟩
        · rw [if_neg hknown] at hok
          by_cases hactive : (e, i) ∈ active
          · rw [if_pos hactive] at hok
            exact nomatch hok
          · rw [if_neg hactive] at hok
            cases hexpr : var.expr with
            | some x =>
              simp only [hexpr] at hok
              obtain ⟨⟨literal, t⟩, heval, hok⟩ := bind_ok hok
              cases hok
              obtain ⟨hderives, hagrees, hgrows⟩ := evaluateConstant_sound (ih _) h heval
              obtain ⟨hagrees', hgrows', hin⟩ := hagrees.record (.explicit hvar hexpr hderives)
              exact ⟨hagrees', hgrows.trans hgrows', hin⟩
            | none =>
              cases i with
              | zero =>
                simp only [hexpr] at hok
                cases hok
                exact h.record (.first hvar hexpr)
              | succ before =>
                simp only [hexpr] at hok
                obtain ⟨t, ht, hok⟩ := bind_ok hok
                cases hok
                obtain ⟨hagrees, hgrows, hin⟩ := ih _ e before s t h ht
                obtain ⟨hagrees', hgrows', hin'⟩ :=
                  hagrees.record (.next hvar hexpr (hagrees.known e before hin))
                exact ⟨hagrees', hgrows.trans hgrows', hin'⟩

end Sound

end Trustme.Discriminants
