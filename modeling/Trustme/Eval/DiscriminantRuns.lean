/-
  Subject:   When the discriminants of an enum are distinct values of its tag, and how circles end.

  * `Reached`: what is recorded after any visits, in any order;
  * `Right`: the discriminants are what Rust says;
  * `Passes`: an automatic discriminant comes after the maximum of the tag;
  * `Derives.visited`, `Circular.reported`: what has a value is visited without an error, and a
    variant that depends on itself is reported as a cycle;
  * `visitEnumInner_right`: without an error, they are right exactly when none passes the maximum;
  * `wrapped_wrong`: an `i8` with 127 and an automatic discriminant after it.
-/
import Trustme.Eval.Discriminants

namespace Trustme.Discriminants

open Metadata Eval

variable {E : Type}

/-! ## 1. Values of the tag -/

/-- A recorded value as a number. -/
def tagValue (r : Repr) (v : BitVec 128) : Int :=
  if enumTagIsSigned (getReprType r) then v.toInt else v.toNat

def tagMin (arch : TargetArch) (r : Repr) : Int :=
  if enumTagIsSigned (getReprType r) then -2 ^ (tagBits arch r - 1) else 0

def tagMax (arch : TargetArch) (r : Repr) : Int :=
  if enumTagIsSigned (getReprType r) then 2 ^ (tagBits arch r - 1) - 1 else 2 ^ tagBits arch r - 1

/-- A value of the tag. -/
def InRange (arch : TargetArch) (r : Repr) (v : BitVec 128) : Prop :=
  tagMin arch r ≤ tagValue r v ∧ tagValue r v ≤ tagMax arch r

section Tags

variable {arch : TargetArch} {r : Repr} {v : BitVec 128}

theorem tagBits_pos (arch : TargetArch) (r : Repr) : 0 < tagBits arch r := by
  have h := arch.pos
  cases r <;> simp [tagBits, h]

theorem tagBits_le (arch : TargetArch) (r : Repr) : tagBits arch r ≤ 128 := by
  have h := arch.le_u64
  cases r <;> simp only [tagBits] <;> omega

/-- The test of the sign bit. -/
theorem shift_ne_zero {bits : Nat} (hpos : 0 < bits) (hle : bits ≤ 128) (x : BitVec bits) :
    x.setWidth 128 >>> (bits - 1) ≠ 0 ↔ x.msb = true := by
  have hsplit : 2 ^ bits = 2 ^ (bits - 1) * 2 := by
    rw [← Nat.pow_succ, Nat.succ_eq_add_one, Nat.sub_add_cancel hpos]
  have hlt := x.isLt
  have hval : (x.setWidth 128 >>> (bits - 1)).toNat = x.toNat / 2 ^ (bits - 1) := by
    rw [BitVec.toNat_ushiftRight, BitVec.toNat_setWidth, Nat.shiftRight_eq_div_pow,
      Nat.mod_eq_of_lt]
    exact hlt.trans_le (Nat.pow_le_pow_right (by decide) hle)
  rw [BitVec.msb_eq_decide, decide_eq_true_eq, ← Nat.one_le_div_iff (Nat.two_pow_pos _), ← hval]
  constructor
  · intro hne
    by_contra hzero
    exact hne (BitVec.eq_of_toNat_eq (by simpa using hzero))
  · intro hone heq
    rw [heq] at hone
    exact absurd hone (by decide)

/-- `readSint` reads the two's complement. -/
theorem readSint_eq {bits literal : Nat} (hpos : 0 < bits) (hle : bits ≤ 128) :
    readSint bits literal = (BitVec.ofNat bits literal).signExtend 128 := by
  have hread : readUint bits literal = (BitVec.ofNat bits literal).setWidth 128 := by
    refine BitVec.eq_of_toNat_eq ?_
    rw [readUint, BitVec.toNat_setWidth, BitVec.toNat_ofNat, BitVec.toNat_ofNat]
  have hshift := shift_ne_zero hpos hle (BitVec.ofNat bits literal)
  rw [readSint]
  simp only [hread]
  generalize BitVec.ofNat bits literal = x at hshift
  by_cases hmsb : x.msb = true
  · by_cases hlt : bits < 128
    · rw [if_pos ⟨hlt, hshift.2 hmsb⟩]
      refine BitVec.eq_of_getLsbD_eq fun i hi => ?_
      rw [BitVec.getLsbD_or, BitVec.getLsbD_setWidth, BitVec.getLsbD_shiftLeft,
        BitVec.getLsbD_allOnes,
        BitVec.getLsbD_signExtend, hmsb]
      by_cases hib : i < bits
      · simp [hi, hib]
      · have hge : bits ≤ i := Nat.le_of_not_lt hib
        have hsub : i - bits < 128 := by omega
        simp [hi, hib, hsub]
    · cases Nat.le_antisymm hle (Nat.le_of_not_lt hlt)
      rw [if_neg (fun h => hlt h.1), BitVec.signExtend_eq, BitVec.setWidth_eq]
  · rw [if_neg (fun h => hmsb (hshift.1 h.2)),
      BitVec.signExtend_eq_setWidth_of_msb_false (by simpa using hmsb)]

/-- What is read of a literal is a value of the tag. -/
theorem readTag_inRange (arch : TargetArch) (r : Repr) (literal : Nat) :
    InRange arch r (readTag arch r literal) := by
  have hpos := tagBits_pos arch r
  have hle := tagBits_le arch r
  rw [InRange, tagMin, tagMax, tagValue, readTag]
  by_cases hsigned : enumTagIsSigned (getReprType r) = true
  · simp only [if_pos hsigned]
    rw [readSint_eq hpos hle, BitVec.toInt_signExtend_of_le hle]
    have hlt := (BitVec.ofNat (tagBits arch r) literal).toInt_lt
    have hge := (BitVec.ofNat (tagBits arch r) literal).le_toInt
    omega
  · simp only [if_neg hsigned]
    have hlt : literal % 2 ^ tagBits arch r < 2 ^ tagBits arch r := Nat.mod_lt _ (Nat.two_pow_pos _)
    have hpow : 2 ^ tagBits arch r ≤ 2 ^ 128 := Nat.pow_le_pow_right (by decide) hle
    have hval : (readUint (tagBits arch r) literal).toNat = literal % 2 ^ tagBits arch r := by
      rw [readUint, BitVec.toNat_ofNat, Nat.mod_eq_of_lt (hlt.trans_le hpow)]
    rw [hval]
    have hcast : ((literal % 2 ^ tagBits arch r : Nat) : Int) <
      ((2 ^ tagBits arch r : Nat) : Int) := by
      exact_mod_cast hlt
    push_cast at hcast ⊢
    omega

theorem zero_inRange (arch : TargetArch) (r : Repr) : InRange arch r 0 := by
  have hzero := readTag_inRange arch r 0
  have hread : readTag arch r 0 = 0 := by
    rw [readTag, readSint]
    have huint : readUint (tagBits arch r) 0 = 0 := by simp [readUint]
    simp [huint]
  rwa [hread] at hzero

/-- Below the maximum the next value is one more. -/
theorem tagValue_succ (h : InRange arch r v) (hmax : tagValue r v ≠ tagMax arch r) :
    tagValue r (v + 1) = tagValue r v + 1 := by
  have hle := tagBits_le arch r
  have hpos := tagBits_pos arch r
  have hlt : tagValue r v < tagMax arch r := lt_of_le_of_ne h.2 hmax
  rw [tagValue, tagMax] at hlt
  rw [tagValue, tagValue]
  by_cases hsigned : enumTagIsSigned (getReprType r) = true
  · simp only [if_pos hsigned] at hlt ⊢
    have hpow : (2 : Int) ^ (tagBits arch r - 1) ≤ 2 ^ 127 := by
      exact_mod_cast Nat.pow_le_pow_right (by decide : 0 < 2) (by omega : tagBits arch r - 1 ≤ 127)
    have hge := v.le_toInt
    have hone : (1 : BitVec 128).toInt = 1 := by decide
    rw [BitVec.toInt_add, hone]
    refine Int.bmod_eq_of_le ?_ ?_
    · norm_num at hge ⊢
      omega
    · norm_num at hpow ⊢
      omega
  · simp only [if_neg hsigned] at hlt ⊢
    have hpow : (2 : Int) ^ tagBits arch r ≤ 2 ^ 128 := by
      exact_mod_cast Nat.pow_le_pow_right (by decide : 0 < 2) hle
    have hv : v.toNat + 1 < 2 ^ 128 := by
      norm_num at hpow ⊢
      omega
    rw [BitVec.toNat_add_of_lt (by simpa using hv)]
    push_cast
    rfl

/-- The value at the width of the tag. -/
theorem tagValue_emod (arch : TargetArch) (r : Repr) (v : BitVec 128) :
    tagValue r v % 2 ^ tagBits arch r = ((v.setWidth (tagBits arch r)).toNat : Int) := by
  have hle := tagBits_le arch r
  have hdvd : (2 : Int) ^ tagBits arch r ∣ 2 ^ 128 := pow_dvd_pow 2 hle
  have hnat : ((v.setWidth (tagBits arch r)).toNat : Int) =
    (v.toNat : Int) % 2 ^ tagBits arch r := by
    rw [BitVec.toNat_setWidth]
    push_cast
    rfl
  rw [hnat, tagValue]
  by_cases hsigned : enumTagIsSigned (getReprType r) = true
  · rw [if_pos hsigned, BitVec.toInt_eq_toNat_cond]
    split
    · rfl
    · obtain ⟨k, hk⟩ := hdvd
      have hcast : ((2 ^ 128 : Nat) : Int) = 2 ^ tagBits arch r * k := by
        push_cast
        exact hk
      rw [hcast, Int.sub_mul_emod_self_left]
  · rw [if_neg hsigned]

/-- Values of the tag that differ do so at its width. -/
theorem eq_of_setWidth {v' : BitVec 128} (h : InRange arch r v) (h' : InRange arch r v')
    (heq : v.setWidth (tagBits arch r) = v'.setWidth (tagBits arch r)) : v = v' := by
  have hmod : tagValue r v % 2 ^ tagBits arch r = tagValue r v' % 2 ^ tagBits arch r := by
    rw [tagValue_emod, tagValue_emod, heq]
  have hwindow : tagMax arch r - tagMin arch r < 2 ^ tagBits arch r := by
    have hsplit : (2 : Int) ^ tagBits arch r = 2 ^ (tagBits arch r - 1) * 2 := by
      rw [← pow_succ, Nat.sub_add_cancel (tagBits_pos arch r)]
    rw [tagMax, tagMin]
    split <;> omega
  obtain ⟨hmin, hmax⟩ := h
  obtain ⟨hmin', hmax'⟩ := h'
  have hzero :=
    Int.eq_zero_of_abs_lt_dvd (Int.dvd_of_emod_eq_zero
    (Int.emod_eq_emod_iff_emod_sub_eq_zero.1 hmod))
    (abs_lt.2 ⟨by omega, by omega⟩)
  have hvalue : tagValue r v = tagValue r v' := by omega
  rw [tagValue, tagValue] at hvalue
  split at hvalue
  · exact BitVec.eq_of_toInt_eq hvalue
  · exact BitVec.eq_of_toNat_eq (by exact_mod_cast hvalue)

end Tags

/-! ## 2. Enums that are done -/

section Done

variable [DecidableEq E] (arch : TargetArch) (enums : E → HIREnum E)

/-- What is recorded after visits that have ended without an error, in any order; `active` is not
    empty where they are made within other ones. -/
inductive Reached : State E → Prop where
  | start : Reached ⟨fun _ _ => 0, fun _ _ => false, fun _ => false⟩
  | variant {s s' : State E} {fuel idx : Nat} {active : List (E × Nat)} {enm : E} (h : Reached s)
      (hok : visitEnumVariant arch enums fuel active enm idx s = .ok s') : Reached s'
  | inner {s s' : State E} {fuel : Nat} {active : List (E × Nat)} {enm : E} (h : Reached s)
      (hok : visitEnumInner arch enums fuel active enm s = .ok s') : Reached s'

/-- The recorded discriminants of an enum are what Rust says, and distinct values of its tag. -/
structure Right (s : State E) (enm : E) : Prop where
  explicit : ∀ i var x, (enums enm).variants[i]? = some var → var.expr = some x →
    ∃ literal, Derives arch enums (.expr x literal) ∧
      s.slot enm i = readTag arch (enums enm).tagRepr literal
  first : ∀ var, (enums enm).variants[0]? = some var → var.expr = none → s.slot enm 0 = 0
  next : ∀ i var, (enums enm).variants[i + 1]? = some var → var.expr = none →
    tagValue (enums enm).tagRepr (s.slot enm (i + 1)) =
      tagValue (enums enm).tagRepr (s.slot enm i) + 1
  range : ∀ i, i < (enums enm).variants.length → InRange arch (enums enm).tagRepr (s.slot enm i)
  distinct : ∀ i j, i < (enums enm).variants.length → j < (enums enm).variants.length → i ≠ j →
    (s.slot enm i).setWidth (tagBits arch (enums enm).tagRepr) ≠
      (s.slot enm j).setWidth (tagBits arch (enums enm).tagRepr)

/-- An automatic discriminant comes after the maximum of the tag. -/
def Passes (enm : E) : Prop :=
  ∃ i var v, (enums enm).variants[i + 1]? = some var ∧ var.expr = none ∧
    Derives arch enums (.variant enm i v) ∧
    tagValue (enums enm).tagRepr v = tagMax arch (enums enm).tagRepr

variable {arch enums}

theorem Reached.agrees {s : State E} (h : Reached arch enums s) : Agrees arch enums s := by
  induction h with
  | start => exact ⟨nofun, nofun⟩
  | @variant s s' fuel idx active enm _ hok ih =>
    exact (visitEnumVariant_sound fuel active enm idx s s' ih hok).1
  | @inner s s' fuel active enm _ hok ih =>
    exact (visitEnumWith_sound (visitEnumVariant_sound fuel active) ih hok).1

omit [DecidableEq E] in
/-- The check tells all values apart. -/
theorem checkFrom_nodup {max : Option (BitVec 128)} : ∀ {l : List (RcString × BitVec 128)}
    {seen : List (BitVec 128 × RcString)}, checkFrom (E := E) max seen l = .ok () →
      (l.map Prod.snd).Nodup ∧ ∀ x ∈ l, ∀ y ∈ seen, y.1 ≠ x.2
  | [], _, _ => ⟨List.nodup_nil, nofun⟩
  | (name, value) :: l, seen, h => by
    rw [checkFrom] at h
    split at h
    · exact nomatch h
    · split at h
      · exact nomatch h
      · rename_i hfind
        have hseen : ∀ y ∈ seen, y.1 ≠ value := fun y hy heq =>
          absurd (beq_iff_eq.2 heq) (List.find?_eq_none.1 hfind y hy)
        obtain ⟨hnodup, hapart⟩ := checkFrom_nodup h
        refine ⟨List.nodup_cons.2 ⟨fun hin => ?_, hnodup⟩, fun x hx y hy => ?_⟩
        · obtain ⟨x, hx, heq⟩ := List.mem_map.1 hin
          exact hapart x hx (value, name) (by simp) heq.symm
        · rcases List.mem_cons.1 hx with rfl | hx
          · exact hseen y hy
          · exact hapart x hx y (List.mem_append_left _ hy)

omit [DecidableEq E] in
/-- The values of an enum that has passed the check differ. -/
theorem check_distinct {s : State E} {enm : E}
    (h : checkEnumDiscriminants enums enm (s.values enums enm) = .ok ())
    {i j : Nat} (hi : i < (enums enm).variants.length) (hj : j < (enums enm).variants.length)
    (heq : s.slot enm i = s.slot enm j) : i = j := by
  have hnodup := (checkFrom_nodup h).1
  rw [List.map_snd_zip (by simp [State.values])] at hnodup
  have hget : ∀ k, k < (enums enm).variants.length → (s.values enums enm)[k]? =
    some (s.slot enm k) := by
    intro k hk
    rw [State.values, List.getElem?_map, List.getElem?_range hk]
    rfl
  have hlen : (s.values enums enm).length = (enums enm).variants.length := by simp [State.values]
  refine (List.getElem?_inj (hlen.symm ▸ hi) hnodup).1 ?_
  rw [hget i hi, hget j hj, heq]

section Recorded

omit [DecidableEq E]

variable {s : State E} {enm : E} {i : Nat} {var : Variant E}

variable (h : Agrees arch enums s) (hdone : s.evaluated enm = true)

include h hdone

/-- All variants of an enum that is done have their values. -/
theorem Agrees.derives
    (hi : i < (enums enm).variants.length) : Derives arch enums (.variant enm i (s.slot enm i)) :=
  h.known enm i ((h.evaluated enm hdone).1 i hi)

theorem Agrees.explicit
    (hvar : (enums enm).variants[i]? = some var) {x : HIRExpr E} (hexpr : var.expr = some x) :
    ∃ literal, Derives arch enums (.expr x literal) ∧
      s.slot enm i = readTag arch (enums enm).tagRepr literal := by
  have hderives := h.derives hdone (List.getElem?_eq_some_iff.1 hvar).1
  generalize s.slot enm i = v at hderives ⊢
  cases hderives with
  | explicit hvar' hexpr' hx =>
    cases hvar.symm.trans hvar'
    cases hexpr.symm.trans hexpr'
    exact ⟨_, hx, rfl⟩
  | first hvar' hexpr' =>
    cases hvar.symm.trans hvar'
    exact nomatch hexpr.symm.trans hexpr'
  | next hvar' hexpr' _ =>
    cases hvar.symm.trans hvar'
    exact nomatch hexpr.symm.trans hexpr'

theorem Agrees.first
    (hvar : (enums enm).variants[0]? = some var) (hexpr : var.expr = none) : s.slot enm 0 = 0 :=
  (Derives.first hvar hexpr).unique (h.derives hdone (List.getElem?_eq_some_iff.1 hvar).1)

theorem Agrees.next (hvar : (enums enm).variants[i + 1]? = some var) (hexpr : var.expr = none) :
    s.slot enm (i + 1) = s.slot enm i + 1 := by
  have hlt := (List.getElem?_eq_some_iff.1 hvar).1
  exact (Derives.next hvar hexpr (h.derives hdone (Nat.lt_of_succ_lt hlt))).unique
    (h.derives hdone hlt)

/-- Before an automatic discriminant there is not the maximum. -/
theorem Agrees.below_max (hpasses : ¬ Passes arch enums enm)
    (hvar : (enums enm).variants[i + 1]? = some var) (hexpr : var.expr = none) :
    tagValue (enums enm).tagRepr (s.slot enm i) ≠ tagMax arch (enums enm).tagRepr := fun hmax =>
  hpasses ⟨i, var, _, hvar, hexpr, h.derives hdone
    (Nat.lt_of_succ_lt (List.getElem?_eq_some_iff.1 hvar).1), hmax⟩

theorem Agrees.explicit_inRange
    (hvar : (enums enm).variants[i]? = some var) {x : HIRExpr E} (hexpr : var.expr = some x) :
    InRange arch (enums enm).tagRepr (s.slot enm i) := by
  obtain ⟨literal, -, heq⟩ := h.explicit hdone hvar hexpr
  rw [heq]
  exact readTag_inRange arch _ literal

/-- When none passes the maximum, all are values of the tag. -/
theorem Agrees.inRange (hpasses : ¬ Passes arch enums enm)
    (hi : i < (enums enm).variants.length) : InRange arch (enums enm).tagRepr (s.slot enm i) := by
  induction i with
  | zero =>
    have hvar := List.getElem?_eq_getElem hi
    cases hexpr : (enums enm).variants[0].expr with
    | some x => exact h.explicit_inRange hdone hvar hexpr
    | none =>
      rw [h.first hdone hvar hexpr]
      exact zero_inRange arch _
  | succ i ih =>
    have hvar := List.getElem?_eq_getElem hi
    cases hexpr : (enums enm).variants[i + 1].expr with
    | some x => exact h.explicit_inRange hdone hvar hexpr
    | none =>
      have hin := ih (Nat.lt_of_succ_lt hi)
      have hmax := h.below_max hdone hpasses hvar hexpr
      have hlt := lt_of_le_of_ne hin.2 hmax
      have hmin := hin.1
      rw [h.next hdone hvar hexpr, InRange, tagValue_succ hin hmax]
      exact ⟨by omega, by omega⟩

/-- The discriminants of an enum that is done are right exactly when none passes the maximum. -/
theorem Agrees.right_iff :
    Right arch enums s enm ↔ ¬ Passes arch enums enm := by
  constructor
  · rintro hright ⟨i, var, v, hvar, hexpr, hv, hmax⟩
    have hlt := (List.getElem?_eq_some_iff.1 hvar).1
    have hslot : s.slot enm i = v := hv.unique (h.derives hdone (Nat.lt_of_succ_lt hlt))
    have hrange := (hright.range (i + 1) hlt).2
    rw [hright.next i var hvar hexpr, hslot, hmax] at hrange
    omega
  · intro hpasses
    refine ⟨fun i var x hvar hexpr => h.explicit hdone hvar hexpr, fun var hvar hexpr =>
      h.first hdone hvar hexpr,
      fun i var hvar hexpr => ?_, fun i hi => h.inRange hdone hpasses hi,
        fun i j hi hj hij heq => ?_⟩
    · have hi := Nat.lt_of_succ_lt (List.getElem?_eq_some_iff.1 hvar).1
      rw [h.next hdone hvar hexpr]
      exact tagValue_succ (h.inRange hdone hpasses hi) (h.below_max hdone hpasses hvar hexpr)
    · have hslots := eq_of_setWidth (h.inRange hdone hpasses hi) (h.inRange hdone hpasses hj) heq
      exact hij (check_distinct (h.evaluated enm hdone).2 hi hj hslots)

end Recorded

end Done

/-! ## 3. Circles -/

section Circles

variable [DecidableEq E] {arch : TargetArch} {enums : E → HIREnum E}

/-- The variants that are being evaluated lead to `x`. -/
def Leads (arch : TargetArch) (enums : E → HIREnum E) (active : List (E × Nat))
    (x : E × Nat) : Prop :=
  ∀ a ∈ active, Relation.TransGen (Asks arch enums) a x

omit [DecidableEq E] in
theorem Leads.step {active : List (E × Nat)} {x y : E × Nat} (h : Leads arch enums active x)
    (hxy : Asks arch enums x y) : Leads arch enums (x :: active) y := by
  intro a ha
  rcases List.mem_cons.1 ha with rfl | ha
  · exact .single hxy
  · exact (h a ha).tail hxy

/-- With enough fuel, what has a value is visited without an error. -/
def Judgement.Visited (arch : TargetArch) (enums : E → HIREnum E) : Judgement E → Prop
  | .variant enm idx _ => ∃ n, ∀ fuel, n ≤ fuel → ∀ active s, Agrees arch enums s →
      Leads arch enums active (enm, idx) → ∃ s',
        visitEnumVariant arch enums fuel active enm idx s = .ok s'
  | .expr x literal => ∃ n, ∀ fuel, n ≤ fuel → ∀ active s, Agrees arch enums s →
      (∀ y, AsksFrom arch enums x y → Leads arch enums active y) →
      ∃ s', evaluateConstant enums (visitEnumVariant arch enums fuel active)
        (visitEnumWith enums (visitEnumVariant arch enums fuel active)) x s = .ok (literal, s')

variable {fuel idx : Nat} {active : List (E × Nat)} {s : State E} {var : Variant E}

/-- The variant is not recorded yet, nor is it being evaluated: its expression is evaluated. -/
theorem visitEnumVariant_explicit {enm : E} {x : HIRExpr E}
    (hvar : (enums enm).variants[idx]? = some var) (hexpr : var.expr = some x)
    (hdone : s.evaluated enm = false) (hknown : s.known enm idx = false)
    (hactive : (enm, idx) ∉ active) :
    visitEnumVariant arch enums (fuel + 1) active enm idx s =
      (evaluateConstant enums (visitEnumVariant arch enums fuel ((enm, idx) :: active))
        (visitEnumWith enums (visitEnumVariant arch enums fuel ((enm, idx) :: active))) x s >>=
          fun r =>
          .ok (r.2.record enm idx (readTag arch (enums enm).tagRepr r.1))) := by
  rw [visitEnumVariant]
  simp only [hvar, hdone, hknown, if_neg hactive, hexpr, Bool.false_eq_true, if_false]

theorem visitEnumVariant_next {enm : E} (hvar : (enums enm).variants[idx + 1]? = some var)
    (hexpr : var.expr = none) (hdone : s.evaluated enm = false)
    (hknown : s.known enm (idx + 1) = false) (hactive : (enm, idx + 1) ∉ active) :
    visitEnumVariant arch enums (fuel + 1) active enm (idx + 1) s =
      (visitEnumVariant arch enums fuel ((enm, idx + 1) :: active) enm idx s >>= fun s =>
        .ok (s.record enm (idx + 1) (s.slot enm idx + 1))) := by
  rw [visitEnumVariant]
  simp only [hvar, hdone, hknown, if_neg hactive, hexpr, Bool.false_eq_true, if_false]

/-- Either it is recorded, and the visit ends, or it is not. -/
theorem visitEnumVariant_recorded {enm : E} (hvar : (enums enm).variants[idx]? = some var) :
    (visitEnumVariant arch enums (fuel + 1) active enm idx s = .ok s) ∨
      s.evaluated enm = false ∧ s.known enm idx = false := by
  by_cases hdone : s.evaluated enm = true
  · refine .inl ?_
    rw [visitEnumVariant]
    simp only [hvar, if_pos hdone]
  · by_cases hknown : s.known enm idx = true
    · refine .inl ?_
      rw [visitEnumVariant]
      simp only [hvar, if_neg hdone, if_pos hknown]
    · exact .inr ⟨Bool.eq_false_iff.2 hdone, Bool.eq_false_iff.2 hknown⟩

omit [DecidableEq E] in
/-- All variants before one are visited, if each of them can be. -/
theorem visitAll_ok {variant : E → Nat → State E → Except (Stop E) (State E)}
    (hsound : Sound arch enums variant)
    {enm : E} : ∀ {l : List Nat} {s : State E}, Agrees arch enums s →
      (∀ i ∈ l, ∀ s, Agrees arch enums s → ∃ s', variant enm i s = .ok s') →
      ∃ s', l.foldlM (fun s idx => variant enm idx s) s = .ok s' ∧ Agrees arch enums s' ∧
        Grows s s' ∧
        ∀ i ∈ l, s'.known enm i = true
  | [], s, hs, _ => ⟨s, rfl, hs, .refl s, nofun⟩
  | i :: l, s, hs, h => by
    obtain ⟨t, ht⟩ := h i List.mem_cons_self s hs
    obtain ⟨hagrees, hgrows, hknown⟩ := hsound enm i s t hs ht
    obtain ⟨s', hs', hagrees', hgrows', hknown'⟩ :=
      visitAll_ok hsound hagrees fun j hj => h j (List.mem_cons_of_mem _ hj)
    refine ⟨s', ?_, hagrees', hgrows.trans hgrows', fun j hj => ?_⟩
    · rw [List.foldlM_cons, ht]
      exact hs'
    · rcases List.mem_cons.1 hj with rfl | hj
      · exact hgrows'.known enm j hknown
      · exact hknown' j hj

/-- For finitely many variants there is one bound. -/
theorem exists_bound {P : Nat → Nat → Prop} {m : Nat}
    (h : ∀ i, i < m → ∃ n, ∀ fuel, n ≤ fuel → P i fuel) :
    ∃ n, ∀ fuel, n ≤ fuel → ∀ i, i < m → P i fuel := by
  induction m with
  | zero => exact ⟨0, fun fuel _ i hi => absurd hi (Nat.not_lt_zero i)⟩
  | succ m ih =>
    obtain ⟨n, hn⟩ := ih fun i hi => h i (Nat.lt_succ_of_lt hi)
    obtain ⟨n', hn'⟩ := h m (Nat.lt_succ_self m)
    refine ⟨max n n', fun fuel hfuel i hi => ?_⟩
    rcases Nat.lt_succ_iff_lt_or_eq.1 hi with hlt | rfl
    · exact hn fuel ((Nat.le_max_left ..).trans hfuel) i hlt
    · exact hn' fuel ((Nat.le_max_right ..).trans hfuel)

/-- An enum whose variants can be visited, and whose values pass the check, can be visited. -/
theorem visitEnumWith_ok {variant : E → Nat → State E → Except (Stop E) (State E)}
    (hsound : Sound arch enums variant) {enm : E} {values : List (BitVec 128)}
    (hlen : values.length = (enums enm).variants.length)
    (hv : ∀ i v, values[i]? = some v → Derives arch enums (.variant enm i v))
    (hcheck : checkEnumDiscriminants enums enm values = .ok ()) (hs : Agrees arch enums s)
    (h : ∀ i, i < (enums enm).variants.length → ∀ s, Agrees arch enums s → ∃ s',
      variant enm i s = .ok s') :
    ∃ s', visitEnumWith enums variant enm s = .ok s' ∧ s'.values enums enm = values := by
  have hvalues : ∀ {t : State E}, Agrees arch enums t →
      (∀ i, i < (enums enm).variants.length → t.known enm i = true) →
        t.values enums enm = values := by
    intro t ht hall
    obtain ⟨htlen, htv⟩ := ht.values hall
    exact values_unique (hlen.trans htlen.symm) hv htv
  rw [visitEnumWith]
  by_cases hdone : s.evaluated enm = true
  · rw [if_pos hdone]
    exact ⟨s, rfl, hvalues hs (hs.evaluated enm hdone).1⟩
  · rw [if_neg hdone]
    obtain ⟨t, ht, hagrees, -, hknown⟩ := visitAll_ok hsound hs fun i hi =>
      h i (List.mem_range.1 hi)
    have heq := hvalues hagrees fun i hi => hknown i (List.mem_range.2 hi)
    refine ⟨{ t with evaluated := Function.update t.evaluated enm true }, ?_, heq⟩
    rw [ht]
    show (checkEnumDiscriminants enums enm (t.values enums enm) >>= fun _ => _) = _
    rw [heq, hcheck]
    rfl

theorem Derives.visited {j : Judgement E} (h : Derives arch enums j) : j.Visited arch enums := by
  induction h with
  | @explicit enm idx var x literal hvar hexpr h ih =>
    obtain ⟨n, hn⟩ := ih
    refine ⟨n + 1, fun fuel hfuel active s hs hactive => ?_⟩
    obtain ⟨fuel, rfl⟩ : ∃ m, fuel = m + 1 := ⟨fuel - 1, by omega⟩
    rcases visitEnumVariant_recorded hvar with hok | ⟨hdone, hknown⟩
    · exact ⟨s, hok⟩
    · have hnot : (enm, idx) ∉ active := fun hin =>
        (Derives.explicit hvar hexpr h).not_circular .refl (hactive _ hin)
      obtain ⟨s', hs'⟩ := hn fuel (by omega) ((enm, idx) :: active) s hs fun y hy =>
        hactive.step (.expr hvar hexpr hy)
      refine ⟨s'.record enm idx (readTag arch (enums enm).tagRepr literal), ?_⟩
      rw [visitEnumVariant_explicit hvar hexpr hdone hknown hnot, hs']
      rfl
  | @first enm var hvar hexpr =>
    refine ⟨1, fun fuel hfuel active s hs hactive => ?_⟩
    obtain ⟨fuel, rfl⟩ : ∃ m, fuel = m + 1 := ⟨fuel - 1, by omega⟩
    rcases visitEnumVariant_recorded hvar with hok | ⟨hdone, hknown⟩
    · exact ⟨s, hok⟩
    · have hnot : (enm, 0) ∉ active := fun hin =>
        (Derives.first hvar hexpr).not_circular .refl (hactive _ hin)
      refine ⟨s.record enm 0 0, ?_⟩
      rw [visitEnumVariant]
      simp only [hvar, hdone, hknown, if_neg hnot, hexpr, Bool.false_eq_true, if_false]
  | @next enm idx var v hvar hexpr h ih =>
    obtain ⟨n, hn⟩ := ih
    refine ⟨n + 1, fun fuel hfuel active s hs hactive => ?_⟩
    obtain ⟨fuel, rfl⟩ : ∃ m, fuel = m + 1 := ⟨fuel - 1, by omega⟩
    rcases visitEnumVariant_recorded hvar with hok | ⟨hdone, hknown⟩
    · exact ⟨s, hok⟩
    · have hnot : (enm, idx + 1) ∉ active := fun hin =>
        (Derives.next hvar hexpr h).not_circular .refl (hactive _ hin)
      obtain ⟨s', hs'⟩ := hn fuel (by omega) ((enm, idx + 1) :: active) s hs
        (hactive.step (.before hvar hexpr))
      refine ⟨s'.record enm (idx + 1) (s'.slot enm idx + 1), ?_⟩
      rw [visitEnumVariant_next hvar hexpr hdone hknown hnot, hs']
      rfl
  | value => exact ⟨0, fun fuel _ active s _ _ => ⟨s, rfl⟩⟩
  | @discriminant enm idx k v literal hv h ihv ih =>
    obtain ⟨n, hn⟩ := ihv
    obtain ⟨n', hn'⟩ := ih
    refine ⟨max n n', fun fuel hfuel active s hs hactive => ?_⟩
    obtain ⟨t, ht⟩ := hn fuel ((Nat.le_max_left ..).trans hfuel) active s hs (hactive _ .here)
    obtain ⟨hagrees, -, hknown⟩ := visitEnumVariant_sound fuel active enm idx s t hs ht
    have hslot : t.slot enm idx = v := hv.unique (hagrees.known enm idx hknown)
    obtain ⟨s', hs'⟩ := hn' fuel ((Nat.le_max_right ..).trans hfuel) active t hagrees fun y hy =>
      hactive y (.after hv hy)
    refine ⟨s', ?_⟩
    rw [evaluateConstant, ht, ← hs', ← hslot]
    rfl
  | @layout enm k values literal hlen hv hcheck h ihv ih =>
    obtain ⟨n, hn⟩ := exists_bound fun i (hi : i < (enums enm).variants.length) =>
      ihv i _ (List.getElem?_eq_getElem (hlen.symm ▸ hi))
    obtain ⟨n', hn'⟩ := ih
    refine ⟨max n n', fun fuel hfuel active s hs hactive => ?_⟩
    have hask : ∀ i, i < (enums enm).variants.length → Leads arch enums active (enm, i) :=
      fun i hi =>
      hactive _ (.layout hi fun j hj =>
        ⟨_, hv j _ (List.getElem?_eq_getElem (hlen.symm ▸ hj.trans hi))⟩)
    obtain ⟨t, ht, hvalues⟩ := visitEnumWith_ok (visitEnumVariant_sound fuel active) hlen
      hv hcheck hs
      fun i hi s hs => hn fuel ((Nat.le_max_left ..).trans hfuel) i hi active s hs (hask i hi)
    have hagrees := (visitEnumWith_sound (visitEnumVariant_sound fuel active) hs ht).1
    obtain ⟨s', hs'⟩ := hn' fuel ((Nat.le_max_right ..).trans hfuel) active t hagrees fun y hy =>
      hactive y (.afterLayout hlen hv hcheck hy)
    refine ⟨s', ?_⟩
    rw [evaluateConstant, ht, ← hs', ← hvalues]
    rfl

/-- With enough fuel, the visit of a variant gives the error that it depends on itself. -/
def Reports (arch : TargetArch) (enums : E → HIREnum E) (y x : E × Nat) : Prop :=
  ∃ n, ∀ fuel, n ≤ fuel → ∀ active s, Agrees arch enums s → y ∈ active → Leads arch enums active x →
    ∃ enm varName, visitEnumVariant arch enums fuel active x.1 x.2 s =
      .error (.error (.cycle enm varName))

/-- An expression that asks for it gives the same error. -/
theorem AsksFrom.reports {x : HIRExpr E} {y z : E × Nat} (h : AsksFrom arch enums x z)
    (hz : ∀ v, ¬ Derives arch enums (.variant z.1 z.2 v)) (hrep : Reports arch enums y z) :
    ∃ n, ∀ fuel, n ≤ fuel → ∀ active s, Agrees arch enums s → y ∈ active →
      (∀ w, AsksFrom arch enums x w → Leads arch enums active w) →
      ∃ enm varName, evaluateConstant enums (visitEnumVariant arch enums fuel active)
        (visitEnumWith enums (visitEnumVariant arch enums fuel active)) x s =
          .error (.error (.cycle enm varName)) := by
  induction h with
  | @here enm idx k =>
    obtain ⟨n, hn⟩ := hrep
    refine ⟨n, fun fuel hfuel active s hs hy hactive => ?_⟩
    obtain ⟨e, name, herr⟩ := hn fuel hfuel active s hs hy (hactive _ .here)
    refine ⟨e, name, ?_⟩
    rw [evaluateConstant, herr]
    rfl
  | @after enm idx k v z hv h ih =>
    obtain ⟨n, hn⟩ := hv.visited
    obtain ⟨n', hn'⟩ := ih hz hrep
    refine ⟨max n n', fun fuel hfuel active s hs hy hactive => ?_⟩
    obtain ⟨t, ht⟩ := hn fuel ((Nat.le_max_left ..).trans hfuel) active s hs (hactive _ .here)
    obtain ⟨hagrees, -, hknown⟩ := visitEnumVariant_sound fuel active enm idx s t hs ht
    have hslot : t.slot enm idx = v := hv.unique (hagrees.known enm idx hknown)
    obtain ⟨e, name, herr⟩ := hn' fuel ((Nat.le_max_right ..).trans hfuel) active t hagrees hy
      fun w hw =>
      hactive w (.after hv hw)
    refine ⟨e, name, ?_⟩
    rw [evaluateConstant, ht, ← herr, ← hslot]
    rfl
  | @layout enm idx k hlt hbefore =>
    obtain ⟨n, hn⟩ := exists_bound fun i (hi : i < idx) => (hbefore i hi).choose_spec.visited
    obtain ⟨n', hn'⟩ := hrep
    refine ⟨max n n', fun fuel hfuel active s hs hy hactive => ?_⟩
    have hask : ∀ i, i ≤ idx → Leads arch enums active (enm, i) := fun i hi =>
      hactive _ (.layout (Nat.lt_of_le_of_lt hi hlt) fun j hj =>
        hbefore j (Nat.lt_of_lt_of_le hj hi))
    obtain ⟨t, ht, hagrees, -, -⟩ := visitAll_ok (visitEnumVariant_sound fuel active) hs
      fun i (hi : i ∈ List.range idx) s hs =>
        hn fuel ((Nat.le_max_left ..).trans hfuel) i (List.mem_range.1 hi) active s hs
          (hask i (Nat.le_of_lt (List.mem_range.1 hi)))
    obtain ⟨e, name, herr⟩ := hn' fuel ((Nat.le_max_right ..).trans hfuel) active t hagrees hy
      (hask idx (Nat.le_refl _))
    refine ⟨e, name, ?_⟩
    have hdone : s.evaluated enm = false := by
      refine Bool.eq_false_iff.2 fun hdone => ?_
      exact hz _ (hs.known enm idx ((hs.evaluated enm hdone).1 idx hlt))
    have hlen : idx < (List.range (enums enm).variants.length).length := by rwa [List.length_range]
    rw [evaluateConstant, visitEnumWith, hdone,
      ← List.take_append_drop idx (List.range (enums enm).variants.length),
      List.drop_eq_getElem_cons hlen,
      List.getElem_range, List.take_range, Nat.min_eq_left (Nat.le_of_lt hlt),
        List.foldlM_append, ht]
    simp only [Bool.false_eq_true, if_false, List.foldlM_cons, bind, Except.bind, herr]
  | @afterLayout enm k values z hlen hv hcheck h ih =>
    obtain ⟨n, hn⟩ := exists_bound fun i (hi : i < (enums enm).variants.length) =>
      (hv i _ (List.getElem?_eq_getElem (hlen.symm ▸ hi))).visited
    obtain ⟨n', hn'⟩ := ih hz hrep
    refine ⟨max n n', fun fuel hfuel active s hs hy hactive => ?_⟩
    have hask : ∀ i, i < (enums enm).variants.length → Leads arch enums active (enm, i) :=
      fun i hi =>
      hactive _ (.layout hi fun j hj =>
        ⟨_, hv j _ (List.getElem?_eq_getElem (hlen.symm ▸ hj.trans hi))⟩)
    obtain ⟨t, ht, hvalues⟩ := visitEnumWith_ok (visitEnumVariant_sound fuel active) hlen
      hv hcheck hs
      fun i hi s hs => hn fuel ((Nat.le_max_left ..).trans hfuel) i hi active s hs (hask i hi)
    have hagrees := (visitEnumWith_sound (visitEnumVariant_sound fuel active) hs ht).1
    obtain ⟨e, name, herr⟩ := hn' fuel ((Nat.le_max_right ..).trans hfuel) active t hagrees hy
      fun w hw =>
      hactive w (.afterLayout hlen hv hcheck hw)
    refine ⟨e, name, ?_⟩
    rw [evaluateConstant, ht, ← herr, ← hvalues]
    rfl

theorem visitEnumVariant_cycle {enm : E} (hvar : (enums enm).variants[idx]? = some var)
    (hdone : s.evaluated enm = false) (hknown : s.known enm idx = false)
    (hactive : (enm, idx) ∈ active) :
    visitEnumVariant arch enums (fuel + 1) active enm idx s =
      .error (.error (.cycle enm var.name)) := by
  rw [visitEnumVariant]
  simp only [hvar, hdone, hknown, if_pos hactive, Bool.false_eq_true, if_false]

omit [DecidableEq E] in
/-- A variant without a value is not recorded. -/
theorem Agrees.unknown (hs : Agrees arch enums s) {x : E × Nat}
    (hx : ∀ v, ¬ Derives arch enums (.variant x.1 x.2 v))
    (hlt : x.2 < (enums x.1).variants.length) :
    s.evaluated x.1 = false ∧ s.known x.1 x.2 = false := by
  have hknown : s.known x.1 x.2 = false := Bool.eq_false_iff.2 fun h => hx _ (hs.known _ _ h)
  refine ⟨Bool.eq_false_iff.2 fun h => ?_, hknown⟩
  rw [(hs.evaluated _ h).1 _ hlt] at hknown
  exact nomatch hknown

omit [DecidableEq E] in
theorem Asks.exists_var {x y : E × Nat} (h : Asks arch enums x y) :
    ∃ var, (enums x.1).variants[x.2]? = some var := by
  cases h with
  | expr hvar _ _ => exact ⟨_, hvar⟩
  | before hvar _ => exact ⟨_, hvar⟩

/-- A variant that asks for one that gives the error gives it too, when it is not being
    evaluated. -/
theorem Asks.reports {x y z : E × Nat} (h : Asks arch enums x z)
    (hx : ∀ v, ¬ Derives arch enums (.variant x.1 x.2 v))
    (hz : ∀ v, ¬ Derives arch enums (.variant z.1 z.2 v)) (hrep : Reports arch enums y z) :
    ∃ n, ∀ fuel, n ≤ fuel → ∀ active s, Agrees arch enums s → y ∈ x :: active → x ∉ active →
      Leads arch enums active x →
      ∃ enm varName, visitEnumVariant arch enums fuel active x.1 x.2 s =
        .error (.error (.cycle enm varName)) := by
  cases h with
  | @expr enm idx var expr z hvar hexpr hasks =>
    obtain ⟨n, hn⟩ := hasks.reports hz hrep
    refine ⟨n + 1, fun fuel hfuel active s hs hy hactive hleads => ?_⟩
    obtain ⟨fuel, rfl⟩ : ∃ m, fuel = m + 1 := ⟨fuel - 1, by omega⟩
    obtain ⟨hdone, hknown⟩ := hs.unknown hx (List.getElem?_eq_some_iff.1 hvar).1
    obtain ⟨e, name, herr⟩ := hn fuel (by omega) ((enm, idx) :: active) s hs hy fun w hw =>
      hleads.step (.expr hvar hexpr hw)
    refine ⟨e, name, ?_⟩
    rw [visitEnumVariant_explicit hvar hexpr hdone hknown hactive, herr]
    rfl
  | @before enm idx var hvar hexpr =>
    obtain ⟨n, hn⟩ := hrep
    refine ⟨n + 1, fun fuel hfuel active s hs hy hactive hleads => ?_⟩
    obtain ⟨fuel, rfl⟩ : ∃ m, fuel = m + 1 := ⟨fuel - 1, by omega⟩
    obtain ⟨hdone, hknown⟩ := hs.unknown hx (List.getElem?_eq_some_iff.1 hvar).1
    obtain ⟨e, name, herr⟩ := hn fuel (by omega) ((enm, idx + 1) :: active) s hs hy
      (hleads.step (.before hvar hexpr))
    refine ⟨e, name, ?_⟩
    rw [visitEnumVariant_next hvar hexpr hdone hknown hactive, herr]
    rfl

/-- What leads to a variant that is being evaluated and depends on itself gives the error. -/
theorem Circular.reports {x y : E × Nat} (hy : Circular arch enums y)
    (h : Relation.ReflTransGen (Asks arch enums) x y) : Reports arch enums y x := by
  have hnone : ∀ {x}, Relation.ReflTransGen (Asks arch enums) x y → ∀ v,
    ¬ Derives arch enums (.variant x.1 x.2 v) :=
    fun hxy v hv => hv.not_circular hxy hy
  induction h using Relation.ReflTransGen.head_induction_on with
  | refl =>
    obtain ⟨z, hyz, -⟩ := Relation.TransGen.head'_iff.1 hy
    obtain ⟨var, hvar⟩ := hyz.exists_var
    refine ⟨1, fun fuel hfuel active s hs hin _ => ?_⟩
    obtain ⟨fuel, rfl⟩ : ∃ m, fuel = m + 1 := ⟨fuel - 1, by omega⟩
    obtain ⟨hdone, hknown⟩ := hs.unknown (hnone .refl) (List.getElem?_eq_some_iff.1 hvar).1
    exact ⟨_, _, visitEnumVariant_cycle hvar hdone hknown hin⟩
  | @head x z hxz hzy ih =>
    obtain ⟨var, hvar⟩ := hxz.exists_var
    have hx := hnone (hzy.head hxz)
    obtain ⟨n, hn⟩ := hxz.reports hx (hnone hzy) ih
    refine ⟨max n 1, fun fuel hfuel active s hs hin hleads => ?_⟩
    by_cases hactive : x ∈ active
    · obtain ⟨fuel, rfl⟩ : ∃ m, fuel = m + 1 := ⟨fuel - 1, by omega⟩
      obtain ⟨hdone, hknown⟩ := hs.unknown hx (List.getElem?_eq_some_iff.1 hvar).1
      exact ⟨_, _, visitEnumVariant_cycle hvar hdone hknown hactive⟩
    · exact hn fuel ((Nat.le_max_left ..).trans hfuel) active s hs (List.mem_cons_of_mem _ hin)
        hactive hleads

/-- A variant that depends on itself is reported, whatever has been recorded before. -/
theorem Circular.reported {x : E × Nat} (hx : Circular arch enums x) :
    ∃ n, ∀ fuel, n ≤ fuel → ∀ s, Agrees arch enums s →
      ∃ enm varName, visitEnumVariant arch enums fuel [] x.1 x.2 s =
        .error (.error (.cycle enm varName)) := by
  obtain ⟨z, hxz, hzx⟩ := Relation.TransGen.head'_iff.1 hx
  obtain ⟨n, hn⟩ := hxz.reports (fun v hv => hv.not_circular .refl hx)
    (fun v hv => hv.not_circular hzx hx)
    (hx.reports hzx)
  exact ⟨n, fun fuel hfuel s hs => hn fuel hfuel [] s hs List.mem_cons_self
    (List.not_mem_nil) nofun⟩

end Circles

/-! ## 4. The discriminants of an enum -/

/-- An enum that is visited without an error has the discriminants that it should have exactly when
    no automatic one passes the maximum of the tag; and a discriminant that depends on itself is
    reported. -/
theorem visitEnumInner_right :
    ∀ (E : Type) [DecidableEq E] (arch : TargetArch) (enums : E → HIREnum E),
      (∀ s fuel active enm s', Reached arch enums s →
        visitEnumInner arch enums fuel active enm s = .ok s' →
        (Right arch enums s' enm ↔ ¬ Passes arch enums enm)) ∧
      ∀ x, Circular arch enums x → ∃ n, ∀ fuel, n ≤ fuel → ∀ s, Reached arch enums s →
        ∃ enm varName, visitEnumVariant arch enums fuel [] x.1 x.2 s =
          .error (.error (.cycle enm varName)) := by
  intro E _ arch enums
  refine ⟨fun s fuel active enm s' hs hok => ?_, fun x hx => ?_⟩
  · obtain ⟨hagrees, -, hdone⟩ := visitEnumWith_sound (visitEnumVariant_sound fuel active)
      hs.agrees hok
    exact hagrees.right_iff hdone
  · obtain ⟨n, hn⟩ := hx.reported
    exact ⟨n, fun fuel hfuel s hs => hn fuel hfuel s hs.agrees⟩

def arch64 : TargetArch := wide

/-- `#[repr(i8)] enum { A = -128, B = 127, C }`. -/
def wrapped (_ : Unit) : HIREnum Unit :=
  ⟨.I8, [⟨"A".toList, some (.value 0x80)⟩, ⟨"B".toList, some (.value 0x7F)⟩, ⟨"C".toList, none⟩]⟩

/-- `C` is recorded as 128, which is -128 in the tag. -/
theorem wrapped_wrong :
    ∃ s', visitEnumInner arch64 wrapped 3 [] () ⟨fun _ _ => 0, fun _ _ => false, fun _ => false⟩ =
      .ok s' ∧
      s'.slot () 2 = 128 ∧ ¬ InRange arch64 .I8 (s'.slot () 2) ∧ ¬ Right arch64 wrapped s' () := by
  refine ⟨_, rfl, by decide, ?_, fun h => ?_⟩
  · rintro ⟨-, hmax⟩
    exact absurd hmax (by decide)
  · exact h.distinct 0 2 (by decide) (by decide) (by decide) (by decide)

/-- An enum with an explicit and an automatic discriminant, and one that asks for itself. -/
def plainAndCircular : Bool → HIREnum Bool
  | true => ⟨.I8, [⟨"A".toList, some (.value 5)⟩, ⟨"B".toList, none⟩]⟩
  | false => ⟨.Auto, [⟨"A".toList, some (.discriminant false 0 fun v => .value v.toNat)⟩]⟩

theorem plainAndCircular_right :
    (∃ s', visitEnumInner arch64 plainAndCircular 3 [] true ⟨fun _ _ => 0, fun _ _ => false,
      fun _ => false⟩ = .ok s' ∧
      (Right arch64 plainAndCircular s' true ↔ ¬ Passes arch64 plainAndCircular true)) ∧
      ∃ n, ∀ fuel, n ≤ fuel → ∃ enm varName,
        visitEnumVariant arch64 plainAndCircular fuel [] false 0 ⟨fun _ _ => 0, fun _ _ => false,
          fun _ => false⟩ =
          .error (.error (.cycle enm varName)) := by
  refine ⟨⟨_, rfl, (visitEnumInner_right Bool arch64 plainAndCircular).1 _ 3 [] true _ .start rfl⟩,
    ?_⟩
  have hcircular : Circular arch64 plainAndCircular (false, 0) := .single (.expr rfl rfl .here)
  obtain ⟨n, hn⟩ := (visitEnumInner_right Bool arch64 plainAndCircular).2 _ hcircular
  exact ⟨n, fun fuel hfuel => hn fuel hfuel _ .start⟩

end Trustme.Discriminants
