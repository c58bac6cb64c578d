/-
  Subject:   `accepts`, against the rules of semver.

  * `Comparator.rule`: what semver reads in a comparator;
  * `Comparator.Astray`: the code decides on a version otherwise than the rule;
  * `boundAccepts_iff`: just then;
  * `accepts_exact`: so a requirement is judged as semver judges it just under `Judged`.
-/
import Mathlib.Data.Nat.Digits.Defs
import Trustme.Cargo.Requirements

namespace Trustme.Cargo

open Std (TransCmp ReflCmp ReflOrd LawfulEqOrd)
open Trustme.Lib

/-! ## 1. What semver reads -/

/-- Without an operator it is `wildcard` if there is one, else `caret`. -/
def Comparator.ruleOp (c : Comparator) : BoundOp :=
  match c.op, c.written with
  | some op, _ => op.1
  | none, .short _ _ (_ :: _) => .wildcard
  | none, _ => .caret

def Comparator.rule (c : Comparator) : Rule :=
  match c.written with
  | .short major minor _ => ⟨c.ruleOp, number major, minor.map fun m => (number m : Int), none, []⟩
  | .full major minor patch pre _ =>
    ⟨c.ruleOp, number major, some (number minor), some (number patch), pre.getD []⟩

def Requirement.rules (r : Requirement) : List Rule := r.list.map Comparator.rule

/-- The parts that are written are those of the version. -/
def Rule.names (cmp : Rule) (ver : Version) : Prop :=
  ver.major = cmp.major ∧ same cmp.minor ver.minor ∧ same cmp.patch ver.patch

/-- A comparator and a version on which the code goes another way:

    * a partial one, of the parts of a pre-release;
    * one with an operator and a wildcard, since the operator is forgotten;
    * one with `x` for an identifier, and one with `=` and a dot in its texts;
    * one with a pre-release that misleads. -/
def Comparator.Astray (c : Comparator) (v : Version) : Prop :=
  match c.written with
  | .short _ _ [] =>
    c.ruleOp ∈ [.exact, .greaterEq, .lessEq, .tilde] ∧ c.rule.names v ∧ v.pre ≠ []
  | .short major minor (_ :: _) =>
    match c.ruleOp with
    | .greater => ¬ c.rule.ordered v .lt
    | .less => ¬ c.rule.ordered v .gt
    | .greaterEq => c.rule.ordered v .gt ∨ (c.rule.names v ∧ v.pre ≠ [])
    | .lessEq => c.rule.ordered v .lt ∨ (c.rule.names v ∧ v.pre ≠ [])
    | .caret => 0 < number major ∧ v.major = number major ∧ ∃ m ∈ minor, (number m : Int) < v.minor
    | _ => c.rule.names v ∧ v.pre ≠ []
  | .full major minor patch pre build =>
    (c.written.Hidden ∧ ¬ (v.major = number major ↔ c.rule.matchesImpl v)) ∨
    (¬ c.written.Hidden ∧ c.ruleOp = .exact ∧ 46 ∈ c.written.tail ∧ ¬ c.rule.matchesExact v) ∨
    (¬ c.written.Hidden ∧ c.ruleOp ≠ .exact ∧
      ¬ TextsTell v (versionOf [major, minor, patch] pre build))

/-! ## 2. Partial versions -/

/-- How a version is ordered by the parts that are written. -/
def Rule.partialOrder (cmp : Rule) (ver : Version) : Ordering :=
  (compare ver.major cmp.major).then (cmp.minor.elim .eq fun minor => compare ver.minor minor)

theorem partialOrder_names {cmp : Rule} (hpatch : cmp.patch = none) (v : Version) :
    cmp.names v ↔ cmp.partialOrder v = .eq := by
  rw [Rule.names, Rule.partialOrder, Ordering.then_eq_eq, compare_eq_iff_eq, hpatch]
  cases cmp.minor with
  | none => simp [Rule.same]
  | some minor => simp [Rule.same]

theorem partialOrder_ordered {cmp : Rule} (hpatch : cmp.patch = none) (v : Version) {o : Ordering}
    (ho : o ≠ .eq) :
    cmp.ordered v o ↔ cmp.partialOrder v = o := by
  rw [Rule.ordered, Rule.partialOrder, hpatch]
  by_cases hmajor : v.major = cmp.major
  · rw [if_neg (not_not.mpr hmajor), compare_eq_iff_eq.mpr hmajor, Ordering.eq_then]
    cases cmp.minor with
    | none => exact ⟨False.elim, fun h => ho h.symm⟩
    | some minor =>
      refine ⟨And.right, fun h => ⟨fun hminor => ?_, h⟩⟩
      have heq : compare v.minor minor = .eq := compare_eq_iff_eq.mpr hminor
      exact ho (h.symm.trans heq)
  · rw [if_pos hmajor]
    have hne : compare v.major cmp.major ≠ .eq := fun h => hmajor (compare_eq_iff_eq.mp h)
    cases hc : compare v.major cmp.major with
    | lt => rfl
    | gt => rfl
    | eq => exact absurd hc hne

/-- A rule without a patch, and the bound that the code has for it. -/
structure PartOf (cmp : Rule) (bound : VersionBound) : Prop where
  major : bound.version.major = cmp.major
  nonneg : 0 ≤ cmp.major
  patch : cmp.patch = none
  pre : cmp.pre = []
  parts : cmp.minor = none ∧ bound.parts = 1 ∨ cmp.minor = some bound.version.minor ∧
    bound.parts = 2

namespace PartOf

variable {cmp : Rule} {bound : VersionBound} (h : PartOf cmp bound) (v : Version)

include h

theorem compareToBound_eq : compareToBound v bound = cmp.partialOrder v := by
  have hparts : ¬ 3 ≤ bound.parts := by
    rcases h.parts with ⟨-, hparts⟩ | ⟨-, hparts⟩ <;> omega
  rw [compareToBound, if_neg hparts, h.major, Rule.partialOrder]
  rcases Int.lt_trichotomy v.major cmp.major with hlt | heq | hgt
  · rw [if_pos (by omega), if_pos hlt, compare_lt_iff_lt.mpr hlt, Ordering.lt_then]
  · rw [if_neg (by omega), compare_eq_iff_eq.mpr heq, Ordering.eq_then]
    rcases h.parts with ⟨hminor, hparts⟩ | ⟨hminor, hparts⟩
    · rw [if_neg (by omega), hminor]
      rfl
    · rw [hminor]
      change _ = compare v.minor bound.version.minor
      rcases Int.lt_trichotomy v.minor bound.version.minor with hlt | heq | hgt
      · rw [if_pos ⟨hparts, by omega⟩, if_pos hlt, compare_lt_iff_lt.mpr hlt]
      · rw [if_neg (by omega), compare_eq_iff_eq.mpr heq]
      · rw [if_pos ⟨hparts, by omega⟩, if_neg (by omega), compare_gt_iff_gt.mpr hgt]
  · rw [if_pos (by omega), if_neg (by omega), compare_gt_iff_gt.mpr hgt, Ordering.gt_then]

theorem names_iff : cmp.names v ↔
    v.major = bound.version.major ∧ (bound.parts = 2 → v.minor = bound.version.minor) := by
  rw [Rule.names, h.patch, h.major]
  rcases h.parts with ⟨hminor, hparts⟩ | ⟨hminor, hparts⟩
  · rw [hminor, hparts]
    simp [Rule.same]
  · rw [hminor, hparts]
    simp [Rule.same]

theorem matchesCaret_iff :
    cmp.matchesCaret v ↔ compareToBound v bound ≠ .lt ∧ compatible bound.version v bound.parts =
      true := by
  have hnonneg := h.nonneg
  rw [h.compareToBound_eq, Rule.matchesCaret, Rule.partialOrder, compatible, h.patch, h.major]
  rcases h.parts with ⟨hminor, hparts⟩ | ⟨hminor, hparts⟩
  · rw [hminor, if_pos hparts, decide_eq_true_iff]
    constructor
    · rintro ⟨hmajor, -⟩
      rw [compare_eq_iff_eq.mpr hmajor]
      exact ⟨Ordering.noConfusion, hmajor.symm⟩
    · exact fun hc => ⟨hc.2.symm, trivial⟩
  · rw [hminor, hparts, if_neg (by decide)]
    dsimp only [Option.elim_some]
    by_cases hzero : 0 < cmp.major
    · rw [if_pos hzero, if_pos (by omega), decide_eq_true_iff, eq_comm, and_comm]
      refine and_congr_left fun hmajor => ?_
      rw [compare_eq_iff_eq.mpr hmajor.symm, Ordering.eq_then, ne_eq, compare_lt_iff_lt, not_lt]
    · rw [if_neg hzero, if_neg (by omega), if_pos (Or.inl rfl), decide_eq_true_iff]
      have hmajor : cmp.major = 0 := by omega
      rw [hmajor]
      constructor
      · rintro ⟨hv, hminor⟩
        rw [compare_eq_iff_eq.mpr hv, compare_eq_iff_eq.mpr hminor]
        exact ⟨Ordering.noConfusion, hv, hminor.symm⟩
      · exact fun hc => ⟨hc.2.1, hc.2.2.symm⟩

/-- What the code takes. -/
theorem boundAccepts_iff : boundAccepts v bound = true ↔
    match bound.op with
    | .greater => cmp.partialOrder v = .gt
    | .greaterEq => cmp.partialOrder v ≠ .lt
    | .less => cmp.partialOrder v = .lt
    | .lessEq => cmp.partialOrder v ≠ .gt
    | .caret => cmp.matchesCaret v
    | _ => cmp.names v := by
  have hnames := h.names_iff v
  have horder := h.compareToBound_eq v
  have hparts : bound.parts = 1 ∨ bound.parts = 2 := h.parts.imp And.right And.right
  have hlt : cmp.names v → compareToBound v bound ≠ .lt := by
    intro hn
    rw [horder, (partialOrder_names h.patch v).mp hn]
    exact Ordering.noConfusion
  unfold boundAccepts
  dsimp only
  cases bound.op with
  | greater => rw [decide_eq_true_iff, horder]
  | greaterEq => rw [decide_eq_true_iff, horder]
  | less => rw [decide_eq_true_iff, horder]
  | lessEq => rw [decide_eq_true_iff, horder]
  | caret => rw [Bool.and_eq_true_iff, decide_eq_true_iff, h.matchesCaret_iff]
  | exact =>
    rw [Bool.not_eq_true', decide_eq_false_iff_not, hnames]
    rcases hparts with hparts | hparts <;> simp [hparts]
  | wildcard =>
    rw [Bool.not_eq_true', decide_eq_false_iff_not, hnames]
    rcases hparts with hparts | hparts <;> simp [hparts]
  | tilde =>
    rw [Bool.not_eq_true', decide_eq_false_iff_not]
    constructor
    · intro hnot
      rw [hnames]
      rcases hparts with hparts | hparts <;> simp [hparts] at hnot ⊢ <;> exact hnot.2
    · intro hn
      have hlt := hlt hn
      rw [hnames] at hn
      rcases hparts with hparts | hparts <;> simp [hparts, hlt] at hn ⊢ <;> exact hn

/-- What the rule takes. -/
theorem matchesImpl_iff : cmp.matchesImpl v ↔
    match cmp.op with
    | .greater => cmp.partialOrder v = .gt
    | .greaterEq => (cmp.names v ∧ v.pre = []) ∨ cmp.partialOrder v = .gt
    | .less => cmp.partialOrder v = .lt
    | .lessEq => (cmp.names v ∧ v.pre = []) ∨ cmp.partialOrder v = .lt
    | .caret => cmp.matchesCaret v
    | _ => cmp.names v ∧ v.pre = [] := by
  have hexact : cmp.matchesExact v ↔ cmp.names v ∧ v.pre = [] := by
    rw [Rule.matchesExact, Rule.names, h.pre, and_assoc, and_assoc]
  have hgt := partialOrder_ordered h.patch v (o := .gt) Ordering.noConfusion
  have hlt := partialOrder_ordered h.patch v (o := .lt) Ordering.noConfusion
  unfold Rule.matchesImpl
  cases cmp.op with
  | exact => exact hexact
  | wildcard => exact hexact
  | greater => exact hgt
  | greaterEq => exact or_congr hexact hgt
  | less => exact hlt
  | lessEq => exact or_congr hexact hlt
  | caret => exact Iff.rfl
  | tilde =>
    have hpre : comparePre v.pre [] ≠ .lt ↔ v.pre = [] := by
      by_cases hv : v.pre = [] <;> simp [comparePre, hv]
    dsimp only
    rw [Rule.matchesTilde, Rule.names, h.patch, h.pre, hpre]
    simp [Rule.same, and_assoc]

end PartOf

variable {bound : VersionBound}

/-- A comparator that leaves numbers out. -/
theorem boundAccepts_short {c : Comparator} (hc : c.WellFormed) {major : Str} {minor : Option Str}
    {wilds : List Str} (hw : c.written = .short major minor wilds) (hb : c.IsBound bound)
    (v : Version) :
    (boundAccepts v bound = true ↔ c.rule.matchesImpl v) ↔ ¬ c.Astray v := by
  rw [Comparator.IsBound, hw] at hb
  dsimp only at hb
  have hrule : c.rule = ⟨c.ruleOp, number major, minor.map fun m => (number m : Int),
    none, []⟩ := by
    rw [Comparator.rule, hw]
  have hpart : PartOf c.rule bound := by
    rw [hrule, hb]
    cases minor with
    | none => exact ⟨rfl, Int.natCast_nonneg _, rfl, rfl, .inl ⟨rfl, rfl⟩⟩
    | some m => exact ⟨rfl, Int.natCast_nonneg _, rfl, rfl, .inr ⟨rfl, rfl⟩⟩
  have hop : c.rule.op = c.ruleOp := by rw [hrule]
  have hnames := partialOrder_names hpart.patch v
  have hgt := partialOrder_ordered hpart.patch v (o := .gt) Ordering.noConfusion
  have hlt := partialOrder_ordered hpart.patch v (o := .lt) Ordering.noConfusion
  rw [hpart.boundAccepts_iff, hpart.matchesImpl_iff, hop, Comparator.Astray, hw]
  cases wilds with
  | nil =>
    have hbound : bound.op = c.ruleOp := by
      rw [hb, Comparator.boundOp, Comparator.ruleOp, hw]
      cases c.op <;> rfl
    have hwild : c.ruleOp ≠ .wildcard := by
      rw [Comparator.ruleOp, hw]
      cases hcop : c.op with
      | none => exact BoundOp.noConfusion
      | some op => exact hc.1 op hcop
    rw [hbound]
    dsimp only
    cases hro : c.ruleOp with
    | wildcard => exact absurd hro hwild
    | caret => simp
    | _ =>
      dsimp only
      rw [hnames]
      cases c.rule.partialOrder v <;> simp
  | cons w wilds =>
    have hbound : bound.op = .wildcard := by
      rw [hb]
      exact if_neg (c := w :: wilds = []) (t := c.boundOp) (List.cons_ne_nil w wilds)
    rw [hbound]
    dsimp only
    cases hro : c.ruleOp with
    | caret =>
      dsimp only
      rw [hrule, Rule.names, Rule.matchesCaret]
      cases minor with
      | none => simp [Rule.same]
      | some m =>
        simp only [Option.map_some, Rule.same, Option.mem_def, Option.some.injEq, forall_eq',
          reduceCtorEq,
          IsEmpty.forall_iff, implies_true, and_true, exists_eq_left']
        split_ifs with hzero
        · omega
        · omega
    | _ =>
      dsimp only
      simp only [hnames, hgt, hlt]
      cases c.rule.partialOrder v <;> simp

/-! ## 3. Equal pre-releases -/

/-- The digits of a numeral, the last first. -/
def digitsOf (x : Str) : List Nat := x.reverse.map fun b => b.val - 48

theorem number_ofDigits (x : Str) : number x = Nat.ofDigits 10 (digitsOf x) := by
  induction x using List.reverseRecOn with
  | nil => rfl
  | append_singleton x b ih =>
    rw [digitsOf, List.reverse_append, List.reverse_singleton, List.singleton_append, List.map_cons,
      Nat.ofDigits_cons, number, List.foldl_append]
    change 10 * number x + (b.val - 48) = _
    rw [ih, digitsOf]
    omega

theorem digit_val : ∀ b : Byte, isDigit b = true →
    b.val - 48 < 10 ∧ (b.val - 48 = 0 → b = 48) ∧ Fin.ofNat 256 (b.val - 48 + 48) = b := by
      decide +kernel

theorem digitsOf_inj {x y : Str} (hx : ∀ b ∈ x, isDigit b = true) (hy : ∀ b ∈ y, isDigit b = true)
    (h : digitsOf x = digitsOf y) : x = y := by
  have hback : ∀ z : Str, (∀ b ∈ z, isDigit b = true) →
      (digitsOf z).map (fun d => (Fin.ofNat 256 (d + 48) : Byte)) = z.reverse := by
    intro z hz
    rw [digitsOf, List.map_map]
    refine (List.map_congr_left fun b hb => ?_).trans (List.map_id _)
    exact (digit_val b (hz b (List.mem_reverse.mp hb))).2.2
  have hreverse := (hback x hx).symm.trans ((congrArg _ h).trans (hback y hy))
  exact List.reverse_injective hreverse

/-- A numeral that does not begin with a zero has the digits of its number. -/
theorem digits_number {x : Str} (hx : isNumeric x = true) (hfirst : x.head? ≠ some 48) :
    Nat.digits 10 (number x) = digitsOf x := by
  obtain ⟨hne, hdigits⟩ := numeric_bytes hx
  rw [number_ofDigits]
  refine Nat.digits_ofDigits 10 (by norm_num) _ (fun d hd => ?_) fun hnil => ?_
  · obtain ⟨b, hb, rfl⟩ := List.mem_map.mp hd
    exact (digit_val b (hdigits b (List.mem_reverse.mp hb))).1
  · obtain ⟨b, t, rfl⟩ := List.exists_cons_of_ne_nil hne
    simp only [digitsOf, List.reverse_cons, List.map_append, List.map_cons, List.map_nil,
      List.getLast_append_singleton]
    intro hzero
    exact hfirst (congrArg some ((digit_val b (hdigits b List.mem_cons_self)).2.1 hzero))

theorem number_inj {x y : Str} (hx : isNumeric x = true) (hy : isNumeric y = true)
    (hcx : Canonical x)
    (hcy : Canonical y) (h : number x = number y) : x = y := by
  -- a numeral with the number of zero is zero
  have hzero : ∀ z : Str, isNumeric z = true → Canonical z → number z = 0 → z = [48] := by
    intro z hz hcz hnum
    by_contra hne
    have hdigits := digits_number hz fun hfirst => hne (hcz hz hfirst)
    rw [hnum, Nat.digits_zero, digitsOf] at hdigits
    exact (numeric_bytes hz).1 (List.reverse_eq_nil_iff.mp (List.map_eq_nil_iff.mp hdigits.symm))
  by_cases hx0 : x = [48]
  · rw [hx0]
    rw [hx0] at h
    exact (hzero y hy hcy h.symm).symm
  · by_cases hy0 : y = [48]
    · rw [hy0] at h
      exact absurd (hzero x hx hcx h) hx0
    · refine digitsOf_inj (numeric_bytes hx).2 (numeric_bytes hy).2 ?_
      rw [← digits_number hx fun hfirst => hx0 (hcx hx hfirst), h,
        digits_number hy fun hfirst => hy0 (hcy hy hfirst)]

theorem compareIdentifier_eq {x y : Str} (hx : Canonical x) (hy : Canonical y)
    (h : compareIdentifier x y = .eq) : x = y := by
  unfold compareIdentifier at h
  cases hnx : isNumeric x with
  | true =>
    cases hny : isNumeric y with
    | true =>
      rw [hnx, hny] at h
      exact number_inj hnx hny hx hy (compare_eq_iff_eq.mp h)
    | false =>
      rw [hnx, hny] at h
      cases h
  | false =>
    cases hny : isNumeric y with
    | true =>
      rw [hnx, hny] at h
      cases h
    | false =>
      rw [hnx, hny] at h
      exact LawfulEqOrd.eq_of_compare h

/-- What semver reads as a pre-release; none is empty. -/
def PreRelease (s : Str) : Prop := s = [] ∨ PreText s

theorem comparePre_eq {p q : Str} (hp : PreRelease p) (hq : PreRelease q)
    (h : comparePre p q = .eq) : p = q := by
  have hlist : ∀ xs ys : List Str, (∀ x ∈ xs, Canonical x) → (∀ y ∈ ys, Canonical y) →
      List.compareLex compareIdentifier xs ys = .eq → xs = ys := by
    intro xs
    induction xs with
    | nil =>
      intro ys _ _ h
      cases ys with
      | nil => rfl
      | cons y ys => cases h
    | cons x xs ih =>
      intro ys hxs hys h
      cases ys with
      | nil => cases h
      | cons y ys =>
        rw [List.compareLex_cons_cons, Ordering.then_eq_eq] at h
        rw [compareIdentifier_eq (hxs x List.mem_cons_self) (hys y List.mem_cons_self) h.1,
          ih ys (fun z hz => hxs z (List.mem_cons_of_mem x hz))
            (fun z hz => hys z (List.mem_cons_of_mem y hz)) h.2]
  unfold comparePre at h
  split_ifs at h with hboth hleft hright
  · exact hboth.1.trans hboth.2.symm
  · have hsplit := hlist _ _ (fun x hx => (hp.resolve_left hleft x hx).2)
      (fun y hy => (hq.resolve_left hright y hy).2) h
    have hjoin : ∀ s : Str, join 46 (identifiers s) = s := join_split
    rw [← hjoin p, ← hjoin q, hsplit]

/-! ## 4. Full versions -/

/-- What an operator makes of how a version is ordered to the one that is written. -/
def Verdict (op : BoundOp) (base v : Version) (o : Ordering) : Prop :=
  match op with
  | .exact => o = .eq
  | .greater => o = .gt
  | .greaterEq => o ≠ .lt
  | .less => o = .lt
  | .lessEq => o ≠ .gt
  | .tilde => o ≠ .lt ∧ v.major = base.major ∧ v.minor = base.minor
  | .caret => o ≠ .lt ∧ compatible base v 3 = true
  | .wildcard => v.major = base.major

theorem boundAccepts_verdict (hparts : 3 ≤ bound.parts) (hop : bound.op = .exact → bound.parts = 3)
    (v : Version) :
    boundAccepts v bound = true ↔ Verdict bound.op bound.version v
      (compareVersion v bound.version) := by
  have hcmp : compareToBound v bound = compareVersion v bound.version := by
    rw [compareToBound, if_pos hparts]
  have hne : bound.parts ≠ 1 ∧ bound.parts ≠ 2 := by omega
  unfold boundAccepts Verdict
  dsimp only
  rw [hcmp]
  cases hbop : bound.op with
  | exact => simp [hop hbop]
  | greater => exact decide_eq_true_iff
  | greaterEq => exact decide_eq_true_iff
  | less => exact decide_eq_true_iff
  | lessEq => exact decide_eq_true_iff
  | wildcard => simp [hne]
  | tilde =>
    have hone : 1 < bound.parts := by omega
    simp [hone]
  | caret =>
    rw [Bool.and_eq_true_iff, decide_eq_true_iff]
    dsimp only
    simp [compatible, hne]

/-- Numbers that differ decide. -/
theorem then_iff (x y : Int) (r o : Ordering) :
    (compare x y).then r = o ↔ if x ≠ y then compare x y = o else r = o := by
  by_cases hxy : x = y
  · rw [if_neg (not_not.mpr hxy), compare_eq_iff_eq.mpr hxy, Ordering.eq_then]
  · rw [if_pos hxy]
    cases hc : compare x y with
    | eq => exact absurd (compare_eq_iff_eq.mp hc) hxy
    | lt => rfl
    | gt => rfl

theorem precedence_iff (v base : Version) (o : Ordering) : precedence v base = o ↔
    if v.major ≠ base.major then compare v.major base.major = o
    else if v.minor ≠ base.minor then compare v.minor base.minor = o
    else if v.patch ≠ base.patch then compare v.patch base.patch = o
    else comparePre v.pre base.pre = o := by
  rw [precedence, compareCore, Ordering.then_assoc, Ordering.then_assoc, then_iff,
    then_iff, then_iff]

/-- The rule of a full version. -/
def fullRule (op : BoundOp) (base : Version) : Rule :=
  ⟨op, base.major, some base.minor, some base.patch, base.pre⟩

section Full

variable {base v : Version} (hbase : PreRelease base.pre) (hv : PreRelease v.pre)

theorem ordered_full (op : BoundOp) (o : Ordering) :
    (fullRule op base).ordered v o ↔ precedence v base = o := by
  rw [precedence_iff]
  rfl

include hbase hv in
theorem matchesExact_full (op : BoundOp) :
    (fullRule op base).matchesExact v ↔ precedence v base = .eq := by
  have hpre : v.pre = base.pre ↔ comparePre v.pre base.pre = .eq :=
    ⟨fun h => h ▸ ReflCmp.compare_self, comparePre_eq hv hbase⟩
  rw [Rule.matchesExact, precedence, compareCore, Ordering.then_eq_eq, Ordering.then_eq_eq,
    Ordering.then_eq_eq,
    compare_eq_iff_eq, compare_eq_iff_eq, compare_eq_iff_eq, ← hpre]
  simp [fullRule, Rule.same, and_assoc]

theorem not_lt_iff (v base : Version) : precedence v base ≠ .lt ↔
    if v.major ≠ base.major then v.major > base.major
    else if v.minor ≠ base.minor then v.minor > base.minor
    else if v.patch ≠ base.patch then v.patch > base.patch
    else comparePre v.pre base.pre ≠ .lt := by
  have hlt : ∀ x y : Int, x ≠ y → (¬ compare x y = .lt ↔ x > y) := by
    intro x y hxy
    rw [compare_lt_iff_lt]
    omega
  rw [ne_eq, precedence_iff]
  split_ifs with hmajor hminor hpatch
  · exact hlt _ _ hmajor
  · exact hlt _ _ hminor
  · exact hlt _ _ hpatch
  · exact Iff.rfl

include hbase hv in
theorem matchesImpl_full {op : BoundOp} (hop : op ≠ .wildcard) (hmajor : 0 ≤ base.major)
    (hminor : 0 ≤ base.minor) :
    (fullRule op base).matchesImpl v ↔ Verdict op base v (precedence v base) := by
  have hexact := matchesExact_full hbase hv op
  have hordered : ∀ o, (fullRule op base).ordered v o ↔ precedence v base = o := ordered_full op
  have hlt := not_lt_iff v base
  unfold Rule.matchesImpl Verdict
  cases op with
  | wildcard => exact absurd rfl hop
  | exact => exact hexact
  | greater => exact hordered .gt
  | less => exact hordered .lt
  | greaterEq =>
    refine (or_congr hexact (hordered .gt)).trans ?_
    cases precedence v base <;> simp
  | lessEq =>
    refine (or_congr hexact (hordered .lt)).trans ?_
    cases precedence v base <;> simp
  | tilde =>
    dsimp only [fullRule, Rule.matchesTilde]
    rw [hlt]
    generalize (comparePre v.pre base.pre ≠ .lt) = notBelow
    simp only [Rule.same, Option.mem_def, Option.some.injEq, forall_eq']
    constructor
    · rintro ⟨hM, hm, hrest⟩
      rw [if_neg (not_not.mpr hM), if_neg (not_not.mpr hm)]
      exact ⟨hrest, hM, hm⟩
    · rintro ⟨hrest, hM, hm⟩
      rw [if_neg (not_not.mpr hM), if_neg (not_not.mpr hm)] at hrest
      exact ⟨hM, hm, hrest⟩
  | caret =>
    dsimp only [fullRule, Rule.matchesCaret]
    rw [hlt]
    generalize (comparePre v.pre base.pre ≠ .lt) = notBelow
    unfold compatible
    grind

theorem same_of_core (h : compareCore v base = .eq) :
    v.major = base.major ∧ v.minor = base.minor ∧ v.patch = base.patch := by
  rw [compareCore, Ordering.then_eq_eq, Ordering.then_eq_eq, compare_eq_iff_eq, compare_eq_iff_eq,
    compare_eq_iff_eq] at h
  exact h

/-- Where the numbers are the same, above and below are told apart. -/
theorem verdict_differs {op : BoundOp} (hexact : op ≠ .exact) (hwild : op ≠ .wildcard)
    (hcore : compareCore v base = .eq) {o o' : Ordering} (ho : o ≠ .eq) (ho' : o' ≠ .eq)
      (hne : o ≠ o') :
    ¬ (Verdict op base v o ↔ Verdict op base v o') := by
  obtain ⟨hM, hm, hp⟩ := same_of_core hcore
  have hcompatible : compatible base v 3 = true := by
    unfold compatible
    rw [hM, hm, hp]
    simp only [decide_true, and_true]
    split_ifs with hone hmajor hminor
    · rfl
    · rfl
    · exact decide_eq_true (not_not.mp hmajor)
    · exact decide_eq_true ⟨not_not.mp hmajor, not_not.mp fun h => hminor (.inr h)⟩
  unfold Verdict
  cases op with
  | exact => exact absurd rfl hexact
  | wildcard => exact absurd rfl hwild
  | _ =>
    dsimp only
    cases o <;> cases o' <;> simp [hM, hm, hcompatible] at ho ho' hne ⊢

theorem comparePreText_eq {p q : Str} : comparePreText p q = .eq ↔ p = q := by
  unfold comparePreText
  split_ifs with hpq hp hq
  · exact ⟨fun _ => hpq, fun _ => rfl⟩
  · exact ⟨False.elim, fun h => absurd h hpq⟩
  · exact ⟨False.elim, fun h => absurd h hpq⟩
  · exact ⟨fun h => LawfulEqOrd.eq_of_compare h, fun h => absurd h hpq⟩

include hbase hv in
theorem compareVersion_precedence : compareVersion v base = .eq ↔ precedence v base = .eq := by
  rw [compareVersion_eq, precedence, Ordering.then_eq_eq, Ordering.then_eq_eq, comparePreText_eq]
  refine and_congr_right fun _ => ⟨fun h => ?_, comparePre_eq hv hbase⟩
  rw [h]
  exact ReflCmp.compare_self

end Full

/-- A comparator with all numbers. -/
theorem boundAccepts_full {c : Comparator} (hc : c.WellFormed) {major minor patch : Str}
    {pre build : Option Str} (hw : c.written = .full major minor patch pre build)
    (hb : c.IsBound bound) {v : Version}
    (hv : PreRelease v.pre) : (boundAccepts v bound = true ↔ c.rule.matchesImpl v) ↔
      ¬ c.Astray v := by
  have hrule : c.rule = fullRule c.ruleOp (versionOf [major, minor, patch] pre build) := by
    rw [Comparator.rule, hw]
    rfl
  have hop : c.boundOp = c.ruleOp := by
    rw [Comparator.boundOp, Comparator.ruleOp, hw]
    cases c.op <;> rfl
  have hwild : c.ruleOp ≠ .wildcard := by
    rw [← hop, Comparator.boundOp]
    cases hcop : c.op with
    | none => exact BoundOp.noConfusion
    | some op => exact hc.1 op hcop
  have hbase : PreRelease (versionOf [major, minor, patch] pre build).pre := by
    have hwell : (Written.full major minor patch pre build).WellFormed := hw ▸ hc.2
    cases pre with
    | none => exact .inl rfl
    | some s => exact .inr (hwell.2.2.2.1 s rfl)
  obtain ⟨hhidden, hplain⟩ : (c.written.Hidden → bound.op = .wildcard ∧ 3 ≤ bound.parts ∧
      bound.version.major = number major) ∧
      (¬ c.written.Hidden → bound = ⟨c.boundOp, versionOf [major, minor, patch] pre build,
        2 + (split 46 c.written.tail).length⟩) := by
    rw [Comparator.IsBound, hw] at hb
    rwa [hw]
  rw [show c.Astray v = _ by rw [Comparator.Astray, hw]]
  dsimp only
  rw [← hw]
  by_cases hid : c.written.Hidden
  · obtain ⟨hbop, hparts, hmajor⟩ := hhidden hid
    rw [boundAccepts_verdict hparts (by rw [hbop]; exact fun h => BoundOp.noConfusion h), hbop]
    simp [hid, Verdict, hmajor]
  · have hbound := hplain hid
    have hlen : 0 < (split 46 c.written.tail).length := List.length_pos_of_ne_nil (split_ne_nil _)
    have himpl := matchesImpl_full hbase hv hwild (Int.natCast_nonneg _) (Int.natCast_nonneg _)
    have heq := compareVersion_precedence hbase hv
    simp only [hid, not_false_iff, true_and, false_and, false_or]
    generalize versionOf [major, minor, patch] pre build = base at *
    by_cases hexact : c.ruleOp = .exact
    · simp only [hexact, true_and, ne_eq, not_true_eq_false, false_and, or_false]
      rw [hrule, himpl, hexact, matchesExact_full hbase hv]
      by_cases hdot : 46 ∈ c.written.tail
      · -- with four parts nothing is compared
        have hfour : 1 < (split 46 c.written.tail).length := by
          refine lt_of_le_of_ne hlen fun hone => ?_
          obtain ⟨x, hx⟩ := List.length_eq_one_iff.mp hone.symm
          have hjoin : join 46 (split 46 c.written.tail) = c.written.tail := join_split _
          rw [hx, join, behind, List.append_nil] at hjoin
          exact not_mem_split (hx ▸ List.mem_singleton_self x) (hjoin ▸ hdot)
        have hany : ∀ parts, 4 ≤ parts → boundAccepts v ⟨.exact, base, parts⟩ = true := by
          intro parts hparts
          have hne : parts ≠ 1 ∧ parts ≠ 2 ∧ parts ≠ 3 := by omega
          simp [boundAccepts, hne]
        have haccepts : boundAccepts v bound = true := by
          rw [hbound, hop, hexact]
          exact hany _ (by omega)
        simp [haccepts, hdot, Verdict]
      · have hone : (split 46 c.written.tail).length = 1 := by rw [split_single hdot]; rfl
        rw [boundAccepts_verdict (by rw [hbound]; dsimp only; omega)
          (by rw [hbound]; dsimp only; omega), hbound, hop, hexact]
        simp [hdot, Verdict, heq]
    · simp only [hexact, false_and, false_or, ne_eq, not_false_eq_true, true_and, not_not]
      rw [boundAccepts_verdict (by rw [hbound]; dsimp only; omega)
        (by rw [hbound, hop]; exact fun h => absurd h hexact), hrule, himpl, hbound, hop,
          ← compareVersion_iff]
      constructor
      · intro hiff
        by_contra hne
        have hneq : compareVersion v base ≠ .eq := fun h => hne (h.trans (heq.mp h).symm)
        have hneq' : precedence v base ≠ .eq := fun h => hne ((heq.mpr h).trans h.symm)
        have hcore : compareCore v base = .eq := by
          by_contra hcore
          refine hne ((compareVersion_iff v base).mpr fun h => absurd h hcore)
        exact verdict_differs hexact hwild hcore hneq hneq' hne hiff
      · intro hsame
        rw [hsame]

theorem boundAccepts_iff {c : Comparator} (hc : c.WellFormed) (hb : c.IsBound bound) {v : Version}
    (hv : PreRelease v.pre) : (boundAccepts v bound = true ↔ c.rule.matchesImpl v) ↔
      ¬ c.Astray v := by
  cases hw : c.written with
  | short major minor wilds => exact boundAccepts_short hc hw hb v
  | full major minor patch pre build => exact boundAccepts_full hc hw hb hv

/-! ## 5. Requirements -/

/-- Some comparator with a pre-release names the version, if it has one. -/
def Named (rules : List Rule) (v : Version) : Prop := v.pre = [] ∨ ∃ cmp ∈ rules,
    cmp.preIsCompatible v

/-- The numbers are not too large. A version that all rules take is named just if the code goes
    astray on none of them; and one that some rule refuses is refused by the code: by a rule on
    which it does not go astray, or by one that takes the version. -/
def Requirement.Judged (r : Requirement) (v : Version) : Prop :=
  (∀ c ∈ r.list, c.Small) ∧
    ((∀ c ∈ r.list, c.rule.matchesImpl v) → (Named r.rules v ↔ ∀ c ∈ r.list, ¬ c.Astray v)) ∧
    ((∃ c ∈ r.list, ¬ c.rule.matchesImpl v) → ∃ c ∈ r.list, (c.rule.matchesImpl v ↔ c.Astray v))

theorem accepts_iff {l : List Comparator} (hl : ∀ c ∈ l, c.WellFormed) {spec : VersionSpec}
    (hspec : List.Forall₂ Comparator.IsBound l spec) {v : Version} (hv : PreRelease v.pre) :
    accepts spec v = true ↔ ∀ c ∈ l, (c.rule.matchesImpl v ↔ ¬ c.Astray v) := by
  rw [accepts, List.all_eq_true]
  induction hspec with
  | nil =>
    exact ⟨fun _ c hc => absurd hc List.not_mem_nil, fun _ b hb => absurd hb List.not_mem_nil⟩
  | @cons c bound l spec hb _ ih =>
    rw [List.forall_mem_cons, List.forall_mem_cons, ih fun d hd => hl d (List.mem_cons_of_mem c hd)]
    have hiff := boundAccepts_iff (hl c List.mem_cons_self) hb hv
    refine and_congr_left fun _ => ?_
    rw [← hiff]
    by_cases hm : c.rule.matchesImpl v <;> simp [hm]

theorem Requirement.WellFormed.list {r : Requirement} (h : r.WellFormed) :
    ∀ c ∈ r.list, c.WellFormed := by
  intro c hc
  cases r with
  | star before wild after => exact absurd hc List.not_mem_nil
  | comparators before d more after =>
    rcases List.mem_cons.mp hc with rfl | hc
    · exact h.1
    · obtain ⟨m, hm, rfl⟩ := List.mem_map.mp hc
      exact h.2 m hm

theorem matchesReq_iff (r : Requirement) (v : Version) :
    matchesReq r.rules v ↔ (∀ c ∈ r.list, c.rule.matchesImpl v) ∧ Named r.rules v := by
  rw [matchesReq, Requirement.rules, List.forall_mem_map]
  rfl

/-- A requirement means to the code what it means to semver just if it is judged so. -/
theorem accepts_exact (r : Requirement) (hr : r.WellFormed) (v : Version) (hv : PreRelease v.pre) :
    (∃ spec, parseVersionSpec r.text = .ok spec ∧ (accepts spec v = true ↔ matchesReq r.rules v)) ↔
      r.Judged v := by
  obtain ⟨hok, herr⟩ := parseVersionSpec_text hr
  by_cases hsmall : ∀ c ∈ r.list, c.Small
  · obtain ⟨spec, hspec, hall⟩ := hok hsmall
    have hiff := accepts_iff hr.list hall hv
    have hthis : (∃ spec, parseVersionSpec r.text = .ok spec ∧
      (accepts spec v = true ↔ matchesReq r.rules v)) ↔
        (accepts spec v = true ↔ matchesReq r.rules v) :=
      ⟨fun ⟨spec', h, h'⟩ => by cases hspec.symm.trans h; exact h', fun h => ⟨spec, hspec, h⟩⟩
    rw [hthis, hiff, matchesReq_iff, Requirement.Judged]
    by_cases hrules : ∀ c ∈ r.list, c.rule.matchesImpl v
    · have hastray : (∀ c ∈ r.list, (c.rule.matchesImpl v ↔ ¬ c.Astray v)) ↔ ∀ c ∈ r.list,
        ¬ c.Astray v :=
        forall₂_congr fun c hc => iff_true_left (hrules c hc)
      rw [hastray]
      constructor
      · exact fun h => ⟨hsmall, fun _ => (h.trans (and_iff_right hrules)).symm,
          fun ⟨c, hc, hnot⟩ => absurd (hrules c hc) hnot⟩
      · exact fun h => (h.2.1 hrules).symm.trans (and_iff_right hrules).symm
    · have hsome : ∃ c ∈ r.list, ¬ c.rule.matchesImpl v := by
        by_contra hnone
        exact hrules fun c hc => by_contra fun h => hnone ⟨c, hc, h⟩
      have hrefused : (¬ ∀ c ∈ r.list, (c.rule.matchesImpl v ↔ ¬ c.Astray v)) ↔
          ∃ c ∈ r.list, (c.rule.matchesImpl v ↔ c.Astray v) := by
        rw [not_forall₂]
        refine exists_congr fun c => ?_
        rw [exists_prop, not_iff, not_iff_not]
      constructor
      · intro h
        exact ⟨hsmall, fun hall => absurd hall hrules, fun _ => hrefused.mp fun hall =>
          hrules (h.mp hall).1⟩
      · intro h
        have hnot := hrefused.mpr (h.2.2 hsome)
        exact ⟨fun hall => absurd hall hnot, fun hall => absurd hall.1 hrules⟩
  · obtain ⟨e, he⟩ := herr hsmall
    constructor
    · rintro ⟨spec, hspec, -⟩
      cases he.symm.trans hspec
    · exact fun h => absurd h.1 hsmall

/-- `^1.0.0`. -/
def caretOne : Requirement := .comparators 0 ⟨some (.caret, 0), .full (ascii "1") (ascii "0")
    (ascii "0") none none⟩ [] 0

theorem caretOne_wellFormed : caretOne.WellFormed := by
  refine ⟨⟨fun op hop => ?_, rfl, rfl, rfl, (fun s hs => nomatch hs), (fun s hs => nomatch hs)⟩,
    (fun m hm => nomatch hm)⟩
  rw [← Option.some.inj hop]
  exact BoundOp.noConfusion

/-- `1.1.0-alpha`, and the version itself. -/
def alpha : Version := ⟨1, 1, 0, ascii "alpha", []⟩
def oneOne : Version := ⟨1, 1, 0, [], []⟩

theorem accepts_oneOne :
    (∃ spec, parseVersionSpec caretOne.text = .ok spec ∧
      (accepts spec oneOne = true ↔ matchesReq caretOne.rules oneOne)) ↔
      caretOne.Judged oneOne :=
  accepts_exact caretOne caretOne_wellFormed oneOne (.inl rfl)

/-- A pre-release that no comparator names is taken. -/
theorem caret_takes_alpha :
    ¬ ∀ r : Requirement, r.WellFormed → ∀ v : Version, PreRelease v.pre →
      ∃ spec, parseVersionSpec r.text = .ok spec ∧
        (accepts spec v = true ↔ matchesReq r.rules v) := by
  intro h
  have hpre : PreRelease alpha.pre := by
    refine .inr fun x hx => ?_
    rw [List.mem_singleton.mp hx]
    exact ⟨⟨by decide, by decide⟩, fun hnumeric => absurd hnumeric (by decide)⟩
  obtain ⟨spec, hspec, hiff⟩ := h caretOne caretOne_wellFormed alpha hpre
  have htext : parseVersionSpec caretOne.text = .ok [⟨.caret, ⟨1, 0, 0, [], []⟩, 3⟩] := by
    decide +kernel
  cases htext.symm.trans hspec
  have haccepts : accepts [⟨.caret, ⟨1, 0, 0, [], []⟩, 3⟩] alpha = true := by decide +kernel
  rcases (hiff.mp haccepts).2 with hnone | ⟨cmp, hcmp, -, -, -, hnamed⟩
  · cases hnone
  · rw [List.mem_singleton.mp hcmp] at hnamed
    exact hnamed rfl

end Trustme.Cargo
