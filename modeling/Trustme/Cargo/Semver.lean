/-
  Subject:   The order of versions (src/bin/cargo/semver.go, manifest.go).

  * `compareVersion`: as the code compares them, pre-releases as texts;
  * `precedence`: as SemVer says, identifier by identifier;
  * `Misleading`: identifiers whose texts are in another order than they are;
  * `compareVersion_iff`: the two agree just if the first identifiers that differ do not mislead;
  * `newest_first`: so then the first of a sorted list has the highest precedence.
-/
import Trustme.Lib.DottedText
import Trustme.Cargo.Tasks

namespace Trustme.Cargo

open Std (TransCmp ReflCmp ReflOrd LawfulEqOrd)
open Trustme.Lib

/-! ## 1. Versions -/

structure Version where
  major : Int
  minor : Int
  patch : Int
  pre : Str
  build : Str
  deriving DecidableEq

/-- The loop over the numbers. -/
def compareNumbers : List (Int × Int) → Option Ordering
  | [] => none
  | (x, y) :: more => if x < y then some .lt else if x > y then some .gt else compareNumbers more

def compareVersion (a b : Version) : Ordering :=
  match compareNumbers [(a.major, b.major), (a.minor, b.minor), (a.patch, b.patch)] with
  | some o => o
  | none =>
    if a.pre = b.pre then .eq
    else if a.pre = [] then .gt
    else if b.pre = [] then .lt
    else compare a.pre b.pre

/-! ## 2. Precedence -/

def isDigit (b : Byte) : Bool := 48 ≤ b && b ≤ 57

def isNumeric (x : Str) : Bool := decide (x ≠ []) && x.all isDigit

def number (x : Str) : Nat := x.foldl (fun n b => 10 * n + (b.val - 48)) 0

/-- Numbers as numbers, and below other identifiers. -/
def compareIdentifier (x y : Str) : Ordering :=
  match isNumeric x, isNumeric y with
  | true, true => compare (number x) (number y)
  | true, false => .lt
  | false, true => .gt
  | false, false => compare x y

def identifiers (pre : Str) : List Str := split 46 pre

/-- A pre-release is below the release. -/
def comparePre (p q : Str) : Ordering :=
  if p = [] ∧ q = [] then .eq
  else if p = [] then .gt
  else if q = [] then .lt
  else List.compareLex compareIdentifier (identifiers p) (identifiers q)

def compareCore (a b : Version) : Ordering :=
  (compare a.major b.major).then ((compare a.minor b.minor).then (compare a.patch b.patch))

def precedence (a b : Version) : Ordering := (compareCore a b).then (comparePre a.pre b.pre)

/-! ## 3. Total preorders -/

/-- It is the order of whether they are numbers, of the numbers, and of the other texts. -/
theorem compareIdentifier_key : compareIdentifier =
    compareLex (compareOn fun z => !isNumeric z)
      (compareLex (compareOn fun z => if isNumeric z then number z else 0)
        (compareOn fun z => if isNumeric z then [] else z)) := by
  funext x y
  have hgt : compare true false = .gt := rfl
  have hlt : compare false true = .lt := rfl
  unfold compareIdentifier compareLex compareOn
  cases hx : isNumeric x with
  | true => cases hy : isNumeric y <;> simp [hx, hy, hlt]
  | false => cases hy : isNumeric y <;> simp [hx, hy, hgt]

instance : TransCmp compareIdentifier := by
  rw [compareIdentifier_key]
  infer_instance

/-- Texts are compared by their identifiers. -/
def compareIdentifiers (p q : Str) : Ordering :=
  List.compareLex compareIdentifier (identifiers p) (identifiers q)

/-- An order of parts of things. -/
theorem transCmp_on {β γ : Type} {cmp : γ → γ → Ordering} (h : TransCmp cmp) (f : β → γ) :
    TransCmp fun a b => cmp (f a) (f b) :=
  { eq_swap := h.toOrientedCmp.eq_swap, isLE_trans := h.isLE_trans }

instance : TransCmp compareIdentifiers :=
  transCmp_on (inferInstance : TransCmp (List.compareLex compareIdentifier)) identifiers

theorem comparePre_key :
    comparePre = compareLex (compareOn fun p => decide (p = [])) compareIdentifiers := by
  funext p q
  have hgt : compare true false = .gt := rfl
  have hlt : compare false true = .lt := rfl
  unfold comparePre compareLex compareOn
  by_cases hp : p = []
  · by_cases hq : q = []
    · subst hp hq
      rw [if_pos ⟨rfl, rfl⟩]
      rfl
    · simp [hp, hq, hgt]
  · by_cases hq : q = []
    · simp [hp, hq, hlt]
    · simp [hp, hq, compareIdentifiers]

instance : TransCmp comparePre := by
  rw [comparePre_key]
  infer_instance

theorem precedence_key : precedence = compareLex (compareOn Version.major)
    (compareLex (compareOn Version.minor) (compareLex (compareOn Version.patch)
      fun a b => comparePre a.pre b.pre)) := by
  funext a b
  unfold precedence compareCore compareLex compareOn
  rw [Ordering.then_assoc, Ordering.then_assoc]

instance : TransCmp precedence := by
  have hpre : TransCmp fun a b : Version => comparePre a.pre b.pre :=
    transCmp_on inferInstance Version.pre
  rw [precedence_key]
  infer_instance

/-! ## 4. What the code compares -/

/-- Pre-releases as texts. -/
def comparePreText (p q : Str) : Ordering :=
  if p = q then .eq else if p = [] then .gt else if q = [] then .lt else compare p q

theorem compareNumbers_cons (x y : Int) (more : List (Int × Int)) (o : Ordering) :
    (compareNumbers ((x, y) :: more)).getD o =
      (compare x y).then ((compareNumbers more).getD o) := by
  rw [compareNumbers]
  rcases Int.lt_trichotomy x y with h | h | h
  · rw [if_pos h, compare_lt_iff_lt.mpr h]
    rfl
  · rw [if_neg (by omega), if_neg (by omega), compare_eq_iff_eq.mpr h]
    rfl
  · rw [if_neg (by omega), if_pos h, compare_gt_iff_gt.mpr h]
    rfl

theorem compareVersion_eq (a b : Version) :
    compareVersion a b = (compareCore a b).then (comparePreText a.pre b.pre) := by
  have hcode : compareVersion a b = (compareNumbers [(a.major, b.major), (a.minor, b.minor),
      (a.patch, b.patch)]).getD (comparePreText a.pre b.pre) := by
    unfold compareVersion comparePreText
    split
    · next o ho => rw [ho, Option.getD_some]
    · next hnone => rw [hnone, Option.getD_none]
  rw [hcode, compareNumbers_cons, compareNumbers_cons, compareNumbers_cons, compareCore,
    Ordering.then_assoc,
    Ordering.then_assoc]
  rfl

theorem comparePreText_key :
    comparePreText = compareLex (compareOn fun p => decide (p = [])) compare := by
  funext p q
  have hgt : compare true false = .gt := rfl
  have hlt : compare false true = .lt := rfl
  unfold comparePreText compareLex compareOn
  by_cases hpq : p = q
  · subst hpq
    simp
  · by_cases hp : p = []
    · have hq : q ≠ [] := fun hq => hpq (hp.trans hq.symm)
      simp [hp, hq, Ne.symm hq, hgt]
    · by_cases hq : q = []
      · simp [hp, hq, hlt]
      · simp [hpq, hp, hq]

/-- It is a total preorder, too. -/
instance : TransCmp compareVersion := by
  have hpre : TransCmp fun a b : Version => comparePreText a.pre b.pre := by
    have htext : TransCmp comparePreText := by
      rw [comparePreText_key]
      infer_instance
    exact transCmp_on htext Version.pre
  have hkey : compareVersion = compareLex (compareOn Version.major)
      (compareLex (compareOn Version.minor) (compareLex (compareOn Version.patch)
        fun a b => comparePreText a.pre b.pre)) := by
    funext a b
    rw [compareVersion_eq]
    unfold compareCore compareLex compareOn
    rw [Ordering.then_assoc, Ordering.then_assoc]
  rw [hkey]
  infer_instance

/-! ## 5. Where the two agree -/

/-- Of two identifiers that differ, with those that follow them: the texts, each with the dot that
    follows it, are in another order than the identifiers. -/
def Misleading (x : Str) (xs : List Str) (y : Str) (ys : List Str) : Prop :=
  match isNumeric x, isNumeric y with
  -- numbers: by value, and the same value by what follows
  | true, true =>
    (compare (number x) (number y)).then (List.compareLex compareIdentifier xs ys) ≠ compare x y
  -- a number is below what is none
  | true, false => compare (x ++ mark 46 (!xs.isEmpty)) (y ++ mark 46 (!ys.isEmpty)) ≠ .lt
  | false, true => compare (x ++ mark 46 (!xs.isEmpty)) (y ++ mark 46 (!ys.isEmpty)) ≠ .gt
  -- one begins the other, and is not the last, and the other goes on with a byte below the dot
  | false, false => (∃ b w, y = x ++ b :: w ∧ compare b 46 = .lt ∧ xs ≠ []) ∨
      ∃ b w, x = y ++ b :: w ∧ compare b 46 = .lt ∧ ys ≠ []

/-- Where pre-releases decide, the first identifiers that differ do not mislead. -/
def TextsTell (a b : Version) : Prop :=
  compareCore a b = .eq → a.pre ≠ [] → b.pre ≠ [] → ∀ x xs y ys,
    firstDifference (identifiers a.pre) (identifiers b.pre) = some ((x, xs), y, ys) →
      ¬ Misleading x xs y ys

theorem isNumeric_digit {x : Str} (hx : isNumeric x = true) {b : Byte} (hb : b ∈ x) :
    compare b 46 ≠ .lt := by
  have hall := (Bool.and_eq_true_iff.mp hx).2
  have hdigit := List.all_eq_true.mp hall b hb
  rw [isDigit, Bool.and_eq_true_iff, decide_eq_true_iff, decide_eq_true_iff] at hdigit
  intro hlt
  have hless : b < 46 := compare_lt_iff_lt.mp hlt
  exact absurd (Nat.lt_of_le_of_lt hdigit.1 hless) (by decide)

theorem not_misleading_iff {x y : Str} (hne : x ≠ y) (hx : 46 ∉ x) (hy : 46 ∉ y)
    (xs ys : List Str) :
    compare (x ++ mark 46 (!xs.isEmpty)) (y ++ mark 46 (!ys.isEmpty)) =
      (compareIdentifier x y).then (List.compareLex compareIdentifier xs ys) ↔
        ¬ Misleading x xs y ys := by
  have hmarked := compare_marked hx hy hne (!xs.isEmpty) (!ys.isEmpty)
  unfold Misleading
  generalize List.compareLex compareIdentifier xs ys = rest
  unfold compareIdentifier
  cases hnx : isNumeric x with
  | true =>
    cases hny : isNumeric y with
    | true =>
      have hsame : compare (x ++ mark 46 (!xs.isEmpty)) (y ++ mark 46 (!ys.isEmpty)) =
        compare x y := by
        by_contra hdiffer
        rcases hmarked.mp hdiffer with ⟨b, w, hb, hlt, -⟩ | ⟨b, w, hb, hlt, -⟩
        · exact isNumeric_digit hny (hb ▸ List.mem_append_right x List.mem_cons_self) hlt
        · exact isNumeric_digit hnx (hb ▸ List.mem_append_right y List.mem_cons_self) hlt
      rw [hsame]
      exact ⟨fun h hnot => hnot h.symm, fun h => (not_not.mp h).symm⟩
    | false => exact not_not.symm
  | false =>
    cases hny : isNumeric y with
    | true => exact not_not.symm
    | false =>
      have hneq : compare x y ≠ .eq := fun h => hne (LawfulEqOrd.eq_of_compare h)
      have hthen : (compare x y).then rest = compare x y := by
        cases hc : compare x y with
        | lt => rfl
        | gt => rfl
        | eq => exact absurd hc hneq
      have hmore : ∀ zs : List Str, (!zs.isEmpty) = true ↔ zs ≠ [] := fun zs => by cases zs <;> simp
      dsimp only
      rw [hthen, ← not_iff_not, ← ne_eq, hmarked, not_not]
      simp only [hmore]

/-- Of two pre-releases. -/
theorem compareIdentifiers_iff (p q : Str) : compare p q = compareIdentifiers p q ↔ ∀ x xs y ys,
    firstDifference (identifiers p) (identifiers q) = some ((x, xs), y, ys) →
      ¬ Misleading x xs y ys := by
  have htext : compare p q = compare (join 46 (identifiers p)) (join 46 (identifiers q)) := by
    rw [identifiers, identifiers, join_split, join_split]
  have hp : ∀ x ∈ identifiers p, 46 ∉ x := fun x hx => not_mem_split hx
  have hq : ∀ y ∈ identifiers q, 46 ∉ y := fun y hy => not_mem_split hy
  rw [htext, compare_join hp hq (split_ne_nil p) (split_ne_nil q), compareIdentifiers,
    compareLex_firstDifference]
  cases hd : firstDifference (identifiers p) (identifiers q) with
  | none => simp
  | some d =>
    obtain ⟨⟨x, xs⟩, y, ys⟩ := d
    obtain ⟨hx, hy, hne⟩ := firstDifference_mem hd
    have hiff := not_misleading_iff hne (hp x hx) (hq y hy) xs ys
    constructor
    · rintro h x' xs' y' ys' ⟨⟩
      exact hiff.mp h
    · exact fun h => hiff.mpr (h x xs y ys rfl)

theorem compareVersion_iff (a b : Version) :
    compareVersion a b = precedence a b ↔ TextsTell a b := by
  rw [compareVersion_eq, precedence, TextsTell]
  cases hcore : compareCore a b with
  | lt => simp
  | gt => simp
  | eq =>
    rw [Ordering.eq_then, Ordering.eq_then]
    by_cases hp : a.pre = []
    · by_cases hq : b.pre = []
      · simp [comparePreText, comparePre, hp, hq]
      · simp [comparePreText, comparePre, hp, hq, Ne.symm hq]
    · by_cases hq : b.pre = []
      · simp [comparePreText, comparePre, hp, hq]
      · have htext : comparePreText a.pre b.pre = compare a.pre b.pre := by
          unfold comparePreText
          rw [if_neg hp, if_neg hq]
          split_ifs with hpq
          · rw [hpq, ReflOrd.compare_self]
          · rfl
        have hpre : comparePre a.pre b.pre = compareIdentifiers a.pre b.pre := by
          rw [comparePre, if_neg fun h => hp h.1, if_neg hp, if_neg hq, compareIdentifiers]
        rw [htext, hpre, compareIdentifiers_iff]
        exact ⟨fun h _ _ _ => h, fun h => h rfl hp hq⟩

/-! ## 6. The packages of a name -/

/-- What `sort.Slice` leaves, with `compareVersion` above zero as its order: no version comes before
    one that is above it. -/
def NewestFirst (versions : List Version) : Prop :=
  versions.Pairwise fun a b => compareVersion b a ≠ .gt

/-- The first one has the highest precedence, where no two of them mislead. -/
theorem newest_first {versions : List Version} (hsorted : NewestFirst versions)
    (htell : ∀ a ∈ versions, ∀ b ∈ versions, TextsTell a b) :
    ∀ first ∈ versions.head?, ∀ v ∈ versions, precedence v first ≠ .gt := by
  intro first hfirst v hv
  obtain ⟨rest, rfl⟩ := List.head?_eq_some_iff.mp hfirst
  rw [← (compareVersion_iff v first).mpr (htell v hv first List.mem_cons_self)]
  rcases List.mem_cons.mp hv with rfl | hv
  · have hself : compareVersion v v = .eq := ReflCmp.compare_self
    rw [hself]
    decide
  · exact (List.pairwise_cons.mp hsorted).1 v hv

/-- `compareVersion` is the precedence just if texts do not mislead; both are total preorders, and
    sorted versions have one of the highest precedence first. -/
theorem compareVersion_exact (a b : Version) :
    (compareVersion a b = precedence a b ↔ TextsTell a b) ∧
    TransCmp precedence ∧ TransCmp compareVersion ∧
    ∀ versions, NewestFirst versions → (∀ a ∈ versions, ∀ b ∈ versions, TextsTell a b) →
      ∀ first ∈ versions.head?, ∀ v ∈ versions, precedence v first ≠ .gt :=
  ⟨compareVersion_iff a b, inferInstance, inferInstance, fun _ => newest_first⟩

/-- `1.0.0-rc.9`, and the candidate after it. -/
def ninthCandidate : Version := ⟨1, 0, 0, ascii "rc.9", []⟩
def tenthCandidate : Version := ⟨1, 0, 0, ascii "rc.10", []⟩

/-- The newer one is sorted behind the older one. -/
theorem tenth_candidate_behind :
    compareVersion tenthCandidate ninthCandidate = .lt ∧
      precedence tenthCandidate ninthCandidate = .gt ∧
      NewestFirst [ninthCandidate, tenthCandidate] ∧ ¬ ∀ a b,
        compareVersion a b = precedence a b := by
  have hcode : compareVersion tenthCandidate ninthCandidate = .lt := by decide
  have hspec : precedence tenthCandidate ninthCandidate = .gt := by decide
  refine ⟨hcode, hspec, ?_, fun h => ?_⟩
  · refine List.pairwise_cons.mpr ⟨fun v hv => ?_, List.pairwise_singleton _ _⟩
    rw [List.mem_singleton.mp hv, hcode]
    decide
  · have hsame := h tenthCandidate ninthCandidate
    rw [hcode, hspec] at hsame
    cases hsame

end Trustme.Cargo
