/-
  Subject:   The features of one package, and what they ask of its dependencies
             (src/bin/cargo/resolve.go).

  * `trimSpace`, `cut`: the strings functions that names of features go through;
  * `Manifest`, `PackageState`: what a manifest says, and what resolution changes;
  * `activateFeature`, `enableDependency`, `requestDependencyFeature`, `expandFeatures`;
  * `rule`: what an active feature asks for, as a set;
  * `expandRound_adds`: a round adds just that;
  * `expandFeatures_facts`, `expandFeatures_ends`: so the loop ends with the least closed set.
-/
import Trustme.Cargo.Tasks
import Trustme.Lib.Saturation
import Mathlib.Data.Finset.Sort

namespace Trustme.Cargo

open Trustme.Lib

/-! ## 1. Names of features -/

/-- What `unicode.IsSpace` accepts, in UTF-8. -/
def spaces : List Str :=
  [[9], [10], [11], [12], [13], [32], [0xC2, 0x85], [0xC2, 0xA0], [0xE1, 0x9A, 0x80]] ++
    (List.range 11).map (fun i => [0xE2, 0x80, Fin.ofNat 256 (0x80 + i)]) ++
      [[0xE2, 0x80, 0xA8], [0xE2, 0x80, 0xA9], [0xE2, 0x80, 0xAF], [0xE2, 0x81, 0x9F],
        [0xE3, 0x80, 0x80]]

/-- Without what it begins with, as long as this is one of `l`. -/
def trimStart (l : List Str) : Nat → Str → Str
  | 0, s => s
  | n + 1, s =>
    match l.find? (·.isPrefixOf s) with
    | none => s
    | some p => trimStart l n (s.drop p.length)

/-- `strings.TrimSpace` -/
def trimSpace (s : Str) : Str :=
  let left := trimStart spaces s.length s
  (trimStart (spaces.map List.reverse) left.length left.reverse).reverse

/-- `strings.Cut(s, "/")` -/
def cut (s : Str) : Option (Str × Str) :=
  if 47 ∈ s then some (s.takeWhile (· ≠ 47), (s.dropWhile (· ≠ 47)).drop 1) else none

/-- `strings.HasSuffix(s, "?")` -/
def isWeak (s : Str) : Bool := s.getLast? == some 63

def withoutWeak (s : Str) : Str := if isWeak s then s.dropLast else s

/-! ## 2. Packages -/

inductive DependencyKind where
  | main
  | build
  | dev
deriving DecidableEq

/-- What a manifest says about a dependency: in which table it is, with its condition if it is a
    target table, and where the manifest at `path` is. -/
structure Dependency (Spec Path : Type) where
  key : Str
  name : Str
  version : Spec
  path : Option Path
  optional : Bool
  defaultFeatures : Bool
  features : List Str
  kind : DependencyKind
  table : Option Str

/-- What is read of a manifest. The dependencies of all its tables are in one list, and known by
    their places in it. -/
structure Manifest (Version Spec Path : Type) where
  name : Str
  version : Version
  buildScript : Bool
  dependencies : List (Dependency Spec Path)
  /-- The conditions of `targetDeps`. -/
  targetTables : List Str
  features : List (Str × List Str)
  defaultFeature : List Str
  declaresDefault : Bool

structure DependencyState where
  features : List Str
  enabled : Bool

/-- What resolution changes of a package. -/
structure PackageState where
  activeFeatures : Finset Str
  dependencies : Nat → DependencyState

def PackageState.setDependency (pkg : PackageState) (i : Nat) (dep : DependencyState) :
    PackageState :=
  { pkg with dependencies := Function.update pkg.dependencies i dep }

/-! ## 3. What the functions do -/

section Functions

variable {Version Spec Path : Type} (m : Manifest Version Spec Path)

def activateFeature (feature : Str) (pkg : PackageState) : PackageState × Bool :=
  if trimSpace feature = [] then (pkg, false)
  else if trimSpace feature ∈ pkg.activeFeatures then (pkg, false)
  else ({ pkg with activeFeatures := insert (trimSpace feature) pkg.activeFeatures }, true)

def requestFeatures (features : List Str) (defaults : Bool) (pkg : PackageState) :
    PackageState × Bool :=
  let (pkg₁, changed₁) :=
    if defaults && m.declaresDefault then activateFeature (ascii "default") pkg else (pkg, false)
  let (pkg₂, changed₂) := each activateFeature features pkg₁
  (pkg₂, changed₁ || changed₂)

def findDependencies (name : Str) : List Nat :=
  (List.range m.dependencies.length).filter fun i => m.dependencies[i]?.map (·.key) == some name

def enableOne (i : Nat) (pkg : PackageState) : PackageState × Bool :=
  if (pkg.dependencies i).enabled then (pkg, false)
  else (pkg.setDependency i { pkg.dependencies i with enabled := true }, true)

def enableDependency (name : Str) (pkg : PackageState) : PackageState × Bool :=
  each enableOne (findDependencies m name) pkg

def anyOptional (deps : List Nat) : Bool :=
  deps.any fun i => (m.dependencies[i]?.map (·.optional)).getD false

/-- A feature that a dependency is to have. -/
def wantFeature (feature : Str) (i : Nat) (pkg : PackageState) : PackageState × Bool :=
  if feature ∈ (pkg.dependencies i).features then (pkg, false)
  else
    (pkg.setDependency i
      { pkg.dependencies i with features := (pkg.dependencies i).features ++ [feature] }, true)

/-- The part of `requestDependencyFeature` for names without a `?`. -/
def requireDependency (name : Str) (pkg : PackageState) : PackageState × Bool :=
  let (pkg₁, changed₁) := enableDependency m name pkg
  if (m.features.lookup name).isSome && anyOptional m (findDependencies m name) then
    let (pkg₂, changed₂) := activateFeature name pkg₁
    (pkg₂, changed₁ || changed₂)
  else (pkg₁, changed₁)

def requestDependencyFeature (depName depFeature : Str) (pkg : PackageState) :
    PackageState × Bool :=
  let deps := findDependencies m (withoutWeak depName)
  if deps = [] then (pkg, false)
  else
    let (pkg₁, changed₁) :=
      if isWeak depName then (pkg, false) else requireDependency m (withoutWeak depName) pkg
    let (pkg₂, changed₂) := each (wantFeature depFeature) deps pkg₁
    (pkg₂, changed₁ || changed₂)

/-- `subs` -/
def subFeatures (feature : Str) : List Str :=
  if feature = ascii "default" then m.defaultFeature else (m.features.lookup feature).getD []

/-- The body of the loop over `subs`. -/
def expandSub (sub : Str) (pkg : PackageState) : PackageState × Bool :=
  match cut sub with
  | some (depName, depFeature) => requestDependencyFeature m depName depFeature pkg
  | none => activateFeature sub pkg

/-- The body of the loop over the active features. -/
def expandFeature (feature : Str) (pkg : PackageState) : PackageState × Bool :=
  if (ascii "dep:").isPrefixOf feature then enableDependency m (feature.drop 4) pkg
  else
    match cut feature with
    | some (depName, depFeature) => requestDependencyFeature m depName depFeature pkg
    | none => each (expandSub m) (subFeatures m feature) pkg

def sortedFeatureKeys (features : Finset Str) : List Str := features.sort (· ≤ ·)

def expandRound (pkg : PackageState) : PackageState × Bool :=
  each (expandFeature m) (sortedFeatureKeys pkg.activeFeatures) pkg

def expandFeatures (fuel : Nat) (pkg : PackageState) : Option PackageState :=
  saturate (expandRound m) fuel pkg

end Functions

/-! ## 4. What they ask for -/

inductive Fact where
  | active (feature : Str)
  | enabled (i : Nat)
  | wants (i : Nat) (feature : Str)

def PackageState.has (pkg : PackageState) : Fact → Prop
  | .active feature => feature ∈ pkg.activeFeatures
  | .enabled i => (pkg.dependencies i).enabled = true
  | .wants i feature => feature ∈ (pkg.dependencies i).features

def PackageState.facts (pkg : PackageState) : Set Fact := {x | pkg.has x}

section Asks

variable {Version Spec Path : Type} (m : Manifest Version Spec Path)

def asksActive (feature : Str) : Set Fact :=
  {x | trimSpace feature ≠ [] ∧ x = .active (trimSpace feature)}

def asksEnabled (deps : List Nat) : Set Fact := ⋃ i ∈ deps, {.enabled i}

def asksRequired (name : Str) : Set Fact :=
  asksEnabled (findDependencies m name) ∪
    if (m.features.lookup name).isSome && anyOptional m
      (findDependencies m name) then asksActive name
    else ∅

def asksFeature (depName depFeature : Str) : Set Fact :=
  if findDependencies m (withoutWeak depName) = [] then ∅
  else (if isWeak depName then ∅ else asksRequired m (withoutWeak depName)) ∪
    ⋃ i ∈ findDependencies m (withoutWeak depName), {.wants i depFeature}

def asksSub (sub : Str) : Set Fact :=
  match cut sub with
  | some (depName, depFeature) => asksFeature m depName depFeature
  | none => asksActive sub

def asks (feature : Str) : Set Fact :=
  if (ascii "dep:").isPrefixOf feature then asksEnabled (findDependencies m (feature.drop 4))
  else
    match cut feature with
    | some (depName, depFeature) => asksFeature m depName depFeature
    | none => ⋃ sub ∈ subFeatures m feature, asksSub m sub

/-- What a dependency asks of the package it is resolved to. -/
def asksChild (features : List Str) (defaults : Bool) : Set Fact :=
  (if defaults && m.declaresDefault then asksActive (ascii "default") else ∅) ∪
    ⋃ feature ∈ features, asksActive feature

/-- Only an active feature asks for anything. -/
def rule : Fact → Set Fact
  | .active feature => asks m feature
  | _ => ∅

end Asks

/-! ## 5. A round adds what is asked for -/

section Rounds

variable {Version Spec Path : Type} {m : Manifest Version Spec Path} {pkg : PackageState}

theorem activateFeature_adds (feature : Str) (pkg : PackageState) :
    Adds PackageState.facts (asksActive feature) pkg (activateFeature feature pkg) := by
  unfold activateFeature
  split
  · next hblank => exact Adds.nothing.congr (by simp [asksActive, hblank])
  · next hblank =>
    split
    · next hmem =>
      refine ⟨?_, fun _ => rfl, nofun⟩
      refine (Set.union_eq_left.mpr ?_).symm
      rintro _ ⟨-, rfl⟩
      exact hmem
    · next hmem =>
      refine ⟨?_, nofun, fun _ hsub => hmem (hsub ⟨hblank, rfl⟩)⟩
      ext x
      cases x with
      | active f => simp [PackageState.facts, PackageState.has, asksActive, hblank, or_comm]
      | enabled i => simp [PackageState.facts, PackageState.has, asksActive]
      | wants i f => simp [PackageState.facts, PackageState.has, asksActive]

theorem enableOne_adds (i : Nat) (pkg : PackageState) :
    Adds PackageState.facts {.enabled i} pkg (enableOne i pkg) := by
  unfold enableOne
  split
  · next hon =>
    refine ⟨?_, fun _ => rfl, nofun⟩
    refine (Set.union_eq_left.mpr ?_).symm
    rintro _ rfl
    exact hon
  · next hoff =>
    refine ⟨?_, nofun, fun _ hsub => hoff (hsub rfl)⟩
    ext x
    cases x with
    | active f => simp [PackageState.facts, PackageState.has, PackageState.setDependency]
    | enabled j =>
      by_cases hij : j = i
      · subst hij
        simp [PackageState.facts, PackageState.has, PackageState.setDependency]
      · simp [PackageState.facts, PackageState.has, PackageState.setDependency, hij]
    | wants j f =>
      by_cases hij : j = i
      · subst hij
        simp [PackageState.facts, PackageState.has, PackageState.setDependency]
      · simp [PackageState.facts, PackageState.has, PackageState.setDependency, hij]

theorem wantFeature_adds (feature : Str) (i : Nat) (pkg : PackageState) :
    Adds PackageState.facts {.wants i feature} pkg (wantFeature feature i pkg) := by
  unfold wantFeature
  split
  · next hmem =>
    refine ⟨?_, fun _ => rfl, nofun⟩
    refine (Set.union_eq_left.mpr ?_).symm
    rintro _ rfl
    exact hmem
  · next hmem =>
    refine ⟨?_, nofun, fun _ hsub => hmem (hsub rfl)⟩
    ext x
    cases x with
    | active f => simp [PackageState.facts, PackageState.has, PackageState.setDependency]
    | enabled j =>
      by_cases hij : j = i
      · subst hij
        simp [PackageState.facts, PackageState.has, PackageState.setDependency]
      · simp [PackageState.facts, PackageState.has, PackageState.setDependency, hij]
    | wants j f =>
      by_cases hij : j = i
      · subst hij
        simp [PackageState.facts, PackageState.has, PackageState.setDependency, or_comm]
      · simp [PackageState.facts, PackageState.has, PackageState.setDependency, hij]

theorem enableDependency_adds (name : Str) (pkg : PackageState) :
    Adds PackageState.facts (asksEnabled (findDependencies m name)) pkg
      (enableDependency m name pkg) :=
  Adds.each fun i _ pkg => enableOne_adds i pkg

theorem requireDependency_adds (name : Str) (pkg : PackageState) :
    Adds PackageState.facts (asksRequired m name) pkg (requireDependency m name pkg) := by
  have henable := enableDependency_adds (m := m) name pkg
  unfold requireDependency asksRequired
  split
  · exact henable.next (activateFeature_adds name _)
  · exact henable.congr (Set.union_empty _).symm

theorem requestDependencyFeature_adds (depName depFeature : Str) (pkg : PackageState) :
    Adds PackageState.facts (asksFeature m depName depFeature) pkg
      (requestDependencyFeature m depName depFeature pkg) := by
  unfold requestDependencyFeature asksFeature
  by_cases hdeps : findDependencies m (withoutWeak depName) = []
  · simp only [if_pos hdeps]
    exact Adds.nothing
  · have hwant : ∀ pkg, Adds PackageState.facts
        (⋃ i ∈ findDependencies m (withoutWeak depName), {Fact.wants i depFeature}) pkg
        (each (wantFeature depFeature) (findDependencies m (withoutWeak depName)) pkg) := fun pkg =>
      Adds.each fun i _ pkg => wantFeature_adds depFeature i pkg
    simp only [if_neg hdeps]
    split
    · exact Adds.nothing.next (hwant pkg)
    · exact (requireDependency_adds _ pkg).next (hwant _)

theorem expandSub_adds (sub : Str) (pkg : PackageState) :
    Adds PackageState.facts (asksSub m sub) pkg (expandSub m sub pkg) := by
  unfold expandSub asksSub
  split
  · exact requestDependencyFeature_adds _ _ pkg
  · exact activateFeature_adds sub pkg

theorem expandFeature_adds (feature : Str) (pkg : PackageState) :
    Adds PackageState.facts (asks m feature) pkg (expandFeature m feature pkg) := by
  unfold expandFeature asks
  split
  · exact enableDependency_adds _ pkg
  · split
    · exact requestDependencyFeature_adds _ _ pkg
    · exact Adds.each fun sub _ pkg => expandSub_adds sub pkg

theorem expandRound_adds : Rounds PackageState.facts (rule m) (expandRound m) := by
  intro pkg
  have heach : Adds PackageState.facts (⋃ feature ∈ sortedFeatureKeys pkg.activeFeatures,
    asks m feature)
      pkg (expandRound m pkg) := Adds.each fun feature _ pkg => expandFeature_adds feature pkg
  refine heach.congr ?_
  ext x
  simp only [sortedFeatureKeys, Finset.mem_sort, Set.mem_iUnion]
  constructor
  · rintro ⟨feature, hmem, hx⟩
    exact ⟨.active feature, hmem, hx⟩
  · rintro ⟨fact, hmem, hx⟩
    cases fact with
    | active feature => exact ⟨feature, hmem, hx⟩
    | enabled i => exact absurd hx (Set.notMem_empty x)
    | wants i feature => exact absurd hx (Set.notMem_empty x)

theorem requestFeatures_adds (features : List Str) (defaults : Bool) (pkg : PackageState) :
    Adds PackageState.facts (asksChild m features defaults) pkg
      (requestFeatures m features defaults pkg) := by
  have heach : ∀ pkg, Adds PackageState.facts (⋃ feature ∈ features, asksActive feature) pkg
      (each activateFeature features pkg) := fun pkg =>
    Adds.each fun feature _ pkg => activateFeature_adds feature pkg
  unfold requestFeatures asksChild
  split
  · exact (activateFeature_adds _ pkg).next (heach _)
  · exact Adds.nothing.next (heach pkg)

theorem asksChild_active {features : List Str} {defaults : Bool} {x : Fact}
    (h : x ∈ asksChild m features defaults) : ∃ feature, feature ≠ [] ∧ x = .active feature := by
  rcases h with h | h
  · split at h
    · obtain ⟨hne, rfl⟩ := h
      exact ⟨_, hne, rfl⟩
    · cases h
  · obtain ⟨feature, _, hne, rfl⟩ := Set.mem_iUnion₂.1 h
    exact ⟨_, hne, rfl⟩

/-- When no feature comes to be active, nothing changes. -/
theorem requestFeatures_idle {features : List Str} {defaults : Bool} {pkg : PackageState}
    (h : (requestFeatures m features defaults pkg).1.activeFeatures = pkg.activeFeatures) :
    requestFeatures m features defaults pkg = (pkg, false) := by
  have hadds := requestFeatures_adds (m := m) features defaults pkg
  refine hadds.idle fun x hx => ?_
  obtain ⟨feature, _, rfl⟩ := asksChild_active hx
  have hmem : Fact.active feature ∈ (requestFeatures m features defaults pkg).1.facts := by
    rw [hadds.all]
    exact .inr hx
  change feature ∈ pkg.activeFeatures
  rw [← h]
  exact hmem

end Rounds

/-! ## 6. The loop ends -/

theorem trimStart_suffix {l : List Str} : ∀ {n : Nat} {s : Str}, trimStart l n s <:+ s
  | 0, s => List.suffix_refl s
  | n + 1, s => by
    rw [trimStart]
    split
    · exact List.suffix_refl s
    · exact trimStart_suffix.trans (List.drop_suffix _ s)

theorem trimSpace_isPart (s : Str) : trimSpace s <:+: s := by
  have hleft : trimStart spaces s.length s <:+ s := trimStart_suffix
  have hright : trimSpace s <+: trimStart spaces s.length s := by
    rw [← List.reverse_suffix, trimSpace, List.reverse_reverse]
    exact trimStart_suffix
  exact hright.isInfix.trans hleft.isInfix

theorem cut_infix {s depName depFeature : Str} (h : cut s = some (depName, depFeature)) :
    depName <:+: s ∧ depFeature <:+: s := by
  unfold cut at h
  split at h
  · cases h
    exact ⟨(List.takeWhile_prefix _).isInfix,
      ((List.drop_suffix 1 _).trans (List.dropWhile_suffix _)).isInfix⟩
  · cases h

theorem withoutWeak_isPart (s : Str) : withoutWeak s <:+: s := by
  unfold withoutWeak
  split
  · exact (List.dropLast_prefix s).isInfix
  · exact List.infix_refl s

/-- With a word, all of its parts. -/
def HasParts (W : Set Str) : Prop := ∀ s ∈ W, ∀ t, t <:+: s → t ∈ W

/-- The facts about `n` dependencies in which only these words occur. -/
def factsOver (W : Set Str) (n : Nat) : Set Fact := {x |
  match x with
  | .active feature => feature ∈ W
  | .enabled i => i < n
  | .wants i feature => i < n ∧ feature ∈ W}

theorem factsOver_finite {W : Set Str} (hW : W.Finite) (n : Nat) : (factsOver W n).Finite := by
  have hn : {i : Nat | i < n}.Finite := Set.finite_lt_nat n
  have hall := ((hW.image Fact.active).union (hn.image Fact.enabled)).union
    ((hn.prod hW).image fun x => Fact.wants x.1 x.2)
  refine hall.subset fun x hx => ?_
  cases x with
  | active feature => exact .inl (.inl ⟨feature, hx, rfl⟩)
  | enabled i => exact .inl (.inr ⟨i, hx, rfl⟩)
  | wants i feature => exact .inr ⟨(i, feature), hx, rfl⟩

section Ends

variable {Version Spec Path : Type} {m : Manifest Version Spec Path} {W : Set Str}

/-- The words in the feature lists of a manifest. -/
def Manifest.featureWords (m : Manifest Version Spec Path) : List Str :=
  m.defaultFeature ++ m.features.flatMap (·.2)

theorem subFeatures_words {feature sub : Str} (h : sub ∈ subFeatures m feature) :
    sub ∈ m.featureWords := by
  unfold subFeatures at h
  split at h
  · exact List.mem_append_left _ h
  · cases hl : m.features.lookup feature with
    | none =>
      rw [hl] at h
      cases h
    | some subs =>
      rw [hl] at h
      obtain ⟨before, after, hlist, _⟩ := List.lookup_eq_some_iff.1 hl
      have hmem : (feature, subs) ∈ m.features :=
        hlist ▸ List.mem_append_right _ List.mem_cons_self
      exact List.mem_append_right _ (List.mem_flatMap.2 ⟨_, hmem, h⟩)

theorem mem_findDependencies {name : Str} {i : Nat} (h : i ∈ findDependencies m name) :
    i < m.dependencies.length := List.mem_range.1 (List.mem_of_mem_filter h)

variable (hW : HasParts W)

include hW

theorem asksActive_over {feature : Str} (h : feature ∈ W) (n : Nat) :
    asksActive feature ⊆ factsOver W n := by
  rintro _ ⟨-, rfl⟩
  exact hW feature h _ (trimSpace_isPart feature)

omit hW in
theorem asksEnabled_over (name : Str) :
    asksEnabled (findDependencies m name) ⊆ factsOver W m.dependencies.length := by
  refine Set.iUnion₂_subset fun i hi => ?_
  rintro _ rfl
  exact mem_findDependencies hi

theorem asksFeature_over {depName depFeature : Str} (hname : depName ∈ W)
    (hfeature : depFeature ∈ W) :
    asksFeature m depName depFeature ⊆ factsOver W m.dependencies.length := by
  have hplain : withoutWeak depName ∈ W := hW depName hname _ (withoutWeak_isPart depName)
  unfold asksFeature
  split
  · exact Set.empty_subset _
  · refine Set.union_subset ?_ (Set.iUnion₂_subset fun i hi => ?_)
    · split
      · exact Set.empty_subset _
      · refine Set.union_subset (asksEnabled_over _) ?_
        split
        · exact asksActive_over hW hplain _
        · exact Set.empty_subset _
    · rintro _ rfl
      exact ⟨mem_findDependencies hi, hfeature⟩

theorem asksSub_over {sub : Str} (h : sub ∈ W) :
    asksSub m sub ⊆ factsOver W m.dependencies.length := by
  unfold asksSub
  split
  · next depName depFeature hcut =>
    obtain ⟨hname, hfeature⟩ := cut_infix hcut
    exact asksFeature_over hW (hW sub h _ hname) (hW sub h _ hfeature)
  · exact asksActive_over hW h _

theorem rule_over (hm : ∀ sub ∈ m.featureWords, sub ∈ W) :
    Closed (rule m) (factsOver W m.dependencies.length) := by
  intro x hx
  cases x with
  | active feature =>
    change asks m feature ⊆ _
    unfold asks
    split
    · exact asksEnabled_over _
    · split
      · next depName depFeature hcut =>
        obtain ⟨hname, hfeature⟩ := cut_infix hcut
        exact asksFeature_over hW (hW feature hx _ hname) (hW feature hx _ hfeature)
      · exact Set.iUnion₂_subset fun sub hsub => asksSub_over hW (hm sub (subFeatures_words hsub))
  | enabled i => exact Set.empty_subset _
  | wants i feature => exact Set.empty_subset _

/-- With a bound on the facts, there is fuel for all states of the package. -/
theorem expandFeatures_ends (hfin : W.Finite) (hm : ∀ sub ∈ m.featureWords, sub ∈ W)
    {pkg : PackageState} (h : pkg.facts ⊆ factsOver W m.dependencies.length) :
    ∃ pkg', ∀ fuel, (factsOver W m.dependencies.length).ncard < fuel →
      expandFeatures m fuel pkg = some pkg' := by
  have hU := factsOver_finite hfin m.dependencies.length
  obtain ⟨pkg', hpkg'⟩ := saturate_ends expandRound_adds hU (rule_over hW hm)
    (k := (factsOver W m.dependencies.length).ncard + 1) h (by omega)
  exact ⟨pkg', fun fuel hfuel => hpkg' fuel hfuel⟩

omit hW

/-- What the loop returns is the least closed set of facts with those at the start. -/
theorem expandFeatures_facts {fuel : Nat} {pkg pkg' : PackageState}
    (h : expandFeatures m fuel pkg = some pkg') :
    pkg.facts ⊆ pkg'.facts ∧ Closed (rule m) pkg'.facts ∧
      ∀ T, pkg.facts ⊆ T → Closed (rule m) T → pkg'.facts ⊆ T :=
  saturate_facts expandRound_adds h

theorem expandFeatures_closed {pkg : PackageState} (h : Closed (rule m) pkg.facts) (fuel : Nat) :
    expandFeatures m (fuel + 1) pkg = some pkg :=
  saturate_closed expandRound_adds h fuel

/-- No feature has an empty name. -/
theorem asksActive_named (feature : Str) : asksActive feature ⊆ {x | x ≠ .active []} := by
  rintro _ ⟨hne, rfl⟩ heq
  exact hne (Fact.active.inj heq)

theorem rule_nonempty : Closed (rule m) {x | x ≠ .active []} := by
  have henabled : ∀ deps, asksEnabled deps ⊆ {x | x ≠ .active []} := by
    intro deps x hx
    obtain ⟨i, _, rfl⟩ := Set.mem_iUnion₂.1 hx
    exact nofun
  have hfeature : ∀ depName depFeature, asksFeature m depName depFeature ⊆
    {x | x ≠ .active []} := by
    intro depName depFeature
    unfold asksFeature
    split
    · exact Set.empty_subset _
    · refine Set.union_subset ?_ (Set.iUnion₂_subset fun i hi => ?_)
      · split
        · exact Set.empty_subset _
        · refine Set.union_subset (henabled _) ?_
          split
          · exact asksActive_named _
          · exact Set.empty_subset _
      · rintro _ rfl
        exact nofun
  intro x _
  cases x with
  | active feature =>
    change asks m feature ⊆ _
    unfold asks
    split
    · exact henabled _
    · split
      · exact hfeature _ _
      · refine Set.iUnion₂_subset fun sub _ => ?_
        unfold asksSub
        split
        · exact hfeature _ _
        · exact asksActive_named _
  | enabled i => exact Set.empty_subset _
  | wants i feature => exact Set.empty_subset _

end Ends

end Trustme.Cargo
