/-
  Subject:   The profiles of a workspace, and what they inherit (src/bin/cargo/build.go).

  * `applyProfileTable`, `resolveProfile`, `buildOverrideTables`: the functions, with fuel for the
    calls to themselves;
  * `inherited`, `parent`: the profile that each of the two goes on with;
  * `resolveProfile_iff`, `buildOverrideTables_iff`: they return just if the chain comes to an
    end, with every table of it applied once over those it inherits;
  * `profiles_exact`: that is, if `inherits` does not go in a circle.
-/
import Trustme.Lib.Chains
import Trustme.Cargo.Tasks

namespace Trustme.Cargo

open Trustme.Lib

/-! ## 1. Tables -/

/-- What `readToml` returns, as far as profiles read it. -/
inductive TomlValue where
  | string (s : Str)
  | int (i : Int)
  | bool (b : Bool)
  | table (fields : List (Str × TomlValue))
  | other

/-- `none` is the nil map, in which nothing is found. -/
abbrev TomlTable := Option (List (Str × TomlValue))

def TomlTable.get (table : TomlTable) (key : String) : Option TomlValue :=
  table.bind fun fields => fields.lookup (ascii key)

def mapValue : Option TomlValue → TomlTable
  | some (.table fields) => some fields
  | _ => none

def stringValue : Option TomlValue → Str
  | some (.string s) => s
  | _ => []

def boolValue (value : Option TomlValue) (fallback : Bool) : Bool :=
  match value with
  | some (.bool b) => b
  | _ => fallback

/-! ## 2. Profiles -/

structure Profile where
  name : Str
  optLevel : Str
  debug : Bool
  debugAssertions : Bool
  overflowChecks : Bool
  deriving DecidableEq

structure Workspace where
  profiles : List (Str × TomlValue)

def applyProfileTable (profile : Profile) (table : TomlTable) : Profile where
  name := profile.name
  optLevel :=
    match table.get "opt-level" with
    | some (.int i) => ascii (toString i)
    | some (.string s) => s
    | _ => profile.optLevel
  debug :=
    match table.get "debug" with
    | some (.bool b) => b
    | some (.int i) => decide (i ≠ 0)
    | some (.string s) => decide (s ≠ ascii "none")
    | _ => profile.debug
  debugAssertions := boolValue (table.get "debug-assertions") profile.debugAssertions
  overflowChecks := boolValue (table.get "overflow-checks") profile.overflowChecks

/-- `mapValue(workspace.profiles[name])`, if there is a workspace. -/
def profileTable (workspace : Option Workspace) (name : Str) : TomlTable :=
  workspace.bind fun w => mapValue (w.profiles.lookup name)

def devProfile : Profile := ⟨[], ascii "0", true, true, true⟩
def releaseProfile : Profile := ⟨[], ascii "3", false, false, false⟩

/-- The message for a profile that does not say what it inherits. -/
def inheritsNothing (name : Str) : Str :=
  ascii "profile `" ++ name ++ ascii "` does not name the profile it inherits"

section Functions

variable (workspace : Option Workspace)

/-- The end of `resolveProfile`. -/
def finish (name : Str) (profile : Profile) : Profile :=
  applyProfileTable { profile with name := name } (profileTable workspace name)

def resolveProfile : Nat → Str → Option (Except Str Profile)
  | 0, _ => none
  | fuel + 1, name =>
    if name = ascii "dev" then some (.ok (finish workspace name devProfile))
    else if name = ascii "release" then some (.ok (finish workspace name releaseProfile))
    else if name = ascii "test" then
      (resolveProfile fuel (ascii "dev")).map (Except.map (finish workspace name))
    else if name = ascii "bench" then
      (resolveProfile fuel (ascii "release")).map (Except.map (finish workspace name))
    else
      let parent := stringValue ((profileTable workspace name).get "inherits")
      if parent = [] ∨ parent = name then some (.error (inheritsNothing name))
      else (resolveProfile fuel parent).map (Except.map (finish workspace name))

/-- `build-override` of the profile, at the end of the tables it is inherited over. -/
def withOverride (name : Str) (tables : List (List (Str × TomlValue))) :
    List (List (Str × TomlValue)) :=
  tables ++ (mapValue ((profileTable workspace name).get "build-override")).toList

def buildOverrideTables : Nat → Str → Option (List (List (Str × TomlValue)))
  | 0, _ => none
  | fuel + 1, name =>
    if name = ascii "dev" ∨ name = ascii "release" then some (withOverride workspace name [])
    else if name = ascii "test" then
      (buildOverrideTables fuel (ascii "dev")).map (withOverride workspace name)
    else if name = ascii "bench" then
      (buildOverrideTables fuel (ascii "release")).map (withOverride workspace name)
    else
      (buildOverrideTables fuel (stringValue ((profileTable workspace name).get "inherits"))).map
        (withOverride workspace name)

end Functions

/-! ## 3. What is inherited -/

section Chains

variable (workspace : Option Workspace)

/-- The profile that `buildOverrideTables` goes on with; one that names none goes on with the
    profile whose name is empty. -/
def parent (name : Str) : Option Str :=
  if name = ascii "dev" ∨ name = ascii "release" then none
  else if name = ascii "test" then some (ascii "dev")
  else if name = ascii "bench" then some (ascii "release")
  else some (stringValue ((profileTable workspace name).get "inherits"))

/-- The profile that `resolveProfile` goes on with: it stops at one that names none, or itself. -/
def inherited (name : Str) : Option Str :=
  (parent workspace name).filter fun p => p ≠ [] ∧ p ≠ name

/-- A profile that inherits nothing. -/
def ownProfile (name : Str) : Except Str Profile :=
  if name = ascii "dev" then .ok (finish workspace name devProfile)
  else if name = ascii "release" then .ok (finish workspace name releaseProfile)
  else .error (inheritsNothing name)

/-- Every table of a chain over those behind it. -/
def profileOver : List Str → Except Str Profile
  | [] => .error []
  | [name] => ownProfile workspace name
  | name :: names => (profileOver names).map (finish workspace name)

/-- The overrides of a chain, those behind first. -/
def overridesOver : List Str → List (List (Str × TomlValue))
  | [] => []
  | name :: names => withOverride workspace name (overridesOver names)

end Chains

variable {workspace : Option Workspace} {name : Str} {names : List Str}

theorem profileOver_cons (hne : names ≠ []) :
    profileOver workspace (name :: names) = (profileOver workspace names).map
      (finish workspace name) := by
  cases names with
  | nil => exact absurd rfl hne
  | cons => rfl

theorem resolveProfile_succ (fuel : Nat) (name : Str) :
    resolveProfile workspace (fuel + 1) name =
      match inherited workspace name with
      | none => some (ownProfile workspace name)
      | some p => (resolveProfile workspace fuel p).map (Except.map (finish workspace name)) := by
  unfold inherited parent ownProfile
  rw [resolveProfile]
  by_cases hdev : name = ascii "dev"
  · rw [if_pos hdev, if_pos (.inl hdev), if_pos hdev]
    rfl
  by_cases hrelease : name = ascii "release"
  · rw [if_neg hdev, if_pos hrelease, if_pos (.inr hrelease), if_neg hdev, if_pos hrelease]
    rfl
  have hbuiltin : ¬ (name = ascii "dev" ∨ name = ascii "release") := fun h => h.elim hdev hrelease
  rw [if_neg hdev, if_neg hrelease, if_neg hbuiltin]
  by_cases htest : name = ascii "test"
  · subst htest
    rfl
  by_cases hbench : name = ascii "bench"
  · subst hbench
    rfl
  rw [if_neg htest, if_neg hbench, if_neg htest, if_neg hbench, if_neg hdev, if_neg hrelease]
  by_cases hstop : stringValue ((profileTable workspace name).get "inherits") = [] ∨
      stringValue ((profileTable workspace name).get "inherits") = name
  · rw [if_pos hstop, Option.filter_some, if_neg]
    simpa using fun h => hstop.resolve_left h
  · rw [if_neg hstop, Option.filter_some, if_pos]
    simpa using hstop

theorem buildOverrideTables_succ (fuel : Nat) (name : Str) :
    buildOverrideTables workspace (fuel + 1) name =
      match parent workspace name with
      | none => some (withOverride workspace name [])
      | some p => (buildOverrideTables workspace fuel p).map (withOverride workspace name) := by
  unfold parent
  rw [buildOverrideTables]
  split_ifs <;> rfl

/-! ## 4. Chains that end -/

theorem resolveProfile_along :
    Chains.Along (inherited workspace) (resolveProfile workspace) (profileOver workspace) where
  zero _ := rfl
  last a fuel h := by
    rw [resolveProfile_succ, h]
    rfl
  link a b fuel h := ⟨_, by rw [resolveProfile_succ, h], fun _ => profileOver_cons⟩

theorem buildOverrideTables_along :
    Chains.Along (parent workspace) (buildOverrideTables workspace)
      (overridesOver workspace) where
  zero _ := rfl
  last a fuel h := by
    rw [buildOverrideTables_succ, h]
    rfl
  link a b fuel h := ⟨_, by rw [buildOverrideTables_succ, h], fun _ _ => rfl⟩

/-- The profiles that others name, and those that are built in. -/
def namedProfiles (workspace : Option Workspace) : Finset Str :=
  [ascii "dev", ascii "release", []].toFinset ∪
    ((workspace.elim [] Workspace.profiles).map fun p =>
      stringValue ((mapValue (some p.2)).get "inherits")).toFinset

theorem parent_named {a b : Str} (h : parent workspace a = some b) :
    b ∈ namedProfiles workspace := by
  have hbuiltin : ∀ c ∈ [ascii "dev", ascii "release", []], c ∈ namedProfiles workspace :=
    fun c hc =>
    Finset.mem_union_left _ (List.mem_toFinset.mpr hc)
  unfold parent at h
  split_ifs at h
  · cases h
    exact hbuiltin _ (by simp)
  · cases h
    exact hbuiltin _ (by simp)
  · obtain rfl := Option.some.inj h
    cases htable : (workspace.elim [] Workspace.profiles).lookup a with
    | none =>
      have hnone : profileTable workspace a = none := by
        cases workspace with
        | none => rfl
        | some w => exact congrArg mapValue htable
      rw [hnone]
      exact hbuiltin [] (by simp)
    | some value =>
      have hsome : profileTable workspace a = mapValue (some value) := by
        cases workspace with
        | none => cases htable
        | some w => exact congrArg mapValue htable
      rw [hsome]
      obtain ⟨front, back, hsplit, -⟩ := List.lookup_eq_some_iff.mp htable
      have hmem : (a, value) ∈ workspace.elim [] Workspace.profiles :=
        hsplit ▸ List.mem_append_right front List.mem_cons_self
      exact Finset.mem_union_right _ (List.mem_toFinset.mpr (List.mem_map.mpr ⟨_, hmem, rfl⟩))

theorem parent_of_inherited {a b : Str} (h : inherited workspace a = some b) :
    parent workspace a = some b := (Option.filter_eq_some_iff.mp h).1

/-- A profile that is resolved is inherited from one that is built in, so its overrides are
    found. -/
theorem follows_parent (h : Chains.Follows (inherited workspace) name names) {profile : Profile}
    (hok : profileOver workspace names = .ok profile) :
      Chains.Follows (parent workspace) name names := by
  induction h generalizing profile with
  | @last a hnone =>
    have hbuiltin : a = ascii "dev" ∨ a = ascii "release" := by
      rw [profileOver, ownProfile] at hok
      split_ifs at hok with hdev hrelease
      · exact .inl hdev
      · exact .inr hrelease
    exact .last (if_pos hbuiltin)
  | link hlink hb ih =>
    rw [profileOver_cons hb.ne_nil] at hok
    cases hrest : profileOver workspace _ with
    | error e =>
      rw [hrest] at hok
      cases hok
    | ok profile' => exact .link (parent_of_inherited hlink) (ih hrest)

/-! ## 5. Chains that go in a circle -/

theorem resolveProfile_iff (workspace : Option Workspace) (name : Str) :
    (∃ fuel r, resolveProfile workspace fuel name = some r) ↔
      ¬ Chains.Circles (inherited workspace) name :=
  resolveProfile_along.returns_iff (fun _ _ h => parent_named (parent_of_inherited h)) name

theorem buildOverrideTables_iff (workspace : Option Workspace) (name : Str) :
    (∃ fuel tables, buildOverrideTables workspace fuel name = some tables) ↔
      ¬ Chains.Circles (parent workspace) name :=
  buildOverrideTables_along.returns_iff (fun _ _ => parent_named) name

/-- Each returns just if what it follows does not go in a circle; then every table of the chain is
    applied once, over those behind it, and a profile that is resolved has its overrides. -/
theorem profiles_exact (workspace : Option Workspace) (name : Str) :
    ((∃ fuel r, resolveProfile workspace fuel name = some r) ↔
      ¬ Chains.Circles (inherited workspace) name) ∧
    ((∃ fuel tables, buildOverrideTables workspace fuel name = some tables) ↔
      ¬ Chains.Circles (parent workspace) name) ∧
    (∀ fuel r, resolveProfile workspace fuel name = some r →
      ∃ names, Chains.Follows (inherited workspace) name names ∧ names.Nodup ∧
        r = profileOver workspace names) ∧
    (∀ fuel tables, buildOverrideTables workspace fuel name = some tables →
      ∃ names, Chains.Follows (parent workspace) name names ∧ names.Nodup ∧
        tables = overridesOver workspace names) ∧
    ∀ fuel profile, resolveProfile workspace fuel name = some (.ok profile) →
      ∃ fuel tables, buildOverrideTables workspace fuel name = some tables := by
  refine ⟨resolveProfile_iff workspace name, buildOverrideTables_iff workspace name,
    fun fuel r hr => ?_,
    fun fuel tables htables => ?_, fun fuel profile hok => ?_⟩
  · obtain ⟨names, hnames, hr⟩ := resolveProfile_along.follows hr
    exact ⟨names, hnames, hnames.nodup, hr⟩
  · obtain ⟨names, hnames, htables⟩ := buildOverrideTables_along.follows htables
    exact ⟨names, hnames, hnames.nodup, htables⟩
  · obtain ⟨names, hnames, hr⟩ := resolveProfile_along.follows hok
    obtain ⟨fuel', hfuel'⟩ := buildOverrideTables_along.runs (follows_parent hnames hr.symm)
    exact ⟨fuel', _, hfuel'⟩

/-- `a` inherits `b`, and `b` inherits `a`. -/
def twoProfiles : Workspace where
  profiles := [(ascii "a", .table [(ascii "inherits", .string (ascii "b"))]),
    (ascii "b", .table [(ascii "inherits", .string (ascii "a"))])]

theorem resolveProfile_for_ever :
    (¬ ∃ fuel r, resolveProfile (some twoProfiles) fuel (ascii "a") = some r) ∧
      ¬ ∃ fuel tables, buildOverrideTables (some twoProfiles) fuel (ascii "a") = some tables := by
  have hboth : ∀ fuel,
      (resolveProfile (some twoProfiles) fuel (ascii "a") = none ∧
        resolveProfile (some twoProfiles) fuel (ascii "b") = none) ∧
      buildOverrideTables (some twoProfiles) fuel (ascii "a") = none ∧
        buildOverrideTables (some twoProfiles) fuel (ascii "b") = none := by
    intro fuel
    induction fuel with
    | zero => exact ⟨⟨rfl, rfl⟩, rfl, rfl⟩
    | succ fuel ih =>
      obtain ⟨⟨ha, hb⟩, ha', hb'⟩ := ih
      refine ⟨⟨?_, ?_⟩, ?_, ?_⟩
      · exact congrArg (Option.map (Except.map (finish (some twoProfiles) (ascii "a")))) hb
      · exact congrArg (Option.map (Except.map (finish (some twoProfiles) (ascii "b")))) ha
      · exact congrArg (Option.map (withOverride (some twoProfiles) (ascii "a"))) hb'
      · exact congrArg (Option.map (withOverride (some twoProfiles) (ascii "b"))) ha'
  refine ⟨fun ⟨fuel, r, hr⟩ => ?_, fun ⟨fuel, tables, htables⟩ => ?_⟩
  · cases (hboth fuel).1.1.symm.trans hr
  · cases (hboth fuel).2.1.symm.trans htables

end Trustme.Cargo
