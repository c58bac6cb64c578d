/-
  Subject:   What holds between two steps of `resolveGraph` (src/bin/cargo/resolve.go), and how
             asking for one dependency keeps it.

  * `featureRevision_grows`: a revision is longer with every new feature;
  * `SoundRepository`: a repository of finitely many manifests and words;
  * `Wanted`: the dependencies that are asked for, in whatever order;
  * `Inv`: what holds between two steps of the loop;
  * `requestDependency_inv`: one step of the loop over the dependencies.
-/
import Trustme.Cargo.Resolve
import Mathlib.Algebra.Order.BigOperators.Group.Finset

namespace Trustme.Cargo

open Trustme.Lib

/-! ## 1. Revisions -/

theorem length_intercalate : ∀ l : List Str,
    ([0].intercalate l).length = (l.map fun f => f.length + 1).sum - 1
  | [] => rfl
  | [f] => by
    rw [List.intercalate_singleton]
    rfl
  | f :: g :: l => by
    have hrest := length_intercalate (g :: l)
    rw [List.map_cons, List.sum_cons] at hrest
    rw [List.intercalate_cons_cons, List.length_append, List.length_append, hrest, List.map_cons,
      List.map_cons, List.sum_cons, List.sum_cons, List.length_singleton]
    omega

theorem length_featureRevision (S : Finset Str) :
    (featureRevision S).length = ∑ f ∈ S, (f.length + 1) - 1 := by
  rw [featureRevision, length_intercalate, Finset.sum, ← Finset.sort_eq S (· ≤ ·),
    Multiset.map_coe, Multiset.sum_coe]
  rfl

variable {S T : Finset Str}

theorem sum_ssubset (h : S ⊂ T) (hT : [] ∉ T) :
    ∑ f ∈ S, (f.length + 1) + 2 ≤ ∑ f ∈ T, (f.length + 1) := by
  obtain ⟨hsub, hne⟩ := h
  obtain ⟨f, hf, hnot⟩ := Finset.not_subset.1 hne
  have hlen : 1 ≤ f.length := by
    cases f with
    | nil => exact absurd hf hT
    | cons b f => exact Nat.le_add_left 1 _
  have hle : ∑ g ∈ insert f S, (g.length + 1) ≤ ∑ g ∈ T, (g.length + 1) :=
    Finset.sum_le_sum_of_subset (Finset.insert_subset hf hsub)
  rw [Finset.sum_insert hnot] at hle
  omega

/-- A revision is longer with every new feature. -/
theorem featureRevision_grows (h : S ⊂ T) (hT : [] ∉ T) :
    (featureRevision S).length < (featureRevision T).length := by
  have hsum := sum_ssubset h hT
  rw [length_featureRevision, length_featureRevision]
  omega

theorem featureRevision_le (h : S ⊆ T) (hT : [] ∉ T) :
    (featureRevision S).length ≤ (featureRevision T).length := by
  rcases h.eq_or_ssubset with rfl | h
  · exact Nat.le_refl _
  · exact Nat.le_of_lt (featureRevision_grows h hT)

/-- So the features of a package are the same when their revision is. -/
theorem featureRevision_injective (h : S ⊆ T) (hT : [] ∉ T)
    (heq : featureRevision S = featureRevision T) : S = T := by
  rcases h.eq_or_ssubset with rfl | h
  · rfl
  · have hlt := featureRevision_grows h hT
    rw [heq] at hlt
    exact absurd hlt (Nat.lt_irrefl _)

section Runs

variable {Version Spec Path : Type} [DecidableEq Path]
variable {ctx : BuildContext Version Spec Path}

/-! ## 2. Repositories -/

/-- All packages that there can be. -/
def known (ctx : BuildContext Version Spec Path) : List (PackageId Path) :=
  ctx.files.map (fun f => .file f.1) ++ ctx.files.flatMap fun f =>
    (manifest ctx (.file f.1)).dependencies.mapIdx fun i dep => .magic dep.name f.1 i

/-- Finitely many words, with all that the manifests and the options have. -/
structure Words (ctx : BuildContext Version Spec Path) (W : Set Str) : Prop where
  finite : W.Finite
  parts : HasParts W
  manifests : ∀ id, ∀ sub ∈ (manifest ctx id).featureWords, sub ∈ W
  names : ∀ feature ∈ (manifest ctx (.file ctx.root)).features.map (·.1), feature ∈ W
  options : ∀ feature ∈ ctx.opts.features, feature ∈ W
  default : ascii "default" ∈ W

/-- A repository in which what is loaded are the manifests of files, and packages are made of these
    words. -/
structure SoundRepository (ctx : BuildContext Version Spec Path) (W : Set Str)
    (repo : Repository Path) : Prop where
  loaded : ∀ path ∈ repo.byPath, .file path ∈ known ctx
  byName : ∀ name, ∀ path ∈ repo.byName name, .file path ∈ known ctx
  refs : ∀ owner i id, repo.packageRef owner i = some id → id ∈ known ctx
  inside : ∀ id ∈ known ctx,
    (repo.packages id).facts ⊆ factsOver W (manifest ctx id).dependencies.length
  named : ∀ id ∈ known ctx, [] ∉ (repo.packages id).activeFeatures

variable {path owner : Path}

theorem file_known {m : Manifest Version Spec Path}
    (h : ctx.files.lookup path = some m) : .file path ∈ known ctx := by
  obtain ⟨before, after, hlist, _⟩ := List.lookup_eq_some_iff.1 h
  have hmem : (path, m) ∈ ctx.files := hlist ▸ List.mem_append_right _ List.mem_cons_self
  exact List.mem_append_left _ (List.mem_map.2 ⟨_, hmem, rfl⟩)

variable {dep : Dependency Spec Path}

theorem magic_known {i : Nat} (howner : .file owner ∈ known ctx)
    (hdep : (manifest ctx (.file owner)).dependencies[i]? = some dep) :
    .magic dep.name owner i ∈ known ctx := by
  obtain ⟨f, hf, rfl⟩ : ∃ f ∈ ctx.files, f.1 = owner := by
    rcases List.mem_append.1 howner with h | h
    · obtain ⟨f, hf, heq⟩ := List.mem_map.1 h
      exact ⟨f, hf, PackageId.file.inj heq⟩
    · obtain ⟨f, _, h⟩ := List.mem_flatMap.1 h
      obtain ⟨i, _, heq⟩ := List.mem_mapIdx.1 h
      cases heq
  obtain ⟨hi, rfl⟩ := List.getElem?_eq_some_iff.1 hdep
  exact List.mem_append_right _ (List.mem_flatMap.2 ⟨f, hf, List.mem_mapIdx.2 ⟨i, hi, rfl⟩⟩)

/-- What resolving a dependency leaves, and what it adds. -/
structure Resolves (ctx : BuildContext Version Spec Path) (repo : Repository Path) (owner : Path)
    (i : Nat) (child : PackageId Path) (repo' : Repository Path) : Prop where
  packages : repo'.packages = repo.packages
  ref : repo'.packageRef owner i = some child
  refs : ∀ path j id, repo.packageRef path j = some id → repo'.packageRef path j = some id
  only : ∀ path j id, repo'.packageRef path j = some id →
    repo.packageRef path j = some id ∨ (path = owner ∧ j = i ∧ id = child)
  mem : child ∈ known ctx

variable {repo : Repository Path}

theorem setRef_facts {W : Set Str} {i : Nat} {id : PackageId Path} (h : SoundRepository ctx W repo)
    (hnone : repo.packageRef owner i = none) (hid : id ∈ known ctx) :
    SoundRepository ctx W (repo.setRef owner i id) ∧
      Resolves ctx repo owner i id (repo.setRef owner i id) := by
  refine ⟨{ h with refs := fun path j id' hid' => ?_ }, ⟨rfl, if_pos ⟨rfl, rfl⟩, ?_, ?_, hid⟩⟩
  · simp only [Repository.setRef] at hid'
    split at hid'
    · cases hid'
      exact hid
    · exact h.refs path j id' hid'
  · intro path j id' hid'
    simp only [Repository.setRef]
    split
    · next heq =>
      obtain ⟨rfl, rfl⟩ := heq
      rw [hnone] at hid'
      cases hid'
    · exact hid'
  · intro path j id' hid'
    simp only [Repository.setRef] at hid'
    split at hid'
    · next heq =>
      cases hid'
      exact .inr ⟨heq.1, heq.2, rfl⟩
    · exact .inl hid'

theorem loadPath_facts {W : Set Str} {repo' : Repository Path} {id : PackageId Path}
    (h : SoundRepository ctx W repo) (hload : loadPath ctx path repo = .ok (id, repo')) :
    SoundRepository ctx W repo' ∧ repo'.packages = repo.packages ∧
      repo'.packageRef = repo.packageRef ∧
      id = .file path ∧ id ∈ known ctx := by
  unfold loadPath at hload
  split at hload
  · next hmem =>
    cases hload
    exact ⟨h, rfl, rfl, rfl, h.loaded path hmem⟩
  · split at hload
    · cases hload
    · next m hm =>
      cases hload
      have hknown := file_known hm
      refine ⟨{ h with loaded := ?_, byName := ?_ }, rfl, rfl, rfl, hknown⟩
      · intro path' hpath'
        rcases List.mem_cons.1 hpath' with rfl | hpath'
        · exact hknown
        · exact h.loaded path' hpath'
      · intro name path' hpath'
        by_cases hname : name = m.name
        · subst hname
          simp only [Function.update_self] at hpath'
          rcases List.mem_append.1 hpath' with hpath' | hpath'
          · exact h.byName _ path' hpath'
          · rw [List.mem_singleton.1 hpath']
            exact hknown
        · simp only [Function.update_of_ne hname] at hpath'
          exact h.byName name path' hpath'

variable [DecidableEq Version]

theorem choose_mem {byName : Str → List Path}
    (h : choose ctx byName dep = some path) : path ∈ byName dep.name := by
  rcases (Option.orElse_eq_some _ _ _).1 h with h | ⟨_, h⟩
  · exact List.mem_of_find?_eq_some h
  · exact List.mem_of_find?_eq_some h

theorem resolve_facts {W : Set Str} {repo' : Repository Path} {i : Nat} {child : PackageId Path}
    (h : SoundRepository ctx W repo) (howner : .file owner ∈ known ctx)
    (hdep : (manifest ctx (.file owner)).dependencies[i]? = some dep)
    (hres : resolve ctx owner i dep repo = .ok (child, repo')) :
    SoundRepository ctx W repo' ∧ Resolves ctx repo owner i child repo' := by
  unfold resolve at hres
  split at hres
  · next id hid =>
    cases hres
    exact ⟨h, rfl, hid, fun _ _ _ hid' => hid', fun _ _ _ hid' => .inl hid', h.refs _ _ _ hid⟩
  · next hnone =>
    split at hres
    · next path hpath =>
      split at hres
      · cases hres
      · next id repo₁ hload =>
        cases hres
        obtain ⟨h₁, hpackages, hrefs, _, hknown⟩ := loadPath_facts h hload
        obtain ⟨h₂, hres⟩ := setRef_facts h₁ (hrefs ▸ hnone) hknown
        exact ⟨h₂, hres.packages.trans hpackages, hres.ref,
          fun path j id' hid' => hres.refs path j id' (hrefs ▸ hid'),
          fun path j id' hid' => hrefs ▸ hres.only path j id' hid', hres.mem⟩
    · split at hres
      · next path hpath =>
        cases hres
        exact setRef_facts h hnone (h.byName _ path (choose_mem hpath))
      · split at hres
        · cases hres
          exact setRef_facts h hnone (magic_known howner hdep)
        · cases hres

/-- A dependency that is resolved stays so. -/
theorem resolve_again {i : Nat} {child : PackageId Path} (dep : Dependency Spec Path)
    (h : repo.packageRef owner i = some child) :
    resolve ctx owner i dep repo = .ok (child, repo) := by
  rw [resolve, h]

/-! ## 3. The dependencies that are asked for -/

/-- A table applies: it is not a target table, or its condition holds. -/
def Applies (ctx : BuildContext Version Spec Path) (active : Finset Str) : Option Str → Prop
  | none => True
  | some condition => targetTableMatches ctx condition active = .ok true

/-- A dependency that `enabledDependencies` leaves, in whatever order. -/
structure Wanted (ctx : BuildContext Version Spec Path) (m : Manifest Version Spec Path)
    (pkg : PackageState) (dev : Bool) (i : Nat) : Prop where
  table : ∃ dep, m.dependencies[i]? = some dep ∧ Applies ctx pkg.activeFeatures dep.table ∧
    (∀ condition, dep.table = some condition → condition ∈ m.targetTables) ∧
    (dep.kind = .build → m.buildScript = true) ∧ (dep.kind = .dev → dev = true)
  on : isOptional m i = true → (pkg.dependencies i).enabled = true

section Enabled

variable {m : Manifest Version Spec Path} {pkg : PackageState} {dev : Bool} {i : Nat}

omit [DecidableEq Path] [DecidableEq Version] in
theorem mem_tableOf {table : Option Str} {kind : DependencyKind} : i ∈ tableOf m table kind ↔
    ∃ dep, m.dependencies[i]? = some dep ∧ dep.table = table ∧ dep.kind = kind := by
  rw [tableOf, List.mem_filter, List.mem_range, beq_iff_eq, Option.map_eq_some_iff]
  constructor
  · rintro ⟨_, dep, hdep, heq⟩
    cases heq
    exact ⟨dep, hdep, rfl, rfl⟩
  · rintro ⟨dep, hdep, rfl, rfl⟩
    exact ⟨(List.getElem?_eq_some_iff.1 hdep).1, dep, hdep, rfl⟩

omit [DecidableEq Path] [DecidableEq Version] in
theorem mem_groupOf {table : Option Str} : i ∈ groupOf m dev table ↔
    ∃ dep, m.dependencies[i]? = some dep ∧ dep.table = table ∧
      (dep.kind = .build → m.buildScript = true) ∧ (dep.kind = .dev → dev = true) := by
  have hif : ∀ {b : Bool} {kind : DependencyKind},
      i ∈ (if b then tableOf m table kind else []) ↔ b = true ∧ i ∈ tableOf m table kind := by
    intro b kind
    cases b <;> simp
  rw [groupOf, List.mem_append, List.mem_append, hif, hif, mem_tableOf, mem_tableOf, mem_tableOf]
  constructor
  · rintro ((⟨dep, hdep, ht, hk⟩ | ⟨hb, dep, hdep, ht, hk⟩) | ⟨hd, dep, hdep, ht, hk⟩)
    · exact ⟨dep, hdep, ht, fun h => absurd (hk.symm.trans h) (by decide),
        fun h => absurd (hk.symm.trans h) (by decide)⟩
    · exact ⟨dep, hdep, ht, fun _ => hb, fun h => absurd (hk.symm.trans h) (by decide)⟩
    · exact ⟨dep, hdep, ht, fun h => absurd (hk.symm.trans h) (by decide), fun _ => hd⟩
  · rintro ⟨dep, hdep, ht, hb, hd⟩
    cases hk : dep.kind with
    | main => exact .inl (.inl ⟨dep, hdep, ht, hk⟩)
    | build => exact .inl (.inr ⟨hb hk, dep, hdep, ht, hk⟩)
    | dev => exact .inr ⟨hd hk, dep, hdep, ht, hk⟩

omit [DecidableEq Path] [DecidableEq Version] in
theorem mem_matchingGroups {active : Finset Str} : ∀ {tables : List Str} {deps : List Nat},
    matchingGroups ctx m dev active tables = .ok deps →
      (i ∈ deps ↔ ∃ condition ∈ tables, targetTableMatches ctx condition active = .ok true ∧
        i ∈ groupOf m dev (some condition))
  | [], deps, h => by
    cases h
    simp
  | condition :: rest, deps, h => by
    rw [matchingGroups] at h
    cases hmatch : targetTableMatches ctx condition active with
    | error e =>
      rw [hmatch] at h
      cases h
    | ok matched =>
      cases hrest : matchingGroups ctx m dev active rest with
      | error e =>
        rw [hmatch, hrest] at h
        cases h
      | ok deps' =>
        rw [hmatch, hrest] at h
        cases h
        rw [List.mem_append, mem_matchingGroups hrest]
        cases matched <;> simp [hmatch]

omit [DecidableEq Path] [DecidableEq Version] in
theorem matchingGroups_ok {active : Finset Str} : ∀ {tables : List Str},
    (∃ deps, matchingGroups ctx m dev active tables = .ok deps) ↔
      ∀ condition ∈ tables, ∃ matched, targetTableMatches ctx condition active = .ok matched
  | [] => by simp [matchingGroups]
  | condition :: rest => by
    have hrest : (∃ deps, matchingGroups ctx m dev active rest = .ok deps) ↔
        ∀ condition ∈ rest, ∃ matched, targetTableMatches ctx condition active = .ok matched :=
      matchingGroups_ok
    rw [matchingGroups]
    cases hmatch : targetTableMatches ctx condition active with
    | error e => simp [hmatch]
    | ok matched =>
      simp only [List.mem_cons, forall_eq_or_imp, hmatch, ← hrest]
      cases matchingGroups ctx m dev active rest <;> simp

omit [DecidableEq Path] [DecidableEq Version] in
/-- Which dependencies are left does not depend on the order of the target tables. -/
theorem mem_enabledDependencies {tables : List Str} {deps : List Nat}
    (hperm : tables.Perm m.targetTables)
    (h : enabledDependencies ctx m pkg dev tables = .ok deps) :
    i ∈ deps ↔ Wanted ctx m pkg dev i := by
  unfold enabledDependencies at h
  split at h
  · cases h
  · next deps' hgroups =>
    cases h
    rw [List.mem_filter, List.mem_append, mem_matchingGroups hgroups, mem_groupOf]
    have hon : (!isOptional m i || (pkg.dependencies i).enabled) = true ↔
        (isOptional m i = true → (pkg.dependencies i).enabled = true) := by
      cases isOptional m i <;> simp
    rw [hon]
    constructor
    · rintro ⟨⟨dep, hdep, ht, hb, hd⟩ | ⟨condition, hc, hmatch, hgroup⟩, henabled⟩
      · refine ⟨⟨dep, hdep, ?_, fun condition hcond => ?_, hb, hd⟩, henabled⟩
        · rw [ht]
          trivial
        · rw [ht] at hcond
          cases hcond
      · obtain ⟨dep, hdep, ht, hb, hd⟩ := mem_groupOf.1 hgroup
        refine ⟨⟨dep, hdep, ?_, fun condition' hcond => ?_, hb, hd⟩, henabled⟩
        · rw [ht]
          exact hmatch
        · rw [ht] at hcond
          cases hcond
          exact hperm.mem_iff.1 hc
    · rintro ⟨⟨dep, hdep, happlies, htables, hb, hd⟩, henabled⟩
      refine ⟨?_, henabled⟩
      cases ht : dep.table with
      | none => exact .inl ⟨dep, hdep, ht, hb, hd⟩
      | some condition =>
        rw [ht] at happlies
        exact .inr ⟨condition, hperm.mem_iff.2 (htables condition ht), happlies,
          mem_groupOf.2 ⟨dep, hdep, ht, hb, hd⟩⟩

end Enabled

/-! ## 4. Between two steps -/

/-- A dependency that has been gone through. -/
structure Answered (ctx : BuildContext Version Spec Path) (st : Resolution Path) (owner : Path)
    (dep : Dependency Spec Path) (i : Nat) (child : PackageId Path) : Prop where
  ref : st.repo.packageRef owner i = some child
  reached : child ∈ st.queue ∨ st.visitedRevision child ≠ none
  asked : asksChild (manifest ctx child) ((st.repo.packages (.file owner)).dependencies i).features
    dep.defaultFeatures ⊆ (st.repo.packages child).facts

/-- A package of which all is done, apart from the dependencies `skip`. -/
structure Settled (ctx : BuildContext Version Spec Path) (st : Resolution Path) (skip : Nat → Prop)
    (id : PackageId Path) : Prop where
  closed : Closed (rule (manifest ctx id)) (st.repo.packages id).facts
  tables : ∀ condition ∈ (manifest ctx id).targetTables, ∃ matched,
    targetTableMatches ctx condition (st.repo.packages id).activeFeatures = .ok matched
  answered : ∀ owner i dep, id = .file owner → (manifest ctx id).dependencies[i]? = some dep →
    Wanted ctx (manifest ctx id) (st.repo.packages id) (includeDev ctx id) i → ¬ skip i →
      ∃ child, Answered ctx st owner dep i child

/-- A package that has been visited has had the features `S` then, and is in the queue if there are
    others now. -/
structure VisitedWith (ctx : BuildContext Version Spec Path) (st : Resolution Path)
    (skip : Nat → Prop)
    (id : PackageId Path) (S : Finset Str) : Prop where
  sub : S ⊆ (st.repo.packages id).activeFeatures
  same : id ∉ st.queue → S = (st.repo.packages id).activeFeatures
  settled : S = (st.repo.packages id).activeFeatures → Settled ctx st skip id

/-- What holds between two steps, when the dependencies `skip` are still to be gone through. -/
structure Inv (ctx : BuildContext Version Spec Path) (W : Set Str)
    (skip : PackageId Path → Nat → Prop)
    (st : Resolution Path) : Prop where
  sound : SoundRepository ctx W st.repo
  queue : ∀ id ∈ st.queue, id ∈ known ctx
  queued : ∀ id, st.queued id = true → id ∈ st.queue
  packages : ∀ id, id ∈ st.packages ↔ st.visitedRevision id ≠ none
  nodup : st.packages.Nodup
  root : .file ctx.root ∈ st.queue ∨ st.visitedRevision (.file ctx.root) ≠ none
  visited : ∀ id r, st.visitedRevision id = some r →
    ∃ S, r = featureRevision S ∧ VisitedWith ctx st (skip id) id S

section Steps

variable {W : Set Str} {st st' : Resolution Path}

/-- What one step leaves of the others: facts are not lost, and what was reached stays so. -/
structure Later (st st' : Resolution Path) : Prop where
  facts : ∀ id, (st.repo.packages id).facts ⊆ (st'.repo.packages id).facts
  refs : ∀ owner i id, st.repo.packageRef owner i = some id → st'.repo.packageRef owner i = some id
  reached : ∀ id, id ∈ st.queue ∨ st.visitedRevision id ≠ none →
    id ∈ st'.queue ∨ st'.visitedRevision id ≠ none

variable {id : PackageId Path}

omit [DecidableEq Version] in
theorem Settled.later {skip skip' : Nat → Prop} (h : Settled ctx st skip id) (hl : Later st st')
    (hsame : st'.repo.packages id = st.repo.packages id)
    (hskip : ∀ i, skip i → ¬ skip' i → ∀ owner dep, id = .file owner →
      (manifest ctx id).dependencies[i]? = some dep → ∃ child, Answered ctx st' owner dep i child) :
    Settled ctx st' skip' id where
  closed := hsame ▸ h.closed
  tables := hsame ▸ h.tables
  answered owner i dep hid hdep hwanted hnot := by
    by_cases hi : skip i
    · exact hskip i hi hnot owner dep hid hdep
    · obtain ⟨child, href, hreached, hasked⟩ := h.answered owner i dep hid hdep (hsame ▸ hwanted) hi
      subst hid
      exact ⟨child, hl.refs _ _ _ href, hl.reached _ hreached,
        hsame ▸ hasked.trans (hl.facts child)⟩

/-! ## 5. One dependency -/

/-- The dependencies of the package at `owner` that are still to be gone through. -/
def Left (owner : Path) (deps : List Nat) (id : PackageId Path) (i : Nat) : Prop :=
  id = .file owner ∧ i ∈ deps

omit [DecidableEq Path] [DecidableEq Version] in
theorem facts_active {pkg pkg' : PackageState} (h : pkg.facts ⊆ pkg'.facts) :
    pkg.activeFeatures ⊆ pkg'.activeFeatures := fun f hf =>
      h (show Fact.active f ∈ pkg.facts from hf)

variable {repo : Repository Path} {owner : Path}

omit [DecidableEq Version] in
/-- The words that a dependency asks of another package are among those there are. -/
theorem asksChild_over (hW : Words ctx W) (h : SoundRepository ctx W repo)
    (howner : .file owner ∈ known ctx) (i : Nat) (defaults : Bool) (child : PackageId Path) :
    asksChild (manifest ctx child) ((repo.packages (.file owner)).dependencies i).features
      defaults ⊆
      factsOver W (manifest ctx child).dependencies.length := by
  refine Set.union_subset ?_ (Set.iUnion₂_subset fun feature hfeature => ?_)
  · split
    · exact asksActive_over hW.parts hW.default _
    · exact Set.empty_subset _
  · have hmem : Fact.wants i feature ∈ (repo.packages (.file owner)).facts := hfeature
    exact asksActive_over hW.parts (h.inside _ howner hmem).2 _

omit [DecidableEq Version] in
/-- A package of which more features are asked. -/
theorem setPackage_sound (h : SoundRepository ctx W repo) {pkg : PackageState}
    (hover : pkg.facts ⊆ factsOver W (manifest ctx id).dependencies.length)
    (hnamed : [] ∉ pkg.activeFeatures) : SoundRepository ctx W (repo.setPackage id pkg) := by
  refine { h with inside := fun id' hid' => ?_, named := fun id' hid' => ?_ }
  · by_cases heq : id' = id
    · subst heq
      simpa only [Repository.setPackage, Function.update_self] using hover
    · simpa only [Repository.setPackage, Function.update_of_ne heq] using h.inside id' hid'
  · by_cases heq : id' = id
    · subst heq
      simpa only [Repository.setPackage, Function.update_self] using hnamed
    · simpa only [Repository.setPackage, Function.update_of_ne heq] using h.named id' hid'

/-- The package `child` that the `i`-th dependency is resolved to is asked for its features. -/
structure Requests (ctx : BuildContext Version Spec Path) (owner : Path) (st st' : Resolution Path)
    (i : Nat) (dep : Dependency Spec Path) (child : PackageId Path) (repo : Repository Path)
    (r : PackageState × Bool) : Prop where
  resolved : resolve ctx owner i dep st.repo = .ok (child, repo)
  asked : r = requestFeatures (manifest ctx child)
    ((repo.packages (.file owner)).dependencies i).features dep.defaultFeatures
      (repo.packages child)
  repo : st'.repo = repo.setPackage child r.1
  visited : st'.visitedRevision = st.visitedRevision
  packages : st'.packages = st.packages
  queue : (st'.queue = st.queue ++ [child] ∧ st'.queued = Function.update st.queued child true) ∨
    (st'.queue = st.queue ∧ st'.queued = st.queued ∧
      (st.queued child = true ∨ (r.2 = false ∧ st.visitedRevision child ≠ none)))

theorem requestDependency_cases {i : Nat} (h : requestDependency ctx owner st i = .ok st') :
    ((manifest ctx (.file owner)).dependencies[i]? = none ∧ st' = st) ∨
      ∃ dep child repo r, (manifest ctx (.file owner)).dependencies[i]? = some dep ∧
        Requests ctx owner st st' i dep child repo r := by
  unfold requestDependency at h
  split at h
  · next hnone =>
    cases h
    exact .inl ⟨hnone, rfl⟩
  · next dep hdep =>
    split at h
    · cases h
    · next child repo hres =>
      generalize hr : requestFeatures (manifest ctx child)
        ((repo.packages (.file owner)).dependencies i).features dep.defaultFeatures
        (repo.packages child) = r at h
      refine .inr ⟨dep, child, repo, r, hdep, ?_⟩
      simp only [hr] at h
      split at h
      · cases h
        exact ⟨hres, hr.symm, rfl, rfl, rfl, .inl ⟨rfl, rfl⟩⟩
      · next hpush =>
        cases h
        refine ⟨hres, hr.symm, rfl, rfl, rfl, .inr ⟨rfl, rfl, ?_⟩⟩
        cases hqueued : st.queued child with
        | true => exact .inl rfl
        | false =>
          refine .inr ?_
          simp only [hqueued, Bool.not_false, Bool.and_true, Bool.or_eq_true, not_or,
            Bool.not_eq_true, beq_eq_false_iff_ne] at hpush
          refine ⟨hpush.1, fun hnone => hpush.2 ?_⟩
          rw [hnone]
          rfl

section OneDependency

variable {owner : Path} {i : Nat} {dep : Dependency Spec Path} {child : PackageId Path}
variable {repo : Repository Path} {r : PackageState × Bool}

variable (h : Requests ctx owner st st' i dep child repo r)

include h

theorem Requests.queue_sub :
    ∀ id ∈ st.queue, id ∈ st'.queue := by
  intro id hid
  rcases h.queue with ⟨hq, -⟩ | ⟨hq, -, -⟩
  · rw [hq]
    exact List.mem_append_left _ hid
  · rw [hq]
    exact hid

/-- What comes to the queue is the package asked. -/
theorem Requests.mem_queue {id : PackageId Path}
    (hid : id ∈ st'.queue) : id ∈ st.queue ∨ id = child := by
  rcases h.queue with ⟨hq, -⟩ | ⟨hq, -, -⟩
  · rw [hq] at hid
    rcases List.mem_append.1 hid with hid | hid
    · exact .inl hid
    · exact .inr (List.mem_singleton.1 hid)
  · rw [hq] at hid
    exact .inl hid

theorem Requests.other
    (hpackages : repo.packages = st.repo.packages) {id : PackageId Path} (hid : id ≠ child) :
    st'.repo.packages id = st.repo.packages id := by
  rw [h.repo, ← hpackages]
  exact Function.update_of_ne hid _ _

theorem Requests.child_state :
    st'.repo.packages child = r.1 := by
  rw [h.repo]
  exact Function.update_self _ _ _

/-- When the features of a package are as before, it is as before. -/
theorem Requests.same (hpackages : repo.packages = st.repo.packages) {id : PackageId Path}
    (hid : (st'.repo.packages id).activeFeatures = (st.repo.packages id).activeFeatures) :
    st'.repo.packages id = st.repo.packages id := by
  by_cases heq : id = child
  · subst heq
    rw [h.child_state] at hid ⊢
    rw [← hpackages] at hid ⊢
    rw [h.asked] at hid ⊢
    rw [requestFeatures_idle hid]
  · exact h.other hpackages heq

theorem Requests.later (hres : Resolves ctx st.repo owner i child repo) : Later st st' where
  facts id := by
    by_cases heq : id = child
    · subst heq
      rw [h.child_state, h.asked, ← hres.packages]
      exact (requestFeatures_adds _ _ _).grows
    · rw [h.other hres.packages heq]
  refs path j id hid := by
    rw [h.repo]
    exact hres.refs path j id hid
  reached id hid := by
    rw [h.visited]
    exact hid.imp_left (h.queue_sub id)

/-- After it, the dependency has been gone through. -/
theorem Requests.answered
    (hres : Resolves ctx st.repo owner i child repo)
      (hq : ∀ id, st.queued id = true → id ∈ st.queue)
    (hsame : st'.repo.packages (.file owner) = st.repo.packages (.file owner)) :
    Answered ctx st' owner dep i child where
  ref := by
    rw [h.repo]
    exact hres.ref
  reached := by
    rcases h.queue with ⟨hq', -⟩ | ⟨hq', -, hin | ⟨-, hseen⟩⟩
    · rw [hq']
      exact .inl (List.mem_append_right _ (List.mem_singleton.2 rfl))
    · rw [hq']
      exact .inl (hq child hin)
    · rw [h.visited]
      exact .inr hseen
  asked := by
    rw [hsame, h.child_state, h.asked, ← hres.packages, (requestFeatures_adds _ _ _).all]
    exact Set.subset_union_right

theorem Requests.sound (hW : Words ctx W)
    (hrepo : SoundRepository ctx W repo) (howner : .file owner ∈ known ctx)
      (hchild : child ∈ known ctx) :
    SoundRepository ctx W st'.repo := by
  rw [h.repo, h.asked]
  have hadds := requestFeatures_adds (m := manifest ctx child)
    ((repo.packages (.file owner)).dependencies i).features dep.defaultFeatures
      (repo.packages child)
  refine setPackage_sound hrepo ?_ fun hnil => ?_
  · rw [hadds.all]
    exact Set.union_subset (hrepo.inside child hchild) (asksChild_over hW hrepo howner i _ child)
  · have hfact : Fact.active [] ∈ (repo.packages child).facts ∪ asksChild (manifest ctx child)
        ((repo.packages (.file owner)).dependencies i).features dep.defaultFeatures :=
      hadds.all ▸ hnil
    rcases hfact with hold | hnew
    · exact hrepo.named child hchild hold
    · obtain ⟨feature, hne, heq⟩ := asksChild_active hnew
      exact hne (Fact.active.inj heq).symm

end OneDependency

omit [DecidableEq Path] in
theorem Left.head {owner : Path} {i j : Nat} {deps : List Nat} {id : PackageId Path}
    (h : Left owner (i :: deps) id j) (hnot : ¬ Left owner deps id j) : id = .file owner ∧
      j = i := by
  obtain ⟨hid, hj⟩ := h
  rcases List.mem_cons.1 hj with hj | hj
  · exact ⟨hid, hj⟩
  · exact absurd ⟨hid, hj⟩ hnot

/-- A package that is not in the queue has not been changed. -/
theorem Requests.quiet {i : Nat} {dep : Dependency Spec Path} {child : PackageId Path}
    {r : PackageState × Bool} (h : Requests ctx owner st st' i dep child repo r)
    (hpackages : repo.packages = st.repo.packages) (hq : ∀ id, st.queued id = true → id ∈ st.queue)
    (hid : id ∉ st'.queue) :
    st'.repo.packages id = st.repo.packages id := by
  by_cases heq : id = child
  · subst heq
    rcases h.queue with ⟨hq', -⟩ | ⟨hq', -, hin | ⟨hsame, -⟩⟩
    · rw [hq'] at hid
      exact absurd (List.mem_append_right _ (List.mem_singleton.2 rfl)) hid
    · rw [hq'] at hid
      exact absurd (hq id hin) hid
    · have hadds := requestFeatures_adds (m := manifest ctx id)
        ((repo.packages (.file owner)).dependencies i).features dep.defaultFeatures
          (repo.packages id)
      rw [h.asked] at hsame
      rw [h.child_state, h.asked, hadds.same hsame, hpackages]
  · exact h.other hpackages heq

theorem Requests.queued {i : Nat} {dep : Dependency Spec Path} {child : PackageId Path}
    {r : PackageState × Bool} (h : Requests ctx owner st st' i dep child repo r)
    (hq : ∀ id, st.queued id = true → id ∈ st.queue)
    (hid : st'.queued id = true) : id ∈ st'.queue := by
  rcases h.queue with ⟨hq', hqueued⟩ | ⟨hq', hqueued, -⟩
  · rw [hq']
    by_cases heq : id = child
    · subst heq
      exact List.mem_append_right _ (List.mem_singleton.2 rfl)
    · rw [hqueued, Function.update_of_ne heq] at hid
      exact List.mem_append_left _ (hq id hid)
  · rw [hqueued] at hid
    exact h.queue_sub id (hq id hid)

/-- One dependency more has been gone through. -/
theorem requestDependency_inv (hW : Words ctx W) (howner : .file owner ∈ known ctx) {i : Nat}
    {deps : List Nat} (h : Inv ctx W (Left owner (i :: deps)) st)
    (hstep : requestDependency ctx owner st i = .ok st') : Inv ctx W (Left owner deps) st' := by
  rcases requestDependency_cases hstep with ⟨hnone, rfl⟩ | ⟨dep, child, repo, r, hdep, hreq⟩
  · refine { h with visited := fun id rev hrev => ?_ }
    obtain ⟨S, hS, hsub, hsame, hsettled⟩ := h.visited id rev hrev
    refine ⟨S, hS, hsub, hsame, fun heq => ?_⟩
    refine (hsettled heq).later ⟨fun _ => Set.Subset.rfl, fun _ _ _ hid => hid, fun _ hid =>
      hid⟩ rfl ?_
    intro j hleft hnot owner' dep _ hdep
    obtain ⟨rfl, rfl⟩ := hleft.head hnot
    rw [hnone] at hdep
    cases hdep
  · obtain ⟨hrepo, hres⟩ := resolve_facts h.sound howner hdep hreq.resolved
    have hlater := hreq.later hres
    refine ⟨hreq.sound hW hrepo howner hres.mem, fun id hid => ?_, fun id => hreq.queued h.queued,
      fun id => ?_, ?_, hlater.reached _ h.root, fun id rev hrev => ?_⟩
    · rcases hreq.mem_queue hid with hid | rfl
      · exact h.queue id hid
      · exact hres.mem
    · rw [hreq.packages, hreq.visited]
      exact h.packages id
    · rw [hreq.packages]
      exact h.nodup
    · rw [hreq.visited] at hrev
      obtain ⟨S, hS, hsub, hsame, hsettled⟩ := h.visited id rev hrev
      have hgrow := facts_active (hlater.facts id)
      refine ⟨S, hS, hsub.trans hgrow, fun hout => ?_, fun heq => ?_⟩
      · rw [hreq.quiet hres.packages h.queued hout]
        exact hsame fun hin => hout (hreq.queue_sub id hin)
      · -- the features at the visit, now and in between are the same
        have hold : (st'.repo.packages id).activeFeatures = (st.repo.packages id).activeFeatures :=
          Finset.Subset.antisymm (heq ▸ hsub) hgrow
        have hstate := hreq.same hres.packages hold
        refine (hsettled (heq.trans hold)).later hlater hstate ?_
        intro j hleft hnot owner' dep' hid hdep'
        obtain ⟨rfl, rfl⟩ := hleft.head hnot
        cases hid
        rw [hdep] at hdep'
        cases hdep'
        exact ⟨child, hreq.answered hres h.queued hstate⟩

/-- What a loop over dependencies leaves as it was. -/
theorem requestDependencies_inv (hW : Words ctx W) {owner : Path}
    (howner : .file owner ∈ known ctx) :
    ∀ {deps : List Nat} {st : Resolution Path}, Inv ctx W (Left owner deps) st →
      requestDependencies ctx owner deps st = .ok st' →
        Inv ctx W (fun _ _ => False) st' ∧ st'.visitedRevision = st.visitedRevision
  | [], st, h, hrun => by
    cases hrun
    have hleft : Left owner [] = fun _ _ => False := by
      funext id j
      exact eq_false fun hj => absurd hj.2 List.not_mem_nil
    exact ⟨hleft ▸ h, rfl⟩
  | i :: deps, st, h, hrun => by
    rw [requestDependencies] at hrun
    cases hstep : requestDependency ctx owner st i with
    | error e =>
      rw [hstep] at hrun
      cases hrun
    | ok st₁ =>
      rw [hstep] at hrun
      obtain ⟨hinv, hvisited⟩ :=
        requestDependencies_inv hW howner (requestDependency_inv hW howner h hstep) hrun
      refine ⟨hinv, hvisited.trans ?_⟩
      rcases requestDependency_cases hstep with ⟨_, rfl⟩ | ⟨_, _, _, _, _, hreq⟩
      · rfl
      · exact hreq.visited

end Steps

end Runs

end Trustme.Cargo
