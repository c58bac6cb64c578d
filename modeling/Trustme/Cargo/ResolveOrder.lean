/-
  Subject:   When the order in which Go goes through its maps does not matter to `resolveGraph`
             (src/bin/cargo/resolve.go).

  * `Reached`, `Serving`: the states of a run, between two rounds and within one;
  * `Steady`: no step of the run depends on what happens to come first;
  * `destination`: what a dependency is resolved to in a steady run;
  * `Within`: a state has no more than another;
  * `resolveGraph_steady`: two steady runs have the same result.
-/
import Trustme.Cargo.ResolveRuns

namespace Trustme.Cargo

open Trustme.Lib

section Order

variable {Version Spec Path : Type} [DecidableEq Version] [DecidableEq Path]
variable (ctx : BuildContext Version Spec Path) (order : MapOrder) (repo₀ : Repository Path)

/-! ## 1. The states of a run -/

/-- The states between two rounds. -/
inductive Reached : Resolution Path → Prop where
  | start : Reached (startResolution ctx order repo₀)
  | round {st st' : Resolution Path} {fuel : Nat} {id : PackageId Path}
      {queue : List (PackageId Path)}
      (reached : Reached st) (head : st.queue = id :: queue)
      (step : visitPackage ctx order fuel id queue st = some (.ok st')) : Reached st'

/-- The states within a round, with the dependencies of the package at the path that are left. -/
inductive Serving : Path → List Nat → Resolution Path → Prop where
  | begin {st : Resolution Path} {fuel : Nat} {owner : Path} {queue : List (PackageId Path)}
      {pkg : PackageState} {deps : List Nat}
      (reached : Reached ctx order repo₀ st) (head : st.queue = .file owner :: queue)
      (expanded : expandFeatures (manifest ctx (.file owner)) fuel
        (st.repo.packages (.file owner)) =
        some pkg)
      (enabled : enabledDependencies ctx (manifest ctx (.file owner)) pkg
        (includeDev ctx (.file owner))
        (order.order st.loops (manifest ctx (.file owner)).targetTables) = .ok deps) :
      Serving owner deps { beginVisit (.file owner) queue pkg st with loops := st.loops + 1 }
  | next {st st' : Resolution Path} {owner : Path} {i : Nat} {deps : List Nat}
      (serving : Serving owner (i :: deps) st) (step : requestDependency ctx owner st i = .ok st') :
      Serving owner deps st'

/-- No step depends on what happens to come first: a target table that applies to a package which is
    taken from the queue applies with more features too, and a dependency that is resolved by its
    name gets the same package as from those that were loaded at the start. -/
structure Steady : Prop where
  tables : ∀ st id queue fuel pkg, Reached ctx order repo₀ st → st.queue = id :: queue →
    expandFeatures (manifest ctx id) fuel (st.repo.packages id) = some pkg →
      ∀ condition ∈ (manifest ctx id).targetTables, ∀ T, pkg.activeFeatures ⊆ T →
        targetTableMatches ctx condition pkg.activeFeatures = .ok true →
          targetTableMatches ctx condition T = .ok true
  byName : ∀ st owner i deps dep, Serving ctx order repo₀ owner (i :: deps) st →
    (manifest ctx (.file owner)).dependencies[i]? = some dep → st.repo.packageRef owner i = none →
      (ctx.patches dep.name <|> dep.path) = none →
        choose ctx st.repo.byName dep = choose ctx repo₀.byName dep

/-- What a dependency is resolved to in a steady run, if to anything. -/
def destination (owner : Path) (i : Nat) (dep : Dependency Spec Path) : Option (PackageId Path) :=
  match repo₀.packageRef owner i with
  | some id => some id
  | none =>
    match ctx.patches dep.name <|> dep.path with
    | some path => (ctx.files.lookup path).map fun _ => .file path
    | none =>
      match choose ctx repo₀.byName dep with
      | some path => some (.file path)
      | none =>
        if (ascii "rustc-std-workspace-").isPrefixOf dep.name then some (.magic dep.name owner i)
        else none

end Order

section Steps

variable {Version Spec Path : Type} [DecidableEq Path]
variable {ctx : BuildContext Version Spec Path} {order : MapOrder} {repo₀ : Repository Path}
variable {W : Set Str} {st st' : Resolution Path}

/-! ## 2. What a dependency is resolved to -/

theorem known_file {path : Path} (h : .file path ∈ known ctx) :
    ∃ m, ctx.files.lookup path = some m := by
  rcases List.mem_append.1 h with h | h
  · obtain ⟨f, hf, heq⟩ := List.mem_map.1 h
    cases heq
    cases hlook : ctx.files.lookup f.1 with
    | some m => exact ⟨m, rfl⟩
    | none => exact absurd (List.lookup_eq_none_iff.1 hlook f hf) (by simp)
  · obtain ⟨f, _, h⟩ := List.mem_flatMap.1 h
    obtain ⟨i, _, heq⟩ := List.mem_mapIdx.1 h
    cases heq

variable [DecidableEq Version]

/-- A repository in which the dependencies are resolved as in a steady run. -/
structure Faithful (ctx : BuildContext Version Spec Path) (repo₀ repo : Repository Path) :
    Prop where
  old : ∀ owner i id, repo₀.packageRef owner i = some id → repo.packageRef owner i = some id
  dest : ∀ owner i dep id, (manifest ctx (.file owner)).dependencies[i]? = some dep →
    repo.packageRef owner i = some id → destination ctx repo₀ owner i dep = some id

theorem Faithful.start : Faithful ctx repo₀ repo₀ where
  old _ _ _ h := h
  dest owner i dep id _ h := by
    rw [destination, h]

variable {repo : Repository Path}

omit [DecidableEq Version] in
/-- The package at a path can be loaded if there is a manifest. -/
theorem loadPath_destination (h : SoundRepository ctx W repo) (path : Path) :
    (loadPath ctx path repo).toOption.map Prod.fst =
      (ctx.files.lookup path).map fun _ => PackageId.file path := by
  unfold loadPath
  split
  · next hmem =>
    obtain ⟨m, hm⟩ := known_file (h.loaded path hmem)
    rw [hm]
    rfl
  · cases ctx.files.lookup path <;> rfl

/-- In a steady run, what a dependency is resolved to is known beforehand. -/
theorem resolve_destination (h : SoundRepository ctx W repo) (hf : Faithful ctx repo₀ repo)
    {owner : Path} {i : Nat} {dep : Dependency Spec Path}
    (hdep : (manifest ctx (.file owner)).dependencies[i]? = some dep)
    (hname : repo.packageRef owner i = none → (ctx.patches dep.name <|> dep.path) = none →
      choose ctx repo.byName dep = choose ctx repo₀.byName dep) :
    (resolve ctx owner i dep repo).toOption.map Prod.fst = destination ctx repo₀ owner i dep := by
  cases href : repo.packageRef owner i with
  | some id =>
    rw [resolve_again dep href, hf.dest owner i dep id hdep href]
    rfl
  | none =>
    have hnone : repo₀.packageRef owner i = none := by
      cases hold : repo₀.packageRef owner i with
      | none => rfl
      | some id =>
        have hnew := hf.old owner i id hold
        rw [href] at hnew
        cases hnew
    unfold resolve destination
    rw [href, hnone]
    cases hpath : (ctx.patches dep.name <|> dep.path) with
    | some path =>
      dsimp only
      rw [← loadPath_destination h path]
      cases loadPath ctx path repo with
      | error e => rfl
      | ok r => rfl
    | none =>
      dsimp only
      rw [hname href hpath]
      cases choose ctx repo₀.byName dep with
      | some path => rfl
      | none =>
        dsimp only
        split <;> rfl

/-! ## 3. What holds in a run -/

/-- A run from a loaded repository keeps what each round keeps. -/
theorem Reached.inv (hW : Words ctx W) (hroot : .file ctx.root ∈ known ctx)
    (hsound : SoundRepository ctx W repo₀) (h : Reached ctx order repo₀ st) :
    Inv ctx W (fun _ _ => False) st := by
  induction h with
  | start => exact startResolution_inv hW order hroot hsound
  | round _ head step ih => exact (visitPackage_inv hW ih head step).1

theorem Serving.inv (hW : Words ctx W) (hroot : .file ctx.root ∈ known ctx)
    (hsound : SoundRepository ctx W repo₀) {owner : Path} {deps : List Nat}
    (h : Serving ctx order repo₀ owner deps st) :
    .file owner ∈ known ctx ∧ Inv ctx W (Left owner deps) st := by
  induction h with
  | begin reached head expanded enabled =>
    have hinv := reached.inv hW hroot hsound
    exact ⟨hinv.queue _ (head ▸ List.mem_cons_self),
      (beginVisit_inv hW hinv head expanded enabled).loops _⟩
  | next _ step ih => exact ⟨ih.1, requestDependency_inv hW ih.1 ih.2 step⟩

/-- A round of a run: nothing is to be done for the package, or its dependencies are gone
    through. -/
inductive Rounded (ctx : BuildContext Version Spec Path) (order : MapOrder)
    (repo₀ : Repository Path)
    (st st' : Resolution Path) (id : PackageId Path) (queue : List (PackageId Path)) : Prop where
  | plain (pkg : PackageState) (expands : Expands ctx st st' id queue pkg)
      (grows : (st.repo.packages id).facts ⊆ pkg.facts)
  | served (owner : Path) (deps : List Nat) (pkg : PackageState) (st₁ : Resolution Path)
      (expands : Expands ctx st st₁ id queue pkg) (grows : (st.repo.packages id).facts ⊆ pkg.facts)
      (serving : Serving ctx order repo₀ owner deps st₁)
      (run : requestDependencies ctx owner deps st₁ = .ok st')

theorem Reached.rounded (h : Reached ctx order repo₀ st) {fuel : Nat} {id : PackageId Path}
    {queue : List (PackageId Path)} (head : st.queue = id :: queue)
    (hstep : visitPackage ctx order fuel id queue st = some (.ok st')) :
    Rounded ctx order repo₀ st st' id queue := by
  obtain ⟨pkg, hexp, ⟨hrev, hres⟩ | ⟨hrev, hres⟩⟩ := visitPackage_cases hstep
  · cases hres
    exact .plain pkg ⟨head, rfl, rfl, rfl⟩ (expandFeatures_facts hexp).1
  · cases id with
    | magic name owner dep =>
      cases hres
      exact .plain pkg (beginVisit_expands head) (expandFeatures_facts hexp).1
    | file owner =>
      have hown : (st.repo.setPackage (.file owner) pkg).packages (.file owner) = pkg :=
        Function.update_self _ _ _
      simp only [visitDependencies, beginVisit, hown] at hres
      split at hres
      · cases hres
      · next deps hdeps =>
        exact .served owner deps pkg _ ⟨head, rfl, rfl, rfl⟩ (expandFeatures_facts hexp).1
          (.begin h head hexp hdeps) hres.symm

/-- A property of repositories that each step keeps holds in all of a run. -/
theorem Reached.keeps {P : Repository Path → Prop} (h : Reached ctx order repo₀ st)
    (hstart : P (startResolution ctx order repo₀).repo)
    (hpackage : ∀ (repo : Repository Path) id pkg, (repo.packages id).facts ⊆ pkg.facts → P repo →
      P (repo.setPackage id pkg))
    (hrequest : ∀ owner i deps st st', Serving ctx order repo₀ owner (i :: deps) st →
      requestDependency ctx owner st i = .ok st' → P st.repo → P st'.repo) : P st.repo := by
  have hrun : ∀ {owner deps st st'}, Serving ctx order repo₀ owner deps st →
      requestDependencies ctx owner deps st = .ok st' → P st.repo → P st'.repo := by
    intro owner deps
    induction deps with
    | nil =>
      intro st st' _ hrun hP
      cases hrun
      exact hP
    | cons i deps ih =>
      intro st st' hserving hrun hP
      rw [requestDependencies] at hrun
      cases hstep : requestDependency ctx owner st i with
      | error e =>
        rw [hstep] at hrun
        cases hrun
      | ok st₁ =>
        rw [hstep] at hrun
        exact ih (.next hserving hstep) hrun (hrequest _ _ _ _ _ hserving hstep hP)
  induction h with
  | start => exact hstart
  | round reached head step ih =>
    cases reached.rounded head step with
    | plain pkg expands grows =>
      rw [expands.repo]
      exact hpackage _ _ _ grows ih
    | served owner deps pkg st₁ expands grows serving run =>
      refine hrun serving run ?_
      rw [expands.repo]
      exact hpackage _ _ _ grows ih

theorem setPackage_grows {id : PackageId Path} {pkg : PackageState}
    (h : (repo.packages id).facts ⊆ pkg.facts) (id' : PackageId Path) :
    (repo.packages id').facts ⊆ ((repo.setPackage id pkg).packages id').facts := by
  by_cases heq : id' = id
  · subst heq
    simpa only [Repository.setPackage, Function.update_self] using h
  · simpa only [Repository.setPackage, Function.update_of_ne heq] using Set.Subset.rfl

section Run

variable (hW : Words ctx W) (hroot : .file ctx.root ∈ known ctx)
variable (hsound : SoundRepository ctx W repo₀)

include hW hroot hsound

/-- What is so at the start stays so. -/
theorem Reached.grows (h : Reached ctx order repo₀ st) (id : PackageId Path) :
    ((startResolution ctx order repo₀).repo.packages id).facts ⊆ (st.repo.packages id).facts := by
  refine h.keeps (P := fun repo => ((startResolution ctx order repo₀).repo.packages id).facts ⊆
    (repo.packages id).facts) Set.Subset.rfl
    (fun repo id' pkg hgrows hsub => hsub.trans (setPackage_grows hgrows id)) ?_
  intro owner i deps st st' hserving hstep hsub
  obtain ⟨howner, hinv⟩ := hserving.inv hW hroot hsound
  rcases requestDependency_cases hstep with ⟨-, rfl⟩ | ⟨dep, child, repo, r, hdep, hreq⟩
  · exact hsub
  · exact hsub.trans ((hreq.later (resolve_facts hinv.sound howner hdep hreq.resolved).2).facts id)

/-- In a steady run, each dependency is resolved to its destination. -/
theorem Serving.keeps_faithful (hsteady : Steady ctx order repo₀) {owner : Path} {i : Nat}
    {deps : List Nat} (h : Serving ctx order repo₀ owner (i :: deps) st)
    (hstep : requestDependency ctx owner st i = .ok st') (hf : Faithful ctx repo₀ st.repo) :
    Faithful ctx repo₀ st'.repo := by
  obtain ⟨howner, hinv⟩ := h.inv hW hroot hsound
  rcases requestDependency_cases hstep with ⟨-, rfl⟩ | ⟨dep, child, repo, r, hdep, hreq⟩
  · exact hf
  · obtain ⟨-, hres⟩ := resolve_facts hinv.sound howner hdep hreq.resolved
    have hdest := resolve_destination hinv.sound hf hdep
      (hsteady.byName st owner i deps dep h hdep)
    rw [hreq.resolved] at hdest
    rw [hreq.repo]
    refine ⟨fun path j id hid => hres.refs path j id (hf.old path j id hid), ?_⟩
    intro path j dep' id hdep' hid
    rcases hres.only path j id hid with hold | ⟨rfl, rfl, rfl⟩
    · exact hf.dest path j dep' id hdep' hold
    · rw [hdep] at hdep'
      cases hdep'
      exact hdest.symm

theorem Reached.faithful (hsteady : Steady ctx order repo₀) (h : Reached ctx order repo₀ st) :
    Faithful ctx repo₀ st.repo := by
  have hstart : Faithful ctx repo₀ repo₀ := .start
  exact h.keeps (P := Faithful ctx repo₀) ⟨hstart.old, hstart.dest⟩
    (fun repo id pkg _ hf => ⟨hf.old, hf.dest⟩)
    fun _ _ _ _ _ hserving hstep => hserving.keeps_faithful hW hroot hsound hsteady hstep

theorem Serving.faithful (hsteady : Steady ctx order repo₀) {owner : Path} {deps : List Nat}
    (h : Serving ctx order repo₀ owner deps st) : Faithful ctx repo₀ st.repo := by
  induction h with
  | begin reached _ _ _ =>
    have hf := reached.faithful hW hroot hsound hsteady
    exact ⟨hf.old, hf.dest⟩
  | next serving step ih => exact serving.keeps_faithful hW hroot hsound hsteady step ih

end Run

/-! ## 4. One run within the end of another -/

/-- A state has no more than `e`. -/
structure Within (st e : Resolution Path) : Prop where
  facts : ∀ id, (st.repo.packages id).facts ⊆ (e.repo.packages id).facts
  refs : ∀ owner i id, st.repo.packageRef owner i = some id → e.repo.packageRef owner i = some id
  queue : ∀ id ∈ st.queue, id ∈ e.packages
  packages : ∀ id ∈ st.packages, id ∈ e.packages

/-- The end of a steady run. -/
structure Ended (ctx : BuildContext Version Spec Path) (W : Set Str) (repo₀ : Repository Path)
    (e : Resolution Path) : Prop where
  inv : Inv ctx W (fun _ _ => False) e
  queue : e.queue = []
  faithful : Faithful ctx repo₀ e.repo

section Within

variable {e : Resolution Path}

omit [DecidableEq Path] [DecidableEq Version] in
theorem asksChild_mono {m : Manifest Version Spec Path} {features features' : List Str}
    (defaults : Bool)
    (h : ∀ feature ∈ features, feature ∈ features') :
    asksChild m features defaults ⊆ asksChild m features' defaults :=
  Set.union_subset_union_right _ (Set.biUnion_subset_biUnion_left h)

/-- Only resolving a dependency throws. -/
theorem requestDependency_error {owner : Path} {i : Nat} {dep : Dependency Spec Path}
    {err : Failure Path} (hdep : (manifest ctx (.file owner)).dependencies[i]? = some dep)
    (h : requestDependency ctx owner st i = .error err) :
    resolve ctx owner i dep st.repo = .error err := by
  unfold requestDependency at h
  rw [hdep] at h
  dsimp only at h
  split at h
  · next err' hres =>
    cases h
    exact hres
  · split at h <;> cases h

/-- A dependency that the other run has gone through. -/
theorem requestDependency_within (hend : Ended ctx W repo₀ e) {owner : Path}
    (hknown : .file owner ∈ known ctx) (howner : .file owner ∈ e.packages) {i : Nat}
      {deps : List Nat}
    (hinv : Inv ctx W (Left owner (i :: deps)) st) (hf : Faithful ctx repo₀ st.repo)
    (hname : ∀ dep, (manifest ctx (.file owner)).dependencies[i]? = some dep →
      st.repo.packageRef owner i = none → (ctx.patches dep.name <|> dep.path) = none →
        choose ctx st.repo.byName dep = choose ctx repo₀.byName dep)
    (hwanted : Wanted ctx (manifest ctx (.file owner)) (e.repo.packages (.file owner))
      (includeDev ctx (.file owner)) i)
    (h : Within st e) : ∃ st', requestDependency ctx owner st i = .ok st' ∧ Within st' e := by
  obtain ⟨dep, hdep, -⟩ := hwanted.table
  obtain ⟨child, href, hreached, hasked⟩ :=
    (hend.inv.settled hend.queue howner).answered owner i dep rfl hdep hwanted not_false
  have hchild := hend.inv.reached_mem hend.queue hreached
  have hdest := resolve_destination hinv.sound hf hdep (hname dep hdep)
  rw [hend.faithful.dest owner i dep child hdep href] at hdest
  cases hstep : requestDependency ctx owner st i with
  | error err =>
    rw [requestDependency_error hdep hstep] at hdest
    cases hdest
  | ok st' =>
    refine ⟨st', rfl, ?_⟩
    rcases requestDependency_cases hstep with ⟨hnone, -⟩ | ⟨dep', child', repo, r, hdep', hreq⟩
    · rw [hdep] at hnone
      cases hnone
    · rw [hdep] at hdep'
      cases hdep'
      rw [hreq.resolved] at hdest
      obtain rfl : child = child' := (Option.some.inj hdest).symm
      obtain ⟨-, hres⟩ := resolve_facts hinv.sound hknown hdep hreq.resolved
      refine ⟨fun id => ?_, fun path j id hid => ?_, fun id hid => ?_, fun id hid => ?_⟩
      · by_cases heq : id = child
        · subst heq
          rw [hreq.child_state, hreq.asked, (requestFeatures_adds _ _ _).all, hres.packages]
          refine Set.union_subset (h.facts id) (Set.Subset.trans ?_ hasked)
          exact asksChild_mono _ fun feature hfeature =>
            h.facts (.file owner) (show Fact.wants i feature ∈ _ from hfeature)
        · rw [hreq.other hres.packages heq]
          exact h.facts id
      · rw [hreq.repo] at hid
        rcases hres.only path j id hid with hold | ⟨rfl, rfl, rfl⟩
        · exact h.refs path j id hold
        · exact href
      · rcases hreq.mem_queue hid with hold | rfl
        · exact h.queue id hold
        · exact hchild
      · rw [hreq.packages] at hid
        exact h.packages id hid

omit [DecidableEq Path] [DecidableEq Version] in
/-- With more facts, and with tables that go on applying, what is enabled stays so. -/
theorem Wanted.more {m : Manifest Version Spec Path} {pkg pkg' : PackageState}
    {dev : Bool} {i : Nat}
    (h : Wanted ctx m pkg dev i) (hfacts : pkg.facts ⊆ pkg'.facts)
    (htables : ∀ condition ∈ m.targetTables,
      targetTableMatches ctx condition pkg.activeFeatures = .ok true →
        targetTableMatches ctx condition pkg'.activeFeatures = .ok true) :
          Wanted ctx m pkg' dev i := by
  obtain ⟨⟨dep, hdep, happlies, htable, hkind⟩, hon⟩ := h
  refine ⟨⟨dep, hdep, ?_, htable, hkind⟩, fun hoptional =>
    hfacts (show Fact.enabled i ∈ pkg.facts from hon hoptional)⟩
  cases hcond : dep.table with
  | none => trivial
  | some condition =>
    rw [hcond] at happlies
    exact htables condition (htable condition hcond) happlies

omit [DecidableEq Path] [DecidableEq Version] in
/-- Whether a table's condition can be read does not depend on the features. -/
theorem targetTable_told (htold : ∀ condition S T,
      (ctx.cfgMatches condition S).isSome = (ctx.cfgMatches condition T).isSome)
    {condition : Str} {S T : Finset Str}
    (h : ∃ matched, targetTableMatches ctx condition S = .ok matched) :
    ∃ matched, targetTableMatches ctx condition T = .ok matched := by
  unfold targetTableMatches at h ⊢
  split
  · next hcfg =>
    simp only [hcfg, if_true] at h
    have hsome := htold condition S T
    cases hS : ctx.cfgMatches condition S with
    | none =>
      rw [hS] at h
      obtain ⟨_, h⟩ := h
      cases h
    | some b =>
      rw [hS] at hsome
      obtain ⟨b', hb'⟩ := Option.isSome_iff_exists.1 hsome.symm
      rw [hb']
      exact ⟨b', rfl⟩
  · exact ⟨_, rfl⟩

variable (hW : Words ctx W) (hroot : .file ctx.root ∈ known ctx)
  (hsound : SoundRepository ctx W repo₀)
variable (htold : ∀ condition S T,
  (ctx.cfgMatches condition S).isSome = (ctx.cfgMatches condition T).isSome)
variable (hsteady : Steady ctx order repo₀) (hend : Ended ctx W repo₀ e)

include hW hroot hsound hsteady hend

theorem requestDependencies_within {owner : Path} (howner : .file owner ∈ e.packages) :
    ∀ {deps : List Nat} {st : Resolution Path}, Serving ctx order repo₀ owner deps st →
      (∀ i ∈ deps, Wanted ctx (manifest ctx (.file owner)) (e.repo.packages (.file owner))
        (includeDev ctx (.file owner)) i) → Within st e →
        ∃ st', requestDependencies ctx owner deps st = .ok st' ∧ Within st' e
  | [], st, _, _, h => ⟨st, rfl, h⟩
  | i :: deps, st, hserving, hwanted, h => by
    obtain ⟨hknown, hinv⟩ := hserving.inv hW hroot hsound
    obtain ⟨st₁, hstep, h₁⟩ := requestDependency_within hend hknown howner hinv
      (hserving.faithful hW hroot hsound hsteady)
        (fun dep => hsteady.byName st owner i deps dep hserving)
      (hwanted i List.mem_cons_self) h
    obtain ⟨st', hrun, h'⟩ := requestDependencies_within howner (hserving.next hstep)
      (fun j hj => hwanted j (List.mem_cons_of_mem i hj)) h₁
    refine ⟨st', ?_, h'⟩
    rw [requestDependencies, hstep]
    exact hrun

include htold

/-- A round of a run stays within the end of another run, and does not throw. -/
theorem visitPackage_within (hreached : Reached ctx order repo₀ st) {fuel : Nat}
    {id : PackageId Path}
    {queue : List (PackageId Path)} (head : st.queue = id :: queue) (h : Within st e)
    {result : Except (Failure Path) (Resolution Path)}
    (hstep : visitPackage ctx order fuel id queue st = some result) :
    ∃ st', result = .ok st' ∧ Within st' e := by
  have hid : id ∈ e.packages := h.queue id (head ▸ List.mem_cons_self)
  have hsettled := hend.inv.settled hend.queue hid
  obtain ⟨pkg, hexp, hcases⟩ := visitPackage_cases hstep
  have hpkg : pkg.facts ⊆ (e.repo.packages id).facts :=
    (expandFeatures_facts hexp).2.2 _ (h.facts id) hsettled.closed
  have hfacts : ∀ id', ((st.repo.setPackage id pkg).packages id').facts ⊆
    (e.repo.packages id').facts := by
    intro id'
    by_cases heq : id' = id
    · subst heq
      simpa only [Repository.setPackage, Function.update_self] using hpkg
    · simpa only [Repository.setPackage, Function.update_of_ne heq] using h.facts id'
  have hqueue : ∀ id' ∈ queue, id' ∈ e.packages := fun id' hin =>
    h.queue id' (head ▸ List.mem_cons_of_mem _ hin)
  rcases hcases with ⟨hrev, rfl⟩ | ⟨hrev, rfl⟩
  · exact ⟨_, rfl, hfacts, h.refs, hqueue, h.packages⟩
  · have hbegin : Within (beginVisit id queue pkg st) e := by
      refine ⟨hfacts, h.refs, hqueue, fun id' hin => ?_⟩
      simp only [beginVisit] at hin
      split at hin
      · rcases List.mem_append.1 hin with hin | hin
        · exact h.packages id' hin
        · exact List.mem_singleton.1 hin ▸ hid
      · exact h.packages id' hin
    cases id with
    | magic name owner dep => exact ⟨_, rfl, hbegin⟩
    | file owner =>
      have hown : (st.repo.setPackage (.file owner) pkg).packages (.file owner) = pkg :=
        Function.update_self _ _ _
      have hperm := order.perm st.loops (manifest ctx (.file owner)).targetTables
      obtain ⟨deps, hdeps⟩ := (enabledDependencies_ok (includeDev ctx (.file owner)) hperm).2
        fun condition hc => targetTable_told htold (T := pkg.activeFeatures)
          (hsettled.tables condition hc)
      have hwanted : ∀ i ∈ deps, Wanted ctx (manifest ctx (.file owner))
        (e.repo.packages (.file owner))
          (includeDev ctx (.file owner)) i := fun i hi =>
        ((mem_enabledDependencies hperm hdeps).1 hi).more hpkg fun condition hc =>
          hsteady.tables st _ queue fuel pkg hreached head hexp condition hc _ (facts_active hpkg)
      obtain ⟨st', hrun, h'⟩ := requestDependencies_within hW hroot hsound hsteady hend hid
        (.begin hreached head hexp hdeps) hwanted ⟨hbegin.facts, hbegin.refs, hbegin.queue,
          hbegin.packages⟩
      refine ⟨st', ?_, h'⟩
      simp only [visitDependencies, beginVisit, hown, hdeps]
      exact hrun

theorem resolveLoop_within {fuel : Nat} {result : Except (Failure Path) (Resolution Path)} :
    ∀ {n : Nat} {st : Resolution Path}, Reached ctx order repo₀ st → Within st e →
      resolveLoop ctx order fuel n st = some result → ∃ st', result = .ok st' ∧ Within st' e
  | 0, _, _, _, hrun => by cases hrun
  | n + 1, st, hreached, h, hrun => by
    rw [resolveLoop] at hrun
    cases hqueue : st.queue with
    | nil =>
      rw [hqueue] at hrun
      cases hrun
      exact ⟨st, rfl, h⟩
    | cons id queue =>
      simp only [hqueue] at hrun
      cases hstep : visitPackage ctx order fuel id queue st with
      | none =>
        rw [hstep] at hrun
        cases hrun
      | some r =>
        obtain ⟨st₁, rfl, h₁⟩ :=
          visitPackage_within hW hroot hsound htold hsteady hend hreached hqueue h hstep
        rw [hstep] at hrun
        exact resolveLoop_within (.round hreached hqueue hstep) h₁ hrun

end Within

/-- The end of a loop is a state of the run. -/
theorem resolveLoop_reached {fuel n : Nat} {st : Resolution Path}
    (hreached : Reached ctx order repo₀ st)
    (hrun : resolveLoop ctx order fuel n st = some (.ok st')) :
    Reached ctx order repo₀ st' ∧ st'.queue = [] := by
  induction n generalizing st with
  | zero => cases hrun
  | succ n ih =>
    rw [resolveLoop] at hrun
    cases hqueue : st.queue with
    | nil =>
      rw [hqueue] at hrun
      cases hrun
      exact ⟨hreached, hqueue⟩
    | cons id queue =>
      simp only [hqueue] at hrun
      cases hstep : visitPackage ctx order fuel id queue st with
      | none =>
        rw [hstep] at hrun
        cases hrun
      | some result =>
        rw [hstep] at hrun
        cases result with
        | error e => cases hrun
        | ok st₁ => exact ih (.round hreached hqueue hstep) hrun

/-! ## 5. Two runs -/

section Two

variable {order' : MapOrder} {fuel fuel' n n' : Nat}
variable (h : Loaded ctx repo₀)
variable (htold : ∀ condition S T,
  (ctx.cfgMatches condition S).isSome = (ctx.cfgMatches condition T).isSome)
variable (hsteady : Steady ctx order repo₀) (hsteady' : Steady ctx order' repo₀)

include h htold hsteady hsteady'

/-- When one of two steady runs ends without throwing, so does the other, and has no more. -/
theorem steady_within {e : Resolution Path} {result : Except (Failure Path) (Resolution Path)}
    (hrun : resolveLoop ctx order fuel n (startResolution ctx order repo₀) = some (.ok e))
    (hrun' : resolveLoop ctx order' fuel' n' (startResolution ctx order' repo₀) = some result) :
    ∃ e', result = .ok e' ∧ Within e' e := by
  have hW := wordsOf_words ctx repo₀
  obtain ⟨hreached, hqueue⟩ := resolveLoop_reached .start hrun
  have hinv := hreached.inv hW h.root h.sound
  have hend : Ended ctx (wordsOf ctx repo₀) repo₀ e :=
    ⟨hinv, hqueue, hreached.faithful hW h.root h.sound hsteady⟩
  refine resolveLoop_within hW h.root h.sound htold hsteady' hend .start ?_ hrun'
  refine ⟨fun id => ?_, hend.faithful.old, fun id hid => ?_, fun id hid =>
    absurd hid List.not_mem_nil⟩
  · -- the root is asked for the same features, in whatever order
    have hsame : ((startResolution ctx order' repo₀).repo.packages id).facts =
        ((startResolution ctx order repo₀).repo.packages id).facts := by
      by_cases heq : id = .file ctx.root
      · subst heq
        simp only [startResolution, Repository.setPackage, Function.update_self, rootFeatures_facts]
      · simp only [startResolution, Repository.setPackage, Function.update_of_ne heq]
    rw [hsame]
    exact hreached.grows hW h.root h.sound id
  · rw [List.mem_singleton.1 hid]
    exact hinv.reached_mem hqueue hinv.root

end Two

/-- Two results are the same: the packages, their active features, which of their dependencies are
    enabled, and what each dependency is resolved to. -/
structure SameGraph (ctx : BuildContext Version Spec Path)
    (packages packages' : List (PackageId Path))
    (repo repo' : Repository Path) : Prop where
  packages : packages.Perm packages'
  active : ∀ id, (repo.packages id).activeFeatures = (repo'.packages id).activeFeatures
  enabled : ∀ id dev tables,
    enabledDependencies ctx (manifest ctx id) (repo.packages id) dev tables =
      enabledDependencies ctx (manifest ctx id) (repo'.packages id) dev tables
  resolved : repo.packageRef = repo'.packageRef

/-- Both runs throw, or both return the same. -/
def SameResult (ctx : BuildContext Version Spec Path) :
    Except (Failure Path) (List (PackageId Path) × Repository Path) →
      Except (Failure Path) (List (PackageId Path) × Repository Path) → Prop
  | .error _, .error _ => True
  | .ok (packages, repo), .ok (packages', repo') => SameGraph ctx packages packages' repo repo'
  | _, _ => False

omit [DecidableEq Version] in
/-- Two states that have no more than each other. -/
theorem Within.same {e e' : Resolution Path} (hinv : Inv ctx W (fun _ _ => False) e)
    (hinv' : Inv ctx W (fun _ _ => False) e') (h : Within e e') (h' : Within e' e) :
    SameGraph ctx e.packages e'.packages e.repo e'.repo := by
  have hfacts : ∀ id, (e.repo.packages id).facts = (e'.repo.packages id).facts := fun id =>
    Set.Subset.antisymm (h.facts id) (h'.facts id)
  have hactive : ∀ id, (e.repo.packages id).activeFeatures = (e'.repo.packages id).activeFeatures :=
    fun id => Finset.Subset.antisymm (facts_active (h.facts id)) (facts_active (h'.facts id))
  have henabled : ∀ id i, ((e.repo.packages id).dependencies i).enabled =
      ((e'.repo.packages id).dependencies i).enabled := fun id i =>
    Bool.eq_iff_iff.2 ⟨fun hi => h.facts id (show Fact.enabled i ∈ _ from hi),
      fun hi => h'.facts id (show Fact.enabled i ∈ _ from hi)⟩
  refine ⟨(List.perm_ext_iff_of_nodup hinv.nodup hinv'.nodup).2 fun id =>
    ⟨h.packages id, h'.packages id⟩, hactive, fun id dev tables => ?_, ?_⟩
  · simp only [enabledDependencies, hactive id, henabled id]
  · funext owner i
    cases href : e.repo.packageRef owner i with
    | some id => exact (h.refs owner i id href).symm
    | none =>
      cases href' : e'.repo.packageRef owner i with
      | none => rfl
      | some id =>
        rw [h'.refs owner i id href'] at href
        cases href

omit [DecidableEq Version] in
theorem SameGraph.perm {packages packages' l l' : List (PackageId Path)} {repo' : Repository Path}
    (h : SameGraph ctx packages packages' repo repo') (hl : l.Perm packages)
    (hl' : l'.Perm packages') :
    SameGraph ctx l l' repo repo' :=
  ⟨(hl.trans h.packages).trans hl'.symm, h.active, h.enabled, h.resolved⟩

/-- Two steady runs end, and have the same result. -/
theorem resolveGraph_steady {order' : MapOrder} (h : Loaded ctx repo₀) (cfg : CfgSet)
    (hcfg : ∀ condition active, ctx.cfgMatches condition active = cfg.matches active condition)
    (hsteady : Steady ctx order repo₀) (hsteady' : Steady ctx order' repo₀) :
    ∃ result result' n, SameResult ctx result result' ∧ ∀ fuel, n ≤ fuel →
      resolveGraph ctx order fuel repo₀ = some result ∧
        resolveGraph ctx order' fuel repo₀ = some result' := by
  have htold : ∀ condition S T,
      (ctx.cfgMatches condition S).isSome = (ctx.cfgMatches condition T).isSome := by
    intro condition S T
    rw [hcfg, hcfg]
    exact matches_told cfg condition S T
  have hW := wordsOf_words ctx repo₀
  obtain ⟨r, n, hloop, hr⟩ :=
    resolveLoop_ends hW order (startResolution_inv hW order h.root h.sound) (Nat.lt_succ_self _)
  obtain ⟨r', n', hloop', hr'⟩ :=
    resolveLoop_ends hW order' (startResolution_inv hW order' h.root h.sound) (Nat.lt_succ_self _)
  have hrun := hloop _ n (Nat.le_refl _) (Nat.le_refl _)
  have hrun' := hloop' _ n' (Nat.le_refl _) (Nat.le_refl _)
  let sorted (st : Resolution Path) :=
    (st.packages.insertionSort fun a b => comesBefore ctx b a = false, st.repo)
  refine ⟨r.map sorted, r'.map sorted, max (max n n') (enoughFuel ctx (wordsOf ctx repo₀)), ?_,
    fun fuel hfuel => ?_⟩
  · cases r with
    | error err =>
      cases r' with
      | error err' => trivial
      | ok e' =>
        obtain ⟨e, heq, -⟩ := steady_within h htold hsteady' hsteady hrun' hrun
        cases heq
    | ok e =>
      obtain ⟨e', rfl, hwithin'⟩ := steady_within h htold hsteady hsteady' hrun hrun'
      obtain ⟨_, heq, hwithin⟩ := steady_within h htold hsteady' hsteady hrun' hrun
      cases heq
      exact (Within.same (hr e rfl).1 (hr' e' rfl).1 hwithin hwithin').perm
        (List.perm_insertionSort _ _) (List.perm_insertionSort _ _)
  · have hn := le_of_max_le_left hfuel
    have henough := le_of_max_le_right hfuel
    rw [resolveGraph, resolveGraph, hloop fuel fuel henough (le_of_max_le_left hn),
      hloop' fuel fuel henough (le_of_max_le_right hn)]
    exact ⟨rfl, rfl⟩

/-- With tables that go on applying, and with a path for every dependency, all runs are steady. -/
theorem Steady.of_paths
    (htables : ∀ id, ∀ condition ∈ (manifest ctx id).targetTables, ∀ S T : Finset Str, S ⊆ T →
      targetTableMatches ctx condition S = .ok true → targetTableMatches ctx condition T = .ok true)
    (hpaths : ∀ id, ∀ dep ∈ (manifest ctx id).dependencies,
      (ctx.patches dep.name <|> dep.path) ≠ none) :
    Steady ctx order repo₀ where
  tables _ id _ _ _ _ _ _ condition hc T hT := htables id condition hc _ T hT
  byName _ _ _ _ dep _ hdep _ hnone := absurd hnone (hpaths _ dep (List.mem_of_getElem? hdep))

end Steps

theorem cyclicBuild_steady (order : MapOrder) : Steady cyclicBuild order cyclicRepository := by
  have hpaths : ∀ f ∈ cyclicBuild.files, ∀ dep ∈ f.2.dependencies, dep.path ≠ none := by
    decide
  have htables : ∀ f ∈ cyclicBuild.files, ∀ condition ∈ f.2.targetTables,
      condition = ascii "cfg(feature = \"std\")" := by
    decide
  refine .of_paths (fun id condition hc S T hST hS => ?_) fun id dep hdep => ?_
  · have hcond : condition = ascii "cfg(feature = \"std\")" := by
      rcases manifest_cases id with ⟨name, heq⟩ | ⟨f, hf, heq⟩
      · rw [heq] at hc
        cases hc
      · rw [heq] at hc
        exact htables f hf condition hc
    subst hcond
    have htell : ∀ S, targetTableMatches cyclicBuild (ascii "cfg(feature = \"std\")") S =
        (.ok (decide (ascii "std" ∈ S)) : Except (Failure Nat) Bool) := fun _ => rfl
    rw [htell, Except.ok.injEq, decide_eq_true_iff] at hS ⊢
    exact hST hS
  · have hpath : dep.path ≠ none := by
      rcases manifest_cases id with ⟨name, heq⟩ | ⟨f, hf, heq⟩
      · rw [heq] at hdep
        cases hdep
      · rw [heq] at hdep
        exact hpaths f hf dep hdep
    exact hpath

theorem cyclicBuild_same :
    ∃ result result' n, SameResult cyclicBuild result result' ∧ ∀ fuel, n ≤ fuel →
    resolveGraph cyclicBuild ⟨fun _ l => l, fun _ l => List.Perm.refl l⟩ fuel cyclicRepository =
        some result ∧
      resolveGraph cyclicBuild ⟨fun _ l => l.reverse, fun _ l => l.reverse_perm⟩ fuel
        cyclicRepository = some result' :=
  resolveGraph_steady cyclicRepository_loaded linuxCfg (fun _ _ => rfl) (cyclicBuild_steady _)
    (cyclicBuild_steady _)

/-- A package of the name `x` is found by its path and another among those that are vendored. -/
def twoTables : BuildContext Nat Unit Nat :=
  { cyclicBuild with
    files :=
      [(0, { name := ascii "app", version := 0, buildScript := false,
             dependencies :=
               [{ key := ascii "a", name := ascii "x", version := (), path := some 1,
                  optional := false, defaultFeatures := true, features := [], kind := .main,
                  table := some (ascii "cfg(unix)") },
                { key := ascii "b", name := ascii "x", version := (), path := none,
                  optional := false, defaultFeatures := true, features := [], kind := .main,
                  table := some (ascii "cfg(target_os = \"linux\")") }],
             targetTables := [ascii "cfg(unix)", ascii "cfg(target_os = \"linux\")"],
             features := [], defaultFeature := [], declaresDefault := false }),
       (1, { name := ascii "x", version := 0, buildScript := false, dependencies := [],
             targetTables := [], features := [], defaultFeature := [], declaresDefault := false }),
       (2, { name := ascii "x", version := 1, buildScript := false, dependencies := [],
             targetTables := [], features := [], defaultFeature := [], declaresDefault := false })]
    isVendored := fun path => decide (path = 2) }

/-- The root and the vendored package are loaded. -/
def vendoredRepository : Repository Nat where
  packages id := parsedPackage (manifest twoTables id)
  packageRef _ _ := none
  byName name := if name = ascii "app" then [0] else if name = ascii "x" then [2] else []
  byPath := [0, 2]

/-- With the first table first, the package found by its name is the one just loaded by its path. -/
theorem twoTables_differ : ¬ ∀ (order order' : MapOrder) fuel packages packages' repo repo',
    resolveGraph twoTables order fuel vendoredRepository = some (.ok (packages, repo)) →
      resolveGraph twoTables order' fuel vendoredRepository = some (.ok (packages', repo')) →
        SameGraph twoTables packages packages' repo repo' := by
  let order : MapOrder := ⟨fun _ l => l, fun _ l => List.Perm.refl l⟩
  let order' : MapOrder := ⟨fun _ l => l.reverse, fun _ l => l.reverse_perm⟩
  have hrun : ((resolveGraph twoTables order 5 vendoredRepository).bind
      fun r => r.toOption.map Prod.fst) = some [.file 0, .file 1] := by decide +kernel
  have hrun' : ((resolveGraph twoTables order' 5 vendoredRepository).bind
      fun r => r.toOption.map Prod.fst) = some [.file 0, .file 1, .file 2] := by decide +kernel
  have hreturns : ∀ {order : MapOrder} {packages : List (PackageId Nat)},
      ((resolveGraph twoTables order 5 vendoredRepository).bind fun r => r.toOption.map Prod.fst) =
        some packages →
      ∃ repo, resolveGraph twoTables order 5 vendoredRepository = some (.ok (packages, repo)) := by
    intro order packages h
    obtain ⟨r, hr, h⟩ := Option.bind_eq_some_iff.1 h
    cases r with
    | error e => cases h
    | ok r =>
      cases h
      exact ⟨r.2, hr⟩
  obtain ⟨repo, hrepo⟩ := hreturns hrun
  obtain ⟨repo', hrepo'⟩ := hreturns hrun'
  intro h
  have hperm := (h order order' 5 _ _ _ _ hrepo hrepo').packages
  exact absurd hperm.length_eq (by decide)

end Trustme.Cargo
