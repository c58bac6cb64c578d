/-
  Subject:   The packages of a build and their features (src/bin/cargo/resolve.go), and the
             repository that finds them (src/bin/cargo/manifest.go).

  * `BuildContext`, `Repository`: what does not change, and what does;
  * `loadPath`, `resolve`: how a dependency is resolved;
  * `enabledDependencies`: the dependencies that the active features leave;
  * `visitPackage`, `resolveGraph`: the queue of packages.

  The order in which Go goes through a map is any order, `MapOrder`.
-/
import Trustme.Cargo.Features

namespace Trustme.Cargo

open Trustme.Lib

/-! ## 1. Packages -/

/-- A pointer to a package: there is one for every manifest that is loaded, and one for every
    dependency on a `rustc-std-workspace-` package. -/
inductive PackageId (Path : Type) where
  | file (path : Path)
  | magic (name : Str) (owner : Path) (dep : Nat)
deriving DecidableEq

/-- `BuildOptions`, as far as resolution reads it. -/
structure BuildOptions where
  allFeatures : Bool
  noDefault : Bool
  features : List Str
  command : Str
  tests : Bool
  test : List Str
  examples : Bool
  exampleNames : List Str

/-- What does not change during resolution: `files` are the manifests as `parsePackage` reads them,
    `cfgMatches` is `cfg.matches`, which may throw. -/
structure BuildContext (Version Spec Path : Type) where
  opts : BuildOptions
  root : Path
  target : Str
  files : List (Path × Manifest Version Spec Path)
  patches : Str → Option Path
  locked : Str → List Version
  isVendored : Path → Bool
  accepts : Spec → Version → Bool
  compareVersion : Version → Version → Int
  cfgMatches : Str → Finset Str → Option Bool
  /-- `Version{major: 1, minor: 99}` -/
  magicVersion : Version

/-- What does. A package that is not loaded yet is as `parsePackage` returns it; `packageRef` is the
    field of a package's dependency. -/
structure Repository (Path : Type) where
  packages : PackageId Path → PackageState
  packageRef : Path → Nat → Option (PackageId Path)
  byName : Str → List Path
  byPath : List Path

/-- What is thrown. -/
inductive Failure (Path : Type) where
  | readToml (path : Path)
  | unresolved (name required : Str)
  | cfg (condition : Str)

section Resolve

variable {Version Spec Path : Type} [DecidableEq Version] [DecidableEq Path]
variable (ctx : BuildContext Version Spec Path)

/-- The package that stands for a part of the standard library. -/
def magicManifest (name : Str) : Manifest Version Spec Path where
  name := name
  version := ctx.magicVersion
  buildScript := false
  dependencies := []
  targetTables := []
  features := []
  defaultFeature := []
  declaresDefault := false

def manifest : PackageId Path → Manifest Version Spec Path
  | .file path => (ctx.files.lookup path).getD (magicManifest ctx [])
  | .magic name _ _ => magicManifest ctx name

/-! ## 2. The repository -/

def loadPath (path : Path) (repo : Repository Path) :
    Except (Failure Path) (PackageId Path × Repository Path) :=
  if path ∈ repo.byPath then .ok (.file path, repo)
  else
    match ctx.files.lookup path with
    | none => .error (.readToml path)
    | some m =>
      .ok (.file path, { repo with
        byPath := path :: repo.byPath
        byName := Function.update repo.byName m.name (repo.byName m.name ++ [path]) })

def Repository.setRef (repo : Repository Path) (owner : Path) (i : Nat) (id : PackageId Path) :
    Repository Path :=
  { repo with
    packageRef := fun path j => if path = owner ∧ j = i then some id else repo.packageRef path j }

/-- The two loops over the packages of the name: one that is not vendored comes first. -/
def choose (byName : Str → List Path) (dep : Dependency Spec Path) : Option Path :=
  let version path := (manifest ctx (.file path)).version
  let locked := ctx.locked dep.name
  ((byName dep.name).find? fun path =>
    ctx.accepts dep.version (version path) && !ctx.isVendored path) <|>
  (byName dep.name).find? fun path =>
    ctx.accepts dep.version (version path) && (locked.isEmpty || decide (version path ∈ locked))

/-- `Repository.resolve`, for the `i`-th dependency of the package at `owner`. -/
def resolve (owner : Path) (i : Nat) (dep : Dependency Spec Path) (repo : Repository Path) :
    Except (Failure Path) (PackageId Path × Repository Path) :=
  match repo.packageRef owner i with
  | some id => .ok (id, repo)
  | none =>
    match ctx.patches dep.name <|> dep.path with
    | some path =>
      match loadPath ctx path repo with
      | .error e => .error e
      | .ok (id, repo') => .ok (id, repo'.setRef owner i id)
    | none =>
      match choose ctx repo.byName dep with
      | some path => .ok (.file path, repo.setRef owner i (.file path))
      | none =>
        if (ascii "rustc-std-workspace-").isPrefixOf dep.name then
          .ok (.magic dep.name owner i, repo.setRef owner i (.magic dep.name owner i))
        else .error (.unresolved dep.name (manifest ctx (.file owner)).name)

/-! ## 3. The dependencies of a package -/

def buildsDevDependents : Bool :=
  ctx.opts.command == ascii "test" || ctx.opts.tests || !ctx.opts.test.isEmpty ||
    ctx.opts.examples || !ctx.opts.exampleNames.isEmpty

/-- `includeDev`, for a package. -/
def includeDev (id : PackageId Path) : Bool := decide (id = .file ctx.root) &&
    buildsDevDependents ctx

def targetTableMatches (condition : Str) (active : Finset Str) : Except (Failure Path) Bool :=
  if (ascii "cfg(").isPrefixOf condition then
    match ctx.cfgMatches condition active with
    | some b => .ok b
    | none => .error (.cfg condition)
  else .ok (condition == ctx.target)

/-- The dependencies of one table, by their places. -/
def tableOf (m : Manifest Version Spec Path) (table : Option Str) (kind : DependencyKind) :
    List Nat :=
  (List.range m.dependencies.length).filter fun i =>
    m.dependencies[i]?.map (fun dep => (dep.table, dep.kind)) == some (table, kind)

def groupOf (m : Manifest Version Spec Path) (dev : Bool) (table : Option Str) : List Nat :=
  tableOf m table .main ++ (if m.buildScript then tableOf m table .build else []) ++
    if dev then tableOf m table .dev else []

/-- The loop over `targetDeps`, whose conditions come in this order. -/
def matchingGroups (m : Manifest Version Spec Path) (dev : Bool) (active : Finset Str) :
    List Str → Except (Failure Path) (List Nat)
  | [] => .ok []
  | condition :: rest =>
    match targetTableMatches ctx condition active with
    | .error e => .error e
    | .ok matched =>
      match matchingGroups m dev active rest with
      | .error e => .error e
      | .ok deps => .ok ((if matched then groupOf m dev (some condition) else []) ++ deps)

def isOptional (m : Manifest Version Spec Path) (i : Nat) : Bool :=
  (m.dependencies[i]?.map (·.optional)).getD false

def enabledDependencies (m : Manifest Version Spec Path) (pkg : PackageState) (dev : Bool)
    (tables : List Str) : Except (Failure Path) (List Nat) :=
  match matchingGroups ctx m dev pkg.activeFeatures tables with
  | .error e => .error e
  | .ok deps =>
    .ok ((groupOf m dev none ++ deps).filter fun i =>
      !isOptional m i || (pkg.dependencies i).enabled)

/-! ## 4. The queue -/

/-- `strings.Join(sortedFeatureKeys(pkg.activeFeatures), "\x00")` -/
def featureRevision (active : Finset Str) : Str := [0].intercalate (sortedFeatureKeys active)

structure Resolution (Path : Type) where
  repo : Repository Path
  queue : List (PackageId Path)
  queued : PackageId Path → Bool
  visitedRevision : PackageId Path → Option Str
  packages : List (PackageId Path)
  /-- How many loops over `targetDeps` there have been. -/
  loops : Nat

/-- The orders in which Go goes through its maps, one after another. -/
structure MapOrder where
  order : Nat → List Str → List Str
  perm : ∀ n l, (order n l).Perm l

def Repository.setPackage (repo : Repository Path) (id : PackageId Path) (pkg : PackageState) :
    Repository Path :=
  { repo with packages := Function.update repo.packages id pkg }

/-- The body of the loop over the enabled dependencies of the package at `owner`. -/
def requestDependency (owner : Path) (st : Resolution Path) (i : Nat) :
    Except (Failure Path) (Resolution Path) :=
  match (manifest ctx (.file owner)).dependencies[i]? with
  | none => .ok st
  | some dep =>
    match resolve ctx owner i dep st.repo with
    | .error e => .error e
    | .ok (child, repo) =>
      let features := ((repo.packages (.file owner)).dependencies i).features
      let (pkg, changed) :=
        requestFeatures (manifest ctx child) features dep.defaultFeatures (repo.packages child)
      let st := { st with repo := repo.setPackage child pkg }
      if (changed || (st.visitedRevision child).getD [] == []) && !st.queued child then
        .ok { st with
          queue := st.queue ++ [child]
          queued := Function.update st.queued child true }
      else .ok st

/-- The loop over the dependencies. -/
def requestDependencies (owner : Path) : List Nat → Resolution Path →
    Except (Failure Path) (Resolution Path)
  | [], st => .ok st
  | i :: deps, st =>
    match requestDependency ctx owner st i with
    | .error e => .error e
    | .ok st' => requestDependencies owner deps st'

/-- What follows when the revision of a package is a new one. -/
def visitDependencies (order : MapOrder) (id : PackageId Path) (st : Resolution Path) :
    Except (Failure Path) (Resolution Path) :=
  match id with
  | .magic _ _ _ => .ok st
  | .file owner =>
    let m := manifest ctx id
    match enabledDependencies ctx m (st.repo.packages id) (includeDev ctx id)
        (order.order st.loops m.targetTables) with
    | .error e => .error e
    | .ok deps => requestDependencies ctx owner deps { st with loops := st.loops + 1 }

/-- One round of the loop, with `id` at the head of the queue; `none` without fuel. -/
def visitPackage (order : MapOrder) (fuel : Nat) (id : PackageId Path)
    (queue : List (PackageId Path))
    (st : Resolution Path) : Option (Except (Failure Path) (Resolution Path)) :=
  match expandFeatures (manifest ctx id) fuel (st.repo.packages id) with
  | none => none
  | some pkg =>
    let revision := featureRevision pkg.activeFeatures
    let st := { st with
      repo := st.repo.setPackage id pkg
      queue := queue
      queued := Function.update st.queued id false }
    if st.visitedRevision id = some revision then some (.ok st)
    else
      some (visitDependencies ctx order id { st with
        packages := if st.visitedRevision id = none then st.packages ++ [id] else st.packages
        visitedRevision := Function.update st.visitedRevision id (some revision) })

/-- `for len(queue) > 0` -/
def resolveLoop (order : MapOrder) (fuel : Nat) : Nat → Resolution Path →
    Option (Except (Failure Path) (Resolution Path))
  | 0, _ => none
  | n + 1, st =>
    match st.queue with
    | [] => some (.ok st)
    | id :: queue =>
      match visitPackage ctx order fuel id queue st with
      | none => none
      | some (.error e) => some (.error e)
      | some (.ok st') => resolveLoop order fuel n st'

/-- The features that the options ask of the root. -/
def rootFeatures (order : MapOrder) (pkg : PackageState) : PackageState :=
  let m := manifest ctx (.file ctx.root)
  let default := ascii "default"
  if ctx.opts.allFeatures then
    let pkg := (each activateFeature (order.order 0 (m.features.map (·.1))) pkg).1
    if m.declaresDefault then (activateFeature default pkg).1 else pkg
  else
    let pkg := if !ctx.opts.noDefault && m.declaresDefault then (activateFeature default
      pkg).1 else pkg
    (each activateFeature ctx.opts.features pkg).1

/-- The comparison of the last `sort.Slice`; the order of packages that are alike is any. -/
def comesBefore (a b : PackageId Path) : Bool :=
  let m := manifest ctx a
  let m' := manifest ctx b
  if m.name ≠ m'.name then decide (m.name < m'.name) else decide
    (ctx.compareVersion m.version m'.version < 0)

/-- The state before the loop. -/
def startResolution (order : MapOrder) (repo : Repository Path) : Resolution Path where
  repo := repo.setPackage (.file ctx.root) (rootFeatures ctx order (repo.packages (.file ctx.root)))
  queue := [.file ctx.root]
  queued id := decide (id = .file ctx.root)
  visitedRevision _ := none
  packages := []
  loops := 1

/-- The packages, and the repository as it is left. -/
def resolveGraph (order : MapOrder) (fuel : Nat) (repo : Repository Path) :
    Option (Except (Failure Path) (List (PackageId Path) × Repository Path)) :=
  (resolveLoop ctx order fuel fuel (startResolution ctx order repo)).map fun result =>
    result.map fun st =>
      (st.packages.insertionSort fun a b => comesBefore ctx b a = false, st.repo)

end Resolve

end Trustme.Cargo
