/-
  Subject:   Where packages are vendored (src/bin/cargo/vendor.go, lock.go).

  * `vendorLayout`: the directory of each package of a lockfile;
  * `layout_iff`: when the directories differ, for any names and versions;
  * `wellFormed_continues`: names without a dot and versions that begin with numbers have no
    directory in common but where both are the same;
  * `vendorLayout_exact`: with it, the packages that `vendorAll` writes at the same time.
-/
import Trustme.Lib.Threads
import Trustme.Cargo.Tasks

namespace Trustme.Cargo

open Trustme.Lib

/-! ## 1. Packages of a lockfile -/

structure Pkg where
  name : Str
  version : Str
  source : Str
  checksum : Str
  deriving DecidableEq

def Pkg.isRegistry (p : Pkg) : Bool := (ascii "registry+").isPrefixOf p.source &&
    decide (p.checksum ≠ [])

def Pkg.isGit (p : Pkg) : Bool := (ascii "git+").isPrefixOf p.source

def Pkg.isVendored (p : Pkg) : Bool := p.isRegistry || p.isGit

/-- `name-version` -/
def Pkg.nameVersion (p : Pkg) : Str := p.name ++ ascii "-" ++ p.version

/-- `counts[name]` -/
def counts (pkgs : List Pkg) (name : Str) : Nat := pkgs.countP fun p =>
    p.isVendored && decide (p.name = name)

/-- The name of the directory has the version. -/
def hasVersion (pkgs : List Pkg) (versioned : Bool) (p : Pkg) : Bool :=
  versioned || decide (1 < counts pkgs p.name)

/-- The map of `vendorLayout`. -/
def vendorLayout (pkgs : List Pkg) (versioned : Bool) (i : Nat) : Option Str :=
  match pkgs[i]? with
  | none => none
  | some p =>
    if !p.isVendored then none
    else if hasVersion pkgs versioned p then some p.nameVersion
    else some p.name

/-! ## 2. Directories that differ -/

def DirsDiffer (pkgs : List Pkg) (versioned : Bool) : Prop :=
  ∀ i j dir, i ≠ j → vendorLayout pkgs versioned i = some dir →
    vendorLayout pkgs versioned j ≠ some dir

/-- The package is vendored, and stands at the place. -/
def VendoredAt (pkgs : List Pkg) (i : Nat) (p : Pkg) : Prop := pkgs[i]? = some p ∧
    p.isVendored = true

/-- No two packages that are vendored have the same name and version. -/
def NoTwins (pkgs : List Pkg) : Prop :=
  ∀ i j p q, i ≠ j → VendoredAt pkgs i p → VendoredAt pkgs j q → p.name = q.name →
    p.version ≠ q.version

/-- The name of `q` goes on where that of `p` ends, with a hyphen and what the version of `p` begins
    with. -/
def Continues (pkgs : List Pkg) (versioned : Bool) (p q : Pkg) : Prop :=
  hasVersion pkgs versioned p = true ∧ ∃ more, q.name = p.name ++ ascii "-" ++ more ∧
    p.version = more ++ if hasVersion pkgs versioned q then ascii "-" ++ q.version else []

variable {pkgs : List Pkg} {versioned : Bool} {i j : Nat} {p q : Pkg}

theorem layout_eq (hp : VendoredAt pkgs i p) : vendorLayout pkgs versioned i =
    some (if hasVersion pkgs versioned p then p.nameVersion else p.name) := by
  rw [vendorLayout, hp.1]
  dsimp only
  rw [hp.2]
  split_ifs <;> first | rfl | contradiction

theorem layout_some {dir : Str} (h : vendorLayout pkgs versioned i = some dir) :
    ∃ p, VendoredAt pkgs i p := by
  unfold vendorLayout at h
  cases hp : pkgs[i]? with
  | none =>
    rw [hp] at h
    cases h
  | some p =>
    rw [hp] at h
    dsimp only at h
    split_ifs at h with hnot hversion
    · exact ⟨p, hp, by simpa using hnot⟩
    · exact ⟨p, hp, by simpa using hnot⟩

/-- Two packages of one name are counted. -/
theorem counts_two (hij : i < j) (hp : VendoredAt pkgs i p) (hq : VendoredAt pkgs j q)
    (hname : p.name = q.name) : 1 < counts pkgs p.name := by
  have hfront : p ∈ pkgs.take (i + 1) :=
    List.mem_of_getElem? ((List.getElem?_take_of_lt (Nat.lt_succ_self i)).trans hp.1)
  have hback : q ∈ pkgs.drop (i + 1) := by
    refine List.mem_of_getElem? (i := j - (i + 1)) ?_
    rw [List.getElem?_drop, Nat.add_sub_cancel' hij]
    exact hq.1
  have hsplit : counts pkgs p.name = counts (pkgs.take (i + 1)) p.name +
    counts (pkgs.drop (i + 1)) p.name := by
    rw [counts, counts, counts, ← List.countP_append, List.take_append_drop]
  have hfirst : 0 < counts (pkgs.take (i + 1)) p.name :=
    List.countP_pos_iff.mpr ⟨p, hfront, by simp [hp.2]⟩
  have hsecond : 0 < counts (pkgs.drop (i + 1)) p.name :=
    List.countP_pos_iff.mpr ⟨q, hback, by simp [hq.2, hname]⟩
  omega

/-- Two packages of one name have their versions in the names of their directories. -/
theorem hasVersion_of_twin (versioned : Bool) (hij : i ≠ j) (hp : VendoredAt pkgs i p)
    (hq : VendoredAt pkgs j q)
    (hname : p.name = q.name) : hasVersion pkgs versioned p = true ∧ hasVersion pkgs versioned q =
      true := by
  have hcount : 1 < counts pkgs p.name := by
    rcases Nat.lt_or_gt_of_ne hij with hlt | hgt
    · exact counts_two hlt hp hq hname
    · exact hname ▸ counts_two hgt hq hp hname.symm
  unfold hasVersion
  rw [← hname, decide_eq_true hcount, Bool.or_true]
  exact ⟨rfl, rfl⟩

/-- What follows the name in the name of the directory. -/
def afterName (pkgs : List Pkg) (versioned : Bool) (p : Pkg) : Str :=
  if hasVersion pkgs versioned p then ascii "-" ++ p.version else []

theorem layout_name (hp : VendoredAt pkgs i p) :
    vendorLayout pkgs versioned i = some (p.name ++ afterName pkgs versioned p) := by
  rw [layout_eq hp, afterName]
  split_ifs
  · rw [Pkg.nameVersion, List.append_assoc]
  · rw [List.append_nil]

/-- Where the texts are the same, the longer name goes on in what follows the shorter one. -/
theorem continues_of_shorter {more : Str} (hname : q.name = p.name ++ more) (hne : p.name ≠ q.name)
    (hafter : afterName pkgs versioned p = more ++ afterName pkgs versioned q) :
    Continues pkgs versioned p q := by
  cases more with
  | nil => exact absurd (by rw [hname, List.append_nil]) hne
  | cons b more =>
    unfold afterName at hafter
    split_ifs at hafter with hversion hother
    · obtain ⟨rfl, hrest⟩ := List.cons_eq_cons.mp hafter
      exact ⟨hversion,
        more, by rw [hname, List.append_assoc]; rfl, by rw [if_pos hother]; exact hrest⟩
    · obtain ⟨rfl, hrest⟩ := List.cons_eq_cons.mp hafter
      exact ⟨hversion,
        more, by rw [hname, List.append_assoc]; rfl, by rw [if_neg hother]; exact hrest⟩
    · cases hafter
    · cases hafter

theorem continues_of_dirs (hne : p.name ≠ q.name)
    (h : p.name ++ afterName pkgs versioned p = q.name ++ afterName pkgs versioned q) :
    Continues pkgs versioned p q ∨ Continues pkgs versioned q p := by
  rcases List.append_eq_append_iff.mp h with ⟨more, hname, hafter⟩ | ⟨more, hname, hafter⟩
  · exact .inl (continues_of_shorter hname hne hafter)
  · exact .inr (continues_of_shorter hname hne.symm hafter)

theorem Continues.dirs (h : Continues pkgs versioned p q) :
    p.name ++ afterName pkgs versioned p = q.name ++ afterName pkgs versioned q := by
  obtain ⟨hversion, more, hname, hmore⟩ := h
  rw [afterName, if_pos hversion, hname, hmore, afterName]
  simp only [List.append_assoc]

/-- The directories differ just if no two packages are twins and no name goes on into the version of
    another. -/
theorem layout_iff (pkgs : List Pkg) (versioned : Bool) : DirsDiffer pkgs versioned ↔
    NoTwins pkgs ∧ ∀ i j p q, i ≠ j → VendoredAt pkgs i p → VendoredAt pkgs j q →
      ¬ Continues pkgs versioned p q := by
  constructor
  · intro hdiffer
    refine ⟨fun i j p q hij hp hq hname hversion => ?_, fun i j p q hij hp hq hcontinues => ?_⟩
    · obtain ⟨hvp, hvq⟩ := hasVersion_of_twin versioned hij hp hq hname
      refine hdiffer i j _ hij (layout_name hp) ?_
      rw [layout_name hq, afterName, afterName, if_pos hvp, if_pos hvq, hname, hversion]
    · refine hdiffer i j _ hij (layout_name hp) ?_
      rw [layout_name hq, hcontinues.dirs]
  · rintro ⟨htwins, hcontinues⟩ i j dir hij hi hj
    obtain ⟨p, hp⟩ := layout_some hi
    obtain ⟨q, hq⟩ := layout_some hj
    rw [layout_name hp] at hi
    rw [layout_name hq] at hj
    have hdirs := (Option.some.inj hi).trans (Option.some.inj hj).symm
    by_cases hname : p.name = q.name
    · obtain ⟨hvp, hvq⟩ := hasVersion_of_twin versioned hij hp hq hname
      rw [afterName, afterName, if_pos hvp, if_pos hvq, hname, List.append_cancel_left_eq,
        List.append_cancel_left_eq] at hdirs
      exact htwins i j p q hij hp hq hname hdirs
    · rcases continues_of_dirs hname hdirs with hc | hc
      · exact hcontinues i j p q hij hp hq hc
      · exact hcontinues j i q p hij.symm hq hp hc

/-! ## 3. Names and versions -/

/-- A name has no dot, and a version has one before its first hyphen. -/
def WellFormed (p : Pkg) : Prop := 46 ∉ p.name ∧ 46 ∈ p.version.takeWhile (· ≠ 45)

theorem wellFormed_continues (hp : WellFormed p) (hq : WellFormed q) :
    ¬ Continues pkgs versioned p q := by
  rintro ⟨-, more, hname, hmore⟩
  have hnone : 46 ∉ more := fun hmem => hq.1 (by rw [hname]; exact List.mem_append_right _ hmem)
  have hdot := hp.2
  rw [hmore] at hdot
  split_ifs at hdot
  · rw [List.takeWhile_append] at hdot
    split_ifs at hdot
    · rcases List.mem_append.mp hdot with hmem | hmem
      · exact hnone hmem
      · cases hmem
    · exact hnone ((List.takeWhile_prefix _).subset hdot)
  · rw [List.append_nil] at hdot
    exact hnone ((List.takeWhile_prefix _).subset hdot)

theorem layout_iff_twins (hwell : ∀ p ∈ pkgs, WellFormed p) :
    DirsDiffer pkgs versioned ↔ NoTwins pkgs := by
  rw [layout_iff]
  refine ⟨And.left, fun h => ⟨h, fun i j p q _ hp hq => ?_⟩⟩
  exact wellFormed_continues (hwell p (List.mem_of_getElem? hp.1))
    (hwell q (List.mem_of_getElem? hq.1))

/-! ## 4. Packages that are written at the same time -/

/-- What `fetchCrate` and `fetchGitPackage` do in the directory of a package, when the download is
    there. -/
inductive FileAction where
  | removeAll
  | write (path data : Str)

/-- The files below a directory. -/
abbrev Files := Str → Option Str

def FileAction.act (files : Files) : FileAction → Files
  | .removeAll => fun _ => none
  | .write path data => Function.update files path (some data)

/-- The directory that the goroutine of a package writes to; one without has no goroutine. -/
def dirOf (pkgs : List Pkg) (versioned : Bool) (i : Nat) : Str :=
  (vendorLayout pkgs versioned i).getD []

/-- Only packages with a directory are downloaded, and each begins by removing what is there; a
    download that fails does nothing. -/
def Downloads (pkgs : List Pkg) (versioned : Bool) (program : Nat → List FileAction) : Prop :=
  ∀ i, program i = [] ∨ vendorLayout pkgs versioned i ≠ none ∧ ∃ writes,
    program i = .removeAll :: writes

/-- Every package that was downloaded is there, with its own files and no others, in whatever order
    the goroutines ran. -/
def AllVendored (pkgs : List Pkg) (versioned : Bool) : Prop :=
  ∀ (program : Nat → List FileAction) (trace : List (Nat × FileAction)) (vendor : Str → Files),
    Downloads pkgs versioned program → Threads.Interleaves program trace →
      ∀ i dir writes, vendorLayout pkgs versioned i = some dir → program i = .removeAll :: writes →
        Threads.run (dirOf pkgs versioned) FileAction.act vendor trace dir =
          writes.foldl FileAction.act fun _ => none

theorem allVendored_of_differ (h : DirsDiffer pkgs versioned) : AllVendored pkgs versioned := by
  intro program trace vendor hdownloads htrace i dir writes hdir hprogram
  have hown : ∀ a ∈ trace, dirOf pkgs versioned a.1 = dirOf pkgs versioned i → a.1 = i := by
    intro a ha heq
    by_contra hne
    have hactions : Threads.actionsOf trace a.1 ≠ [] := by
      refine List.ne_nil_of_mem (a := a.2) (List.mem_map.mpr ⟨a, List.mem_filter.mpr ⟨ha, ?_⟩, rfl⟩)
      exact decide_eq_true rfl
    rcases hdownloads a.1 with hnil | ⟨hsome, -⟩
    · exact hactions ((htrace a.1).trans hnil)
    · obtain ⟨other, hother⟩ := Option.ne_none_iff_exists'.mp hsome
      rw [dirOf, dirOf, hdir, hother, Option.getD_some, Option.getD_some] at heq
      exact h a.1 i other hne hother (heq ▸ hdir)
  have hrun : Threads.run (dirOf pkgs versioned) FileAction.act vendor trace
    (dirOf pkgs versioned i) = _ :=
    Threads.run_own hown vendor
  have hcell : dirOf pkgs versioned i = dir := by rw [dirOf, hdir, Option.getD_some]
  rw [htrace i, hprogram, hcell] at hrun
  exact hrun

/-- Two packages with one directory: of the two downloads, the one that began first is lost. -/
theorem differ_of_allVendored (h : AllVendored pkgs versioned) : DirsDiffer pkgs versioned := by
  intro i j dir hij hi hj
  let actions (path : Str) : List FileAction := [.removeAll, .write path []]
  let program : Nat → List FileAction := fun k =>
    if k = i then actions (ascii "i") else if k = j then actions (ascii "j") else []
  let trace : List (Nat × FileAction) :=
    (actions (ascii "i")).map (Prod.mk i) ++ (actions (ascii "j")).map (Prod.mk j)
  have htrace : Threads.Interleaves program trace := by
    intro k
    by_cases hki : k = i
    · subst hki
      simp [Threads.actionsOf, trace, program, actions, Ne.symm hij]
    · by_cases hkj : k = j
      · subst hkj
        simp [Threads.actionsOf, trace, program, actions, hij, Ne.symm hij]
      · simp [Threads.actionsOf, trace, program, actions, hki, hkj, Ne.symm hki, Ne.symm hkj]
  have hdownloads : Downloads pkgs versioned program := by
    intro k
    by_cases hki : k = i
    · subst hki
      exact .inr ⟨by rw [hi]; exact Option.some_ne_none dir, [.write (ascii "i") []], if_pos rfl⟩
    · by_cases hkj : k = j
      · subst hkj
        exact .inr ⟨by rw [hj]; exact Option.some_ne_none dir, [.write (ascii "j") []], by
          simp [program, actions, hki]⟩
      · exact .inl (by simp [program, hki, hkj])
  have hfiles := h program trace (fun _ _ => none) hdownloads htrace i dir
    [.write (ascii "i") []] hi
    (if_pos rfl)
  have hcell : dirOf pkgs versioned i = dir ∧ dirOf pkgs versioned j = dir := by
    rw [dirOf, dirOf, hi, hj]
    exact ⟨rfl, rfl⟩
  have hlost := congrFun hfiles (ascii "i")
  simp [Threads.run, trace, actions, hcell.1, hcell.2, FileAction.act, Function.update] at hlost
  exact absurd hlost (by decide)

/-- The directories differ just if no two vendored packages are twins and no name goes on into the
    version of another, which names and versions of packages do not do; and just then nothing is
    lost. -/
theorem vendorLayout_exact (pkgs : List Pkg) (versioned : Bool) :
    (DirsDiffer pkgs versioned ↔ NoTwins pkgs ∧ ∀ i j p q, i ≠ j → VendoredAt pkgs i p →
      VendoredAt pkgs j q → ¬ Continues pkgs versioned p q) ∧
    ((∀ p ∈ pkgs, WellFormed p) → (DirsDiffer pkgs versioned ↔ NoTwins pkgs)) ∧
    (AllVendored pkgs versioned ↔ DirsDiffer pkgs versioned) :=
  ⟨layout_iff pkgs versioned, layout_iff_twins, differ_of_allVendored, allVendored_of_differ⟩

/-- One crate, in two repositories. -/
def fork : List Pkg :=
  [⟨ascii "rand", ascii "0.8.5", ascii "git+https://one/rand#1", []⟩,
    ⟨ascii "rand", ascii "0.8.5", ascii "git+https://two/rand#2", []⟩]

theorem fork_clashes : fork.Nodup ∧ (∀ p ∈ fork, WellFormed p) ∧ ¬ DirsDiffer fork false ∧
    ¬ ∀ pkgs versioned, pkgs.Nodup → DirsDiffer pkgs versioned := by
  have hnodup : fork.Nodup := by decide
  have hclash : ¬ DirsDiffer fork false := fun h =>
    h 0 1 (ascii "rand-0.8.5") (by decide) (by decide) (by decide)
  have hwell : ∀ p ∈ fork, WellFormed p := by
    unfold WellFormed
    decide
  exact ⟨hnodup, hwell, hclash, fun h => hclash (h fork false hnodup)⟩

end Trustme.Cargo
