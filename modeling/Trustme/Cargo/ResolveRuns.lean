/-
  Subject:   Runs of `resolveGraph` (src/bin/cargo/resolve.go): they end, and what they return is
             closed.

  * `Expands`: the package at the head of the queue, with its features expanded;
  * `visitPackage_inv`: one round of the loop;
  * `weight`: what becomes less with every package that is gone through anew;
  * `resolveGraph_closed`: the result.
-/
import Mathlib.Order.Lattice.Nat
import Trustme.Cargo.Cfg
import Trustme.Cargo.ResolveSteps

namespace Trustme.Cargo

open Trustme.Lib

section Runs

variable {Version Spec Path : Type} [DecidableEq Path]
variable {ctx : BuildContext Version Spec Path} {W : Set Str} {st st' : Resolution Path}

/-! ## 1. One package -/

variable {repo : Repository Path} {id : PackageId Path}

/-- Expanding the features of a package leaves a sound one. -/
theorem expandFeatures_sound (hW : Words ctx W) (h : SoundRepository ctx W repo)
    (hid : id ∈ known ctx) {fuel : Nat} {pkg : PackageState}
    (hexp : expandFeatures (manifest ctx id) fuel (repo.packages id) = some pkg) :
    SoundRepository ctx W (repo.setPackage id pkg) := by
  obtain ⟨-, -, hleast⟩ := expandFeatures_facts hexp
  refine setPackage_sound h (hleast _ (h.inside id hid) (rule_over hW.parts (hW.manifests id))) ?_
  intro hnil
  have hnot : (repo.packages id).facts ⊆ {x | x ≠ .active []} := by
    rintro x hx rfl
    exact h.named id hid hx
  exact hleast _ hnot rule_nonempty hnil rfl

/-- The package at the head of the queue, with its features expanded. -/
structure Expands (ctx : BuildContext Version Spec Path) (st st' : Resolution Path)
    (id : PackageId Path) (queue : List (PackageId Path)) (pkg : PackageState) : Prop where
  head : st.queue = id :: queue
  repo : st'.repo = st.repo.setPackage id pkg
  queue : st'.queue = queue
  queued : st'.queued = Function.update st.queued id false

section OnePackage

variable {id : PackageId Path} {queue : List (PackageId Path)} {pkg : PackageState}

theorem Expands.own (h : Expands ctx st st' id queue pkg) : st'.repo.packages id = pkg := by
  rw [h.repo]
  exact Function.update_self _ _ _

variable {id' : PackageId Path}

variable (h : Expands ctx st st' id queue pkg)

include h

theorem Expands.other (hid : id' ≠ id) :
    st'.repo.packages id' = st.repo.packages id' := by
  rw [h.repo]
  exact Function.update_of_ne hid _ _

/-- The rest of the queue. -/
theorem Expands.mem_queue (hid : id' ∈ st.queue) : id' ∈ st'.queue ∨ id' = id := by
  rw [h.head] at hid
  rw [h.queue]
  exact (List.mem_cons.1 hid).symm

theorem Expands.queue_sub (hid : id' ∈ st'.queue) : id' ∈ st.queue := by
  rw [h.queue] at hid
  rw [h.head]
  exact List.mem_cons_of_mem _ hid

theorem Expands.queued_mem (hq : ∀ id, st.queued id = true → id ∈ st.queue)
    (hid : st'.queued id' = true) : id' ∈ st'.queue := by
  rw [h.queued] at hid
  by_cases heq : id' = id
  · subst heq
    rw [Function.update_self] at hid
    cases hid
  · rw [Function.update_of_ne heq] at hid
    exact (h.mem_queue (hq id' hid)).resolve_right heq

theorem Expands.later
    (hfacts : (st.repo.packages id).facts ⊆ pkg.facts) (hseen : st'.visitedRevision id ≠ none)
    (hvisited : ∀ id', id' ≠ id → st'.visitedRevision id' = st.visitedRevision id') :
    Later st st' where
  facts id' := by
    by_cases heq : id' = id
    · subst heq
      rw [h.own]
      exact hfacts
    · rw [h.other heq]
  refs owner i child hchild := by
    rw [h.repo]
    exact hchild
  reached id' hid := by
    by_cases heq : id' = id
    · subst heq
      exact .inr hseen
    · rw [hvisited id' heq]
      exact hid.imp_left fun hin => (h.mem_queue hin).resolve_right heq

/-- A package that is not the one at the head of the queue stays as it is. -/
theorem Expands.visited_other (hl : Later st st')
    (hid : id' ≠ id) {skip : Nat → Prop} {S : Finset Str}
    (hvisited : VisitedWith ctx st (fun _ => False) id' S) : VisitedWith ctx st' skip id' S := by
  obtain ⟨hsub, hsame, hsettled⟩ := hvisited
  have hstate := h.other hid
  refine ⟨hstate ▸ hsub, fun hout => ?_, fun heq => ?_⟩
  · rw [hstate]
    exact hsame fun hin => hout ((h.mem_queue hin).resolve_right hid)
  · rw [hstate] at heq
    exact (hsettled heq).later hl hstate fun _ hfalse => hfalse.elim

/-- A package whose features are the same as when it was gone through. -/
theorem Expands.again (hW : Words ctx W)
    (hinv : Inv ctx W (fun _ _ => False) st) {fuel : Nat}
    (hexp : expandFeatures (manifest ctx id) fuel (st.repo.packages id) = some pkg)
    (hrev : st.visitedRevision id = some (featureRevision pkg.activeFeatures))
    (hvisited : st'.visitedRevision = st.visitedRevision) (hpackages : st'.packages = st.packages) :
    Inv ctx W (fun _ _ => False) st' := by
  have hid : id ∈ known ctx := hinv.queue id (h.head ▸ List.mem_cons_self)
  have hsound : SoundRepository ctx W st'.repo :=
    h.repo ▸ expandFeatures_sound hW hinv.sound hid hexp
  have hfacts := (expandFeatures_facts hexp).1
  have hseen : st'.visitedRevision id ≠ none := by
    rw [hvisited, hrev]
    exact nofun
  have hlater := h.later hfacts hseen fun id' _ => congrFun hvisited id'
  refine ⟨hsound, fun id' hin => hinv.queue id' (h.queue_sub hin), fun id' =>
    h.queued_mem hinv.queued,
    ?_, ?_, hlater.reached _ hinv.root, fun id' rev hrev' => ?_⟩
  · rw [hvisited, hpackages]
    exact hinv.packages
  · rw [hpackages]
    exact hinv.nodup
  · rw [hvisited] at hrev'
    obtain ⟨S, hS, hold⟩ := hinv.visited id' rev hrev'
    refine ⟨S, hS, ?_⟩
    by_cases heq : id' = id
    · subst heq
      rw [hrev] at hrev'
      cases hrev'
      -- the revision tells the features, so the package was closed before
      have hnil : [] ∉ pkg.activeFeatures := h.own ▸ hsound.named id' hid
      have hSpkg : S = pkg.activeFeatures :=
        featureRevision_injective (hold.sub.trans (facts_active hfacts)) hnil hS.symm
      have hSold : S = (st.repo.packages id').activeFeatures :=
        Finset.Subset.antisymm hold.sub (hSpkg ▸ facts_active hfacts)
      have hsettled := hold.settled hSold
      obtain ⟨n, rfl⟩ : ∃ n, fuel = n + 1 := by
        cases fuel with
        | zero => cases hexp
        | succ n => exact ⟨n, rfl⟩
      rw [expandFeatures_closed hsettled.closed, Option.some.injEq] at hexp
      have hstate : st'.repo.packages id' = st.repo.packages id' := h.own.trans hexp.symm
      exact ⟨hstate ▸ hold.sub, fun _ => hstate ▸ hSold, fun _ =>
        hsettled.later hlater hstate fun _ hfalse => hfalse.elim⟩
    · exact h.visited_other hlater heq hold

/-- A package whose features are new: its dependencies are to be gone through. -/
theorem Expands.anew (hW : Words ctx W)
    (hinv : Inv ctx W (fun _ _ => False) st) {fuel : Nat}
    (hexp : expandFeatures (manifest ctx id) fuel (st.repo.packages id) = some pkg)
    (hvisited : st'.visitedRevision =
      Function.update st.visitedRevision id (some (featureRevision pkg.activeFeatures)))
    (hpackages : st'.packages =
      if st.visitedRevision id = none then st.packages ++ [id] else st.packages)
    {skip : PackageId Path → Nat → Prop}
    (htables : ∀ condition ∈ (manifest ctx id).targetTables, ∃ matched,
      targetTableMatches ctx condition pkg.activeFeatures = .ok matched)
    (hskip : ∀ owner i dep, id = .file owner → (manifest ctx id).dependencies[i]? = some dep →
      Wanted ctx (manifest ctx id) pkg (includeDev ctx id) i → skip id i) : Inv ctx W skip st' := by
  have hid : id ∈ known ctx := hinv.queue id (h.head ▸ List.mem_cons_self)
  obtain ⟨hfacts, hclosed, -⟩ := expandFeatures_facts hexp
  have hseen : st'.visitedRevision id ≠ none := by
    rw [hvisited, Function.update_self]
    exact nofun
  have hother : ∀ id', id' ≠ id → st'.visitedRevision id' = st.visitedRevision id' := by
    intro id' hne
    rw [hvisited, Function.update_of_ne hne]
  have hlater := h.later hfacts hseen hother
  refine ⟨h.repo ▸ expandFeatures_sound hW hinv.sound hid hexp,
    fun id' hin => hinv.queue id' (h.queue_sub hin), fun id' => h.queued_mem hinv.queued, ?_, ?_,
    hlater.reached _ hinv.root, fun id' rev hrev => ?_⟩
  · intro id'
    by_cases heq : id' = id
    · subst heq
      refine ⟨fun _ => hseen, fun _ => ?_⟩
      rw [hpackages]
      split
      · exact List.mem_append_right _ (List.mem_singleton.2 rfl)
      · next hsome => exact (hinv.packages id').2 hsome
    · rw [hother id' heq, ← hinv.packages id', hpackages]
      split
      · rw [List.mem_append, List.mem_singleton, or_iff_left heq]
      · exact Iff.rfl
  · rw [hpackages]
    split
    · next hnone =>
      refine List.nodup_append'.2 ⟨hinv.nodup, List.nodup_singleton id, ?_⟩
      intro id' hin hlast
      cases List.mem_singleton.1 hlast
      exact (hinv.packages id).1 hin hnone
    · exact hinv.nodup
  · by_cases heq : id' = id
    · subst heq
      rw [hvisited, Function.update_self, Option.some.injEq] at hrev
      refine ⟨pkg.activeFeatures, hrev.symm, ?_⟩
      rw [← h.own] at htables hskip hclosed ⊢
      refine ⟨Finset.Subset.refl _, fun _ => rfl, fun _ => ⟨hclosed, htables, ?_⟩⟩
      exact fun owner i dep howner hdep hwanted hnot =>
        absurd (hskip owner i dep howner hdep hwanted) hnot
    · rw [hother id' heq] at hrev
      obtain ⟨S, hS, hold⟩ := hinv.visited id' rev hrev
      exact ⟨S, hS, h.visited_other hlater heq hold⟩

end OnePackage

variable [DecidableEq Version]

omit [DecidableEq Path] [DecidableEq Version] in
/-- When the dependencies are told, so is whether each target table matches. -/
theorem enabledDependencies_ok {m : Manifest Version Spec Path} {pkg : PackageState} (dev : Bool)
    {tables : List Str} (hperm : tables.Perm m.targetTables) :
    (∃ deps, enabledDependencies ctx m pkg dev tables = .ok deps) ↔
      ∀ condition ∈ m.targetTables, ∃ matched,
        targetTableMatches ctx condition pkg.activeFeatures = .ok matched := by
  have hgroups : (∃ deps, enabledDependencies ctx m pkg dev tables = .ok deps) ↔
      ∃ deps, matchingGroups ctx m dev pkg.activeFeatures tables = .ok deps := by
    unfold enabledDependencies
    cases matchingGroups ctx m dev pkg.activeFeatures tables <;> simp
  rw [hgroups, matchingGroups_ok]
  exact ⟨fun h condition hc => h condition (hperm.mem_iff.2 hc),
    fun h condition hc => h condition (hperm.mem_iff.1 hc)⟩

/-- A longest revision. -/
noncomputable def Words.longest (hW : Words ctx W) : Nat :=
  (featureRevision (hW.finite.toFinset.erase [])).length

omit [DecidableEq Version] in
theorem SoundRepository.revision_le (hW : Words ctx W) (h : SoundRepository ctx W repo)
    (hid : id ∈ known ctx) :
    (featureRevision (repo.packages id).activeFeatures).length ≤ hW.longest := by
  refine featureRevision_le (fun f hf => ?_) (Finset.notMem_erase _ _)
  have hmem : f ∈ W := h.inside id hid (show Fact.active f ∈ (repo.packages id).facts from hf)
  refine Finset.mem_erase.2 ⟨?_, hW.finite.mem_toFinset.2 hmem⟩
  rintro rfl
  exact h.named id hid hf

/-- What a round does to the revisions: nothing, and then the queue is shorter, or that of one
    package is a longer one. -/
inductive Revises (n : Nat) (st st' : Resolution Path) (id : PackageId Path)
    (queue : List (PackageId Path)) : Prop where
  | kept (visited : st'.visitedRevision = st.visitedRevision) (rest : st'.queue = queue)
  | grown (rev : Str)
      (visited : st'.visitedRevision = Function.update st.visitedRevision id (some rev))
      (bound : rev.length ≤ n)
      (longer : ∀ r, st.visitedRevision id = some r → r.length < rev.length)

/-- A package is taken from the queue, and its dependencies are to be gone through. -/
def beginVisit (id : PackageId Path) (queue : List (PackageId Path)) (pkg : PackageState)
    (st : Resolution Path) : Resolution Path :=
  { st with
    repo := st.repo.setPackage id pkg
    queue := queue
    queued := Function.update st.queued id false
    packages := if st.visitedRevision id = none then st.packages ++ [id] else st.packages
    visitedRevision :=
      Function.update st.visitedRevision id (some (featureRevision pkg.activeFeatures)) }

variable {queue : List (PackageId Path)}

theorem visitPackage_cases {order : MapOrder} {fuel : Nat}
    {result : Except (Failure Path) (Resolution Path)}
    (hstep : visitPackage ctx order fuel id queue st = some result) :
    ∃ pkg, expandFeatures (manifest ctx id) fuel (st.repo.packages id) = some pkg ∧
      ((st.visitedRevision id = some (featureRevision pkg.activeFeatures) ∧
        result = .ok { st with
          repo := st.repo.setPackage id pkg
          queue := queue
          queued := Function.update st.queued id false }) ∨
      (st.visitedRevision id ≠ some (featureRevision pkg.activeFeatures) ∧
        result = visitDependencies ctx order id (beginVisit id queue pkg st))) := by
  unfold visitPackage at hstep
  split at hstep
  · cases hstep
  · next pkg hexp =>
    refine ⟨pkg, hexp, ?_⟩
    dsimp only at hstep
    split at hstep
    · next hrev => exact .inl ⟨hrev, (Option.some.inj hstep).symm⟩
    · next hrev => exact .inr ⟨hrev, (Option.some.inj hstep).symm⟩

section Begin

variable {id : PackageId Path} {queue : List (PackageId Path)} {pkg : PackageState} {fuel : Nat}

omit [DecidableEq Version] in
theorem beginVisit_expands (hqueue : st.queue = id :: queue) :
    Expands ctx st (beginVisit id queue pkg st) id queue pkg := ⟨hqueue, rfl, rfl, rfl⟩

omit [DecidableEq Version] in
/-- Before the loop over its dependencies, all that are enabled are still to be gone through. -/
theorem beginVisit_inv (hW : Words ctx W) (hinv : Inv ctx W (fun _ _ => False) st)
    {order : MapOrder}
    {owner : Path} (hqueue : st.queue = .file owner :: queue)
    (hexp : expandFeatures (manifest ctx (.file owner)) fuel (st.repo.packages (.file owner)) =
      some pkg)
    {deps : List Nat} (hdeps : enabledDependencies ctx (manifest ctx (.file owner)) pkg
      (includeDev ctx (.file owner))
        (order.order st.loops (manifest ctx (.file owner)).targetTables) =
        .ok deps) :
    Inv ctx W (Left owner deps) (beginVisit (.file owner) queue pkg st) := by
  have hperm := order.perm st.loops (manifest ctx (.file owner)).targetTables
  have htables := (enabledDependencies_ok _ hperm).1 ⟨deps, hdeps⟩
  refine (beginVisit_expands hqueue).anew hW hinv hexp rfl rfl htables
    fun owner' i dep _ _ hwanted => ?_
  exact ⟨rfl, (mem_enabledDependencies hperm hdeps).2 hwanted⟩

end Begin

omit [DecidableEq Version] in
/-- How many loops there have been does not matter. -/
theorem Inv.loops {skip : PackageId Path → Nat → Prop} (h : Inv ctx W skip st) (n : Nat) :
    Inv ctx W skip { st with loops := n } :=
  ⟨h.sound, h.queue, h.queued, h.packages, h.nodup, h.root, fun id rev hrev => by
    obtain ⟨S, hS, hsub, hsame, hsettled⟩ := h.visited id rev hrev
    refine ⟨S, hS, hsub, hsame, fun heq => ?_⟩
    obtain ⟨hclosed, htables, hanswered⟩ := hsettled heq
    refine ⟨hclosed, htables, fun owner i dep hid hdep hwanted hnot => ?_⟩
    obtain ⟨child, href, hreached, hasked⟩ := hanswered owner i dep hid hdep hwanted hnot
    exact ⟨child, href, hreached, hasked⟩⟩

/-- One round of the loop. -/
theorem visitPackage_inv (hW : Words ctx W) (hinv : Inv ctx W (fun _ _ => False) st)
    {order : MapOrder} {fuel : Nat} (hqueue : st.queue = id :: queue)
    (hstep : visitPackage ctx order fuel id queue st = some (.ok st')) :
    Inv ctx W (fun _ _ => False) st' ∧ Revises hW.longest st st' id queue := by
  have hid : id ∈ known ctx := hinv.queue id (hqueue ▸ List.mem_cons_self)
  obtain ⟨pkg, hexp, ⟨hrev, hres⟩ | ⟨hrev, hres⟩⟩ := visitPackage_cases hstep
  · cases hres
    exact ⟨Expands.again ⟨hqueue, rfl, rfl, rfl⟩ hW hinv hexp hrev rfl rfl, .kept rfl rfl⟩
  · have hsound := expandFeatures_sound hW hinv.sound hid hexp
    have hown : (st.repo.setPackage id pkg).packages id = pkg := Function.update_self _ _ _
    have hbound : (featureRevision pkg.activeFeatures).length ≤ hW.longest :=
      hown ▸ hsound.revision_le hW hid
    have hlonger : ∀ r, st.visitedRevision id = some r →
        r.length < (featureRevision pkg.activeFeatures).length := by
      intro r hr
      obtain ⟨S, rfl, hold⟩ := hinv.visited id r hr
      have hsub : S ⊆ pkg.activeFeatures := hold.sub.trans
        (facts_active (expandFeatures_facts hexp).1)
      rcases hsub.eq_or_ssubset with rfl | hlt
      · exact absurd hr hrev
      · exact featureRevision_grows hlt (hown ▸ hsound.named id hid)
    cases id with
    | magic name owner dep =>
      cases hres
      refine ⟨(beginVisit_expands hqueue).anew hW hinv hexp rfl rfl ?_ nofun,
        .grown _ rfl hbound hlonger⟩
      exact fun _ hc => absurd hc List.not_mem_nil
    | file owner =>
      simp only [visitDependencies, beginVisit, hown] at hres
      split at hres
      · cases hres
      · next deps hdeps =>
        obtain ⟨hend, hvisited⟩ := requestDependencies_inv hW hid
          ((beginVisit_inv hW hinv hqueue hexp hdeps).loops _) hres.symm
        exact ⟨hend, .grown _ hvisited hbound hlonger⟩

/-! ## 2. The loop ends -/

/-- The fuel with which every package's features are expanded. -/
noncomputable def enoughFuel (ctx : BuildContext Version Spec Path) (W : Set Str) : Nat :=
  (known ctx).toFinset.sup fun id => (factsOver W (manifest ctx id).dependencies.length).ncard + 1

/-- With this fuel, a round does not depend on it. -/
theorem visitPackage_ends (hW : Words ctx W) (hinv : Inv ctx W (fun _ _ => False) st)
    (order : MapOrder) (hqueue : st.queue = id :: queue) :
    ∃ result, ∀ fuel, enoughFuel ctx W ≤ fuel →
      visitPackage ctx order fuel id queue st = some result := by
  have hid : id ∈ known ctx := hinv.queue id (hqueue ▸ List.mem_cons_self)
  have hfuel : (factsOver W (manifest ctx id).dependencies.length).ncard + 1 ≤ enoughFuel ctx W :=
    Finset.le_sup (f := fun id => (factsOver W (manifest ctx id).dependencies.length).ncard + 1)
      (List.mem_toFinset.2 hid)
  obtain ⟨pkg, hpkg⟩ := expandFeatures_ends hW.parts hW.finite (hW.manifests id)
    (hinv.sound.inside id hid)
  obtain ⟨result, hresult⟩ : ∃ result,
      visitPackage ctx order (enoughFuel ctx W) id queue st = some result := by
    unfold visitPackage
    rw [hpkg _ hfuel]
    dsimp only
    split
    · exact ⟨_, rfl⟩
    · exact ⟨_, rfl⟩
  refine ⟨result, fun fuel hle => ?_⟩
  rw [← hresult]
  unfold visitPackage
  rw [hpkg _ hfuel, hpkg _ (hfuel.trans hle)]

/-- What becomes less with every package that is gone through anew. -/
noncomputable def weight (hW : Words ctx W) (visited : PackageId Path → Option Str) : Nat :=
  ∑ id ∈ (known ctx).toFinset,
    match visited id with
    | none => hW.longest + 1
    | some rev => hW.longest - rev.length

omit [DecidableEq Version] in
theorem weight_less (hW : Words ctx W) {visited : PackageId Path → Option Str}
    (hid : id ∈ known ctx) {rev : Str} (hbound : rev.length ≤ hW.longest)
    (hlonger : ∀ r, visited id = some r → r.length < rev.length) :
    weight hW (Function.update visited id (some rev)) < weight hW visited := by
  refine Finset.sum_lt_sum (fun id' _ => ?_) ⟨id, List.mem_toFinset.2 hid, ?_⟩
  · by_cases heq : id' = id
    · subst heq
      rw [Function.update_self]
      cases hr : visited id' with
      | none => exact Nat.le_succ_of_le (Nat.sub_le _ _)
      | some r => exact Nat.sub_le_sub_left (Nat.le_of_lt (hlonger r hr)) _
    · rw [Function.update_of_ne heq]
  · rw [Function.update_self]
    cases hr : visited id with
    | none => exact Nat.lt_succ_of_le (Nat.sub_le _ _)
    | some r =>
      have hlt := hlonger r hr
      exact Nat.sub_lt_sub_left (Nat.lt_of_lt_of_le hlt hbound) hlt

/-- The loop ends from here, whatever the fuel above some bound, and with nothing left to do if it
    does not throw. -/
def Ends (ctx : BuildContext Version Spec Path) (W : Set Str) (order : MapOrder)
    (st : Resolution Path) :
    Prop :=
  ∃ result n, (∀ fuel k, enoughFuel ctx W ≤ fuel → n ≤ k →
    resolveLoop ctx order fuel k st = some result) ∧
      ∀ st', result = .ok st' → Inv ctx W (fun _ _ => False) st' ∧ st'.queue = []

theorem Ends.step {order : MapOrder} {id : PackageId Path} {queue : List (PackageId Path)}
    (hqueue : st.queue = id :: queue)
    (hstep : ∀ fuel, enoughFuel ctx W ≤ fuel → visitPackage ctx order fuel id queue st =
      some (.ok st'))
    (h : Ends ctx W order st') : Ends ctx W order st := by
  obtain ⟨result, n, hloop, hresult⟩ := h
  refine ⟨result, n + 1, fun fuel k hfuel hk => ?_, hresult⟩
  obtain ⟨k, rfl⟩ : ∃ k', k = k' + 1 := ⟨k - 1, by omega⟩
  rw [resolveLoop, hqueue]
  dsimp only
  rw [hstep fuel hfuel]
  exact hloop fuel k hfuel (by omega)

/-- A round has a package that is gone through anew, or one less in the queue. -/
theorem resolveLoop_ends (hW : Words ctx W) (order : MapOrder) : ∀ {n : Nat} {st : Resolution Path},
    Inv ctx W (fun _ _ => False) st → weight hW st.visitedRevision < n → Ends ctx W order st
  | 0, _, _, hlt => absurd hlt (Nat.not_lt_zero _)
  | n + 1, st, hinv, hlt => by
    induction hqueue : st.queue generalizing st with
    | nil =>
      refine ⟨.ok st, 1, fun fuel k _ hk => ?_, fun st' heq => ?_⟩
      · obtain ⟨k, rfl⟩ : ∃ k', k = k' + 1 := ⟨k - 1, by omega⟩
        rw [resolveLoop, hqueue]
      · cases heq
        exact ⟨hinv, hqueue⟩
    | cons id queue ih =>
      obtain ⟨result, hstep⟩ := visitPackage_ends hW hinv order hqueue
      cases result with
      | error e =>
        refine ⟨.error e, 1, fun fuel k hfuel hk => ?_, nofun⟩
        obtain ⟨k, rfl⟩ : ∃ k', k = k' + 1 := ⟨k - 1, by omega⟩
        rw [resolveLoop, hqueue]
        dsimp only
        rw [hstep fuel hfuel]
      | ok st₁ =>
        refine Ends.step hqueue hstep ?_
        obtain ⟨hinv₁, hrevises⟩ := visitPackage_inv hW hinv hqueue (hstep _ (Nat.le_refl _))
        cases hrevises with
        | kept visited rest => exact ih st₁ hinv₁ (visited ▸ hlt) rest
        | grown rev visited bound longer =>
          have hid : id ∈ known ctx := hinv.queue id (hqueue ▸ List.mem_cons_self)
          have hless := weight_less hW hid bound longer
          rw [← visited] at hless
          exact resolveLoop_ends hW order hinv₁ (Nat.lt_of_lt_of_le hless (Nat.le_of_lt_succ hlt))

/-! ## 3. The start -/

/-- A repository as it can be before resolution: what is loaded are manifests of files, and the
    packages have features of names and nothing beyond their dependencies. -/
structure Loaded (ctx : BuildContext Version Spec Path) (repo : Repository Path) : Prop where
  root : .file ctx.root ∈ known ctx
  byPath : ∀ path ∈ repo.byPath, .file path ∈ known ctx
  byName : ∀ name, ∀ path ∈ repo.byName name, .file path ∈ known ctx
  refs : ∀ owner i id, repo.packageRef owner i = some id → id ∈ known ctx
  inside : ∀ id ∈ known ctx, ∀ i, (manifest ctx id).dependencies.length ≤ i →
    ((repo.packages id).dependencies i).features = [] ∧
      ((repo.packages id).dependencies i).enabled = false
  named : ∀ id ∈ known ctx, [] ∉ (repo.packages id).activeFeatures

/-- What `parsePackage` leaves of a package. -/
def parsedPackage (m : Manifest Version Spec Path) : PackageState where
  activeFeatures := ∅
  dependencies i := ⟨(m.dependencies[i]?.map (·.features)).getD [], false⟩

omit [DecidableEq Version] in
/-- Where nothing has been resolved, only what is loaded is to be known. -/
theorem Loaded.fresh (hpackages : ∀ id, repo.packages id = parsedPackage (manifest ctx id))
    (hrefs : ∀ owner i, repo.packageRef owner i = none) (hroot : .file ctx.root ∈ known ctx)
    (hbyPath : ∀ path ∈ repo.byPath, .file path ∈ known ctx)
    (hbyName : ∀ name, ∀ path ∈ repo.byName name, .file path ∈ known ctx) : Loaded ctx repo where
  root := hroot
  byPath := hbyPath
  byName := hbyName
  refs owner i id hid := by
    rw [hrefs] at hid
    cases hid
  inside id _ i hi := by
    have hnone : (manifest ctx id).dependencies[i]? = none := List.getElem?_eq_none hi
    simp [hpackages, parsedPackage, hnone]
  named id _ := by
    rw [hpackages]
    exact Finset.notMem_empty _

/-- All words of the manifests, the options and the packages. -/
def vocabulary (ctx : BuildContext Version Spec Path) (repo : Repository Path) : List Str :=
  ascii "default" :: (ctx.opts.features ++ (manifest ctx (.file ctx.root)).features.map (·.1) ++
    ctx.files.flatMap (·.2.featureWords) ++ (known ctx).flatMap fun id =>
      sortedFeatureKeys (repo.packages id).activeFeatures ++
        (List.range (manifest ctx id).dependencies.length).flatMap fun i =>
          ((repo.packages id).dependencies i).features)

/-- The words, with their parts. -/
def wordsOf (ctx : BuildContext Version Spec Path) (repo : Repository Path) : Set Str :=
  {t | ∃ s ∈ vocabulary ctx repo, t <:+: s}

omit [DecidableEq Version] in
theorem mem_wordsOf {s : Str} (h : s ∈ vocabulary ctx repo) :
    s ∈ wordsOf ctx repo := ⟨s, h, List.infix_refl s⟩

omit [DecidableEq Version] in
theorem manifest_cases (id : PackageId Path) :
    (∃ name, manifest ctx id = magicManifest ctx name) ∨ ∃ f ∈ ctx.files,
      manifest ctx id = f.2 := by
  cases id with
  | magic name owner i => exact .inl ⟨name, rfl⟩
  | file path =>
    simp only [manifest]
    cases hm : ctx.files.lookup path with
    | none => exact .inl ⟨[], rfl⟩
    | some m =>
      obtain ⟨before, after, hlist, _⟩ := List.lookup_eq_some_iff.1 hm
      exact .inr ⟨(path, m), hlist ▸ List.mem_append_right _ List.mem_cons_self, rfl⟩

omit [DecidableEq Version] in
theorem manifest_words {sub : Str} (h : sub ∈ (manifest ctx id).featureWords) :
    ∃ f ∈ ctx.files, sub ∈ f.2.featureWords := by
  rcases manifest_cases id with ⟨name, heq⟩ | ⟨f, hf, heq⟩
  · rw [heq] at h
    cases h
  · exact ⟨f, hf, heq ▸ h⟩

omit [DecidableEq Version] in
theorem wordsOf_words (ctx : BuildContext Version Spec Path) (repo : Repository Path) :
    Words ctx (wordsOf ctx repo) where
  finite := by
    refine (List.finite_toSet ((vocabulary ctx repo).flatMap List.sublists)).subset ?_
    rintro t ⟨s, hs, ht⟩
    exact List.mem_flatMap.2 ⟨s, hs, List.mem_sublists.2 ht.sublist⟩
  parts := by
    rintro s ⟨s', hs', hs⟩ t ht
    exact ⟨s', hs', ht.trans hs⟩
  manifests id sub hsub := by
    obtain ⟨f, hf, hmem⟩ := manifest_words hsub
    refine mem_wordsOf (List.mem_cons_of_mem _
      (List.mem_append_left _ (List.mem_append_right _ ?_)))
    exact List.mem_flatMap.2 ⟨f, hf, hmem⟩
  names feature h := mem_wordsOf (List.mem_cons_of_mem _
    (List.mem_append_left _ (List.mem_append_left _ (List.mem_append_right _ h))))
  options feature h := mem_wordsOf (List.mem_cons_of_mem _
    (List.mem_append_left _ (List.mem_append_left _ (List.mem_append_left _ h))))
  default := mem_wordsOf List.mem_cons_self

omit [DecidableEq Version] in
theorem Loaded.sound (h : Loaded ctx repo) :
    SoundRepository ctx (wordsOf ctx repo) repo where
  loaded := h.byPath
  byName := h.byName
  refs := h.refs
  inside id hid x hx := by
    have hmem : ∀ s, s ∈ sortedFeatureKeys (repo.packages id).activeFeatures ++
        ((List.range (manifest ctx id).dependencies.length).flatMap fun i =>
          ((repo.packages id).dependencies i).features) → s ∈ wordsOf ctx repo := fun s hs =>
      mem_wordsOf
        (List.mem_cons_of_mem _ (List.mem_append_right _ (List.mem_flatMap.2 ⟨id, hid, hs⟩)))
    cases x with
    | active feature => exact hmem feature (List.mem_append_left _ ((Finset.mem_sort _).2 hx))
    | enabled i =>
      by_contra hi
      have hoff := (h.inside id hid i (Nat.le_of_not_lt hi)).2
      have hon : ((repo.packages id).dependencies i).enabled = true := hx
      rw [hoff] at hon
      cases hon
    | wants i feature =>
      have hin : feature ∈ ((repo.packages id).dependencies i).features := hx
      have hi : i < (manifest ctx id).dependencies.length := by
        by_contra hi
        rw [(h.inside id hid i (Nat.le_of_not_lt hi)).1] at hin
        cases hin
      exact ⟨hi, hmem feature (List.mem_append_right _
        (List.mem_flatMap.2 ⟨i, List.mem_range.2 hi, hin⟩))⟩
  named := h.named

/-- The features that the options ask of the root. -/
def rootRequests (ctx : BuildContext Version Spec Path) : List Str :=
  let m := manifest ctx (.file ctx.root)
  if ctx.opts.allFeatures then
    m.features.map (·.1) ++ if m.declaresDefault then [ascii "default"] else []
  else (if !ctx.opts.noDefault && m.declaresDefault then [ascii "default"] else []) ++
    ctx.opts.features

omit [DecidableEq Version] in
/-- The order in which the root's features are gone through does not matter. -/
theorem rootFeatures_facts (order : MapOrder) (pkg : PackageState) :
    (rootFeatures ctx order pkg).facts = pkg.facts ∪ ⋃ feature ∈ rootRequests ctx,
      asksActive feature := by
  have hone := fun feature pkg => (activateFeature_adds feature pkg).all
  have heach : ∀ l pkg, (each activateFeature l pkg).1.facts =
      pkg.facts ∪ ⋃ feature ∈ l, asksActive feature := fun l pkg =>
    (Adds.each fun feature _ pkg => activateFeature_adds feature pkg).all
  have hperm : ⋃ feature ∈ order.order 0 ((manifest ctx (.file ctx.root)).features.map (·.1)),
      asksActive feature =
        ⋃ feature ∈ (manifest ctx (.file ctx.root)).features.map (·.1), asksActive feature := by
    simp only [(order.perm 0 _).mem_iff]
  have happend : ∀ l l' : List Str, (⋃ feature ∈ l ++ l', asksActive feature) =
      (⋃ feature ∈ l, asksActive feature) ∪ ⋃ feature ∈ l', asksActive feature := by
    intro l l'
    simp only [List.mem_append, Set.iUnion_or, Set.iUnion_union_distrib]
  have hsingle : (⋃ feature ∈ [ascii "default"], asksActive feature) =
    asksActive (ascii "default") := by
    simp
  have hnil : (⋃ feature ∈ ([] : List Str), asksActive feature) = ∅ := by simp
  unfold rootFeatures rootRequests
  dsimp only
  split
  · rw [happend]
    split
    · rw [hone, heach, hperm, hsingle, Set.union_assoc]
    · rw [heach, hperm, hnil, Set.union_empty]
  · rw [heach, happend]
    split
    · rw [hone, hsingle, Set.union_assoc]
    · rw [hnil, Set.empty_union]

omit [DecidableEq Version] in
theorem rootRequests_words (hW : Words ctx W) {feature : Str} (h : feature ∈ rootRequests ctx) :
    feature ∈ W := by
  have hdefault : ∀ b : Bool, feature ∈ (if b then [ascii "default"] else []) → feature ∈ W := by
    intro b hb
    cases b with
    | false => cases hb
    | true => exact List.mem_singleton.1 hb ▸ hW.default
  unfold rootRequests at h
  dsimp only at h
  split at h
  · exact (List.mem_append.1 h).elim (hW.names feature) (hdefault _)
  · exact (List.mem_append.1 h).elim (hdefault _) (hW.options feature)

omit [DecidableEq Version] in
theorem startResolution_inv (hW : Words ctx W) (order : MapOrder)
    (hroot : .file ctx.root ∈ known ctx) (h : SoundRepository ctx W repo) :
    Inv ctx W (fun _ _ => False) (startResolution ctx order repo) where
  sound := by
    have hasked : ∀ feature ∈ W, asksActive feature ⊆
        factsOver W (manifest ctx (.file ctx.root)).dependencies.length ∩ {x | x ≠ .active []} :=
      fun feature hf => Set.subset_inter (asksActive_over hW.parts hf _) (asksActive_named feature)
    have hold : (repo.packages (.file ctx.root)).facts ⊆
        factsOver W (manifest ctx (.file ctx.root)).dependencies.length ∩ {x | x ≠ .active []} := by
      refine Set.subset_inter (h.inside _ hroot) ?_
      rintro _ hx rfl
      exact h.named _ hroot hx
    have hwithin : (rootFeatures ctx order (repo.packages (.file ctx.root))).facts ⊆
        factsOver W (manifest ctx (.file ctx.root)).dependencies.length ∩ {x | x ≠ .active []} := by
      rw [rootFeatures_facts]
      exact Set.union_subset hold
        (Set.iUnion₂_subset fun feature hf => hasked feature (rootRequests_words hW hf))
    refine setPackage_sound h (hwithin.trans Set.inter_subset_left) fun hnil => ?_
    exact (hwithin hnil).2 rfl
  queue id hid := List.mem_singleton.1 hid ▸ hroot
  queued id hid := List.mem_singleton.2 (of_decide_eq_true hid)
  packages id := ⟨fun hid => absurd hid List.not_mem_nil, fun hne => absurd rfl hne⟩
  nodup := List.nodup_nil
  root := .inl List.mem_cons_self
  visited id rev hrev := by cases hrev

/-! ## 4. The result -/

/-- A package is done: expanding its features changes nothing, and whatever the order of its target
    tables, each enabled dependency is resolved to one of `packages` that has the features which the
    dependency asks for (a name is read without the spaces around it, and a blank one asks for
    nothing). -/
structure Done (ctx : BuildContext Version Spec Path) (repo : Repository Path)
    (packages : List (PackageId Path)) (id : PackageId Path) : Prop where
  expanded : ∀ fuel, expandFeatures (manifest ctx id) (fuel + 1) (repo.packages id) =
    some (repo.packages id)
  enabled : ∀ tables, tables.Perm (manifest ctx id).targetTables → ∃ deps,
    enabledDependencies ctx (manifest ctx id) (repo.packages id) (includeDev ctx id) tables =
      .ok deps ∧
      ∀ i ∈ deps, ∃ owner dep child, id = .file owner ∧ (manifest ctx id).dependencies[i]? =
        some dep ∧
        resolve ctx owner i dep repo = .ok (child, repo) ∧ child ∈ packages ∧
          (∀ feature ∈ ((repo.packages id).dependencies i).features, trimSpace feature ≠ [] →
            trimSpace feature ∈ (repo.packages child).activeFeatures) ∧
          (dep.defaultFeatures = true → (manifest ctx child).declaresDefault = true →
            ascii "default" ∈ (repo.packages child).activeFeatures)

omit [DecidableEq Path] [DecidableEq Version] in
/-- All that a dependency asks for is active. -/
theorem asked_active {m : Manifest Version Spec Path} {features : List Str} {defaults : Bool}
    {pkg : PackageState} (h : asksChild m features defaults ⊆ pkg.facts) :
    (∀ feature ∈ features, trimSpace feature ≠ [] → trimSpace feature ∈ pkg.activeFeatures) ∧
      (defaults = true → m.declaresDefault = true → ascii "default" ∈ pkg.activeFeatures) := by
  refine ⟨fun feature hf hne => ?_, fun hdefaults hdeclared => ?_⟩
  · exact h (.inr (Set.mem_iUnion₂.2 ⟨feature, hf, hne, rfl⟩))
  · have hasked : Fact.active (ascii "default") ∈ pkg.facts := by
      refine h (.inl ?_)
      rw [hdefaults, hdeclared]
      exact ⟨by decide, rfl⟩
    exact hasked

theorem Done.mono {packages packages' : List (PackageId Path)} (h : Done ctx repo packages id)
    (hsub : packages ⊆ packages') :
    Done ctx repo packages' id where
  expanded := h.expanded
  enabled tables hperm := by
    obtain ⟨deps, hdeps, hall⟩ := h.enabled tables hperm
    refine ⟨deps, hdeps, fun i hi => ?_⟩
    obtain ⟨owner, dep, child, howner, hdep, hres, hchild, hasked⟩ := hall i hi
    exact ⟨owner, dep, child, howner, hdep, hres, hsub hchild, hasked⟩

omit [DecidableEq Version] in
/-- With an empty queue, nothing is left to do for the packages that were visited. -/
theorem Inv.settled (hinv : Inv ctx W (fun _ _ => False) st) (hqueue : st.queue = [])
    {id : PackageId Path} (hid : id ∈ st.packages) : Settled ctx st (fun _ => False) id := by
  obtain ⟨rev, hrev⟩ := Option.ne_none_iff_exists'.1 ((hinv.packages id).1 hid)
  obtain ⟨S, -, hvisited⟩ := hinv.visited id rev hrev
  exact hvisited.settled (hvisited.same (hqueue ▸ List.not_mem_nil))

omit [DecidableEq Version] in
/-- What was reached is among the packages then. -/
theorem Inv.reached_mem (hinv : Inv ctx W (fun _ _ => False) st) (hqueue : st.queue = [])
    (h : id ∈ st.queue ∨ st.visitedRevision id ≠ none) : id ∈ st.packages := by
  rw [hqueue] at h
  exact (hinv.packages id).2 (h.resolve_left List.not_mem_nil)

theorem Inv.done (hinv : Inv ctx W (fun _ _ => False) st) (hqueue : st.queue = [])
    (hid : id ∈ st.packages) : Done ctx st.repo st.packages id := by
  obtain ⟨hclosed, htables, hanswered⟩ := hinv.settled hqueue hid
  refine ⟨fun fuel => expandFeatures_closed hclosed fuel, fun tables hperm => ?_⟩
  obtain ⟨deps, hdeps⟩ := (enabledDependencies_ok (includeDev ctx id) hperm).2 htables
  refine ⟨deps, hdeps, fun i hi => ?_⟩
  have hwanted := (mem_enabledDependencies hperm hdeps).1 hi
  obtain ⟨dep, hdep, -⟩ := hwanted.table
  cases id with
  | magic name owner j => cases hdep
  | file owner =>
    obtain ⟨child, href, hreached, hasked⟩ := hanswered owner i dep rfl hdep hwanted not_false
    exact ⟨owner, dep, child, rfl, hdep, resolve_again dep href, hinv.reached_mem hqueue hreached,
      asked_active hasked⟩

end Runs

/-- What the compiler says of a Linux target. -/
def linuxCfg : CfgSet where
  flags name := decide (name = ascii "unix")
  values name := if name = ascii "target_os" then some fun value =>
    decide (value = ascii "linux") else none

/-- The root has a dev-dependency that depends on it, and a target table for its own feature. -/
def cyclicBuild : BuildContext Nat Unit Nat where
  opts := { allFeatures := false, noDefault := false, features := [], command := ascii "test",
            tests := false, test := [], examples := false, exampleNames := [] }
  root := 0
  target := ascii "x86_64-unknown-linux-gnu"
  files :=
    [(0, { name := ascii "root", version := 0, buildScript := false,
           dependencies :=
             [{ key := ascii "x", name := ascii "x", version := (), path := some 1,
                optional := false, defaultFeatures := true, features := [], kind := .dev,
                table := none },
              { key := ascii "y", name := ascii "y", version := (), path := some 2,
                optional := true, defaultFeatures := false, features := [], kind := .main,
                table := some (ascii "cfg(feature = \"std\")") }],
           targetTables := [ascii "cfg(feature = \"std\")"],
           features := [(ascii "std", [ascii "dep:y", ascii "y?/std"])],
           defaultFeature := [], declaresDefault := true }),
     (1, { name := ascii "x", version := 0, buildScript := false,
           dependencies :=
             [{ key := ascii "root", name := ascii "root", version := (), path := some 0,
                optional := false, defaultFeatures := false, features := [ascii "std"],
                  kind := .main,
                table := none }],
           targetTables := [], features := [], defaultFeature := [], declaresDefault := false }),
     (2, { name := ascii "y", version := 0, buildScript := false, dependencies := [],
           targetTables := [], features := [(ascii "std", [])], defaultFeature := [],
           declaresDefault := false })]
  patches _ := none
  locked _ := []
  isVendored _ := false
  accepts _ _ := true
  compareVersion v w := (v : Int) - w
  cfgMatches condition active := linuxCfg.matches active condition
  magicVersion := 0

def cyclicRepository : Repository Nat where
  packages id := parsedPackage (manifest cyclicBuild id)
  packageRef _ _ := none
  byName name := if name = ascii "root" then [0] else []
  byPath := [0]

theorem cyclicRepository_loaded : Loaded cyclicBuild cyclicRepository := by
  have hroot : .file 0 ∈ known cyclicBuild := List.mem_cons_self
  refine .fresh (fun _ => rfl) (fun _ _ => rfl) hroot (fun path hpath => ?_) fun name path hpath =>
    ?_
  · rw [List.mem_singleton.1 hpath]
    exact hroot
  · change path ∈ (if name = ascii "root" then [0] else []) at hpath
    split at hpath
    · rw [List.mem_singleton.1 hpath]
      exact hroot
    · cases hpath

end Trustme.Cargo
