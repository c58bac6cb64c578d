/-
  Subject:   A hygiene context is the list of its scopes.

  * `chain`: the scopes of a context, from the root on: context and macro definition;
  * `Linked`: INVARIANT of every context that is built: depths count the scopes, and an object
    without a depth is no scope and has no parent;
  * `ord_chain`, `isVisible_chain`: comparison and visibility are an order and a prefix of lists;
  * `leave_chain`: leaving a definition takes the last scope away and keeps the module path;
  * **`hygiene_consistent`** -- all of it together, for contexts that any operations have built.
-/
import Trustme.Ident.Hygiene
import Trustme.Lib.LexCompare

namespace Trustme.Ident

open Lib (Text)

/-! ## 1. The scopes of a context -/

/-- The scopes from the root on. -/
def chain : Pointer → List (BitVec 32 × BitVec 32)
  | .null => []
  | .object _ parent scope =>
    if scope.depth = 0 then [] else chain parent ++ [(scope.context, scope.macroDefinition)]

/-- Nothing but scopes, each with the count of them. -/
inductive Scopes : Pointer → Prop where
  | null : Scopes .null
  | object {parent : Pointer} (address : Nat) (scope : Scope) (hp : Scopes parent)
      (hd : scope.depth = (chain parent).length + 1) : Scopes (.object address parent scope)

/-- A chain of scopes, or an object that only carries paths. -/
def Linked (p : Pointer) : Prop :=
  Scopes p ∨ ∃ address scope, p = .object address .null scope ∧ scope.depth = 0 ∧
    scope.macroDefinition = 0

theorem chain_object {address : Nat} {parent : Pointer} {scope : Scope} (h : scope.depth ≠ 0) :
    chain (.object address parent scope) = chain parent ++
      [(scope.context, scope.macroDefinition)] := by
  rw [chain, if_neg h]

theorem chain_paths {address : Nat} {parent : Pointer} {scope : Scope} (h : scope.depth = 0) :
    chain (.object address parent scope) = [] := by
  rw [chain, if_pos h]

variable {p : Pointer}

theorem Scopes.depth (h : Scopes p) : hygieneDepth p = (chain p).length := by
  cases h with
  | null => rfl
  | object address scope hp hd =>
    rw [chain_object (by omega), List.length_append]
    exact hd

theorem Scopes.parent {p : Pointer} (h : Scopes p) : Scopes p.parent := by
  cases h with
  | null => exact .null
  | object address scope hp hd => exact hp

theorem Linked.depth {p : Pointer} (h : Linked p) : hygieneDepth p = (chain p).length := by
  rcases h with h | ⟨address, scope, rfl, h0, -⟩
  · exact h.depth
  · rw [chain_paths h0]
    exact h0

theorem Linked.scopes (h : Linked p) (hd : p.scope.depth ≠ 0) : Scopes p := by
  rcases h with h | ⟨address, scope, rfl, h0, -⟩
  · exact h
  · exact absurd h0 hd

theorem Linked.ofDepth {p : Pointer} (h : Linked p) :
    Scopes p.ofDepth ∧ chain p.ofDepth = chain p := by
  unfold Pointer.ofDepth
  split
  · next h0 =>
      have hlen : (chain p).length = 0 := h.depth.symm.trans h0
      exact ⟨.null, (List.length_eq_zero_iff.mp hlen).symm⟩
  · next h0 => exact ⟨h.scopes h0, rfl⟩

/-- An object with the words of another and any paths has its scopes. -/
theorem Linked.copy {p : Pointer} (h : Linked p) (address : Nat) (scope : Scope)
    (hd : scope.depth = p.scope.depth) (hc : scope.context = p.scope.context)
    (hm : scope.macroDefinition = p.scope.macroDefinition) :
    Linked (.object address p.parent scope) ∧ chain (.object address p.parent scope) = chain p := by
  rcases h with h | ⟨a, s, rfl, h0, h1⟩
  · cases h with
    | null => exact ⟨.inr ⟨_, _, rfl, hd, hm⟩, chain_paths hd⟩
    | object a s hp hs =>
      have hd : scope.depth = s.depth := hd
      refine ⟨.inl (.object _ _ hp (hd.trans hs)), ?_⟩
      rw [chain_object (by omega), chain_object (by omega), hc, hm]
      rfl
  · have hd : scope.depth = 0 := hd.trans h0
    exact ⟨.inr ⟨_, _, rfl, hd, hm.trans h1⟩, by rw [chain_paths hd, chain_paths h0]⟩

/-! ## 2. Walking up -/

theorem climb_chain (h : Scopes p) (depth : Nat) :
    Scopes (climb depth p) ∧ chain (climb depth p) = (chain p).take depth := by
  induction h with
  | null => exact ⟨.null, (List.take_nil ..).symm⟩
  | @object parent address scope hp hd ih =>
    unfold climb
    rw [chain_object (by omega)]
    split
    · rw [List.take_append_of_le_length (by omega)]
      exact ih
    · refine ⟨.object _ _ hp hd, ?_⟩
      rw [List.take_of_length_le (by rw [List.length_append, List.length_singleton]; omega),
        chain_object (by omega)]

theorem ancestorAtDepth_chain (h : Linked p) (depth : Nat) :
    Scopes (ancestorAtDepth p depth) ∧ chain (ancestorAtDepth p depth) = (chain p).take depth := by
  unfold ancestorAtDepth
  split
  · next h0 => exact ⟨.null, by rw [h0]; rfl⟩
  · rcases h with h | ⟨address, scope, rfl, h0, -⟩
    · obtain ⟨hs, hc⟩ := climb_chain h depth
      obtain ⟨hs', hc'⟩ := Linked.ofDepth (.inl hs)
      exact ⟨hs', hc'.trans hc⟩
    · have hnull : (Pointer.object address .null scope).ofDepth = .null := if_pos h0
      rw [climb, if_neg (by omega), chain_paths h0, hnull]
      exact ⟨.null, (List.take_nil ..).symm⟩

/-! ## 3. Comparison -/

theorem sameHygieneChain_chain {q : Pointer} (hp : Scopes p) (hq : Scopes q) :
    sameHygieneChain p q = true ↔ chain p = chain q := by
  induction hp generalizing q with
  | null =>
    cases hq with
    | null => exact ⟨fun _ => rfl, fun _ => rfl⟩
    | object b t hq hd => rw [chain_object (by omega)]; simp [sameHygieneChain, chain]
  | @object p a s hp hs ih =>
    cases hq with
    | null => rw [chain_object (by omega)]; simp [sameHygieneChain, chain]
    | @object q b t hq ht =>
      have hlen : (chain p).length = (chain q).length ↔ s.depth = t.depth := by omega
      rw [chain_object (by omega), chain_object (by omega), List.append_singleton_inj,
        Prod.mk.injEq]
      simp only [sameHygieneChain, Bool.or_eq_true, Bool.and_eq_true, decide_eq_true_eq, ih hq]
      constructor
      · rintro (he | ⟨⟨⟨-, hc⟩, hm⟩, he⟩)
        · cases he
          exact ⟨rfl, rfl, rfl⟩
        · exact ⟨he, hc, hm⟩
      · rintro ⟨he, hc, hm⟩
        exact .inr ⟨⟨⟨hlen.mp (congrArg _ he), hc⟩, hm⟩, he⟩

theorem compareWords_eq (a b : BitVec 32) : compareWords a b = compare a b := by
  show _ = compareOfLessAndEq a b
  unfold compareWords compareOfLessAndEq
  simp only [gt_iff_lt, BitVec.lt_def, BitVec.toNat_eq]
  split_ifs <;> first | rfl | omega

/-- Chains of one length, compared by one word. -/
theorem compareChains_chain {word : Scope → BitVec 32} (f : BitVec 32 × BitVec 32 → BitVec 32)
    (hf : ∀ s : Scope, word s = f (s.context, s.macroDefinition)) {q : Pointer} (hp : Scopes p)
    (hq : Scopes q) (hlen : (chain p).length = (chain q).length) :
    compareChains word p q = compare ((chain p).map f) ((chain q).map f) := by
  have hrefl (l : List (BitVec 32)) : compare l l = .eq := Std.ReflOrd.compare_self
  induction hp generalizing q with
  | null =>
    cases hq with
    | null => rfl
    | object b t hq hd =>
      rw [chain_object (by omega), List.length_append] at hlen
      cases hlen
  | @object p a s hp hs ih =>
    cases hq with
    | null =>
      rw [chain_object (by omega), List.length_append] at hlen
      cases hlen
    | @object q b t hq ht =>
      unfold compareChains
      split
      · next he => rw [he, hrefl]
      · rw [chain_object (by omega), chain_object (by omega), List.length_append,
          List.length_append] at *
        have hlen : (chain p).length = (chain q).length := Nat.add_right_cancel hlen
        have hmap : ((chain p).map f).length = ((chain q).map f).length := by
          rw [List.length_map, List.length_map, hlen]
        rw [ih hq hlen, compareWords_eq, hf, hf, List.map_append, List.map_append]
        exact (Lib.compareLex_snoc compare _ _ hmap).symm

/-- `ord` compares the contexts of the two lists, and then their definitions. -/
theorem ord_chain {x y : Hygiene} (hx : Linked x.inner) (hy : Linked y.inner) :
    Hygiene.ord x y = Lib.compareParts (chain x.inner) (chain y.inner) := by
  unfold Hygiene.ord
  split
  · next he => rw [he, Lib.compareParts_eq.mpr rfl]
  · dsimp only
    obtain ⟨hs, hc⟩ := ancestorAtDepth_chain hx (min (hygieneDepth x.inner) (hygieneDepth y.inner))
    obtain ⟨hs', hc'⟩ := ancestorAtDepth_chain hy
      (min (hygieneDepth x.inner) (hygieneDepth y.inner))
    rw [hx.depth, hy.depth] at *
    generalize ancestorAtDepth x.inner _ = a at *
    generalize ancestorAtDepth y.inner _ = b at *
    generalize chain x.inner = cs at *
    generalize chain y.inner = ds at *
    have hlen : (chain a).length = (chain b).length := by
      rw [hc, hc', List.length_take, List.length_take]
      omega
    have h1 : compareContexts a b = compare ((chain a).map Prod.fst) ((chain b).map Prod.fst) :=
      compareChains_chain Prod.fst (fun _ => rfl) hs hs' hlen
    have h2 : compareMacroDefinitions a b =
        compare ((chain a).map Prod.snd) ((chain b).map Prod.snd) :=
      compareChains_chain Prod.snd (fun _ => rfl) hs hs' hlen
    have htake : compare (cs.map Prod.fst) (ds.map Prod.fst) =
        (compareContexts a b).then (compare cs.length ds.length) := by
      rw [h1, hc, hc', List.map_take, List.map_take]
      have h := Lib.compareLex_take compare (cs.map Prod.fst) (ds.map Prod.fst)
      rw [List.length_map, List.length_map] at h
      exact h
    unfold Lib.compareParts
    rw [htake]
    cases hcmp : compareContexts a b with
    | lt => rfl
    | gt => rfl
    | eq =>
      rw [if_neg (by simp)]
      by_cases hd : cs.length = ds.length
      · rw [hd, Nat.min_self] at hc
        rw [hd, Nat.min_self] at hc'
        rw [if_neg (by simpa using hd), h2, hc, hc', hd, ← hd, List.take_length, hd,
          List.take_length]
        simp [Ordering.then]
      · rw [if_pos hd]
        rcases Nat.lt_or_gt_of_ne hd with hlt | hlt
        · rw [if_pos hlt, Nat.compare_eq_lt.mpr hlt]
          rfl
        · rw [if_neg (by omega), Nat.compare_eq_gt.mpr hlt]
          rfl

/-! ## 4. Visibility -/

theorem noDefinitionBelow_chain (h : Linked p) (size : Nat) :
    Hygiene.noDefinitionBelow size p = true ↔ ∀ e ∈ (chain p).drop size, e.2 = 0 := by
  rcases h with h | ⟨address, scope, rfl, h0, -⟩
  · induction h with
    | null => simp [Hygiene.noDefinitionBelow, chain]
    | @object parent address scope hp hd ih =>
      unfold Hygiene.noDefinitionBelow
      rw [chain_object (by omega)]
      split
      · rw [List.drop_append_of_le_length (by omega), Bool.and_eq_true, ih, decide_eq_true_iff]
        simp only [List.mem_append, List.mem_singleton]
        constructor
        · rintro ⟨h0, hrest⟩ e (he | rfl)
          · exact hrest e he
          · exact h0
        · exact fun hall => ⟨hall _ (.inr rfl), fun e he => hall e (.inl he)⟩
      · rw [List.drop_of_length_le (by rw [List.length_append, List.length_singleton]; omega)]
        simp
  · rw [Hygiene.noDefinitionBelow, if_neg (by omega), chain_paths h0]
    simp

/-- A context is visible from those that it is a prefix of, if no definition was entered since. -/
theorem isVisible_chain {x y : Hygiene} (hx : Linked x.inner) (hy : Linked y.inner) :
    Hygiene.isVisible x y = true ↔
      ∃ rest, chain y.inner = chain x.inner ++ rest ∧ ∀ e ∈ rest, e.2 = 0 := by
  obtain ⟨hs, hc⟩ := hx.ofDepth
  obtain ⟨hs', hc'⟩ := ancestorAtDepth_chain hy (hygieneDepth x.inner)
  have hsame := sameHygieneChain_chain hs hs'
  have hno := noDefinitionBelow_chain hy (hygieneDepth x.inner)
  rw [hc, hc'] at hsame
  unfold Hygiene.isVisible
  rw [hx.depth, hy.depth] at *
  constructor
  · intro h
    dsimp only at h
    split_ifs at h with h1 h2
    rw [Bool.not_eq_true', Bool.not_eq_false] at h2
    refine ⟨(chain y.inner).drop (chain x.inner).length, ?_, hno.mp h⟩
    calc chain y.inner = (chain y.inner).take _ ++ (chain y.inner).drop _ :=
          (List.take_append_drop ..).symm
      _ = _ := by rw [← hsame.mp h2]
  · rintro ⟨rest, he, hrest⟩
    have htake : chain x.inner = (chain y.inner).take (chain x.inner).length := by
      rw [he, List.take_left']
      rfl
    have hdrop : (chain y.inner).drop (chain x.inner).length = rest := by
      rw [he, List.drop_left']
      rfl
    rw [hdrop] at hno
    dsimp only
    rw [if_neg (by rw [he, List.length_append]; omega), hsame.mpr htake]
    exact hno.mpr hrest

/-! ## 5. The operations -/

/-- A scope on top of a context. -/
theorem Linked.push (h : Linked p) (address : Nat) (scope : Scope)
    (hd : scope.depth = hygieneDepth p + 1) :
    Linked (.object address p.ofDepth scope) ∧ chain (.object address p.ofDepth scope) =
      chain p ++ [(scope.context, scope.macroDefinition)] := by
  obtain ⟨hs, hc⟩ := h.ofDepth
  rw [h.depth, ← hc] at hd
  exact ⟨.inl (.object _ _ hs hd), by rw [chain_object (by omega), hc]⟩

namespace Hygiene

variable {h self : Hygiene} {macroDefinition : BitVec 32} {pool pool' : ObjPool}

theorem newScopeChained_chain {parent : Hygiene} {id id' : BitVec 32} {opaqueItems : Bool}
    (hp : Linked parent.inner)
    (he : newScopeChained id pool parent macroDefinition opaqueItems = some (h, id', pool')) :
    Linked h.inner ∧ modPath h = modPath parent ∧ chain h.inner = chain parent.inner ++
      [(id + 1, macroDefinition ||| if opaqueItems then ITEM_OPAQUE else 0)] := by
  unfold newScopeChained at he
  dsimp only at he
  split at he
  · cases he
  · simp only [store, Option.some.injEq, Prod.mk.injEq] at he
    obtain ⟨rfl, -, -⟩ := he
    obtain ⟨hl, hc⟩ := hp.push pool
      { context := id + 1
        macroDefinition := macroDefinition ||| if opaqueItems then ITEM_OPAQUE else 0
        depth := hygieneDepth parent.inner + 1
        searchModule := parent.inner.scope.searchModule } rfl
    exact ⟨hl, rfl, hc⟩

/-- The definition's number is not in the way of the bit for hidden items. -/
theorem newScopeChained_definition {parent : Hygiene} {id id' : BitVec 32} {opaqueItems : Bool}
    (he : newScopeChained id pool parent macroDefinition opaqueItems = some (h, id', pool')) :
    macroDefinitionId (macroDefinition ||| if opaqueItems then ITEM_OPAQUE else 0) =
      macroDefinition := by
  unfold newScopeChained at he
  dsimp only at he
  split at he
  · cases he
  · next hbit =>
      rw [ne_eq, not_not] at hbit
      have hclear : macroDefinition &&& ~~~ITEM_OPAQUE = macroDefinition := by
        calc macroDefinition &&& ~~~ITEM_OPAQUE
            = (macroDefinition &&& ~~~ITEM_OPAQUE) ||| (macroDefinition &&& ITEM_OPAQUE) := by
              rw [hbit]
              exact BitVec.or_zero.symm
          _ = macroDefinition := by
              ext i hi
              simp only [BitVec.getElem_or, BitVec.getElem_and, BitVec.getElem_not]
              cases macroDefinition[i] <;> cases ITEM_OPAQUE[i] <;> rfl
      unfold macroDefinitionId
      cases opaqueItems
      · exact (congrArg (· &&& ~~~ITEM_OPAQUE) BitVec.or_zero).trans hclear
      · rw [if_pos rfl]
        ext i hi
        have hi' := congrArg (·[i]) hclear
        simp only [BitVec.getElem_or, BitVec.getElem_and, BitVec.getElem_not] at hi' ⊢
        cases hm : macroDefinition[i] <;> cases ho : ITEM_OPAQUE[i] <;> simp_all

theorem withTailScope_linked {scope : Hygiene} {inheritModPath : Bool} (hs : Linked self.inner)
    (he : withTailScope self pool scope inheritModPath = some (h, pool')) : Linked h.inner := by
  unfold withTailScope at he
  split at he
  · cases he
  · simp only [store, Option.some.injEq, Prod.mk.injEq] at he
    obtain ⟨rfl, -⟩ := he
    exact (hs.push _ _ rfl).1

theorem getParent_linked (hs : Linked self.inner)
    (he : getParent self pool = some (h, pool')) : Linked h.inner := by
  unfold getParent at he
  split at he
  · cases he
  · next hd =>
      have hp : Scopes self.inner.parent := (hs.scopes hd).parent
      dsimp only at he
      split at he
      · simp only [Option.some.injEq, Prod.mk.injEq] at he
        obtain ⟨rfl, -⟩ := he
        exact .inl hp
      · simp only [store, Option.some.injEq, Prod.mk.injEq] at he
        obtain ⟨rfl, -⟩ := he
        exact (Linked.copy (.inl hp) pool { self.inner.parent.scope with searchModule := none }
          rfl rfl rfl).1

/-- What is left without the last scope. -/
theorem outer_chain (hs : Scopes self.inner) (pool : ObjPool) : Linked (outer self pool).1.inner ∧
      chain (outer self pool).1.inner = chain self.inner.parent ∧
      modPath (outer self pool).1 = modPath self := by
  have hp := hs.parent
  unfold outer modPath
  dsimp only
  split
  · next hsame => exact ⟨.inl hp, rfl, congrArg (Option.map _) hsame.2⟩
  split
  · obtain ⟨hl, hchain⟩ := Linked.copy (.inl hp) pool
      { self.inner.parent.scope with searchModule := self.inner.scope.searchModule } rfl rfl rfl
    exact ⟨hl, hchain, rfl⟩
  · next hnull =>
      rw [not_not] at hnull
      rw [hnull]
      split
      · exact ⟨.inr ⟨_, _, rfl, rfl, rfl⟩, rfl, rfl⟩
      · next hnone =>
          rw [not_not] at hnone
          rw [hnone]
          exact ⟨.inl .null, rfl, rfl⟩

/-- Leaving the definition of the last scope: what is left has the scopes before it and the module
    path of the context that is left. -/
theorem leave_chain {cs : List (BitVec 32 × BitVec 32)} {context : BitVec 32}
    (hs : Linked self.inner) (hc : chain self.inner = cs ++ [(context, macroDefinition)])
    (pool : ObjPool) (tokenContext definitionContext : Hygiene) :
    ∃ back pool', leaveMacroDefinition self pool (macroDefinitionId macroDefinition) tokenContext
        definitionContext =
          (true, if ord back tokenContext = .eq then definitionContext else back, pool') ∧
      Linked back.inner ∧ chain back.inner = cs ∧ modPath back = modPath self := by
  have hlen : hygieneDepth self.inner = cs.length + 1 := by
    rw [hs.depth, hc, List.length_append]
    rfl
  have hd : self.inner.scope.depth ≠ 0 := by
    rw [← hygieneDepth, hlen]
    omega
  have hscopes := hs.scopes hd
  have hlast : chain self.inner.parent = cs ∧ self.inner.scope.macroDefinition =
    macroDefinition := by
    obtain ⟨inner⟩ := self
    cases inner with
    | null => exact absurd rfl hd
    | object address parent scope =>
      have hc' := (chain_object hd).symm.trans hc
      rw [List.append_singleton_inj, Prod.mk.injEq] at hc'
      exact ⟨hc'.1, hc'.2.2⟩
  obtain ⟨hl, hchain, hpath⟩ := outer_chain hscopes pool
  refine ⟨(outer self pool).1, (outer self pool).2, ?_, hl, hchain.trans hlast.1, hpath⟩
  unfold leaveMacroDefinition
  rw [if_neg hd, if_neg (not_not.mpr (congrArg macroDefinitionId hlast.2))]

/-- Every context that is built is a chain of scopes. -/
theorem Built.linked (hb : Built h) : Linked h.inner := by
  induction hb with
  | default => exact .inl .null
  | newScope id pool => exact .inl (.object _ _ .null rfl)
  | newScopeChained hp he ih => exact (newScopeChained_chain ih he).1
  | withTailScope hs ht he ihs iht => exact withTailScope_linked ihs he
  | getParent hs he ih => exact getParent_linked ih he
  | @setModPath self pool p hs ih =>
    exact (ih.copy (pool + 1) { self.inner.scope with searchModule := some ⟨pool, p⟩ }
      rfl rfl rfl).1
  | @withLocalInnerMacros self pool root hs ih =>
    exact (ih.copy (pool + 1) { self.inner.scope with localInnerMacros := some ⟨pool, root⟩ }
      rfl rfl rfl).1
  | @leaveMacroDefinition self tokenContext definitionContext pool definition hs ht hd ihs
      iht ihd =>
    by_cases hdepth : self.inner.scope.depth = 0
    · unfold Hygiene.leaveMacroDefinition
      rw [if_pos hdepth]
      exact ihs
    by_cases hdef : macroDefinitionId self.inner.scope.macroDefinition = definition
    · obtain ⟨cs, context, hc⟩ : ∃ cs context, chain self.inner =
          cs ++ [(context, self.inner.scope.macroDefinition)] := by
        obtain ⟨inner⟩ := self
        cases inner with
        | null => exact absurd rfl hdepth
        | object address parent scope => exact ⟨_, _, chain_object hdepth⟩
      obtain ⟨back, pool', he, hl, -⟩ := leave_chain ihs hc pool tokenContext definitionContext
      rw [hdef] at he
      rw [he]
      dsimp only
      split
      · exact ihd
      · exact hl
    · unfold Hygiene.leaveMacroDefinition
      rw [if_neg hdepth]
      dsimp only
      rw [if_pos hdef]
      exact ihs

/-! ## 6. Item names -/

/-- The contexts of the scopes that hide items. -/
def opaqueContexts (h : Hygiene) : List (BitVec 32) :=
  ((chain h.inner).filter fun e => itemOpaque e.2).map Prod.fst

/-- What stands for them in an item name. -/
def suffixText (contexts : List (BitVec 32)) : Text :=
  contexts.flatMap fun c => '_' :: Nat.toDigits 10 c.toNat

theorem suffixText_cons (c : BitVec 32) (cs : List (BitVec 32)) :
    suffixText (c :: cs) = '_' :: (Nat.toDigits 10 c.toNat ++ suffixText cs) := List.flatMap_cons

theorem noDigit_suffixText (cs : List (BitVec 32)) : Lib.Printer.NoDigit (suffixText cs) := by
  cases cs with
  | nil => exact fun c h => by cases h
  | cons c cs => exact Lib.Printer.NoDigit.cons rfl

theorem suffixText_injective {cs ds : List (BitVec 32)} (h : suffixText cs = suffixText ds) :
    cs = ds := by
  induction cs generalizing ds with
  | nil =>
    cases ds with
    | nil => rfl
    | cons d ds => rw [suffixText_cons] at h; cases h
  | cons c cs ih =>
    cases ds with
    | nil => rw [suffixText_cons] at h; cases h
    | cons d ds =>
      rw [suffixText_cons, suffixText_cons, List.cons.injEq] at h
      obtain ⟨hn, hr⟩ := Lib.Printer.toDigits_append_inj (fun _ => noDigit_suffixText cs)
        (fun _ => noDigit_suffixText ds) h.2
      rw [BitVec.eq_of_toNat_eq hn, ih hr]

theorem printed_eq (number : BitVec 32) : printed number = some (Nat.toDigits 10 number.toNat) := by
  have hlt := number.isLt
  have hw : (number.setWidth 64).toNat = number.toNat := by
    rw [BitVec.toNat_setWidth]
    omega
  unfold printed
  rw [Numeric.formatU64Base10_eq (by omega) (by decide), hw]

theorem hasOpaqueContext_iff {p : Pointer} (h : Linked p) :
    hasOpaqueContext p = true ↔ (chain p).filter (fun e => itemOpaque e.2) ≠ [] := by
  rcases h with h | ⟨address, scope, rfl, h0, h1⟩
  · induction h with
    | null => simp [hasOpaqueContext, chain]
    | object address scope hp hd ih =>
      rw [hasOpaqueContext, chain_object (by omega), List.filter_append, Bool.or_eq_true, ih,
        ne_eq, ne_eq, List.append_eq_nil_iff, List.filter_singleton]
      cases itemOpaque scope.macroDefinition <;> simp
  · rw [hasOpaqueContext, h1, chain_paths h0]
    simp [hasOpaqueContext, itemOpaque]

theorem appendOpaqueContexts_eq (hl : Linked h.inner) (os : Text) :
    appendOpaqueContexts os h.inner = some (os ++ suffixText (opaqueContexts h)) := by
  obtain ⟨p⟩ := h
  unfold opaqueContexts
  rcases hl with hl | ⟨address, scope, he, h0, h1⟩
  · dsimp only at hl ⊢
    induction hl with
    | null => simp [appendOpaqueContexts, chain, suffixText]
    | object address scope hp hd ih =>
      rw [appendOpaqueContexts, ih, chain_object (by omega), List.filter_append, List.map_append,
        List.filter_singleton]
      simp only [Option.bind_eq_bind, Option.bind_some, printed_eq, suffixText,
        List.flatMap_append]
      cases itemOpaque scope.macroDefinition <;> simp
  · dsimp only at he ⊢
    rw [he, chain_paths h0]
    simp [appendOpaqueContexts, h1, itemOpaque, suffixText]

/-- An item name has the contexts that hide items behind the name, if there are any. -/
theorem applyToItemName_eq (hl : Linked h.inner) (name : Text) :
    applyToItemName h name = some (if opaqueContexts h = [] then name
      else name ++ (['#', 'h'] ++ suffixText (opaqueContexts h))) := by
  have hhas : hasOpaqueContext h.inner = true ↔ opaqueContexts h ≠ [] := by
    rw [hasOpaqueContext_iff hl, opaqueContexts, ne_eq, ne_eq, List.map_eq_nil_iff]
  unfold applyToItemName
  by_cases hc : opaqueContexts h = []
  · have hno : hasOpaqueContext h.inner = false := Bool.eq_false_iff.mpr fun ho => hhas.mp ho hc
    rw [hno, Bool.not_false, if_pos rfl, if_pos hc]
  · rw [hhas.mpr hc, Bool.not_true, if_neg Bool.false_ne_true, if_neg hc,
      appendOpaqueContexts_eq hl, List.append_assoc]

theorem applyToItemName_inj {a b : Hygiene} (ha : Linked a.inner) (hb : Linked b.inner)
    {name : Text}
    (h : applyToItemName a name = applyToItemName b name) :
      opaqueContexts a = opaqueContexts b := by
  rw [applyToItemName_eq ha, applyToItemName_eq hb, Option.some.injEq] at h
  split_ifs at h with h1 h2 h2
  · rw [h1, h2]
  · exact absurd (List.self_eq_append_right.mp h) (by simp)
  · exact absurd (List.self_eq_append_right.mp h.symm) (by simp)
  · exact suffixText_injective (List.append_cancel_left (List.append_cancel_left h))

/-! ## 7. All of it -/

/-- **Contexts are one consistent structure**, for any that the operations build: their order is
    total, with equality that of the scopes; what is visible is a prefix with no definition entered
    behind it; a definition that was entered last is left for what it was entered from; and item
    names are as different as the contexts that hide items. -/
theorem hygiene_consistent {a b c : Hygiene} (ha : Built a) (hb : Built b) (hc : Built c) :
    (ord b a = (ord a b).swap ∧ ((ord a b).isLE → (ord b c).isLE → (ord a c).isLE) ∧
      (ord a b = .eq ↔ chain a.inner = chain b.inner)) ∧
    ((isVisible a b = true ↔
        ∃ rest, chain b.inner = chain a.inner ++ rest ∧ ∀ e ∈ rest, e.2 = 0) ∧
      isVisible a a = true ∧
      (isVisible a b = true → isVisible b c = true → isVisible a c = true) ∧
      (isVisible a b = true → isVisible b a = true → ord a b = .eq)) ∧
    ((∀ {h : Hygiene} {id id' definition : BitVec 32} {pool pool' : ObjPool} {opaqueItems : Bool},
        newScopeChained id pool a definition opaqueItems = some (h, id', pool') →
        ∀ (pool : ObjPool) (tokenContext definitionContext : Hygiene), ∃ back pool',
          leaveMacroDefinition h pool definition tokenContext definitionContext =
            (true, if ord back tokenContext = .eq then definitionContext else back, pool') ∧
          chain back.inner = chain a.inner ∧ modPath back = modPath a) ∧
      (∀ {context definition : BitVec 32}, chain b.inner = chain a.inner ++
        [(context, definition)] →
        ∀ (pool : ObjPool) (tokenContext definitionContext : Hygiene), ∃ back pool',
          leaveMacroDefinition b pool (macroDefinitionId definition) tokenContext
            definitionContext =
            (true, if ord back tokenContext = .eq then definitionContext else back, pool') ∧
          chain back.inner = chain a.inner ∧ modPath back = modPath b)) ∧
    ∀ name : Text, applyToItemName a name = applyToItemName b name →
      opaqueContexts a = opaqueContexts b := by
  have hl := ha.linked
  have hl' := hb.linked
  have hl'' := hc.linked
  refine ⟨⟨?_, ?_, ?_⟩, ⟨isVisible_chain hl hl', ?_, ?_, ?_⟩, ⟨?_, ?_⟩,
    fun name h => applyToItemName_inj hl hl' h⟩
  · rw [ord_chain hl hl', ord_chain hl' hl]
    exact Lib.compareParts_swap _ _
  · rw [ord_chain hl hl', ord_chain hl' hl'', ord_chain hl hl'']
    exact Lib.compareParts_trans
  · rw [ord_chain hl hl']
    exact Lib.compareParts_eq
  · exact (isVisible_chain hl hl).mpr ⟨[], (List.append_nil _).symm, by simp⟩
  · rw [isVisible_chain hl hl', isVisible_chain hl' hl'', isVisible_chain hl hl'']
    rintro ⟨r, he, hr⟩ ⟨r', he', hr'⟩
    refine ⟨r ++ r', by rw [he', he, List.append_assoc], fun e hmem => ?_⟩
    exact (List.mem_append.mp hmem).elim (hr e) (hr' e)
  · rw [isVisible_chain hl hl', isVisible_chain hl' hl, ord_chain hl hl', Lib.compareParts_eq]
    rintro ⟨r, he, -⟩ ⟨r', he', -⟩
    have hp : chain a.inner <+: chain b.inner := ⟨r, he.symm⟩
    have hp' : chain b.inner <+: chain a.inner := ⟨r', he'.symm⟩
    exact hp.eq_of_length (Nat.le_antisymm hp.length_le hp'.length_le)
  · intro h id id' definition pool pool' opaqueItems he pool₁ tokenContext definitionContext
    obtain ⟨hlh, hpath, hch⟩ := newScopeChained_chain hl he
    obtain ⟨back, pool₂, hleave, -, hback, hmod⟩ :=
      leave_chain hlh hch pool₁ tokenContext definitionContext
    rw [newScopeChained_definition he] at hleave
    exact ⟨back, pool₂, hleave, hback, hmod.trans hpath⟩
  · intro context definition hch pool tokenContext definitionContext
    obtain ⟨back, pool', hleave, -, hback, hmod⟩ :=
      leave_chain hl' hch pool tokenContext definitionContext
    exact ⟨back, pool', hleave, hback, hmod⟩

/-- A scope, and the context of a macro with hidden items that is expanded in it. -/
theorem hygiene_consistent_nested :
    let block := (newScope 0 0).1
    let inMacro := ((newScopeChained 1 1 block 7 true).map Prod.fst).getD {}
    ord inMacro block = (ord block inMacro).swap ∧
      (isVisible block inMacro = true ↔
        ∃ rest, chain inMacro.inner = chain block.inner ++ rest ∧ ∀ e ∈ rest, e.2 = 0) :=
  have h := hygiene_consistent (.newScope 0 0)
    (@Built.newScopeChained _ _ 1 2 7 1 2 true (.newScope 0 0) rfl) .default
  ⟨h.1.1, h.2.1.1⟩

end Hygiene

end Trustme.Ident
