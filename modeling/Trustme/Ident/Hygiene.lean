/-
  Subject:   `Ident::Hygiene`: contexts as linked chains of scopes, as ident.cpp builds and compares
             them.

  * `Pointer`, `Hygiene`: a pointer to an `Inner`, the object's address with it: two pointers are
    equal when they point to one object. An object does not change once the pool has it;
  * `newScope`, `newScopeChained`, `withTailScope`, `getParent`, `setModPath`,
    `withLocalInnerMacros`, `leaveMacroDefinition`: the operations; an assertion that fails leaves
    no result;
  * `ord`, `isVisible`, `applyToItemName`: what names are compared by;
  * `Built`: the contexts that sequences of the operations reach.
-/
import Trustme.Lib.Printers
import Trustme.Numeric.U128Text

namespace Trustme.Ident

open Lib (Text)

/-! ## 1. Chains of scopes -/

/-- `Ident::ModPath`. -/
structure ModPath where
  crate : Text
  ents : List Text
  deriving DecidableEq

/-- An object behind a pointer. -/
structure Ref (α : Type) where
  address : Nat
  value : α
  deriving DecidableEq

/-- `Hygiene::Inner` but for its parent; the defaults are its constructor's. `depth` counts
    objects that are in memory. -/
structure Scope where
  context : BitVec 32 := 0
  macroDefinition : BitVec 32 := 0
  depth : Nat := 0
  searchModule : Option (Ref ModPath) := none
  localInnerMacros : Option (Ref ModPath) := none
  deriving DecidableEq

/-- `const Hygiene::Inner*`. -/
inductive Pointer where
  | null
  | object (address : Nat) (parent : Pointer) (scope : Scope)
  deriving DecidableEq

/-- What is behind a pointer, or an object as its constructor leaves it. -/
def Pointer.scope : Pointer → Scope
  | .null => {}
  | .object _ _ s => s

def Pointer.parent : Pointer → Pointer
  | .null => .null
  | .object _ p _ => p

@[simp] theorem Pointer.scope_object (address : Nat) (parent : Pointer) (scope : Scope) :
    (Pointer.object address parent scope).scope = scope := rfl

@[simp] theorem Pointer.parent_object (address : Nat) (parent : Pointer) (scope : Scope) :
    (Pointer.object address parent scope).parent = parent := rfl

/-- `class Hygiene`. -/
structure Hygiene where
  inner : Pointer := .null
  deriving DecidableEq

/-- The pool gives out addresses. -/
abbrev ObjPool := Nat

/-- The bit of a definition whose items are hidden. -/
def ITEM_OPAQUE : BitVec 32 := 1#32 <<< 31

def macroDefinitionId (definition : BitVec 32) : BitVec 32 := definition &&& ~~~ITEM_OPAQUE

/-- `inner ? inner->depth : 0`. -/
def hygieneDepth (inner : Pointer) : Nat := inner.scope.depth

/-- The pointer, unless nothing but a module path is behind it. -/
def Pointer.ofDepth (inner : Pointer) : Pointer := if inner.scope.depth = 0 then .null else inner

/-- The loop of `ancestorAtDepth`. -/
def climb (depth : Nat) : Pointer → Pointer
  | .null => .null
  | .object address parent scope =>
    if scope.depth > depth then climb depth parent else .object address parent scope

def ancestorAtDepth (inner : Pointer) (depth : Nat) : Pointer :=
  if depth = 0 then .null else (climb depth inner).ofDepth

def sameHygieneChain : Pointer → Pointer → Bool
  | .object a p s, .object b q t =>
    Pointer.object a p s = .object b q t ||
      (s.depth = t.depth && s.context = t.context && s.macroDefinition = t.macroDefinition &&
        sameHygieneChain p q)
  | .null, .null => true
  | _, _ => false

/-- `<`, then `>`, of two words. -/
def compareWords (a b : BitVec 32) : Ordering := if a < b then .lt else if a > b then .gt else .eq

/-- Two chains by one of the words in their scopes, from the root on. -/
def compareChains (word : Scope → BitVec 32) : Pointer → Pointer → Ordering
  | .null, .null => .eq
  | .null, .object .. => .lt
  | .object .., .null => .gt
  | .object a p s, .object b q t =>
    if Pointer.object a p s = .object b q t then .eq
    else (compareChains word p q).then (compareWords (word s) (word t))

def compareContexts : Pointer → Pointer → Ordering := compareChains (·.context)

def compareMacroDefinitions : Pointer → Pointer → Ordering := compareChains (·.macroDefinition)

namespace Hygiene

/-! ## 2. What names are compared by -/

/-- `ord`. -/
def ord (self x : Hygiene) : Ordering :=
  if self.inner = x.inner then .eq
  else
    let aDepth := hygieneDepth self.inner
    let bDepth := hygieneDepth x.inner
    let a := ancestorAtDepth self.inner (min aDepth bDepth)
    let b := ancestorAtDepth x.inner (min aDepth bDepth)
    let rv := compareContexts a b
    if rv ≠ .eq then rv
    else if aDepth ≠ bDepth then if aDepth < bDepth then .lt else .gt
    else compareMacroDefinitions a b

/-- The loop of `isVisible`: no scope deeper than `size` comes from a macro definition. -/
def noDefinitionBelow (size : Nat) : Pointer → Bool
  | .null => true
  | .object _ parent scope =>
    if scope.depth > size then scope.macroDefinition = 0 && noDefinitionBelow size parent else true

/-- `isVisible`. -/
def isVisible (self srcH : Hygiene) : Bool :=
  let selfSize := hygieneDepth self.inner
  let srcSize := hygieneDepth srcH.inner
  if selfSize > srcSize then false
  else
    let srcPrefix := ancestorAtDepth srcH.inner selfSize
    if !sameHygieneChain self.inner.ofDepth srcPrefix then false
    else noDefinitionBelow selfSize srcH.inner

/-- Whether a scope hides the items of its definition. -/
def itemOpaque (macroDefinition : BitVec 32) : Bool := macroDefinition &&& ITEM_OPAQUE ≠ 0

def hasOpaqueContext : Pointer → Bool
  | .null => false
  | .object _ parent scope => hasOpaqueContext parent || itemOpaque scope.macroDefinition

/-- `os << number`; the printer's buffer has 24 bytes. -/
def printed (number : BitVec 32) : Option Text := Numeric.formatU64Base10 24 (number.setWidth 64)

def appendOpaqueContexts (os : Text) : Pointer → Option Text
  | .null => some os
  | .object _ parent scope => do
      let os ← appendOpaqueContexts os parent
      if itemOpaque scope.macroDefinition then
        let number ← printed scope.context
        return os ++ '_' :: number
      else return os

/-- `applyToItemName`. -/
def applyToItemName (self : Hygiene) (name : Text) : Option Text :=
  if !hasOpaqueContext self.inner then some name
  else appendOpaqueContexts (name ++ ['#', 'h']) self.inner

/-! ## 3. The operations -/

def store (pool : ObjPool) (parent : Pointer) (v : Scope) : Hygiene × ObjPool :=
  (⟨.object pool parent v⟩, pool + 1)

/-- `newScope`: the context, and the number and the pool after it. -/
def newScope (id : BitVec 32) (pool : ObjPool) : Hygiene × BitVec 32 × ObjPool :=
  let id := id + 1
  let (h, pool) := store pool .null { context := id, depth := 1 }
  (h, id, pool)

def newScopeChained (id : BitVec 32) (pool : ObjPool) (parent : Hygiene)
    (macroDefinition : BitVec 32) (itemOpaque : Bool) : Option (Hygiene × BitVec 32 × ObjPool) :=
  let id := id + 1
  if macroDefinition &&& ITEM_OPAQUE ≠ 0 then none
  else
    let (h, pool) := store pool parent.inner.ofDepth
      { context := id
        macroDefinition := macroDefinition ||| if itemOpaque then ITEM_OPAQUE else 0
        depth := hygieneDepth parent.inner + 1
        searchModule := parent.inner.scope.searchModule }
    some (h, id, pool)

def withTailScope (self : Hygiene) (pool : ObjPool) (scope : Hygiene) (inheritModPath : Bool) :
    Option (Hygiene × ObjPool) :=
  if scope.inner.scope.depth = 0 then none
  else
    let s := scope.inner.scope
    some (store pool self.inner.ofDepth
      { context := s.context
        macroDefinition := s.macroDefinition
        localInnerMacros := s.localInnerMacros
        depth := hygieneDepth self.inner + 1
        searchModule := if inheritModPath && s.searchModule.isSome then s.searchModule
          else self.inner.scope.searchModule })

def getParent (self : Hygiene) (pool : ObjPool) : Option (Hygiene × ObjPool) :=
  if self.inner.scope.depth = 0 then none
  else
    let parent := self.inner.parent
    if parent = .null ∨ parent.scope.searchModule = none then some (⟨parent⟩, pool)
    else some (store pool parent.parent { parent.scope with searchModule := none })

def setModPath (self : Hygiene) (pool : ObjPool) (p : ModPath) : Hygiene × ObjPool :=
  store (pool + 1) self.inner.parent { self.inner.scope with searchModule := some ⟨pool, p⟩ }

def withLocalInnerMacros (self : Hygiene) (pool : ObjPool) (root : ModPath) : Hygiene × ObjPool :=
  store (pool + 1) self.inner.parent { self.inner.scope with localInnerMacros := some ⟨pool, root⟩ }

/-- The context before the last scope was entered, with the module path of this one. -/
def outer (self : Hygiene) (pool : ObjPool) : Hygiene × ObjPool :=
  let c := self.inner.scope
  let parent := self.inner.parent
  if parent ≠ .null ∧ parent.scope.searchModule = c.searchModule then (⟨parent⟩, pool)
  else if parent ≠ .null then
    store pool parent.parent { parent.scope with searchModule := c.searchModule }
  else if c.searchModule ≠ none then store pool .null { searchModule := c.searchModule }
  else ({}, pool)

/-- `leaveMacroDefinition`: whether the context was left, the context after it, and the pool. -/
def leaveMacroDefinition (self : Hygiene) (pool : ObjPool) (definition : BitVec 32)
    (tokenContext definitionContext : Hygiene) : Bool × Hygiene × ObjPool :=
  if self.inner.scope.depth = 0 then (false, self, pool)
  else if macroDefinitionId self.inner.scope.macroDefinition ≠ definition then (false, self, pool)
  else
    let (back, pool) := outer self pool
    (true, if ord back tokenContext = .eq then definitionContext else back, pool)

/-- What `modPath` returns, where there is one. -/
def modPath (self : Hygiene) : Option ModPath := self.inner.scope.searchModule.map (·.value)

/-! ## 4. Reachable contexts -/

/-- The contexts that sequences of the operations build. -/
inductive Built : Hygiene → Prop where
  | default : Built {}
  | newScope (id : BitVec 32) (pool : ObjPool) : Built (newScope id pool).1
  | newScopeChained {parent h : Hygiene} {id id' macroDefinition : BitVec 32} {pool pool' : ObjPool}
      {itemOpaque : Bool} (hp : Built parent)
      (hn : newScopeChained id pool parent macroDefinition itemOpaque = some (h, id', pool')) :
        Built h
  | withTailScope {self scope h : Hygiene} {pool pool' : ObjPool} {inheritModPath : Bool}
      (hs : Built self) (ht : Built scope)
      (hn : withTailScope self pool scope inheritModPath = some (h, pool')) : Built h
  | getParent {self h : Hygiene} {pool pool' : ObjPool} (hs : Built self)
      (hn : getParent self pool = some (h, pool')) : Built h
  | setModPath {self : Hygiene} (pool : ObjPool) (p : ModPath) (hs : Built self) :
      Built (setModPath self pool p).1
  | withLocalInnerMacros {self : Hygiene} (pool : ObjPool) (root : ModPath) (hs : Built self) :
      Built (withLocalInnerMacros self pool root).1
  | leaveMacroDefinition {self tokenContext definitionContext : Hygiene} (pool : ObjPool)
      (definition : BitVec 32) (hs : Built self) (ht : Built tokenContext)
      (hd : Built definitionContext) :
      Built (leaveMacroDefinition self pool definition tokenContext definitionContext).2.1

end Hygiene

end Trustme.Ident
