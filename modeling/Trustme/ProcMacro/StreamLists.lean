/-
  Subject:   What token streams are for: lists of trees that nothing changes behind one's back.

  * `Value`: a tree that holds the list of its stream;
  * `listStep`, `listRun`: the operations of a macro, on lists;
  * `denote`, `Yields`: the lists that handles stand for, given those of the slots;
  * `Safe`: what keeps an operation off the limits of the store: the storage that a tree is pushed
    to has not been moved, and no count leaves its `u32`.
-/
import Mathlib.Logic.Relation
import Trustme.Lib.RefCounts
import Trustme.ProcMacro.TokenStreams

namespace Trustme.ProcMacro.Streams

open Trustme.Lib
open Trustme.ProcMacro.Lex (Delimiter)

variable {τ : Type}

/-! ## 1. Lists of trees -/

inductive Value (τ : Type) where
  | token (t : τ)
  | group (delimiter : Delimiter) (stream : List (Value τ)) (fragment : Nat)

inductive ListVal (τ : Type) where
  | stream (l : List (Value τ))
  | tree (v : Value τ)
  | trees (l : List (Value τ))

/-- A frame is the list that is extended. -/
structure ListState (τ : Type) where
  vals : List (ListVal τ)
  frames : List (List (Value τ))
  printed : List (List Char)

def listText (T : Texts τ) (first joint : Bool) : List (Value τ) → List Char
  | [] => []
  | .token t :: more => blank first joint ++ T.text t ++ listText T false (T.joint t) more
  | .group delimiter stream _ :: more =>
    blank first joint ++ (delimiters delimiter).1 ++
      (if stream.isEmpty then [' '] else ' ' :: listText T true false stream ++ [' ']) ++
      (delimiters delimiter).2 ++ listText T false false more

def handedValue : Value τ → Value τ
  | .token t => .token t
  | .group delimiter stream _ => .group delimiter stream 0

/-- `none`: the compiler takes no such program. -/
def listStep (T : Texts τ) (a : ListState τ) : Op τ → Option (ListState τ)
  | .pick n => a.vals[n]?.map fun v => { a with vals := v :: a.vals.eraseIdx n }
  | .newStream => some { a with vals := .stream [] :: a.vals }
  | .newTrees => some { a with vals := .trees [] :: a.vals }
  | .token t => some { a with vals := .tree (.token t) :: a.vals }
  | .clone =>
    match a.vals with
    | v :: vals => some { a with vals := v :: v :: vals }
    | _ => none
  | .drop =>
    match a.vals with
    | _ :: vals => some { a with vals := vals }
    | _ => none
  | .group delimiter fragment =>
    match a.vals with
    | .stream l :: vals => some { a with vals := .tree (.group delimiter l fragment) :: vals }
    | _ => none
  | .stream =>
    match a.vals with
    | .tree (.group delimiter l fragment) :: vals =>
      some { a with vals := .stream l :: .tree (.group delimiter l fragment) :: vals }
    | _ => none
  | .pushTree =>
    match a.vals with
    | .tree v :: .trees l :: vals => some { a with vals := .trees (l ++ [v]) :: vals }
    | _ => none
  | .collect =>
    match a.vals with
    | .trees l :: vals => some { a with vals := .stream l :: vals }
    | _ => none
  | .receive _ =>
    match a.vals with
    | .trees l :: vals => some { a with vals := .stream l :: vals }
    | _ => none
  | .extendStreams =>
    match a.vals with
    | .stream more :: .stream l :: vals => some { a with vals := .stream (l ++ more) :: vals }
    | _ => none
  | .borrow =>
    match a.vals with
    | .stream l :: vals => some { a with vals := vals, frames := l :: a.frames }
    | _ => none
  | .push =>
    match a.vals, a.frames with
    | .tree v :: vals, l :: frames => some { a with vals := vals, frames := (l ++ [v]) :: frames }
    | _, _ => none
  | .release =>
    match a.frames with
    | l :: frames => some { a with vals := .stream l :: a.vals, frames := frames }
    | _ => none
  | .intoIter =>
    match a.vals with
    | .stream l :: vals => some { a with vals := .trees l :: vals }
    | _ => none
  | .next =>
    match a.vals with
    | .trees (v :: l) :: vals => some { a with vals := .tree (handedValue v) :: .trees l :: vals }
    | .trees [] :: vals => some { a with vals := .trees [] :: vals }
    | _ => none
  | .toString =>
    match a.vals with
    | .stream l :: vals =>
      some { a with vals := .stream l :: vals, printed := listText T true false l :: a.printed }
    | _ => none

def listRunFrom (T : Texts τ) (a : ListState τ) : List (Op τ) → Option (ListState τ)
  | [] => some a
  | op :: ops => do
      let a ← listStep T a op
      listRunFrom T a ops

def listRun (T : Texts τ) (ops : List (Op τ)) : Option (ListState τ) :=
  listRunFrom T ⟨[], [], []⟩ ops

/-! ## 2. What handles stand for -/

/-- The list of a stream, given those of the slots. -/
def content (value : Handle → List (Value τ)) (stream : Option Handle) : List (Value τ) :=
  stream.elim [] value

def denote (value : Handle → List (Value τ)) : Tree τ → Value τ
  | .token t => .token t
  | .group delimiter stream fragment => .group delimiter (content value stream) fragment

def Val.list (value : Handle → List (Value τ)) : Val τ → ListVal τ
  | .stream h => .stream (content value h)
  | .tree t => .tree (denote value t)
  | .trees ts => .trees (ts.map (denote value))

/-- The slots have the lists that are given. -/
def Yields (s : Store τ) (value : Handle → List (Value τ)) : Prop :=
  ∀ h e, s.entry h = some e → value h = e.trees.map (denote value)

/-! ## 3. Handles -/

def treesIn (s : Store τ) (h : Handle) : List (Tree τ) := (s.entry h).elim [] Slot.trees

/-- The handles in a slot. -/
def handlesIn (s : Store τ) (h : Handle) : List Handle := handlesOf (treesIn s h)

/-- The count of a slot. -/
def counted (s : Store τ) (h : Handle) : Nat := (s.entry h).elim 0 Slot.handles

/-- The handles that a macro has. -/
def State.handles (σ : State τ) : List Handle := σ.vals.flatMap Val.handles ++
    σ.frames.map Frame.slot

/-- The live handles to a slot: those that the macro has, and those in slots. -/
def State.live (σ : State τ) (h : Handle) : Nat :=
  RefCounts.held σ.store.SLOTS.length (handlesIn σ.store) σ.handles h

/-! ## 4. Limits -/

/-- There is a place for one slot more. -/
def Room (s : Store τ) : Prop := s.FREE ≠ [] ∨ s.SLOTS.length + 1 < 2 ^ 32

/-- The handles are cloned without a count that wraps. -/
def Counts (σ : State τ) (hs : List Handle) : Prop := ∀ h, σ.live h + hs.count h < 2 ^ 32

/-- What is cloned when the trees of a stream are taken: nothing if it is the only one. -/
def copied (σ : State τ) (h : Handle) : List Handle :=
  if σ.live h = 1 then [] else handlesIn σ.store h

/-- A stream gets a slot of its own, after `more` handles were cloned. -/
def MayOwn (σ : State τ) (more : List Handle) : Option Handle → Prop
  | some h => σ.live h ≠ 1 → Counts σ (handlesIn σ.store h ++ more) ∧ Room σ.store
  | none => Room σ.store

/-- The streams within a slot. -/
def Within (s : Store τ) : Handle → Handle → Prop :=
  Relation.TransGen fun h k => k ∈ handlesIn s h

/-- What an operation asks of the state before it. -/
def Safe (σ : State τ) : Op τ → Prop
  | .clone => ∀ v ∈ σ.vals.head?, Counts σ v.handles
  | .stream => ∀ t, σ.vals.head? = some (.tree t) → Counts σ t.handles
  | .collect => ∀ t ts, σ.vals.head? = some (.trees (t :: ts)) → Room σ.store
  | .receive _ => ∀ t ts, σ.vals.head? = some (.trees (t :: ts)) → Room σ.store
  | .extendStreams => ∀ h self vals, σ.vals = .stream (some h) :: .stream (some self) :: vals →
      treesIn σ.store h ≠ [] → treesIn σ.store self ≠ [] →
        Counts σ (copied σ h) ∧ MayOwn σ (copied σ h) (some self)
  | .borrow => ∀ self, σ.vals.head? = some (.stream self) → MayOwn σ [] self
  | .push => ∀ f ∈ σ.frames.head?, f.moves = σ.store.moves
  | .intoIter => ∀ h, σ.vals.head? = some (.stream (some h)) → Counts σ (copied σ h)
  | .toString => ∀ h k, σ.vals.head? = some (.stream (some h)) → Within σ.store h k →
      σ.live k + 1 < 2 ^ 32
  | _ => True

end Trustme.ProcMacro.Streams
