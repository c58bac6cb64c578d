/-
  Subject:   The store of token streams of libproc_macro (lib.rs).

  * `Store`: SLOTS and FREE; a handle is the place of its slot (the code adds one, for a
    NonZeroU32);
  * `cloneHandles`, `dropHandles`, `allocate`, `treesMut`, `intoTrees`, `extendStreams`,
    `display`: what streams do to it;
  * `Op`, `step`, `run`: what a macro does with streams, groups, and iterators over trees.

  The values of a macro stand in a list: an operation takes the first ones, and `pick` brings any
  other to the front. `moves` counts how often SLOTS was moved to a larger allocation. In `extend` a
  reference into SLOTS is held while the iterator it was given runs: this is a frame, from `borrow`
  to `release`. The tokens of a tree are a parameter, with their texts.
-/
import Trustme.ProcMacro.Lexer

namespace Trustme.ProcMacro.Streams

open Trustme.Lib
open Trustme.ProcMacro.Lex (Delimiter)

variable {τ : Type}

/-! ## 1. The store -/

abbrev Handle := Nat

/-- `TokenTree`, without spans. -/
inductive Tree (τ : Type) where
  | token (t : τ)
  | group (delimiter : Delimiter) (stream : Option Handle) (fragment : Nat)
  deriving DecidableEq

structure Slot (τ : Type) where
  trees : List (Tree τ)
  hidden : List UInt8
  handles : Nat
  deriving DecidableEq

/-- The place that was freed last is the first of `FREE`. -/
structure Store (τ : Type) where
  SLOTS : List (Option (Slot τ))
  FREE : List Nat
  capacity : Nat
  moves : Nat
  deriving DecidableEq

inductive Stop where
  /-- The compiler takes no such program. -/
  | rejected
  /-- A write through a reference into storage that was moved. -/
  | dangling
  /-- A count of handles wraps; the run is not followed any further. -/
  | overflow
  deriving DecidableEq

def Tree.handles : Tree τ → List Handle
  | .token _ => []
  | .group _ stream _ => stream.toList

def handlesOf (trees : List (Tree τ)) : List Handle := trees.flatMap Tree.handles

namespace Store

def entry (s : Store τ) (h : Handle) : Option (Slot τ) := s.SLOTS[h]?.join

def setEntry (s : Store τ) (h : Handle) (e : Option (Slot τ)) : Store τ :=
  { s with SLOTS := s.SLOTS.set h e }

/-- The handles that are counted in all. -/
def total (s : Store τ) : Nat := (s.SLOTS.map fun o => o.elim 0 Slot.handles).sum

theorem setEntry_total {s : Store τ} {h : Handle} {e : Slot τ} (he : s.entry h = some e)
    (o : Option (Slot τ)) : (s.setEntry h o).total + e.handles = s.total +
      o.elim 0 Slot.handles := by
  have hslots : ∀ (slots : List (Option (Slot τ))) (h : Handle), slots[h]?.join = some e →
      ((slots.set h o).map fun o => o.elim 0 Slot.handles).sum + e.handles =
        (slots.map fun o => o.elim 0 Slot.handles).sum + o.elim 0 Slot.handles := by
    intro slots
    induction slots with
    | nil => intro h he; cases he
    | cons x slots ih =>
      intro h he
      cases h with
      | zero =>
        cases x with
        | none => cases he
        | some e' =>
          cases he
          simp only [List.set_cons_zero, List.map_cons, List.sum_cons, Option.elim_some]
          omega
      | succ h =>
        have hrest := ih h he
        simp only [List.set_cons_succ, List.map_cons, List.sum_cons]
        omega
  exact hslots s.SLOTS h he

end Store

/-- `slot` -/
def slot (s : Store τ) (h : Handle) : Outcome Stop (Slot τ) :=
  match s.entry h with
  | some e => .ok e
  | none => .panic "dead token stream handle"

/-- The same for the empty stream: `trees` -/
def trees (s : Store τ) : Option Handle → Outcome Stop (List (Tree τ))
  | some h => do
      let e ← slot s h
      return e.trees
  | none => return []

/-- `Clone for TokenStream`, for each handle in turn. -/
def cloneHandles (s : Store τ) : List Handle → Outcome Stop (Store τ)
  | [] => .ok s
  | h :: hs => do
      let e ← slot s h
      if e.handles + 1 < 2 ^ 32 then
        cloneHandles (s.setEntry h (some { e with handles := e.handles + 1 })) hs
      else .err .overflow

/-- `SLOTS[h] = None; FREE.push(h)`, when the trees of the slot were dropped. -/
def close (s : Store τ) (h : Handle) : Store τ :=
  { s.setEntry h none with FREE := h :: s.FREE }

theorem close_total (s : Store τ) (h : Handle) : (close s h).total ≤ s.total := by
  cases he : s.entry h with
  | some e =>
    have htotal := Store.setEntry_total he none
    change (s.setEntry h none).total ≤ s.total
    rw [Option.elim_none] at htotal
    omega
  | none =>
    have hslots : ∀ (slots : List (Option (Slot τ))) (h : Handle), slots[h]?.join = none →
        slots.set h none = slots := by
      intro slots
      induction slots with
      | nil => intro h _; rfl
      | cons x slots ih =>
        intro h hx
        cases h with
        | zero =>
          obtain rfl : x = none := hx
          rfl
        | succ h => exact congrArg (x :: ·) (ih h hx)
    change (s.setEntry h none).total ≤ s.total
    unfold Store.total Store.setEntry
    rw [hslots s.SLOTS h he]

/-- `Drop for TokenStream`, for each handle in turn. With the last handle of a slot its trees are
    dropped. Each call takes a handle from a count. -/
def dropHandles (s : Store τ) : List Handle → Outcome Stop { s' : Store τ // s'.total ≤ s.total }
  | [] => .ok ⟨s, Nat.le_refl _⟩
  | h :: hs =>
    match he : s.entry h with
    | none => .panic "dead token stream handle"
    | some e =>
      if h0 : e.handles = 0 then .err .overflow
      else
        let counted := s.setEntry h (some { e with handles := e.handles - 1 })
        have hlt : counted.total < s.total := by
          have htotal := Store.setEntry_total he (some { e with handles := e.handles - 1 })
          dsimp only [Option.elim_some] at htotal
          change (s.setEntry h _).total < s.total
          omega
        if e.handles = 1 then do
          let s₁ ← dropHandles counted (handlesOf e.trees)
          have hlt₁ : (close s₁.1 h).total < s.total :=
            Nat.lt_of_le_of_lt (close_total s₁.1 h) (Nat.lt_of_le_of_lt s₁.2 hlt)
          let s₂ ← dropHandles (close s₁.1 h) hs
          return ⟨s₂.1, Nat.le_trans s₂.2 (Nat.le_of_lt hlt₁)⟩
        else do
          let s₁ ← dropHandles counted hs
          return ⟨s₁.1, Nat.le_trans s₁.2 (Nat.le_of_lt hlt)⟩
termination_by s.total

/-- How a vector grows. -/
def grown (capacity : Nat) : Nat := max (2 * capacity) 4

/-- `allocate_spaced` -/
def allocate (s : Store τ) (trees : List (Tree τ)) (hidden : List UInt8) :
    Outcome Stop (Handle × Store τ) :=
  match s.FREE with
  | index :: free =>
    .ok (index, { s.setEntry index (some ⟨trees, hidden, 1⟩) with FREE := free })
  | [] =>
    if s.SLOTS.length + 1 < 2 ^ 32 then
      .ok (s.SLOTS.length,
        { s with
          SLOTS := s.SLOTS ++ [some ⟨trees, hidden, 1⟩]
          capacity := if s.SLOTS.length = s.capacity then grown s.capacity else s.capacity
          moves := if s.SLOTS.length = s.capacity then s.moves + 1 else s.moves })
    else .panic "stream handle"

/-- `from_received`; without joins it is `from_trees`. -/
def fromReceived (s : Store τ) (trees : List (Tree τ)) (hidden : List UInt8) :
    Outcome Stop (Option Handle × Store τ) :=
  if trees.isEmpty then .ok (none, s)
  else do
    let (h, s) ← allocate s trees hidden
    return (some h, s)

/-- A slot of its own for the stream. -/
def ownSlot (s : Store τ) : Option Handle → Outcome Stop (Handle × Store τ)
  | some h => do
      let e ← slot s h
      if e.handles = 1 then return (h, s)
      let s ← cloneHandles s (handlesOf e.trees)
      let (own, s) ← allocate s e.trees []
      let s ← dropHandles s [h]
      return (own, s.1)
  | none => allocate s [] []

/-- `trees_mut` -/
def treesMut (s : Store τ) (stream : Option Handle) : Outcome Stop (Handle × Store τ) := do
  let (h, s) ← ownSlot s stream
  let e ← slot s h
  return (h, s.setEntry h (some { e with hidden := [] }))

/-- `extend` of a vector in a slot. -/
def pushTrees (s : Store τ) (h : Handle) (more : List (Tree τ)) : Outcome Stop (Store τ) := do
  let e ← slot s h
  return s.setEntry h (some { e with trees := e.trees ++ more })

/-- `into_trees`, which ends with a drop of the stream. -/
def intoTrees (s : Store τ) : Option Handle → Outcome Stop (List (Tree τ) × Store τ)
  | some h => do
      let e ← slot s h
      if e.handles = 1 then
        let s ← dropHandles (s.setEntry h (some { e with trees := [] })) [h]
        return (e.trees, s.1)
      else
        let s ← cloneHandles s (handlesOf e.trees)
        let s ← dropHandles s [h]
        return (e.trees, s.1)
  | none => return ([], s)

/-- A round of the loop of `Extend<TokenStream>`. -/
def extendStreams (s : Store τ) (self stream : Option Handle) :
    Outcome Stop (Option Handle × Store τ) := do
  let more ← trees s stream
  if more.isEmpty then
    let s ← dropHandles s stream.toList
    return (self, s.1)
  let mine ← trees s self
  if mine.isEmpty then
    let s ← dropHandles s self.toList
    return (stream, s.1)
  let (more, s) ← intoTrees s stream
  let (h, s) ← treesMut s self
  let s ← pushTrees s h more
  return (some h, s)

/-! ## 2. Texts -/

/-- The text of a token, and whether it is a joint punctuation character. -/
structure Texts (τ : Type) where
  text : τ → List Char
  joint : τ → Bool

def delimiters : Delimiter → List Char × List Char
  | .Parenthesis => (['('], [')'])
  | .Brace => (['{'], ['}'])
  | .Bracket => (['['], [']'])
  | .None => ([], [])

/-- The blank in front of a tree. -/
def blank (first joint : Bool) : List Char := if !first && !joint then [' '] else []

/-- The loop of `Display for TokenStream`, given what it is for a stream within. -/
def displayTrees (T : Texts τ) (nested : Store τ → Option Handle →
    Outcome Stop (List Char × Store τ))
    (s : Store τ) (first joint : Bool) : List (Tree τ) → Outcome Stop (List Char × Store τ)
  | [] => .ok ([], s)
  | .token t :: more => do
      let (text, s) ← displayTrees T nested s false (T.joint t) more
      return (blank first joint ++ T.text t ++ text, s)
  | .group delimiter stream _ :: more => do
      let s ← cloneHandles s stream.toList
      let inside ← trees s stream
      let (text, s) ← if inside.isEmpty then .ok ([], s) else nested s stream
      let body := if inside.isEmpty then [' '] else ' ' :: text ++ [' ']
      let s ← dropHandles s stream.toList
      let (text, s) ← displayTrees T nested s.1 false false more
      return (blank first joint ++ (delimiters delimiter).1 ++ body ++
        (delimiters delimiter).2 ++ text, s)

def display (T : Texts τ) : Nat → Store τ → Option Handle → Outcome Stop (List Char × Store τ)
  | 0, _, _ => .running
  | fuel + 1, s, stream => do
      let inside ← trees s stream
      displayTrees T (display T fuel) s true false inside

/-! ## 3. Programs -/

inductive Val (τ : Type) where
  | stream (h : Option Handle)
  | tree (t : Tree τ)
  | trees (ts : List (Tree τ))
  deriving DecidableEq

def Val.handles : Val τ → List Handle
  | .stream h => h.toList
  | .tree t => t.handles
  | .trees ts => handlesOf ts

/-- The vector that `extend` pushes to, and how often SLOTS had been moved when it was borrowed. -/
structure Frame where
  slot : Handle
  moves : Nat
  deriving DecidableEq

structure State (τ : Type) where
  store : Store τ
  vals : List (Val τ)
  frames : List Frame
  printed : List (List Char)

inductive Op (τ : Type) where
  | pick (n : Nat)
  /-- `TokenStream::new` -/
  | newStream
  /-- `Vec::new` -/
  | newTrees
  | token (t : τ)
  | clone
  | drop
  /-- `Group::new`; a group of the compiler's has a fragment. -/
  | group (delimiter : Delimiter) (fragment : Nat)
  /-- `Group::stream` -/
  | stream
  /-- `Vec::push` -/
  | pushTree
  /-- `from_iter` of trees -/
  | collect
  /-- A stream that comes from the compiler. -/
  | receive (hidden : List UInt8)
  /-- A round of `extend` with streams -/
  | extendStreams
  /-- `trees_mut` in `extend` with trees -/
  | borrow
  /-- A round of `extend` with trees -/
  | push
  /-- The end of `extend` with trees -/
  | release
  | intoIter
  /-- `IntoIter::next` -/
  | next
  | toString

/-- `hidden.resize(n, 0)` -/
def resized (hidden : List UInt8) (n : Nat) : List UInt8 :=
  hidden.take n ++ List.replicate (n - hidden.length) 0

/-- A tree the macro is handed is its own. -/
def handed : Tree τ → Tree τ
  | .token t => .token t
  | .group delimiter stream _ => .group delimiter stream 0

def step (T : Texts τ) (fuel : Nat) (σ : State τ) : Op τ → Outcome Stop (State τ)
  | .pick n =>
    match σ.vals[n]? with
    | some v => .ok { σ with vals := v :: σ.vals.eraseIdx n }
    | none => .err .rejected
  | .newStream => .ok { σ with vals := .stream none :: σ.vals }
  | .newTrees => .ok { σ with vals := .trees [] :: σ.vals }
  | .token t => .ok { σ with vals := .tree (.token t) :: σ.vals }
  | .clone =>
    match σ.vals with
    | v :: vals => do
        let s ← cloneHandles σ.store v.handles
        return { σ with store := s, vals := v :: v :: vals }
    | _ => .err .rejected
  | .drop =>
    match σ.vals with
    | v :: vals => do
        let s ← dropHandles σ.store v.handles
        return { σ with store := s.1, vals := vals }
    | _ => .err .rejected
  | .group delimiter fragment =>
    match σ.vals with
    | .stream h :: vals => .ok { σ with vals := .tree (.group delimiter h fragment) :: vals }
    | _ => .err .rejected
  | .stream =>
    match σ.vals with
    | .tree (.group delimiter h fragment) :: vals => do
        let s ← cloneHandles σ.store h.toList
        return { σ with store := s,
                        vals := .stream h :: .tree (.group delimiter h fragment) :: vals }
    | _ => .err .rejected
  | .pushTree =>
    match σ.vals with
    | .tree t :: .trees ts :: vals => .ok { σ with vals := .trees (ts ++ [t]) :: vals }
    | _ => .err .rejected
  | .collect =>
    match σ.vals with
    | .trees ts :: vals => do
        let (h, s) ← fromReceived σ.store ts []
        return { σ with store := s, vals := .stream h :: vals }
    | _ => .err .rejected
  | .receive hidden =>
    match σ.vals with
    | .trees ts :: vals => do
        let (h, s) ← fromReceived σ.store ts (resized hidden ts.length)
        return { σ with store := s, vals := .stream h :: vals }
    | _ => .err .rejected
  | .extendStreams =>
    match σ.vals with
    | .stream stream :: .stream self :: vals => do
        let (h, s) ← extendStreams σ.store self stream
        return { σ with store := s, vals := .stream h :: vals }
    | _ => .err .rejected
  | .borrow =>
    match σ.vals with
    | .stream self :: vals => do
        let (h, s) ← treesMut σ.store self
        return { σ with store := s, vals := vals, frames := ⟨h, s.moves⟩ :: σ.frames }
    | _ => .err .rejected
  | .push =>
    match σ.vals, σ.frames with
    | .tree t :: vals, f :: frames =>
      if f.moves = σ.store.moves then do
        let s ← pushTrees σ.store f.slot [t]
        return { σ with store := s, vals := vals, frames := f :: frames }
      else .err .dangling
    | _, _ => .err .rejected
  | .release =>
    match σ.frames with
    | f :: frames => .ok { σ with vals := .stream (some f.slot) :: σ.vals, frames := frames }
    | _ => .err .rejected
  | .intoIter =>
    match σ.vals with
    | .stream h :: vals => do
        let (ts, s) ← intoTrees σ.store h
        return { σ with store := s, vals := .trees ts :: vals }
    | _ => .err .rejected
  | .next =>
    match σ.vals with
    | .trees (t :: ts) :: vals => .ok { σ with vals := .tree (handed t) :: .trees ts :: vals }
    | .trees [] :: vals => .ok { σ with vals := .trees [] :: vals }
    | _ => .err .rejected
  | .toString =>
    match σ.vals with
    | .stream h :: vals => do
        let (text, s) ← display T fuel σ.store h
        return { σ with store := s, vals := .stream h :: vals, printed := text :: σ.printed }
    | _ => .err .rejected

/-- Nothing is in the store, and the macro has nothing. -/
def start : State τ := ⟨⟨[], [], 0, 0⟩, [], [], []⟩

def runFrom (T : Texts τ) (fuel : Nat) (σ : State τ) : List (Op τ) → Outcome Stop (State τ)
  | [] => .ok σ
  | op :: ops => do
      let σ ← step T fuel σ op
      runFrom T fuel σ ops

def run (T : Texts τ) (fuel : Nat) (ops : List (Op τ)) : Outcome Stop (State τ) :=
  runFrom T fuel start ops

end Trustme.ProcMacro.Streams
