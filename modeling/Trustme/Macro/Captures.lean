/-
  Subject:   `ParameterMappings`: what the variables of a matched arm have captured.

  * `CapturedVal`, `CaptureLayer`, `ParameterMappings`: captures, in layers of iterations;
  * `insert`: a capture put in at an iteration path;
  * `withCap`, `get`, `incCount`, `decCount`: a capture looked up, counted and used up;
  * `getLoopRepeats`, `getVariableCount`: how often a loop ran, a variable matched.
-/
import Trustme.Macro.Contents

namespace Trustme.Macro

variable {H F : Type}

/-! ## 1. Layers -/

/-- `numUses` is the number of uses in the expansion, `numUsed` how many there have been. A fragment
    that has been moved out is `none`. -/
structure CapturedVal (H F : Type) where
  numUses : Nat
  numUsed : Nat
  frag : Option (InterpolatedFragment H F)
deriving DecidableEq, Repr

inductive CaptureLayer (H F : Type)
  | Vals (vals : List (CapturedVal H F))
  | Nested (layers : List (CaptureLayer H F))
deriving Repr

namespace CaptureLayer

/-- The layers of a nested layer; an empty layer of values becomes one. -/
def asNested : CaptureLayer H F → Except Err (List (CaptureLayer H F))
  | Vals [] => .ok []
  | Vals _ => .error .bug
  | Nested e => .ok e

/-- The layers with iteration `iter` in place: skipped iterations are empty, a new one has no
    values yet. -/
def reach (iter : Nat) (e : List (CaptureLayer H F)) : List (CaptureLayer H F) :=
  let e := e ++ List.replicate (iter - e.length) (Nested [])
  if e.length = iter then e ++ [Vals []] else e

/-- The new value of a variable, behind the values of the iterations before. -/
def pushVal (data : InterpolatedFragment H F) (index : Nat) :
    CaptureLayer H F → Except Err (CaptureLayer H F)
  | Vals vals =>
    if vals.length = index then .ok (Vals (vals ++ [⟨0, 0, some data⟩])) else .error .bug
  | Nested _ => .error .bug

/-- The walk of `insert` along the path. -/
def insert (data : InterpolatedFragment H F) :
    List Nat → CaptureLayer H F → Except Err (CaptureLayer H F)
  | [], layer => layer.pushVal data 0
  | [last], layer => layer.pushVal data last
  | iter :: rest, layer =>
    match layer.asNested with
    | .error e => .error e
    | .ok e =>
      match (reach iter e)[iter]? with
      | none => .error .bug
      | some below =>
        match insert data rest below with
        | .error e => .error e
        | .ok below' => .ok (Nested ((reach iter e).set iter below'))

/-- The walk of `getCap` along the iterations of the expansion. What is done with the capture, `f`,
    may change it. -/
def walk {β : Type} (f : CapturedVal H F → Except Err (β × CapturedVal H F)) :
    List Nat → CaptureLayer H F → Except Err (β × CaptureLayer H F)
  | [], _ => .error .user
  | iter :: _, Vals vals =>
    match vals[iter]? with
    | none => .error .bug
    | some cap =>
      match f cap with
      | .error e => .error e
      | .ok (b, cap') => .ok (b, Vals (vals.set iter cap'))
  | iter :: rest, Nested e =>
    match e[iter]? with
    | none => .error .bug
    | some below =>
      match walk f rest below with
      | .error e => .error e
      | .ok (b, below') => .ok (b, Nested (e.set iter below'))

/-- A single value stands for every iteration. -/
def withCap {β : Type} (f : CapturedVal H F → Except Err (β × CapturedVal H F))
    (iterations : List Nat) (layer : CaptureLayer H F) : Except Err (β × CaptureLayer H F) :=
  match layer with
  | Vals [cap] =>
    match f cap with
    | .error e => .error e
    | .ok (b, cap') => .ok (b, Vals [cap'])
  | Vals [] => .error .bug
  | layer => walk f iterations layer

end CaptureLayer

mutual

def captureLayerDepth : CaptureLayer H F → Nat
  | .Vals _ => 1
  | .Nested layers => 1 + captureLayersDepth layers

/-- The depth of the deepest. -/
def captureLayersDepth : List (CaptureLayer H F) → Nat
  | [] => 0
  | layer :: layers => max (captureLayerDepth layer) (captureLayersDepth layers)

end

mutual

def captureLayerNodesAt : CaptureLayer H F → Nat → Nat
  | .Vals vals, level => if level = 1 then vals.length else 0
  | .Nested layers, level =>
    if level = 1 then layers.length else captureLayersNodesAt layers (level - 1)

def captureLayersNodesAt : List (CaptureLayer H F) → Nat → Nat
  | [], _ => 0
  | layer :: layers, level => captureLayerNodesAt layer level + captureLayersNodesAt layers level

end

/-! ## 2. The mappings of an arm -/

/-- The captures of each variable; and for each loop of the pattern and each path of iterations to
    it the number of its iterations. -/
structure ParameterMappings (H F : Type) where
  mappings : List (CaptureLayer H F)
  loopCounts : List (Nat × List Nat × Nat)

namespace ParameterMappings

variable (boundTts : ParameterMappings H F)

/-- No variable has captured anything. -/
def new : ParameterMappings H F := ⟨[], []⟩

/-- `mappings_.resize` to a larger size. -/
def resize (size : Nat) : ParameterMappings H F :=
  { boundTts with
    mappings := boundTts.mappings
      ++ List.replicate (size - boundTts.mappings.length) (.Vals []) }

def insert (nameIndex : Nat) (iterations : List Nat) (data : InterpolatedFragment H F) :
    Except Err (ParameterMappings H F) :=
  let boundTts := boundTts.resize (nameIndex + 1)
  match boundTts.mappings[nameIndex]? with
  | none => .error .bug
  | some layer =>
    match layer.insert data iterations with
    | .error e => .error e
    | .ok layer' => .ok { boundTts with mappings := boundTts.mappings.set nameIndex layer' }

def setLoopCounts (loopCounts : List (Nat × List Nat × Nat)) (variableCount : Nat) :
    ParameterMappings H F :=
  { boundTts.resize variableCount with loopCounts := loopCounts }

/-- `getCap`, and what is done with the capture. -/
def withCap {β : Type} (f : CapturedVal H F → Except Err (β × CapturedVal H F))
    (iterations : List Nat) (nameIdx : Nat) : Except Err (β × ParameterMappings H F) :=
  match boundTts.mappings[nameIdx]? with
  | none => .error .bug
  | some layer =>
    match layer.withCap f iterations with
    | .error e => .error e
    | .ok (b, layer') =>
      .ok (b, { boundTts with mappings := boundTts.mappings.set nameIdx layer' })

/-- The fragment; one that has been moved out is not read. -/
def readFrag (cap : CapturedVal H F) :
    Except Err (InterpolatedFragment H F × CapturedVal H F) :=
  match cap.frag with
  | none => .error .bug
  | some frag => .ok (frag, cap)

def get (iterations : List Nat) (nameIdx : Nat) : Except Err (InterpolatedFragment H F) :=
  match boundTts.withCap readFrag iterations nameIdx with
  | .error e => .error e
  | .ok (frag, _) => .ok frag

/-- Moves the fragment out. -/
def steal (iterations : List Nat) (nameIdx : Nat) : Except Err (ParameterMappings H F) :=
  match boundTts.withCap (fun cap => .ok ((), { cap with frag := none })) iterations nameIdx with
  | .error e => .error e
  | .ok (_, boundTts') => .ok boundTts'

def incCount (iterations : List Nat) (nameIdx : Nat) : Except Err (ParameterMappings H F) :=
  match boundTts.withCap
    (fun cap =>
      if cap.numUsed = 0 then .ok ((), { cap with numUses := cap.numUses + 1 })
      else .error .bug) iterations nameIdx with
  | .error e => .error e
  | .ok (_, boundTts') => .ok boundTts'

/-- Are there further uses? -/
def decCount (iterations : List Nat) (nameIdx : Nat) :
    Except Err (Bool × ParameterMappings H F) :=
  boundTts.withCap
    (fun cap =>
      if cap.numUsed < cap.numUses then
        .ok (decide (cap.numUsed + 1 < cap.numUses), { cap with numUsed := cap.numUsed + 1 })
      else .error .bug) iterations nameIdx

/-- The number of iterations on the first path that leads here. -/
def findRepeats (iterations : List Nat) : List (List Nat × Nat) → Except Err Nat
  | [] => .error .bug
  | (path, count) :: list =>
    if path.length ≤ iterations.length then
      if path.isPrefixOf iterations then .ok count else findRepeats iterations list
    else .error .bug

def getLoopRepeats (iterations : List Nat) (loopIdx : Nat) : Except Err Nat :=
  findRepeats iterations
    (boundTts.loopCounts.filterMap fun (idx, entry) => if idx = loopIdx then some entry else none)

/-- The walk of `getVariableCount`: the number of values, or the layer that is left to count. -/
def countWalk : List Nat → CaptureLayer H F → Except Err (Nat ⊕ CaptureLayer H F)
  | [], layer => .ok (.inr layer)
  | iter :: _, .Vals vals => if iter < vals.length then .ok (.inl 1) else .error .bug
  | iter :: rest, .Nested e =>
    match e[iter]? with
    | none => .error .bug
    | some below => countWalk rest below

def getVariableCount (iterations : List Nat) (nameIdx depth : Nat) : Except Err Nat :=
  match boundTts.mappings[nameIdx]? with
  | none => .error .bug
  | some (.Vals [_]) => .ok 1
  | some (.Vals []) => .ok 0
  | some layer =>
    match countWalk iterations layer with
    | .error e => .error e
    | .ok (.inl n) => .ok n
    | .ok (.inr layer) =>
      let levels := captureLayerDepth layer
      let depth := if depth ≥ levels then levels - 1 else depth
      .ok (captureLayerNodesAt layer (levels - depth))

end ParameterMappings

end Trustme.Macro
