/-
  Subject:   A matched arm, and what the second pass over it binds.

  The second pass runs the simplified pattern again with the conditions of the first one. What it
  does is determined by the match: the tokens and fragments in order, and for each loop the start,
  the iterations with a step of the counter behind each, and the end.

  * `Match`, `Match.Of`: the matches of a pattern;
  * `Replay`, `replayAll`: the loop stack, the loop counts and the captures of the pass;
  * `bindArm`: the captures inserted, and the counts set.
-/
import Trustme.Macro.Captures

namespace Trustme.Macro

variable {H F : Type}

/-! ## 1. Matches -/

/-- How an input matches a pattern: one of these for each part of it. -/
inductive Match (H F : Type)
  | token
  | cap (bindingIdx : Nat) (frag : InterpolatedFragment H F)
  | loop (index : Nat) (iters : List (List (Match H F)))

mutual

/-- A match of one part of a pattern. -/
inductive Match.One : MacroPatEnt → Match H F → Prop
  | token : Match.One .token .token
  | cap (idx : Nat) (frag : InterpolatedFragment H F) : Match.One (.frag idx) (.cap idx frag)
  | loop (idx : Nat) (subpats : List MacroPatEnt) (iters : List (List (Match H F)))
      (h : Match.Iters subpats iters) : Match.One (.loop idx subpats) (.loop idx iters)

/-- A match of a pattern. -/
inductive Match.Of : List MacroPatEnt → List (Match H F) → Prop
  | nil : Match.Of [] []
  | cons {pat : MacroPatEnt} {pats : List MacroPatEnt} {m : Match H F} {ms : List (Match H F)}
      (h : Match.One pat m) (hs : Match.Of pats ms) : Match.Of (pat :: pats) (m :: ms)

/-- Each iteration is a match of the body. -/
inductive Match.Iters : List MacroPatEnt → List (List (Match H F)) → Prop
  | nil (pats : List MacroPatEnt) : Match.Iters pats []
  | cons {pats : List MacroPatEnt} {it : List (Match H F)} {its : List (List (Match H F))}
      (h : Match.Of pats it) (hs : Match.Iters pats its) : Match.Iters pats (it :: its)

end

/-! ## 2. The second pass -/

structure Capture (H F : Type) where
  bindingIdx : Nat
  iterations : List Nat
  frag : InterpolatedFragment H F

/-- The state of the pass: the loops it is in and their iterations, the outermost first; the counts
    of the loops that have ended; the captures so far. -/
structure Replay (H F : Type) where
  currentLoops : List Nat
  loopIterations : List Nat
  loopCounts : List (Nat × List Nat × Nat)
  captureInfo : List (Capture H F)

namespace Replay

variable (r : Replay H F)

def loopStart (index : Nat) : Replay H F :=
  { r with
    currentLoops := r.currentLoops ++ [index]
    loopIterations := r.loopIterations ++ [0] }

def loopNext : Replay H F :=
  { r with
    loopIterations := r.loopIterations.dropLast ++ r.loopIterations.getLast?.toList.map (· + 1) }

/-- The counts are a map from a loop and a path: the entry that came first is the one found. -/
def loopEnd : Replay H F :=
  match r.currentLoops.getLast?, r.loopIterations.getLast? with
  | some loopIndex, some numIter =>
    { r with
      currentLoops := r.currentLoops.dropLast
      loopIterations := r.loopIterations.dropLast
      loopCounts := r.loopCounts ++ [(loopIndex, r.loopIterations.dropLast, numIter)] }
  | _, _ => r

def expectPat (idx : Nat) (frag : InterpolatedFragment H F) : Replay H F :=
  { r with captureInfo := r.captureInfo ++ [⟨idx, r.loopIterations, frag⟩] }

end Replay

mutual

def replay : Match H F → Replay H F → Replay H F
  | .token, r => r
  | .cap idx frag, r => r.expectPat idx frag
  | .loop idx iters, r => (replayIters iters (r.loopStart idx)).loopEnd

def replayAll : List (Match H F) → Replay H F → Replay H F
  | [], r => r
  | m :: ms, r => replayAll ms (replay m r)

def replayIters : List (List (Match H F)) → Replay H F → Replay H F
  | [], r => r
  | it :: its, r => replayIters its (replayAll it r).loopNext

end

/-- The captures, inserted one after the other. -/
def insertAll (boundTts : ParameterMappings H F) (captures : List (Capture H F)) :
    Except Err (ParameterMappings H F) :=
  captures.foldlM (fun boundTts cap => boundTts.insert cap.bindingIdx cap.iterations cap.frag)
    boundTts

/-- What the end of `MacroInvokeRulesMatchPattern` binds for an arm with `variableCount` names. -/
def bindArm (ms : List (Match H F)) (variableCount : Nat) : Except Err (ParameterMappings H F) :=
  let r := replayAll ms ⟨[], [], [], []⟩
  match insertAll .new r.captureInfo with
  | .error e => .error e
  | .ok boundTts => .ok (boundTts.setLoopCounts r.loopCounts variableCount)

/-! ## 3. What a match says about its variables and loops -/

section Values

variable {α : Type} (sel : Match H F → Option α)

mutual

/-- What `sel` finds in a match on a path of iterations, of which those of the loops around the
    place are read. -/
def Match.valueAt : Match H F → List Nat → Option α
  | .token, _ => sel .token
  | .cap idx frag, _ => sel (.cap idx frag)
  | .loop idx iters, [] => sel (.loop idx iters)
  | .loop idx iters, i :: path => (sel (.loop idx iters)).or (valueAtIter iters i path)

def valueAtAll : List (Match H F) → List Nat → Option α
  | [], _ => none
  | m :: ms, path => (m.valueAt path).or (valueAtAll ms path)

/-- In iteration `i`. -/
def valueAtIter : List (List (Match H F)) → Nat → List Nat → Option α
  | [], _, _ => none
  | it :: _, 0, path => valueAtAll it path
  | _ :: its, i + 1, path => valueAtIter its i path

end

end Values

/-- The capture of a variable. -/
def Match.capOf (v : Nat) : Match H F → Option (InterpolatedFragment H F)
  | .cap idx frag => if idx = v then some frag else none
  | _ => none

/-- The number of iterations of a loop. -/
def Match.countOf (l : Nat) : Match H F → Option Nat
  | .loop idx iters => if idx = l then some iters.length else none
  | _ => none

/-- What a variable has captured on a path of iterations. -/
def capAt (v : Nat) (ms : List (Match H F)) (path : List Nat) :
    Option (InterpolatedFragment H F) :=
  valueAtAll (Match.capOf v) ms path

/-- How many iterations a loop has on a path of iterations. -/
def countAt (l : Nat) (ms : List (Match H F)) (path : List Nat) : Option Nat :=
  valueAtAll (Match.countOf l) ms path

end Trustme.Macro
