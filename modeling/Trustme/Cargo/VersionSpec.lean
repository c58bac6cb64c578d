/-
  Subject:   Requirements on versions (src/bin/cargo/semver.go).

  * `parseVersion`, `parseVersionSpec`: reading; what is thrown is an error;
  * `compareToBound`, `compatible`, `accepts`: whether a version is taken;
  * `Rule`, `matchesReq`: the rules that semver has for comparators.
-/
import Trustme.Cargo.Semver
import Trustme.Cargo.Features

namespace Trustme.Cargo

open Trustme.Lib

/-! ## 1. Reading -/

/-- The operators, and `wildcard` for a bound with one. -/
inductive BoundOp where
  | exact
  | greater
  | greaterEq
  | less
  | lessEq
  | tilde
  | caret
  | wildcard
  deriving DecidableEq

structure VersionBound where
  op : BoundOp
  version : Version
  parts : Nat
  deriving DecidableEq

abbrev VersionSpec := List VersionBound

/-- What is thrown. -/
inductive VersionFailure where
  | invalid (input : Str)
  | atoi (part : Str)
  deriving DecidableEq

/-- `strconv.Atoi`, of a text without a sign. -/
def atoi (part : Str) : Except VersionFailure Int :=
  if isNumeric part && decide (number part < 2 ^ 63) then .ok (number part) else .error (.atoi part)

/-- The loop over the parts. -/
def parseNumbers (input : Str) : List Str → Except VersionFailure (List Int)
  | [] => .ok []
  | part :: parts =>
    if part = [] then .error (.invalid input)
    else do
      let n ← atoi part
      let ns ← parseNumbers input parts
      return n :: ns

/-- Up to the first `b`, and what follows it. -/
def cutAt (b : Byte) (s : Str) : Str × Str := (s.takeWhile (· ≠ b), (s.dropWhile (· ≠ b)).drop 1)

def parseVersion (input : Str) : Except VersionFailure Version := do
  let (input, build) := cutAt 43 (trimSpace input)
  let (input, pre) := cutAt 45 input
  let parts := split 46 input
  if 3 < parts.length then throw (.invalid input)
  let ns ← parseNumbers input parts
  return ⟨ns.getD 0 0, ns.getD 1 0, ns.getD 2 0, pre, build⟩

/-- The operators, in the order in which they are tried. -/
def operators : List (Str × BoundOp) :=
  [(ascii "<=", .lessEq), (ascii ">=", .greaterEq), (ascii "=", .exact), (ascii "<", .less),
    (ascii ">", .greater), (ascii "~", .tilde), (ascii "^", .caret)]

/-- The operator of a part, and what follows it. -/
def stripOp (part : Str) : BoundOp × Str :=
  match operators.find? fun candidate => candidate.1.isPrefixOf part with
  | some (text, op) => (op, trimSpace (part.drop text.length))
  | none => (.caret, part)

def isWildcard (item : Str) : Bool := item == ascii "*" || item == ascii "x" || item == ascii "X"

/-- A round of the loop over what stands between commas. -/
def parseBound (raw : Str) : Except VersionFailure (Option VersionBound) :=
  let (op, part) := stripOp (trimSpace raw)
  if part = ascii "*" then .ok none
  else
    let parts := split 46 part
    let kept := parts.takeWhile fun item => !isWildcard item
    if kept = [] then .ok none
    else do
      let version ← parseVersion (join 46 kept)
      return some ⟨if kept.length < parts.length then .wildcard else op, version, kept.length⟩

def parseBounds : List Str → Except VersionFailure VersionSpec
  | [] => .ok []
  | raw :: raws => do
      let bound ← parseBound raw
      let bounds ← parseBounds raws
      return bound.toList ++ bounds

def parseVersionSpec (input : Str) : Except VersionFailure VersionSpec :=
  let input := trimSpace input
  if input = [] ∨ input = ascii "*" then .ok [] else parseBounds (split 44 input)

/-! ## 2. Versions that are taken -/

def compareToBound (version : Version) (bound : VersionBound) : Ordering :=
  if 3 ≤ bound.parts then compareVersion version bound.version
  else if version.major ≠ bound.version.major then
    if version.major < bound.version.major then .lt else .gt
  else if bound.parts = 2 ∧ version.minor ≠ bound.version.minor then
    if version.minor < bound.version.minor then .lt else .gt
  else .eq

def compatible (base version : Version) (parts : Nat) : Bool :=
  if parts = 1 then decide (base.major = version.major)
  else if base.major ≠ 0 then decide (base.major = version.major)
  else if parts = 2 ∨ base.minor ≠ 0 then decide (version.major = 0 ∧ base.minor = version.minor)
  else decide (version.major = 0 ∧ version.minor = 0 ∧ base.patch = version.patch)

/-- A round of `accepts`. -/
def boundAccepts (version : Version) (bound : VersionBound) : Bool :=
  let cmp := compareToBound version bound
  match bound.op with
  | .exact =>
    !decide ((bound.parts = 1 ∧ version.major ≠ bound.version.major) ∨
      (bound.parts = 2 ∧ (version.major ≠ bound.version.major ∨
        version.minor ≠ bound.version.minor)) ∨
      (bound.parts = 3 ∧ cmp ≠ .eq))
  | .greater => decide (cmp = .gt)
  | .greaterEq => decide (cmp ≠ .lt)
  | .less => decide (cmp = .lt)
  | .lessEq => decide (cmp ≠ .gt)
  | .wildcard =>
    !decide (version.major ≠ bound.version.major ∨
      (bound.parts = 2 ∧ version.minor ≠ bound.version.minor))
  | .tilde =>
    !decide (cmp = .lt ∨ version.major ≠ bound.version.major ∨
      (1 < bound.parts ∧ version.minor ≠ bound.version.minor))
  | .caret => decide (cmp ≠ .lt) && compatible bound.version version bound.parts

def accepts (spec : VersionSpec) (version : Version) : Bool := spec.all (boundAccepts version)

/-! ## 3. The rules of semver -/

/-- A comparator: parts that are left out match anything. -/
structure Rule where
  op : BoundOp
  major : Int
  minor : Option Int
  patch : Option Int
  pre : Str

namespace Rule

variable (cmp : Rule) (ver : Version)

/-- `none` is equal to anything. -/
def same (part : Option Int) (n : Int) : Prop := ∀ m ∈ part, n = m

def matchesExact : Prop :=
  ver.major = cmp.major ∧ same cmp.minor ver.minor ∧ same cmp.patch ver.patch ∧ ver.pre = cmp.pre

/-- Compared as `o`, by the parts that are written. -/
def ordered (o : Ordering) : Prop :=
  if ver.major ≠ cmp.major then compare ver.major cmp.major = o
  else
    match cmp.minor, cmp.patch with
    | none, _ => False
    | some minor, none => ver.minor ≠ minor ∧ compare ver.minor minor = o
    | some minor, some patch =>
      if ver.minor ≠ minor then compare ver.minor minor = o
      else if ver.patch ≠ patch then compare ver.patch patch = o
      else comparePre ver.pre cmp.pre = o

def matchesGreater : Prop := cmp.ordered ver .gt

def matchesLess : Prop := cmp.ordered ver .lt

def matchesTilde : Prop :=
  ver.major = cmp.major ∧ same cmp.minor ver.minor ∧
    match cmp.patch with
    | none => comparePre ver.pre cmp.pre ≠ .lt
    | some patch =>
      if ver.patch ≠ patch then ver.patch > patch else comparePre ver.pre cmp.pre ≠ .lt

def matchesCaret : Prop :=
  ver.major = cmp.major ∧
    match cmp.minor, cmp.patch with
    | none, _ => True
    | some minor, none => if 0 < cmp.major then ver.minor ≥ minor else ver.minor = minor
    | some minor, some patch =>
      if 0 < cmp.major then
        if ver.minor ≠ minor then ver.minor > minor
        else if ver.patch ≠ patch then ver.patch > patch
        else comparePre ver.pre cmp.pre ≠ .lt
      else if 0 < minor then
        ver.minor = minor ∧ if ver.patch ≠ patch then ver.patch > patch else comparePre ver.pre
          cmp.pre ≠ .lt
      else ver.minor = minor ∧ ver.patch = patch ∧ comparePre ver.pre cmp.pre ≠ .lt

def matchesImpl : Prop :=
  match cmp.op with
  | .exact => cmp.matchesExact ver
  | .wildcard => cmp.matchesExact ver
  | .greater => cmp.matchesGreater ver
  | .greaterEq => cmp.matchesExact ver ∨ cmp.matchesGreater ver
  | .less => cmp.matchesLess ver
  | .lessEq => cmp.matchesExact ver ∨ cmp.matchesLess ver
  | .tilde => cmp.matchesTilde ver
  | .caret => cmp.matchesCaret ver

/-- The comparator names the version, and has a pre-release. -/
def preIsCompatible : Prop :=
  cmp.major = ver.major ∧ cmp.minor = some ver.minor ∧ cmp.patch = some ver.patch ∧ cmp.pre ≠ []

end Rule

def matchesReq (rules : List Rule) (ver : Version) : Prop :=
  (∀ cmp ∈ rules, cmp.matchesImpl ver) ∧ (ver.pre = [] ∨ ∃ cmp ∈ rules, cmp.preIsCompatible ver)

end Trustme.Cargo
