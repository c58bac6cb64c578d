/-
  Subject:   The iterator over the contents of an arm.

  The iterator keeps a stack of read positions, one for each loop that it is in, and a pointer to
  the entries of the innermost loop. It visits the entries in the order of the nested loops: a loop
  itself is visited between two of its iterations, if it has a separator.

  * `getCurLayer`, `nextStep`: one round of the loop in `nextEnt`;
  * `visits`: the visits, by recursion on the contents;
  * `goes_visits`: the iterator goes through the visits.
-/
import Trustme.Lib.Emitter
import Trustme.Macro.Captures

namespace Trustme.Macro

open Lib

variable {H F : Type}

/-! ## 1. The state -/

structure Offset where
  readPos : Nat
  loopIndex : Nat
  maxIndex : Nat

/-- The outermost loop comes first. -/
structure MacroExpandState (H F : Type) where
  offsets : List Offset
  iterations : List Nat
  curEnts : List (MacroExpansionEnt H F)

/-- What `nextEnt` stops at, the iterations the state then has, and the numbers of iterations of the
    loops it is in. -/
structure Visit (H F : Type) where
  ent : MacroExpansionEnt H F
  iterations : List Nat
  lengths : List Nat

namespace MacroExpandState

def new (rootContents : List (MacroExpansionEnt H F)) : MacroExpandState H F :=
  ⟨[⟨0, 0, 0⟩], [], rootContents⟩

/-- The entry before a read position. -/
def entBefore (ents : List (MacroExpansionEnt H F)) (ofs : Nat) :
    Except Err (MacroExpansionEnt H F) :=
  if 0 < ofs ∧ ofs ≤ ents.length then
    match ents[ofs - 1]? with
    | none => .error .bug
    | some ent => .ok ent
  else .error .bug

/-- Down through the loops that have been entered last. -/
def layerAt : List (MacroExpansionEnt H F) → List Offset → Except Err (List (MacroExpansionEnt H F))
  | ents, [] => .ok ents
  | ents, o :: offsets =>
    match entBefore ents o.readPos with
    | .ok (.Loop entries _ _) => layerAt entries offsets
    | .ok _ => .error .bug
    | .error e => .error e

def getCurLayer (rootContents : List (MacroExpansionEnt H F)) (offsets : List Offset) :
    Except Err (List (MacroExpansionEnt H F)) :=
  if offsets.isEmpty then .error .bug else layerAt rootContents offsets.dropLast

def getCurLayerEnt (rootContents : List (MacroExpansionEnt H F)) (offsets : List Offset) :
    Except Err (MacroExpansionEnt H F) :=
  if 1 < offsets.length then
    match layerAt rootContents offsets.dropLast.dropLast, offsets.dropLast.getLast? with
    | .ok ents, some o => entBefore ents o.readPos
    | .ok _, none => .error .bug
    | .error e, _ => .error e
  else .error .bug

/-- All further controlling loops have as many repeats as the first one. -/
def sameRepeats (repeats : List Nat → Nat → Except Err Nat) (iterations : List Nat)
    (numRepeats : Nat) : List Nat → Except Err Nat
  | [] => .ok numRepeats
  | loopIdent :: loops =>
    match repeats iterations loopIdent with
    | .error e => .error e
    | .ok thisRepeats =>
      if thisRepeats ≠ numRepeats then .error .user
      else sameRepeats repeats iterations numRepeats loops

/-- How often a loop of the contents is repeated. -/
def numRepeats (repeats : List Nat → Nat → Except Err Nat) (iterations : List Nat) :
    List Nat → Except Err Nat
  | [] => .error .user
  | loopIdent :: loops =>
    match repeats iterations loopIdent with
    | .error e => .error e
    | .ok numRepeats => sameRepeats repeats iterations numRepeats loops

/-- The state as the user of the iterator sees it. -/
def visit (s : MacroExpandState H F) (ent : MacroExpansionEnt H F) : Visit H F :=
  ⟨ent, s.iterations, s.offsets.tail.map Offset.maxIndex⟩

/-- One round of the loop in `nextEnt`. -/
def nextStep (repeats : List Nat → Nat → Except Err Nat)
    (rootContents : List (MacroExpansionEnt H F)) (s : MacroExpandState H F) :
    Next (MacroExpandState H F) (Visit H F) Err :=
  match s.offsets.getLast? with
  | none => .done
  | some curOfs =>
    let below := s.offsets.dropLast
    let read : MacroExpandState H F :=
      { s with offsets := below ++ [{ curOfs with readPos := curOfs.readPos + 1 }] }
    match s.curEnts[curOfs.readPos]? with
    | some (.Loop _ _ controllingInputLoops) =>
      match numRepeats repeats s.iterations controllingInputLoops with
      | .error e => .fail e
      | .ok n =>
        if 0 < n then
          let offsets := read.offsets ++ [⟨0, 0, n⟩]
          match getCurLayer rootContents offsets with
          | .error e => .fail e
          | .ok curEnts => .again ⟨offsets, s.iterations ++ [0], curEnts⟩
        else .again read
    | some ent => .emit (read.visit ent) read
    | none =>
      if 0 < below.length then
        if curOfs.loopIndex + 1 < curOfs.maxIndex then
          let restart : MacroExpandState H F :=
            ⟨below ++ [{ curOfs with readPos := 0, loopIndex := curOfs.loopIndex + 1 }],
              s.iterations.dropLast ++ s.iterations.getLast?.toList.map (· + 1), s.curEnts⟩
          match getCurLayerEnt rootContents restart.offsets with
          | .error e => .fail e
          | .ok (.Loop entries (some joiner) controlling) =>
            .emit (restart.visit (.Loop entries (some joiner) controlling)) restart
          | .ok (.Loop _ none _) => .again restart
          | .ok _ => .fail .bug
        else
          match getCurLayer rootContents below with
          | .error e => .fail e
          | .ok curEnts => .again ⟨below, s.iterations.dropLast, curEnts⟩
      else .again { s with offsets := below }

end MacroExpandState

/-! ## 2. The visits -/

section Visits

variable (times : List Nat → List Nat → Except Err Nat)

mutual

/-- The visits of an entry, where `times` says how often a loop with these controlling loops is
    repeated on a path of iterations. -/
def MacroExpansionEnt.visits :
    MacroExpansionEnt H F → List Nat → List Nat → Next.Trace (Visit H F) Err
  | .Token t, path, lengths => ⟨[⟨.Token t, path, lengths⟩], none⟩
  | .NamedValue e, path, lengths => ⟨[⟨.NamedValue e, path, lengths⟩], none⟩
  | .Concat ents, path, lengths => ⟨[⟨.Concat ents, path, lengths⟩], none⟩
  | .Loop entries joiner controlling, path, lengths =>
    match times path controlling with
    | .error e => ⟨[], some e⟩
    | .ok n =>
      Next.Trace.iterate (fun i => visitsAll entries (path ++ [i]) (lengths ++ [n]))
        (fun i => joiner.toList.map fun j =>
          ⟨.Loop entries (some j) controlling, path ++ [i], lengths ++ [n]⟩) n 0

def visitsAll : List (MacroExpansionEnt H F) → List Nat → List Nat → Next.Trace (Visit H F) Err
  | [], _, _ => ⟨[], none⟩
  | ent :: ents, path, lengths => (ent.visits path lengths).andThen (visitsAll ents path lengths)

end

end Visits

/-! ## 3. The iterator goes through the visits -/

namespace MacroExpandState

section Goes

variable {repeats : List Nat → Nat → Except Err Nat} {root : List (MacroExpansionEnt H F)}

variable {done rest ents entries : List (MacroExpansionEnt H F)}

theorem entBefore_append {ent : MacroExpansionEnt H F} :
    entBefore (done ++ ent :: rest) (done.length + 1) = .ok ent := by
  unfold entBefore
  rw [if_pos ⟨by omega, by simp⟩]
  simp

theorem layerAt_append {layer : List (MacroExpansionEnt H F)} {offsets offsets' : List Offset}
    (h : layerAt ents offsets = .ok layer) :
    layerAt ents (offsets ++ offsets') = layerAt layer offsets' := by
  induction offsets generalizing ents with
  | nil =>
    obtain rfl : ents = layer := Except.ok.inj h
    rfl
  | cons o offsets ih =>
    rw [layerAt] at h
    rw [List.cons_append, layerAt]
    cases hent : entBefore ents o.readPos with
    | error e => simp [hent] at h
    | ok ent =>
      cases ent with
      | Loop entries joiner controlling =>
        simp only [hent] at h ⊢
        exact ih h
      | Token t => simp [hent] at h
      | NamedValue e => simp [hent] at h
      | Concat es => simp [hent] at h

variable {below : List Offset} {joiner : Option (Token H F)} {controlling path : List Nat}
variable {o : Offset}

/-- The layer of a loop that has been entered last. -/
theorem layerAt_loop
    (hl : layerAt root below = .ok (done ++ .Loop entries joiner controlling :: rest))
    (ho : o.readPos = done.length + 1) : layerAt root (below ++ [o]) = .ok entries := by
  rw [layerAt_append hl, layerAt, ho, entBefore_append]
  rfl

/-- The state in a layer. -/
def within (below : List Offset) (o : Offset) (path : List Nat)
    (ents : List (MacroExpansionEnt H F)) : MacroExpandState H F :=
  ⟨below ++ [o], path, ents⟩

/-- The numbers of iterations of the loops of a stack. -/
def lengthsOf (below : List Offset) (o : Offset) : List Nat :=
  (below ++ [o]).tail.map Offset.maxIndex

theorem lengthsOf_push (below : List Offset) (o o' : Offset) :
    lengthsOf (below ++ [o]) o' = lengthsOf below o ++ [o'.maxIndex] := by
  unfold lengthsOf
  cases below with
  | nil => rfl
  | cons b below => simp

theorem lengthsOf_congr (below : List Offset) {o' : Offset} (h : o.maxIndex = o'.maxIndex) :
    lengthsOf below o = lengthsOf below o' := by
  unfold lengthsOf
  cases below with
  | nil => rfl
  | cons b below => simp [h]

/-- One round in the middle of a layer, at an entry that is not a loop. -/
theorem nextStep_emit {ent : MacroExpansionEnt H F} (h : ents[o.readPos]? = some ent)
    (hent : ∀ es j c, ent ≠ .Loop es j c) :
    nextStep repeats root (within below o path ents)
      = .emit ⟨ent, path, lengthsOf below o⟩
          (within below { o with readPos := o.readPos + 1 } path ents) := by
  have hlen : lengthsOf below { o with readPos := o.readPos + 1 } = lengthsOf below o :=
    lengthsOf_congr below rfl
  unfold nextStep within
  simp only [List.getLast?_concat, List.dropLast_concat, h]
  cases ent with
  | Loop es j c => exact absurd rfl (hent es j c)
  | Token t => exact congrArg₂ _ (congrArg _ hlen) rfl
  | NamedValue e => exact congrArg₂ _ (congrArg _ hlen) rfl
  | Concat es => exact congrArg₂ _ (congrArg _ hlen) rfl

variable (h : ents[o.readPos]? = some (.Loop entries joiner controlling))

include h

/-- At a loop that is not repeated at all. -/
theorem nextStep_skip (hn : numRepeats repeats path controlling = .ok 0) :
    nextStep repeats root (within below o path ents)
      = .again (within below { o with readPos := o.readPos + 1 } path ents) := by
  unfold nextStep within
  simp only [List.getLast?_concat, List.dropLast_concat, h,
    hn, Nat.lt_irrefl, if_false]

theorem nextStep_fail {e : Err} (hn : numRepeats repeats path controlling = .error e) :
    nextStep repeats root (within below o path ents) = .fail e := by
  unfold nextStep within
  simp only [List.getLast?_concat, h, hn]

/-- Into a loop. -/
theorem nextStep_enter {n : Nat} (hn : numRepeats repeats path controlling = .ok n) (hpos : 0 < n)
    (hlayer : layerAt root (below ++ [{ o with readPos := o.readPos + 1 }]) = .ok entries) :
    nextStep repeats root (within below o path ents)
      = .again (within (below ++ [{ o with readPos := o.readPos + 1 }]) ⟨0, 0, n⟩ (path ++ [0])
          entries) := by
  have hcur : getCurLayer root (below ++ [{ o with readPos := o.readPos + 1 }] ++ [⟨0, 0, n⟩])
      = .ok entries := by
    unfold getCurLayer
    rw [List.dropLast_concat, hlayer]
    simp
  unfold nextStep within
  simp only [List.getLast?_concat, List.dropLast_concat, h,
    hn, if_pos hpos, hcur]

omit h

/-- Between two iterations. -/
theorem nextStep_restart (repeats : List Nat → Nat → Except Err Nat) {outer : Offset}
    (path : List Nat) (k : Nat) (hend : o.readPos = entries.length)
    (hmore : o.loopIndex + 1 < o.maxIndex)
    (hl : layerAt root below = .ok (done ++ .Loop entries joiner controlling :: rest))
    (ho : outer.readPos = done.length + 1) :
    Next.Emits (nextStep repeats root) (within (below ++ [outer]) o (path ++ [k]) entries)
      (joiner.toList.map fun j => ⟨.Loop entries (some j) controlling, path ++ [k + 1],
        lengthsOf (below ++ [outer]) o⟩)
      (within (below ++ [outer]) ⟨0, o.loopIndex + 1, o.maxIndex⟩ (path ++ [k + 1]) entries) := by
  have hent : getCurLayerEnt root (below ++ [outer] ++ [⟨0, o.loopIndex + 1, o.maxIndex⟩])
      = .ok (.Loop entries joiner controlling) := by
    unfold getCurLayerEnt
    rw [if_pos (by simp), List.dropLast_concat, List.dropLast_concat, hl,
      List.getLast?_concat]
    simp only [ho]
    exact entBefore_append
  have hnone : entries[o.readPos]? = none := List.getElem?_eq_none (by omega)
  have hpos : 0 < (below ++ [outer]).length := by simp
  cases joiner with
  | none =>
    refine Next.Emits.step_again ?_
    unfold nextStep within
    simp only [List.getLast?_concat, List.dropLast_concat, hnone, if_pos hpos, if_pos hmore, hent]
    simp
  | some j =>
    have hlen : lengthsOf (below ++ [outer]) ⟨0, o.loopIndex + 1, o.maxIndex⟩
        = lengthsOf (below ++ [outer]) o := lengthsOf_congr _ rfl
    refine Next.Emits.step_emit ?_
    rw [← hlen]
    unfold nextStep within
    simp only [List.getLast?_concat, List.dropLast_concat, hnone, if_pos hpos, if_pos hmore, hent]
    simp [visit, lengthsOf]

/-- Out of a loop. -/
theorem nextStep_leave (repeats : List Nat → Nat → Except Err Nat) (outer : Offset)
    (path : List Nat) (k : Nat) (hend : o.readPos = entries.length)
    (hlast : ¬ o.loopIndex + 1 < o.maxIndex) (hl : layerAt root below = .ok ents) :
    nextStep repeats root (within (below ++ [outer]) o (path ++ [k]) entries)
      = .again (within below outer path ents) := by
  have hcur : getCurLayer root (below ++ [outer]) = .ok ents := by
    unfold getCurLayer
    rw [List.dropLast_concat, hl]
    simp
  have hnone : entries[o.readPos]? = none := List.getElem?_eq_none (by omega)
  have hpos : 0 < (below ++ [outer]).length := by simp
  unfold nextStep within
  simp only [List.getLast?_concat, List.dropLast_concat, hnone, if_pos hpos, if_neg hlast, hcur]

/-- The iterations of a loop that is entered, from the `k`-th on. -/
theorem goes_iterate {outer : Offset} {n : Nat} {body : Nat → Next.Trace (Visit H F) Err}
    (hl : layerAt root below = .ok (done ++ .Loop entries joiner controlling :: rest))
    (ho : outer.readPos = done.length + 1) (hbody : ∀ k, Next.Goes (nextStep repeats root)
      (within (below ++ [outer]) ⟨0, k, n⟩ (path ++ [k]) entries) (body k)
      (within (below ++ [outer]) ⟨entries.length, k, n⟩ (path ++ [k]) entries)) {left k : Nat}
    (hleft : k + (left + 1) = n) :
    Next.Goes (nextStep repeats root)
      (within (below ++ [outer]) ⟨0, k, n⟩ (path ++ [k]) entries)
      (Next.Trace.iterate body (fun i => joiner.toList.map fun j =>
        ⟨.Loop entries (some j) controlling, path ++ [i], lengthsOf below outer ++ [n]⟩)
        (left + 1) k)
      (within (below ++ [outer]) ⟨entries.length, n - 1, n⟩ (path ++ [n - 1]) entries) := by
  induction left generalizing k with
  | zero =>
    obtain rfl : k = n - 1 := by omega
    exact hbody (n - 1)
  | succ left ih =>
    refine (hbody k).andThen fun _ => ?_
    have hrestart := nextStep_restart repeats (o := ⟨entries.length, k, n⟩) path k rfl
      (show k + 1 < n by omega) hl ho
    rw [lengthsOf_push] at hrestart
    exact hrestart.goes (ih (k := k + 1) (by omega))

end Goes

section Visits

variable {repeats : List Nat → Nat → Except Err Nat} {root : List (MacroExpansionEnt H F)}

mutual

theorem goes_ent : ∀ (ent : MacroExpansionEnt H F) {below : List Offset} {o : Offset}
    {path : List Nat} {done rest : List (MacroExpansionEnt H F)},
    layerAt root below = .ok (done ++ ent :: rest) → o.readPos = done.length →
    Next.Goes (nextStep repeats root) (within below o path (done ++ ent :: rest))
      (ent.visits (numRepeats repeats) path (lengthsOf below o))
      (within below { o with readPos := o.readPos + 1 } path (done ++ ent :: rest))
  | .Token t, below, o, path, done, rest, _, ho =>
    Next.Emits.step_emit (nextStep_emit (by rw [ho]; simp) fun es j c => by simp)
  | .NamedValue e, below, o, path, done, rest, _, ho =>
    Next.Emits.step_emit (nextStep_emit (by rw [ho]; simp) fun es j c => by simp)
  | .Concat es, below, o, path, done, rest, _, ho =>
    Next.Emits.step_emit (nextStep_emit (by rw [ho]; simp) fun es j c => by simp)
  | .Loop entries joiner controlling, below, o, path, done, rest, hl, ho => by
    have hget : (done ++ .Loop entries joiner controlling :: rest)[o.readPos]?
        = some (.Loop entries joiner controlling) := by
      rw [ho]
      simp
    rw [MacroExpansionEnt.visits]
    cases hn : numRepeats repeats path controlling with
    | error e => exact ⟨_, Next.Emits.refl _, nextStep_fail hget hn⟩
    | ok n =>
      cases n with
      | zero => exact Next.Emits.step_again (nextStep_skip hget hn)
      | succ left =>
        -- in, through the iterations, and out
        have hlayer := layerAt_loop hl (o := { o with readPos := o.readPos + 1 })
          (congrArg (· + 1) ho)
        have hbody : ∀ k, Next.Goes (nextStep repeats root)
            (within (below ++ [{ o with readPos := o.readPos + 1 }]) ⟨0, k, left + 1⟩ (path ++ [k])
              entries)
            (visitsAll (numRepeats repeats) entries (path ++ [k])
              (lengthsOf below { o with readPos := o.readPos + 1 } ++ [left + 1]))
            (within (below ++ [{ o with readPos := o.readPos + 1 }])
              ⟨entries.length, k, left + 1⟩ (path ++ [k]) entries) := by
          intro k
          have h := goes_all entries (o := ⟨0, k, left + 1⟩) (path ++ [k]) [] hlayer rfl
          rw [lengthsOf_push] at h
          exact h
        have hiter := goes_iterate hl (congrArg (· + 1) ho) hbody (Nat.zero_add (left + 1))
        have hin := Next.Emits.step_again
          (nextStep_enter hget hn (Nat.succ_pos left) hlayer)
        have hout := nextStep_leave repeats { o with readPos := o.readPos + 1 }
          (o := ⟨entries.length, left, left + 1⟩) path left rfl (by simp) hl
        have hend : Next.Goes (nextStep repeats root)
            (within (below ++ [{ o with readPos := o.readPos + 1 }])
              ⟨entries.length, left + 1 - 1, left + 1⟩ (path ++ [left + 1 - 1]) entries) ⟨[], none⟩
            (within below { o with readPos := o.readPos + 1 } path
              (done ++ .Loop entries joiner controlling :: rest)) :=
          Next.Emits.step_again hout
        have hall := hin.goes (hiter.andThen fun _ => hend)
        have hlen : lengthsOf below { o with readPos := o.readPos + 1 } = lengthsOf below o :=
          lengthsOf_congr below rfl
        rw [Next.Trace.andThen_of_none rfl, Next.Trace.andThen_done, hlen] at hall
        exact hall

/-- **The iterator goes through the visits of a layer.** -/
theorem goes_all : ∀ (tail : List (MacroExpansionEnt H F)) {below : List Offset} {o : Offset}
    (path : List Nat) (done : List (MacroExpansionEnt H F)),
    layerAt root below = .ok (done ++ tail) → o.readPos = done.length →
    Next.Goes (nextStep repeats root) (within below o path (done ++ tail))
      (visitsAll (numRepeats repeats) tail path (lengthsOf below o))
      (within below { o with readPos := (done ++ tail).length } path (done ++ tail))
  | [], below, o, path, done, _, ho => by
    have hend : { o with readPos := (done ++ ([] : List (MacroExpansionEnt H F))).length } = o := by
      rw [List.append_nil, ← ho]
    rw [hend]
    exact Next.Emits.refl _
  | ent :: tail, below, o, path, done, hl, ho => by
    rw [visitsAll]
    refine (goes_ent ent hl ho).andThen fun _ => ?_
    have happ : done ++ ent :: tail = (done ++ [ent]) ++ tail := by simp
    rw [happ] at hl ⊢
    have h := goes_all tail (o := { o with readPos := o.readPos + 1 }) path (done ++ [ent]) hl
      (by simp [ho])
    have hlen : lengthsOf below { o with readPos := o.readPos + 1 } = lengthsOf below o :=
      lengthsOf_congr below rfl
    rw [hlen] at h
    exact h

end

/-- **From its start the iterator goes through all visits, and then it is done.** -/
theorem goes_visits (repeats : List Nat → Nat → Except Err Nat)
    (root : List (MacroExpansionEnt H F)) : ∃ t : MacroExpandState H F,
    Next.Goes (nextStep repeats root) (new root) (visitsAll (numRepeats repeats) root [] []) t ∧
      nextStep repeats root t = .done := by
  have h : Next.Goes (nextStep repeats root) (within [] ⟨0, 0, 0⟩ [] root)
      (visitsAll (numRepeats repeats) root [] []) (within [] ⟨root.length, 0, 0⟩ [] root) :=
    goes_all root [] [] rfl rfl
  have hlast : nextStep repeats root (within [] ⟨root.length, 0, 0⟩ [] root)
      = .again ⟨[], [], root⟩ := by
    unfold nextStep within
    simp
  have hend : Next.Goes (nextStep repeats root) (within [] ⟨root.length, 0, 0⟩ [] root) ⟨[], none⟩
      ⟨[], [], root⟩ := Next.Emits.step_again hlast
  have hall := h.andThen fun _ => hend
  rw [Next.Trace.andThen_done] at hall
  exact ⟨⟨[], [], root⟩, hall, rfl⟩

end Visits

end MacroExpandState

end Trustme.Macro
