/-
  Subject:   What is seen of a function without its dead assignments.

  * `LocalLaws`: locals that nothing names cannot be told from outside: the parts of a function
    that do not name them do the same, whatever they hold;
  * `Sees`: steps, with what is seen of them;
  * `Matched`: a state of the function and one of what the pass makes of it;
  * `dead_right`: the pass takes out what cannot be observed, and keeps what is seen, just where
    the function is `Clean`;
  * `borrowedArgument_lost`: an argument that is borrowed loses its value.
-/
import Trustme.Mir.DeadAssignments

namespace Trustme.Mir

open Metadata Lib

variable {V : Vocabulary} {W O : Type}

/-! ## 1. Locals -/

/-- What is asked of an interpretation. In worlds that are the `same` but for some locals, which
    nothing points to, everything that does not name these locals does the same; of a world
    something can be seen that is not in locals; an assignment to a local can be carried out and
    changes nothing else; and the drop of a reference that owns nothing does nothing. -/
structure LocalLaws (borrowType : V.HIRType → Option HIRBorrowType) (fcn : MIRFunction V)
    (I : Interp V W)
    (view : W → O) (start : W → Prop) where
  same : (Nat → Prop) → W → W → Prop
  same_start : ∀ L w, start w → same L w w
  symm : ∀ L w w', same L w w' → same L w' w
  view_eq : ∀ L w w', same L w w' → view w = view w'
  stmt : ∀ L x w₁ w₂ w₁', same L w₁ w₂ → (∀ i ∈ statementLocals x, ¬ L i) → I.stmt x w₁ w₁' →
    ∃ w₂', I.stmt x w₂ w₂' ∧ same L w₁' w₂'
  assign : ∀ L i hi src w₁ w₂ w₁', same L w₁ w₂ → L i → (∀ j ∈ valueLocals src, ¬ L j) →
    I.stmt (.Assign ⟨.Local i hi, []⟩ src) w₁ w₁' → same L w₁' w₂
  assigned : ∀ i hi src w, ∃ w', I.stmt (.Assign ⟨.Local i hi, []⟩ src) w w'
  truth : ∀ L v w₁ w₂, same L w₁ w₂ → (∀ i ∈ v.locals, ¬ L i) → I.truth v w₁ = I.truth v w₂
  variant : ∀ L v w₁ w₂, same L w₁ w₂ → (∀ i ∈ v.locals, ¬ L i) → I.variant v w₁ = I.variant v w₂
  matched : ∀ L v values w₁ w₂, same L w₁ w₂ → (∀ i ∈ v.locals, ¬ L i) →
    I.matched v values w₁ = I.matched v values w₂
  flag : ∀ L f w₁ w₂, same L w₁ w₂ → I.flag f w₁ = I.flag f w₂
  leave : ∀ L t w₁ w₂ edge w₁', same L w₁ w₂ → (∀ i ∈ terminatorLocals t, ¬ L i) →
    I.leave t.shape w₁ edge w₁' → ∃ w₂', I.leave t.shape w₂ edge w₂' ∧ same L w₁' w₂'
  drop : ∀ kind i hi f target unwind w edge w', isPlainReference borrowType fcn i = true →
    (I.leave (MIRTerminator.Drop kind ⟨.Local i hi, []⟩ f target unwind).shape w edge w' ↔
      edge = some 0 ∧ w' = w)

/-! ## 2. What is seen -/

/-- The part of the function that a step carries out, with what is seen of the world behind it. The
    assignment to the whole of a local is not seen, and neither is the drop of a reference that owns
    nothing. -/
inductive Seen (V : Vocabulary) (O : Type) where
  | ran (x : MIRStatement V) (o : O)
  | left (t : MIRTerminator V) (edge : Option Nat) (o : O)

section Seeing

variable (borrowType : V.HIRType → Option HIRBorrowType) (view : W → O)

def seen (fcn : MIRFunction V) : Event V W → Option (Seen V O)
  | .ran x w => if (assignsTo x).isSome then none else some (.ran x (view w))
  | .left t edge w =>
    if (dropOf t).any (isPlainReference borrowType fcn) then none else some (.left t edge (view w))

/-- A step, with what is seen of it. -/
def Sees (I : Interp V W) (fcn : MIRFunction V) (s : State V W) (l : Option (Seen V O))
    (s' : State V W) : Prop :=
  ∃ e, Moves I fcn s e s' ∧ l = e.bind (seen borrowType view fcn)

/-- What can be seen of two functions is the same, whatever the world is at the start. -/
def SameSeen (I : Interp V W) (start : W → Prop) (fcn fcn' : MIRFunction V) : Prop :=
  ∀ w, start w → ∀ tr, Trace (Sees borrowType view I fcn) (enter fcn 0 w) tr ↔
    Trace (Sees borrowType view I fcn') (enter fcn' 0 w) tr

end Seeing

/-! ## 3. The two functions side by side -/

section Match

variable {borrowType : V.HIRType → Option HIRBorrowType} {view : W → O} {fcn : MIRFunction V}
  {I : Interp V W} {start : W → Prop}

theorem optimised_block {bb : Nat} : (optimiseDeadAssignments borrowType fcn).blocks[bb]? =
    fcn.blocks[bb]?.map (withoutDead borrowType fcn) := by
  rw [optimiseDeadAssignments, List.getElem?_map]

theorem statementsAt_optimised (bb : Nat) :
    statementsAt (optimiseDeadAssignments borrowType fcn) bb =
      (statementsAt fcn bb).filter fun x => !isDead borrowType fcn x := by
  rw [statementsAt, statementsAt, optimised_block]
  cases fcn.blocks[bb]? <;> rfl

theorem seen_optimised (e : Event V W) :
    seen borrowType view (optimiseDeadAssignments borrowType fcn) e =
      seen borrowType view fcn e := by
  cases e <;> rfl

theorem dropOf_shape (t : MIRTerminator V) : dropOf t.shape = dropOf t := by
  cases t <;> rfl

/-- What is left of a block, and the same without what is dead, in worlds that are the same but for
    what is taken out. -/
inductive Matched (laws : LocalLaws borrowType fcn I view start) : State V W → State V W →
    Prop where
  | inside {bb done rest w w'} (hrest : statementsAt fcn bb = done ++ rest)
      (hs : laws.same (· ∈ removedLocals borrowType fcn) w w') :
      Matched laws ⟨.inside bb rest, w⟩ ⟨.inside bb (rest.filter fun x => !isDead borrowType fcn x),
        w'⟩
  | ended {w w'} (hs : laws.same (· ∈ removedLocals borrowType fcn) w w') :
      Matched laws ⟨.ended, w⟩ ⟨.ended, w'⟩

variable (laws : LocalLaws borrowType fcn I view start)

theorem Matched.entered {w w' : W} (bb : Nat)
    (hs : laws.same (· ∈ removedLocals borrowType fcn) w w') :
    Matched laws (enter fcn bb w) (enter (optimiseDeadAssignments borrowType fcn) bb w') := by
  unfold enter
  rw [statementsAt_optimised]
  have hrest : statementsAt fcn bb = [] ++ statementsAt fcn bb := rfl
  exact .inside hrest hs

/-- A statement that is still to come is one of a block. -/
theorem block_of_rest {bb : Nat} {done rest : List (MIRStatement V)} {x : MIRStatement V}
    (h : statementsAt fcn bb = done ++ x :: rest) : ∃ block ∈ fcn.blocks, x ∈ block.statements := by
  unfold statementsAt at h
  cases hb : fcn.blocks[bb]? with
  | none => simp [hb] at h
  | some block =>
    refine ⟨block, List.mem_of_getElem? hb, ?_⟩
    rw [hb, Option.map_some, Option.getD_some] at h
    rw [h]
    simp

/-- A branch goes on alike where it names nothing that is taken out. -/
theorem next_same {L : Nat → Prop} {t : MIRTerminator V} {w w' : W} (hs : laws.same L w w')
    (ht : ∀ i ∈ terminatorLocals t, ¬ L i) : I.next w t = I.next w' t := by
  have hedge : I.edge w t = I.edge w' t := by
    have hplace : ∀ v ∈ t.places, ∀ i ∈ v.locals, ¬ L i := fun v hv i hi =>
      ht i (List.mem_flatMap.2 ⟨v, List.mem_append_left _ hv, hi⟩)
    cases t with
    | If cond bbTrue bbFalse =>
      rw [Interp.edge, Interp.edge, laws.truth L cond w w' hs
        (hplace cond (by simp [MIRTerminator.places,
        MIRTerminator.direct]))]
    | Switch val targets validFlag invalidTarget =>
      rw [Interp.edge, Interp.edge, laws.flag L validFlag w w' hs,
        laws.variant L val w w' hs (hplace val
        (by simp [MIRTerminator.places, MIRTerminator.direct]))]
    | SwitchValue val defTarget targets values =>
      rw [Interp.edge, Interp.edge, laws.matched L val values w w' hs (hplace val
        (by simp [MIRTerminator.places, MIRTerminator.direct]))]
    | _ => rfl
  rw [Interp.next, Interp.next, hedge]

/-! ## 4. The steps answer each other -/

variable (hc : Clean borrowType fcn)
include hc

/-- A step of the function is one of what the pass makes of it, or it is not seen and nothing
    answers it. -/
theorem matched_forward : Simulates (Sees borrowType view I fcn)
    (Sees borrowType view I (optimiseDeadAssignments borrowType fcn)) (Matched laws) := by
  rintro s t l s' hm ⟨e, hmove, rfl⟩
  cases hmove with
  | stmt x hx =>
    cases hm with
    | inside hrest hs =>
      rename_i bb rest w w' done v
      obtain ⟨block, hb, hxb⟩ := block_of_rest hrest
      have hrest' : statementsAt fcn bb = (done ++ [x]) ++ rest := by
        rw [hrest, List.append_assoc]; rfl
      cases hd : isDead borrowType fcn x with
      | true =>
        obtain ⟨i, hi, src, rfl, hr, hsrc⟩ := dead_names hc hb hxb hd
        refine ⟨_, ?_, .inside hrest' (laws.assign _ i hi src _ _ _ hs hr hsrc hx)⟩
        rw [List.filter_cons, hd]
        exact .refl _
      | false =>
        obtain ⟨v', hv, hs'⟩ := laws.stmt _ x _ _ _ hs (alive_names hc hb hxb hd) hx
        refine ⟨_, ?_, .inside hrest' hs'⟩
        rw [List.filter_cons, hd]
        have hstep : Sees borrowType view I (optimiseDeadAssignments borrowType fcn)
            ⟨.inside bb (x :: rest.filter fun x => !isDead borrowType fcn x), v⟩
            (seen borrowType view fcn (.ran x w'))
            ⟨.inside bb (rest.filter fun x => !isDead borrowType fcn x), v'⟩ := by
          refine ⟨_, .stmt x hv, ?_⟩
          simp only [Option.bind_some, seen, laws.view_eq _ _ _ hs']
        exact Run.single hstep
  | branch hblock hbranch hnext =>
    cases hm with
    | inside hrest hs =>
      rename_i bb w block target done v
      rcases terminator_names hc (List.mem_of_getElem? hblock) with ⟨hkept, hnames⟩ | ⟨_, _, _, _,
        _, _, ht, _, _⟩
      · have hblock' : (optimiseDeadAssignments borrowType fcn).blocks[bb]? =
          some (withoutDead borrowType fcn block) := by
          rw [optimised_block, hblock, Option.map_some]
        have hterm : (withoutDead borrowType fcn block).terminator = block.terminator := hkept
        refine ⟨_, ?_, Matched.entered laws target.toNat hs⟩
        refine Run.single (l := none) ⟨none, .branch hblock' (hterm ▸ hbranch) ?_, rfl⟩
        rw [hterm, ← next_same laws hs hnames, hnext]
      · rw [ht] at hbranch
        cases hbranch
  | leave hblock hbranch hleave htarget =>
    cases hm with
    | inside hrest hs =>
      rename_i bb w w' block target edge done v
      have hblock' : (optimiseDeadAssignments borrowType fcn).blocks[bb]? =
        some (withoutDead borrowType fcn block) := by
        rw [optimised_block, hblock, Option.map_some]
      rcases terminator_names hc (List.mem_of_getElem? hblock) with ⟨hkept, hnames⟩ |
        ⟨kind, i, hi, f, goto, unwind, ht, hgoto, hplain⟩
      · have hterm : (withoutDead borrowType fcn block).terminator = block.terminator := hkept
        obtain ⟨v', hv, hs'⟩ := laws.leave _ block.terminator _ _ _ _ hs hnames hleave
        refine ⟨_, ?_, Matched.entered laws target.toNat hs'⟩
        refine Run.single ⟨_, .leave hblock' (hterm ▸ hbranch) (hterm.symm ▸ hv)
          (hterm.symm ▸ htarget), ?_⟩
        simp only [Option.bind_some, seen, hterm, laws.view_eq _ _ _ hs']
        rfl
      · -- the drop goes on at its target without a trace, as the Goto does
        rw [ht] at hleave htarget ⊢
        obtain ⟨hedge, rfl⟩ := (laws.drop kind i hi f goto unwind w _ _ hplain).1 hleave
        obtain rfl := Option.some.inj hedge
        obtain rfl : goto = target := Option.some.inj htarget
        have hterm : (withoutDead borrowType fcn block).terminator = .Goto goto := hgoto
        have hsilent : seen borrowType view fcn
          (.left (MIRTerminator.Drop kind ⟨.Local i hi, []⟩ f goto unwind).shape
            (some 0) w') = none := by
          rw [seen, dropOf_shape, if_pos]
          exact hplain
        refine ⟨_, ?_, Matched.entered laws goto.toNat hs⟩
        rw [Option.bind_some, hsilent]
        refine Run.single (l := none) ⟨none, .branch hblock' (hterm ▸ rfl) ?_, rfl⟩
        rw [hterm]
        rfl
  | stop hblock hbranch hleave =>
    cases hm with
    | inside hrest hs =>
      rename_i bb w w' block done v
      have hblock' : (optimiseDeadAssignments borrowType fcn).blocks[bb]? =
        some (withoutDead borrowType fcn block) := by
        rw [optimised_block, hblock, Option.map_some]
      rcases terminator_names hc (List.mem_of_getElem? hblock) with ⟨hkept, hnames⟩ |
        ⟨kind, i, hi, f, goto, unwind, ht, hgoto, hplain⟩
      · have hterm : (withoutDead borrowType fcn block).terminator = block.terminator := hkept
        obtain ⟨v', hv, hs'⟩ := laws.leave _ block.terminator _ _ _ _ hs hnames hleave
        refine ⟨_, ?_, .ended hs'⟩
        refine Run.single ⟨_, .stop hblock' (hterm ▸ hbranch) (hterm.symm ▸ hv), ?_⟩
        simp only [Option.bind_some, seen, hterm, laws.view_eq _ _ _ hs']
        rfl
      · rw [ht] at hleave
        obtain ⟨hedge, _⟩ := (laws.drop kind i hi f goto unwind w _ _ hplain).1 hleave
        cases hedge

/-- The dead assignments that come next are carried out without being seen. -/
theorem catch_up {bb : Nat} {w w' : W} : ∀ (rest done : List (MIRStatement V)),
    statementsAt fcn bb = done ++ rest → laws.same (· ∈ removedLocals borrowType fcn) w w' →
    ∃ done' rest' v, Run (Sees borrowType view I fcn) ⟨.inside bb rest, w⟩ []
      ⟨.inside bb rest', v⟩ ∧
      statementsAt fcn bb = done' ++ rest' ∧ laws.same (· ∈ removedLocals borrowType fcn) v w' ∧
      (rest'.filter fun x => !isDead borrowType fcn x) =
        (rest.filter fun x => !isDead borrowType fcn x) ∧
      ∀ x ∈ rest'.head?, isDead borrowType fcn x = false := by
  intro rest
  induction rest generalizing w with
  | nil => exact fun done hrest hs => ⟨done, [], w, .refl _, hrest, hs, rfl, by simp⟩
  | cons x rest ih =>
    intro done hrest hs
    cases hd : isDead borrowType fcn x with
    | false => exact ⟨done, x :: rest, w, .refl _, hrest, hs, rfl, by simp [hd]⟩
    | true =>
      obtain ⟨block, hb, hxb⟩ := block_of_rest hrest
      obtain ⟨i, hi, src, rfl, hr, hsrc⟩ := dead_names hc hb hxb hd
      obtain ⟨u, hu⟩ := laws.assigned i hi src w
      have hrest' : statementsAt fcn bb = (done ++ [.Assign ⟨.Local i hi, []⟩ src]) ++ rest := by
        rw [hrest, List.append_assoc]
        rfl
      obtain ⟨done', rest', v, hrun, heq, hs', hfilter, hhead⟩ :=
        ih _ hrest' (laws.assign _ i hi src _ _ _ hs hr hsrc hu)
      refine ⟨done', rest', v, ?_, heq, hs', ?_, hhead⟩
      · have hstep : Sees borrowType view I fcn
          ⟨.inside bb (.Assign ⟨.Local i hi, []⟩ src :: rest), w⟩ none
            ⟨.inside bb rest, u⟩ := ⟨_, .stmt _ hu, rfl⟩
        exact (Run.single hstep).trans hrun
      · rw [hfilter, List.filter_cons, hd]
        rfl

omit hc in
theorem block_of_optimised {bb : Nat} {block' : MIRBasicBlock V}
    (h : (optimiseDeadAssignments borrowType fcn).blocks[bb]? = some block') :
    ∃ block, fcn.blocks[bb]? = some block ∧ block'.terminator =
      withoutDrop borrowType fcn block.terminator := by
  rw [optimised_block] at h
  obtain ⟨block, hblock, rfl⟩ := Option.map_eq_some_iff.1 h
  exact ⟨block, hblock, rfl⟩

/-- A step of what the pass makes of the function is one of the function, behind its dead
    assignments. -/
theorem matched_backward :
    Simulates (Sees borrowType view I (optimiseDeadAssignments borrowType fcn))
    (Sees borrowType view I fcn) (fun t s => Matched laws s t) := by
  rintro t s l t' hm ⟨e, hmove, rfl⟩
  cases hm with
  | ended hs => cases hmove
  | inside hrest hs =>
    rename_i bb done rest w w'
    obtain ⟨done', rest', v, hrun, heq, hs', hfilter, hhead⟩ := catch_up laws hc rest done hrest hs
    rw [← hfilter] at hmove
    -- behind the dead assignments the next step is the same one
    suffices h : ∃ s', Sees borrowType view I fcn ⟨.inside bb rest', v⟩
        (e.bind (seen borrowType view (optimiseDeadAssignments borrowType fcn))) s' ∧
          Matched laws s' t' by
      obtain ⟨s', hstep, hm'⟩ := h
      exact ⟨s', hrun.trans (Run.single hstep), hm'⟩
    have hv := laws.symm _ _ _ hs'
    cases rest' with
    | cons x rest' =>
      have hd : isDead borrowType fcn x = false := hhead x rfl
      obtain ⟨block, hb, hxb⟩ := block_of_rest heq
      have heq' : statementsAt fcn bb = (done' ++ [x]) ++ rest' := by
        rw [heq, List.append_assoc]; rfl
      rw [List.filter_cons, hd, Bool.not_false, if_pos rfl] at hmove
      cases hmove with
      | stmt x hx =>
        obtain ⟨u, hu, hsu⟩ := laws.stmt _ x _ _ _ hv (alive_names hc hb hxb hd) hx
        refine ⟨_, ⟨_, .stmt x hu, ?_⟩, .inside heq' (laws.symm _ _ _ hsu)⟩
        simp only [Option.bind_some, seen, laws.view_eq _ _ _ hsu]
    | nil =>
      rw [List.filter_nil] at hmove
      cases hmove with
      | branch hblock' hbranch hnext =>
        rename_i block' target
        obtain ⟨block, hblock, hterm⟩ := block_of_optimised hblock'
        rcases terminator_names hc (List.mem_of_getElem? hblock) with ⟨hkept, hnames⟩ |
          ⟨kind, i, hi, f, goto, unwind, ht, hgoto, hplain⟩
        · rw [hkept] at hterm
          rw [hterm] at hbranch hnext
          rw [← next_same laws hs' hnames] at hnext
          exact ⟨_, ⟨none, .branch hblock hbranch hnext, rfl⟩,
            Matched.entered laws target.toNat hs'⟩
        · rw [hgoto] at hterm
          rw [hterm] at hnext
          obtain rfl : goto = target := Option.some.inj hnext
          have hleave := (laws.drop kind i hi f goto unwind v (some 0) v hplain).2 ⟨rfl, rfl⟩
          have hmove : Moves I fcn ⟨.inside bb [], v⟩
            (some (.left block.terminator.shape (some 0) v))
              (enter fcn goto.toNat v) :=
            .leave hblock (ht ▸ rfl) (ht ▸ hleave) (ht ▸ rfl)
          refine ⟨_, ⟨_, hmove, ?_⟩, Matched.entered laws goto.toNat hs'⟩
          rw [Option.bind_none, Option.bind_some, seen, ht, dropOf_shape, if_pos]
          exact hplain
      | leave hblock' hbranch hleave htarget =>
        rename_i u block' target edge
        obtain ⟨block, hblock, hterm⟩ := block_of_optimised hblock'
        rcases terminator_names hc (List.mem_of_getElem? hblock) with ⟨hkept, hnames⟩ |
          ⟨kind, i, hi, f, goto, unwind, ht, hgoto, hplain⟩
        · rw [hkept] at hterm
          rw [hterm] at hbranch hleave htarget ⊢
          obtain ⟨u', hu, hsu⟩ := laws.leave _ block.terminator _ _ _ _ hv hnames hleave
          refine ⟨_, ⟨_, .leave hblock hbranch hu htarget, ?_⟩,
            Matched.entered laws target.toNat (laws.symm _ _ _ hsu)⟩
          simp only [Option.bind_some, seen_optimised]
          simp only [seen, laws.view_eq _ _ _ hsu]
        · rw [hterm, hgoto] at hbranch
          cases hbranch
      | stop hblock' hbranch hleave =>
        rename_i u block'
        obtain ⟨block, hblock, hterm⟩ := block_of_optimised hblock'
        rcases terminator_names hc (List.mem_of_getElem? hblock) with ⟨hkept, hnames⟩ |
          ⟨kind, i, hi, f, goto, unwind, ht, hgoto, hplain⟩
        · rw [hkept] at hterm
          rw [hterm] at hbranch hleave ⊢
          obtain ⟨u', hu, hsu⟩ := laws.leave _ block.terminator _ _ _ _ hv hnames hleave
          refine ⟨_, ⟨_, .stop hblock hbranch hu, ?_⟩, .ended (laws.symm _ _ _ hsu)⟩
          simp only [Option.bind_some, seen_optimised]
          simp only [seen, laws.view_eq _ _ _ hsu]
        · rw [hterm, hgoto] at hbranch
          cases hbranch

include laws in
/-- **Without its dead assignments a clean function looks the same.** -/
theorem sameSeen_of_clean :
    SameSeen borrowType view I start fcn (optimiseDeadAssignments borrowType fcn) := by
  intro w hw tr
  have hs := laws.same_start (· ∈ removedLocals borrowType fcn) w hw
  exact trace_iff (matched_forward laws hc) (matched_backward laws hc) (Matched.entered laws 0 hs)
    (Matched.entered laws 0 hs)

end Match

/-! ## 5. All functions -/

/-- Nothing in the function can tell what is taken out, and it looks the same without it, whatever
    the parts of a function do. -/
structure Kept (borrowType : V.HIRType → Option HIRBorrowType) (fcn : MIRFunction V) : Prop where
  unobserved : ∀ i ∈ removedLocals borrowType fcn, ¬ Observed borrowType fcn i
  sameSeen : ∀ {W O : Type} (I : Interp V W) (view : W → O) (start : W → Prop),
    LocalLaws borrowType fcn I view start → SameSeen borrowType view I start fcn
      (optimiseDeadAssignments borrowType fcn)

section Exact

variable {borrowType : V.HIRType → Option HIRBorrowType} {fcn : MIRFunction V}

theorem not_observed_of_clean (hc : Clean borrowType fcn) {i : Nat}
    (hi : i ∈ removedLocals borrowType fcn) :
    ¬ Observed borrowType fcn i := by
  obtain ⟨hread, hunread⟩ := unread_of_removed hi
  obtain ⟨hborrowed, howned⟩ := hc i hi
  rintro ⟨block, hb, ⟨x, hx, hobs⟩ | hobs⟩
  · rcases List.mem_append.1 hobs with hobs | hobs
    · exact hread (statementReads_sub hb hx hobs)
    · exact hborrowed (borrowed_sub hb hx hobs)
  · rcases List.mem_append.1 hobs with hobs | hobs
    · rcases List.mem_append.1 hobs with hobs | hobs
      · exact hread (terminatorReads_sub hb hobs)
      · exact hborrowed (borrowedByTerminator_sub hb hobs)
    · obtain ⟨hdrop, hplain⟩ := List.mem_filter.1 hobs
      have hdropped := dropOf_sub hb (Option.mem_toList.1 hdrop)
      rw [isUnread, decide_eq_true hdropped, Bool.and_eq_true, Bool.true_and,
        Bool.not_not] at hunread
      obtain ⟨k, hk⟩ := Option.isSome_iff_exists.1 hunread.2
      rw [isPlainReference, hk, Option.any_some, Bool.not_eq_true', bne_eq_false_iff_eq] at hplain
      exact howned hdropped (hk.trans (congrArg some hplain))

theorem clean_of_unobserved (h : ∀ i ∈ removedLocals borrowType fcn, ¬ Observed borrowType fcn i) :
    Clean borrowType fcn := by
  refine fun i hi => ⟨fun hborrowed => ?_, fun hdropped howned => ?_⟩
  · obtain ⟨block, hb, hib⟩ := List.mem_flatMap.1 hborrowed
    rw [List.flatMap_append] at hib
    rcases List.mem_append.1 hib with hib | hib
    · obtain ⟨v, hv, hiv⟩ := List.mem_flatMap.1 hib
      obtain ⟨x, hx, hvx⟩ := List.mem_flatMap.1 hv
      exact h i hi ⟨block, hb, Or.inl ⟨x, hx,
        List.mem_append_right _ (List.mem_flatMap.2 ⟨v, hvx, hiv⟩)⟩⟩
    · exact h i hi ⟨block, hb, Or.inr (List.mem_append_left _ (List.mem_append_right _ hib))⟩
  · obtain ⟨block, hb, hdrop⟩ := List.mem_filterMap.1 hdropped
    refine h i hi ⟨block, hb, Or.inr (List.mem_append_right _ (List.mem_filter.2 ⟨?_, ?_⟩))⟩
    · rw [hdrop]
      exact List.mem_singleton.2 rfl
    · rw [isPlainReference, howned, Option.any_some]
      rfl

/-- **The pass takes out what cannot be observed, and keeps what is seen, just where no operand
    borrows what is taken out, and no drop that is taken out is of an owning reference.** -/
theorem dead_right : Kept borrowType fcn ↔ Clean borrowType fcn :=
  ⟨fun h => clean_of_unobserved h.unobserved, fun hc =>
    ⟨fun _ hi => not_observed_of_clean hc hi, fun _ _ _ laws => sameSeen_of_clean laws hc⟩⟩

end Exact

/-! ## 6. An argument that is borrowed -/

/-- What the locals hold, and the last argument that was borrowed. -/
abbrev Peeked : Type := (Nat → Bool) × Bool

/-- What a terminator is passed by a borrow. -/
def passed (t : MIRTerminator bare) (w : Peeked) : Bool :=
  match (t.borrowed.flatMap (·.locals)).head? with
  | some i => w.1 i
  | none => w.2

/-- An assignment to a local makes it true, and what is called looks at its borrowed argument. -/
def peeking : Interp bare Peeked where
  stmt x w w' := w' = match assignsTo x with
    | some i => (Function.update w.1 i true, w.2)
    | none => w
  truth _ _ := false
  variants _ := 0
  variant _ _ := 0
  variant_lt _ _ h := h
  matched _ _ _ := none
  matched_lt := nofun
  flag _ _ := false
  leave t w edge w' := edge = t.targets.head?.map (fun _ => 0) ∧ w' = (w.1, passed t w)

theorem passed_shape (t : MIRTerminator bare) (w : Peeked) : passed t.shape w = passed t w := by
  have hborrowed : t.shape.borrowed = t.borrowed := by
    cases t with
    | Asm2 options lines params retBlock =>
      have hparams : ∀ p : MIRAsmParam bare, (p.mapTargets fun _ => 0).params = p.params :=
        fun p => by
        cases p <;> rfl
      simp only [MIRTerminator.shape, MIRTerminator.mapTargets, MIRTerminator.borrowed,
        MIRTerminator.params,
        List.flatMap_map, hparams]
    | _ => rfl
  rw [passed, passed, hborrowed]

/-- Locals that nothing names do not matter to it. -/
def peekingLaws (borrowType : bare.HIRType → Option HIRBorrowType) (fcn : MIRFunction bare) :
    LocalLaws borrowType fcn peeking Prod.snd fun _ => True where
  same L w w' := w.2 = w'.2 ∧ ∀ i, ¬ L i → w.1 i = w'.1 i
  same_start _ _ _ := ⟨rfl, fun _ _ => rfl⟩
  symm _ _ _ h := ⟨h.1.symm, fun i hi => (h.2 i hi).symm⟩
  view_eq _ _ _ h := h.1
  stmt L x w₁ w₂ w₁' hs _ hx := by
    refine ⟨_, rfl, ?_⟩
    rw [show w₁' = _ from hx]
    cases assignsTo x with
    | none => exact hs
    | some i =>
      refine ⟨hs.1, fun j hj => ?_⟩
      show Function.update w₁.1 i true j = Function.update w₂.1 i true j
      by_cases hji : j = i
      · rw [hji, Function.update_self, Function.update_self]
      · rw [Function.update_of_ne hji, Function.update_of_ne hji]
        exact hs.2 j hj
  assign L i hi src w₁ w₂ w₁' hs hL _ hx := by
    rw [show w₁' = (Function.update w₁.1 i true, w₁.2) from hx]
    refine ⟨hs.1, fun j hj => ?_⟩
    have hji : j ≠ i := fun h => hj (h ▸ hL)
    exact (Function.update_of_ne hji _ _).trans (hs.2 j hj)
  assigned _ _ _ _ := ⟨_, rfl⟩
  truth _ _ _ _ _ _ := rfl
  variant _ _ _ _ _ _ := rfl
  matched _ _ _ _ _ _ _ := rfl
  flag _ _ _ _ _ := rfl
  leave L t w₁ w₂ edge w₁' hs ht hx := by
    refine ⟨_, ⟨hx.1, rfl⟩, ?_⟩
    rw [hx.2, passed_shape, passed_shape]
    refine ⟨?_, hs.2⟩
    unfold passed
    split
    · rename_i i hi
      refine hs.2 i (ht i ?_)
      rw [terminatorLocals, List.flatMap_append]
      exact List.mem_append_right _ (List.mem_of_head? hi)
    · exact hs.1
  drop kind i hi f target unwind w edge w' _ := Iff.rfl

/-- `RETURN = f(&_0) -> bb1`. -/
def borrowingCall : MIRTerminator bare :=
  .Call 1 .Continue ⟨.Return, []⟩ (.Path ()) [.Borrow .Shared ⟨.Local 0 (Nat.zero_le _), []⟩]
  ⟨[], 0, 0⟩ false

/-- `bb0: _0 = true; RETURN = f(&_0) -> bb1; bb1: return`. -/
def borrowedArgument : MIRFunction bare where
  locals := [()]
  dropFlags := []
  blocks := [
    ⟨[.Assign ⟨.Local 0 (Nat.zero_le _), []⟩ (.Constant (.Bool true))], borrowingCall, false⟩,
    ⟨[], .Return, false⟩]

/-- The function that is called sees the value. -/
theorem borrowedArgument_seen : Trace (Sees (fun _ => none) Prod.snd peeking borrowedArgument)
    (enter borrowedArgument 0 (fun _ => false, false))
      [.left borrowingCall.shape (some 0) true] := by
  have hassign : Sees (fun _ => none) Prod.snd peeking borrowedArgument
      (enter borrowedArgument 0 (fun _ => false, false)) none
      ⟨.inside 0 [], (Function.update (fun _ => false) 0 true, false)⟩ := ⟨_, .stmt _ rfl, rfl⟩
  have hblock : borrowedArgument.blocks[0]? = some (borrowedArgument.blocks.head (by decide)) := rfl
  have hleave : peeking.leave borrowingCall.shape (Function.update (fun _ => false) 0 true, false)
    (some 0)
      (Function.update (fun _ => false) 0 true, true) := ⟨rfl, rfl⟩
  have hmove : Moves peeking borrowedArgument
    ⟨.inside 0 [], (Function.update (fun _ => false) 0 true, false)⟩
      (some (.left borrowingCall.shape (some 0) (Function.update (fun _ => false) 0 true, true)))
      (enter borrowedArgument 1 (Function.update (fun _ => false) 0 true, true)) :=
    .leave hblock rfl hleave rfl
  have hcall : Sees (fun _ => none) Prod.snd peeking borrowedArgument
      ⟨.inside 0 [], (Function.update (fun _ => false) 0 true, false)⟩
      (some (.left borrowingCall.shape (some 0) true))
      (enter borrowedArgument 1 (Function.update (fun _ => false) 0 true, true)) := ⟨_, hmove, rfl⟩
  exact ⟨_, (Run.single hassign).trans (Run.single hcall)⟩

/-- No local is true, and no statement is left. -/
def Blank (s : State bare Peeked) : Prop :=
  s.world = (fun _ => false, false) ∧ ∀ bb rest, s.point = .inside bb rest → rest = []

theorem passed_blank (t : MIRTerminator bare) : passed t (fun _ => false, false) = false := by
  unfold passed
  split <;> rfl

theorem blank_entered (bb : Nat) :
    Blank (enter (optimiseDeadAssignments (fun _ => none) borrowedArgument) bb
      (fun _ => false, false)) := by
  refine ⟨rfl, fun bb' rest h => ?_⟩
  rw [enter, statementsAt_optimised] at h
  rcases bb with _ | _ | _
  · cases h
    decide
  · cases h
    rfl
  · cases h
    rfl

/-- Without the assignment nothing is ever seen but `false`. -/
theorem blank_step {s s' : State bare Peeked} {l : Option (Seen bare Bool)} (h : Blank s)
    (hstep : Sees (fun _ => none) Prod.snd peeking
      (optimiseDeadAssignments (fun _ => none) borrowedArgument) s l s') :
    Blank s' ∧ ∀ t edge, l ≠ some (.left t edge true) := by
  obtain ⟨hw, hpoint⟩ := h
  obtain ⟨e, hmove, rfl⟩ := hstep
  cases hmove with
  | stmt x hx =>
    have hnil := hpoint _ _ rfl
    cases hnil
  | branch hblock hbranch hnext =>
    cases hw
    exact ⟨blank_entered _, fun _ _ h => by cases h⟩
  | leave hblock hbranch hleave htarget =>
    cases hw
    obtain ⟨_, rfl⟩ := hleave
    rw [passed_blank]
    refine ⟨blank_entered _, fun t edge h => ?_⟩
    rw [Option.bind_some, seen] at h
    split at h <;> cases h
  | stop hblock hbranch hleave =>
    cases hw
    obtain ⟨_, rfl⟩ := hleave
    rw [passed_blank]
    refine ⟨⟨rfl, fun _ _ h => by cases h⟩, fun t edge h => ?_⟩
    rw [Option.bind_some, seen] at h
    split at h <;> cases h

theorem blank_run {s s' : State bare Peeked} {tr : List (Seen bare Bool)}
    (hrun :
      Run (Sees (fun _ => none) Prod.snd peeking
      (optimiseDeadAssignments (fun _ => none) borrowedArgument))
      s tr s') (h : Blank s) : Blank s' ∧ ∀ t edge, Seen.left t edge true ∉ tr := by
  induction hrun with
  | refl => exact ⟨h, fun _ _ => List.not_mem_nil⟩
  | tail _ hstep ih =>
    obtain ⟨hb, htr⟩ := ih
    obtain ⟨hb', hl⟩ := blank_step hb hstep
    refine ⟨hb', fun t edge hmem => ?_⟩
    rcases List.mem_append.1 hmem with hmem | hmem
    · exact htr t edge hmem
    · exact hl t edge (Option.mem_toList.1 hmem)

/-- The argument loses its value: what is seen of the function is not the same. -/
theorem borrowedArgument_lost :
    ¬ SameSeen (fun _ => none) Prod.snd peeking (fun _ => True) borrowedArgument
    (optimiseDeadAssignments (fun _ => none) borrowedArgument) := by
  intro h
  obtain ⟨s', hrun⟩ := (h (fun _ => false, false) trivial _).1 borrowedArgument_seen
  exact (blank_run hrun (blank_entered 0)).2 _ _ (List.mem_singleton.2 rfl)

/-- Not every function is kept. -/
theorem borrowedArgument_not_kept : ¬ Kept (fun _ => none) borrowedArgument := fun h =>
  borrowedArgument_lost (h.sameSeen peeking Prod.snd (fun _ => True) (peekingLaws _ _))

/-- `bb0: _0 = true; drop(_0) -> bb1; bb1: return`, where `_0` is a reference. -/
def droppedReference : MIRFunction bare where
  locals := [()]
  dropFlags := []
  blocks := [
    ⟨[.Assign ⟨.Local 0 (Nat.zero_le _), []⟩ (.Constant (.Bool true))],
      .Drop .DEEP ⟨.Local 0 (Nat.zero_le _), []⟩ NONE 1 .Continue, false⟩,
    ⟨[], .Return, false⟩]

example : Clean (fun _ => some .Shared) droppedReference ∧
    ¬ Clean (fun _ => some .Owned) droppedReference := by
  decide

end Trustme.Mir
