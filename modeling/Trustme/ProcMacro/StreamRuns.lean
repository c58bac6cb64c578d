/-
  Subject:   Token streams are values, in every run that keeps off the limits of the store.

  * `Represents`: the store stands for the values of the macro, and the slots that `extend` pushes
    to are its own;
  * `step_agrees`: an operation does to the store what it does to lists;
  * `streams_are_values`: a run does;
  * `extend_dangles`: a tree that is pushed after SLOTS was moved.
-/
import Trustme.ProcMacro.StreamTexts

namespace Trustme.ProcMacro.Streams

open Trustme.Lib
open Trustme.Lib.RefCounts
open Trustme.ProcMacro.Lex (Delimiter)

variable {τ : Type} {s s' : Store τ} {value value' : Handle → List (Value τ)}
variable {J : List (Tree τ) → List UInt8 → Prop} {T : Texts τ}
variable {v : Val τ} {vals : List (Val τ)} {frames : List Frame} {printed : List (List Char)}

/-! ## 1. Values of a macro -/

def heldBy (vals : List (Val τ)) (frames : List Frame) : List Handle :=
  vals.flatMap Val.handles ++ frames.map Frame.slot

theorem heldBy_cons (v : Val τ) (vals : List (Val τ)) (frames : List Frame) :
    heldBy (v :: vals) frames = v.handles ++ heldBy vals frames := by
  rw [heldBy, List.flatMap_cons, List.append_assoc, heldBy]

/-- The lists that the values of a macro stand for. -/
def State.lists (value : Handle → List (Value τ)) (σ : State τ) : ListState τ :=
  ⟨σ.vals.map (Val.list value), σ.frames.map fun f => value f.slot, σ.printed⟩

/-- Nothing else refers to the slot that `extend` pushes to. -/
def Own (s : Store τ) (frames : List Frame) : Prop :=
  ∀ f ∈ frames, ∃ ts, s.entry f.slot = some ⟨ts, [], 1⟩

structure Represents (J : List (Tree τ) → List UInt8 → Prop) (σ : State τ)
    (value : Handle → List (Value τ)) : Prop where
  stands : Stands J σ.store value (heldBy σ.vals σ.frames)
  own : Own σ.store σ.frames

theorem Represents.live {σ : State τ} (h : Represents J σ value) (k : Handle) :
    counted σ.store k = σ.live k := h.stands.counts k

theorem frame_held {f : Frame} (hf : f ∈ frames) : f.slot ∈ heldBy vals frames :=
  List.mem_append_right _ (List.mem_map_of_mem hf)

theorem Own.kept (h : Own s frames) (hkept : Kept s value s' value' (heldBy vals frames)) :
    Own s' frames := by
  intro f hf
  obtain ⟨ts, he⟩ := h f hf
  exact ⟨ts, hkept.entry f.slot _ (frame_held hf) he rfl⟩

theorem val_list_congr (h : ∀ k ∈ v.handles, value' k = value k) :
    v.list value' = v.list value := by
  cases v with
  | stream stream =>
    cases stream with
    | none => rfl
    | some k => exact congrArg ListVal.stream (h k (List.mem_singleton.mpr rfl))
  | tree t => exact congrArg ListVal.tree (denote_congr h)
  | trees ts => exact congrArg ListVal.trees (map_denote_congr h)

theorem Kept.vals_eq (h : Kept s value s' value' (heldBy vals frames)) :
    vals.map (Val.list value') = vals.map (Val.list value) :=
  List.map_congr_left fun v hv => val_list_congr fun k hk =>
    h.value k (List.mem_append_left _ (List.mem_flatMap.mpr ⟨v, hv, hk⟩))

theorem Kept.frames_eq (h : Kept s value s' value' (heldBy vals frames)) :
    (frames.map fun f => value' f.slot) = frames.map fun f => value f.slot :=
  List.map_congr_left fun _ hf => h.value _ (frame_held hf)

/-! ## 2. Operations -/

/-- What an operation does to the store is what it does to lists. -/
def Agrees (J : List (Tree τ) → List UInt8 → Prop) (T : Texts τ) (σ : State τ) (op : Op τ) :
    Option (ListState τ) → Prop
  | none => ∀ fuel, step T fuel σ op = .err .rejected
  | some a => ∃ n σ' value', (∀ fuel ≥ n, step T fuel σ op = .ok σ') ∧ Represents J σ' value' ∧
      σ'.lists value' = a

/-- New values come for the first ones, and the others are kept. -/
theorem agrees_of {σ : State τ} {op : Op τ} {value'} (n : Nat) (new : List (Val τ))
    (hrun : ∀ fuel ≥ n, step T fuel σ op = .ok ⟨s', new ++ vals, frames, printed⟩)
    (hstands : Stands J s' value' (new.flatMap Val.handles ++ heldBy vals frames))
      (hown : Own s frames)
    (hkept : Kept s value s' value' (heldBy vals frames)) :
    Agrees J T σ op (some ⟨new.map (Val.list value') ++ vals.map (Val.list value),
      frames.map fun f => value f.slot, printed⟩) := by
  refine ⟨n, _, value', hrun, ⟨?_, hown.kept hkept⟩, ?_⟩
  · rw [heldBy, List.flatMap_append, List.append_assoc]
    exact hstands
  · rw [State.lists, List.map_append, hkept.vals_eq, hkept.frames_eq]

/-- Handles go from values to values, and the store is as it was. -/
theorem agrees_moved {op : Op τ} (taken new : List (Val τ))
    (h : Represents J ⟨s, taken ++ vals, frames, printed⟩ value)
    (hrun : ∀ fuel, step T fuel ⟨s, taken ++ vals, frames, printed⟩ op =
      .ok ⟨s, new ++ vals, frames, printed⟩)
    (hperm : (taken.flatMap Val.handles).Perm (new.flatMap Val.handles)) :
    Agrees J T ⟨s, taken ++ vals, frames, printed⟩ op (some ⟨new.map (Val.list value) ++
      vals.map (Val.list value), frames.map fun f => value f.slot, printed⟩) := by
  refine agrees_of 0 new (fun fuel _ => hrun fuel) (h.stands.perm ?_) h.own (.refl s value _)
  dsimp only
  rw [heldBy, List.flatMap_append, List.append_assoc]
  exact hperm.append_right _

variable (σ : State τ) (h : Represents J σ value)

include σ h

theorem pick_agrees (n : Nat) :
    Agrees J T σ (.pick n) (listStep T (σ.lists value) (.pick n)) := by
  obtain ⟨s, vals, frames, printed⟩ := σ
  cases hv : vals[n]? with
  | none =>
    have hnone : listStep T (State.lists value ⟨s, vals, frames, printed⟩) (.pick n) = none := by
      rw [listStep, State.lists]
      dsimp only
      rw [List.getElem?_map, hv]
      rfl
    rw [hnone]
    intro fuel
    rw [step]
    dsimp only
    rw [hv]
  | some v =>
    obtain ⟨hlt, hget⟩ := List.getElem?_eq_some_iff.mp hv
    have hsome : listStep T (State.lists value ⟨s, vals, frames, printed⟩) (.pick n) =
        some ⟨(v :: vals.eraseIdx n).map (Val.list value) ++ [], frames.map fun f => value f.slot,
          printed⟩ := by
      rw [listStep, State.lists]
      dsimp only
      rw [List.getElem?_map, hv, List.eraseIdx_map, List.append_nil]
      rfl
    rw [hsome]
    have hperm : (v :: vals.eraseIdx n).Perm vals := hget ▸ List.getElem_cons_eraseIdx_perm hlt
    have hall : Represents J ⟨s, vals ++ [], frames, printed⟩ value := by rwa [List.append_nil]
    have hagrees : Agrees J T ⟨s, vals ++ [], frames, printed⟩ (.pick n) _ :=
      agrees_moved vals (v :: vals.eraseIdx n) hall
      (fun fuel => by
        rw [List.append_nil, List.append_nil, step]
        dsimp only
        rw [hv])
      (hperm.symm.flatMap_right _)
    rwa [List.append_nil] at hagrees

omit σ h in
/-- A root that is the only one is not among the others. -/
theorem Stands.apart {hs R : List Handle} (h : Stands J s value (hs ++ R)) {k : Handle} (hk : k ∈ R)
    {e : Slot τ} (he : s.entry k = some e) (hone : e.handles = 1) : k ∉ hs := by
  have hperm : (hs ++ R).Perm (k :: (hs ++ R.erase k)) :=
    ((List.perm_cons_erase hk).append_left hs).trans List.perm_middle
  exact fun hmem => ((h.perm hperm).sole he hone).1 (List.mem_append_left _ hmem)

omit σ h in
/-- The handles of the first value are cloned. -/
theorem Represents.clone (h : Represents J ⟨s, v :: vals, frames, printed⟩ value)
    (hcounts : Counts ⟨s, v :: vals, frames, printed⟩ v.handles) :
    ∃ s', cloneHandles s v.handles = .ok s' ∧
      Stands J s' value (v.handles ++ (v.handles ++ heldBy vals frames)) ∧
      Kept s value s' value (heldBy vals frames) := by
  have hstands : Stands J s value (v.handles ++ heldBy vals frames) :=
    heldBy_cons v vals frames ▸ h.stands
  have hlive : ∀ k ∈ v.handles, 0 < counted s k := by
    intro k hk
    obtain ⟨e, he, hpos⟩ := hstands.entry (List.mem_append_left _ hk)
    rwa [counted_entry he]
  obtain ⟨s', hrun, hs', hcloned⟩ := cloneHandles_stands hstands hlive fun k => by
    have hk := hcounts k
    rwa [← h.live] at hk
  exact ⟨s', hrun, hs', hcloned.kept fun k e hk he hone => hstands.apart hk he hone⟩

theorem clone_agrees (hsafe : Safe σ .clone) :
    Agrees J T σ .clone (listStep T (σ.lists value) .clone) := by
  obtain ⟨s, vals, frames, printed⟩ := σ
  cases vals with
  | nil => exact fun fuel => rfl
  | cons v vals =>
    obtain ⟨s', hrun, hs', hkept⟩ := h.clone (hsafe v rfl)
    refine agrees_of 0 [v, v] (fun fuel _ => ?_) ?_ h.own hkept
    · rw [step]
      dsimp only
      rw [hrun]
      rfl
    · rw [List.flatMap_cons, List.flatMap_singleton, List.append_assoc]
      exact hs'

theorem stream_agrees (hsafe : Safe σ .stream) :
    Agrees J T σ .stream (listStep T (σ.lists value) .stream) := by
  obtain ⟨s, vals, frames, printed⟩ := σ
  cases vals with
  | nil => exact fun fuel => rfl
  | cons v vals =>
    cases v with
    | stream => exact fun fuel => rfl
    | trees => exact fun fuel => rfl
    | tree t =>
      cases t with
      | token => exact fun fuel => rfl
      | group delimiter stream fragment =>
        obtain ⟨s', hrun, hs', hkept⟩ := h.clone (hsafe _ rfl)
        refine agrees_of 0 [.stream stream, .tree (.group delimiter stream fragment)]
          (fun fuel _ => ?_) ?_ h.own hkept
        · rw [step]
          change (cloneHandles s stream.toList >>= _) = _
          have hclone : cloneHandles s stream.toList = .ok s' := hrun
          rw [hclone]
          rfl
        · rw [List.flatMap_cons, List.flatMap_singleton, List.append_assoc]
          exact hs'

theorem drop_agrees :
    Agrees J T σ .drop (listStep T (σ.lists value) .drop) := by
  obtain ⟨s, vals, frames, printed⟩ := σ
  cases vals with
  | nil => exact fun fuel => rfl
  | cons v vals =>
    have hstands : Stands J s value (v.handles ++ heldBy vals frames) :=
      heldBy_cons v vals frames ▸ h.stands
    obtain ⟨s', hle, hrun, hs', hkept, -⟩ := dropHandles_stands v.handles hstands
    refine agrees_of 0 [] (fun fuel _ => ?_) hs' h.own hkept
    rw [step]
    dsimp only
    rw [hrun]
    rfl

theorem group_agrees (delimiter : Delimiter) (fragment : Nat) :
    Agrees J T σ (.group delimiter fragment)
      (listStep T (σ.lists value) (.group delimiter fragment)) := by
  obtain ⟨s, vals, frames, printed⟩ := σ
  cases vals with
  | nil => exact fun fuel => rfl
  | cons v vals =>
    cases v with
    | tree => exact fun fuel => rfl
    | trees => exact fun fuel => rfl
    | stream stream =>
      exact agrees_moved [.stream stream] [.tree (.group delimiter stream fragment)] h
        (fun _ => rfl)
        (List.Perm.refl _)

theorem pushTree_agrees :
    Agrees J T σ .pushTree (listStep T (σ.lists value) .pushTree) := by
  obtain ⟨s, vals, frames, printed⟩ := σ
  match vals, h with
  | [], _ => exact fun fuel => rfl
  | .stream _ :: _, _ => exact fun fuel => rfl
  | .trees _ :: _, _ => exact fun fuel => rfl
  | [.tree _], _ => exact fun fuel => rfl
  | .tree _ :: .stream _ :: _, _ => exact fun fuel => rfl
  | .tree _ :: .tree _ :: _, _ => exact fun fuel => rfl
  | .tree t :: .trees ts :: vals, h =>
    have hagrees : Agrees J T ⟨s, .tree t :: .trees ts :: vals, frames, printed⟩ .pushTree _ :=
      agrees_moved [.tree t, .trees ts] [.trees (ts ++ [t])] h (fun _ => rfl) (by
        rw [List.flatMap_cons, List.flatMap_singleton, List.flatMap_singleton]
        change (t.handles ++ handlesOf ts).Perm (handlesOf (ts ++ [t]))
        rw [handlesOf, handlesOf, List.flatMap_append, List.flatMap_singleton]
        exact List.perm_append_comm)
    rw [List.map_singleton] at hagrees
    have hlist : (Val.trees (ts ++ [t])).list value =
        .trees (ts.map (denote value) ++ [denote value t]) := by
      rw [Val.list, List.map_append, List.map_singleton]
    rwa [hlist] at hagrees

omit σ h in
/-- The trees that were collected become a stream. -/
theorem received_agrees {op : Op τ} {ts : List (Tree τ)} (hidden : List UInt8)
    (h : Represents J ⟨s, .trees ts :: vals, frames, printed⟩ value)
    (hrun : ∀ fuel, step T fuel ⟨s, .trees ts :: vals, frames, printed⟩ op =
      (fromReceived s ts hidden >>= fun r => .ok ⟨r.2, .stream r.1 :: vals, frames, printed⟩))
    (hroom : ts ≠ [] → Room s) (hhidden : hidden = [] ∨ J ts hidden) :
    Agrees J T ⟨s, .trees ts :: vals, frames, printed⟩ op
      (some ⟨.stream (ts.map (denote value)) :: vals.map (Val.list value),
        frames.map fun f => value f.slot, printed⟩) := by
  cases ts with
  | nil => exact agrees_moved [.trees []] [.stream none] h hrun (List.Perm.refl _)
  | cons t ts =>
    have hstands : Stands J s value (handlesOf (t :: ts) ++ heldBy vals frames) :=
      heldBy_cons (.trees (t :: ts)) vals frames ▸ h.stands
    obtain ⟨i, s', value', halloc, -, hvalue, hs', hkept⟩ :=
      allocate_stands (t :: ts) hidden hstands (hroom (List.cons_ne_nil t ts)) hhidden
    rw [← hvalue]
    refine agrees_of 0 [.stream (some i)] (fun fuel _ => ?_) hs' h.own hkept
    rw [hrun, fromReceived, if_neg (by rw [List.isEmpty_cons]; exact Bool.false_ne_true), halloc]
    rfl

theorem collect_agrees (hsafe : Safe σ .collect) :
    Agrees J T σ .collect (listStep T (σ.lists value) .collect) := by
  obtain ⟨s, vals, frames, printed⟩ := σ
  match vals, h, hsafe with
  | [], _, _ => exact fun fuel => rfl
  | .stream _ :: _, _, _ => exact fun fuel => rfl
  | .tree _ :: _, _, _ => exact fun fuel => rfl
  | .trees ts :: vals, h, hsafe =>
    refine received_agrees [] h (fun _ => rfl) (fun hne => ?_) (.inl rfl)
    obtain ⟨t, ts, rfl⟩ := List.exists_cons_of_ne_nil hne
    exact hsafe t ts rfl

theorem receive_agrees (joins : List UInt8)
    (hsafe : Safe σ (.receive joins))
    (hJ : ∀ ts, σ.vals.head? = some (.trees ts) → J ts (resized joins ts.length)) :
    Agrees J T σ (.receive joins) (listStep T (σ.lists value) (.receive joins)) := by
  obtain ⟨s, vals, frames, printed⟩ := σ
  match vals, h, hsafe, hJ with
  | [], _, _, _ => exact fun fuel => rfl
  | .stream _ :: _, _, _, _ => exact fun fuel => rfl
  | .tree _ :: _, _, _, _ => exact fun fuel => rfl
  | .trees ts :: vals, h, hsafe, hJ =>
    refine received_agrees (resized joins ts.length) h (fun _ => rfl) (fun hne => ?_)
      (.inr (hJ ts rfl))
    obtain ⟨t, ts, rfl⟩ := List.exists_cons_of_ne_nil hne
    exact hsafe t ts rfl

theorem extendStreams_agrees (hsafe : Safe σ .extendStreams) :
    Agrees J T σ .extendStreams (listStep T (σ.lists value) .extendStreams) := by
  obtain ⟨s, vals, frames, printed⟩ := σ
  match vals, h, hsafe with
  | [], _, _ => exact fun fuel => rfl
  | .tree _ :: _, _, _ => exact fun fuel => rfl
  | .trees _ :: _, _, _ => exact fun fuel => rfl
  | [.stream _], _, _ => exact fun fuel => rfl
  | .stream _ :: .tree _ :: _, _, _ => exact fun fuel => rfl
  | .stream _ :: .trees _ :: _, _, _ => exact fun fuel => rfl
  | .stream stream :: .stream self :: vals, h, hsafe =>
    have hstands : Stands J s value (stream.toList ++ (self.toList ++ heldBy vals frames)) := by
      have hall := h.stands
      rwa [heldBy_cons, heldBy_cons] at hall
    obtain ⟨own, s', value', hrun, hs', hvalue, hkept⟩ := extendStreams_stands hstands
      fun g k hg hk hgt hkt => by
        subst hg hk
        obtain ⟨hcounts, hmay⟩ := hsafe g k vals rfl hgt hkt
        simp only [Counts, MayOwn, copied, ← h.live] at hcounts hmay
        exact ⟨hcounts, hmay⟩
    have hagrees : Agrees J T ⟨s, .stream stream :: .stream self :: vals, frames, printed⟩
      .extendStreams
        (some ⟨.stream (content value' own) :: vals.map (Val.list value),
          frames.map fun f => value f.slot, printed⟩) := by
      refine agrees_of 0 [.stream own] (fun fuel _ => ?_) ?_ h.own hkept
      · rw [step]
        dsimp only
        rw [hrun]
        rfl
      · rw [List.flatMap_singleton]
        exact hs'
    rwa [hvalue] at hagrees

omit σ h in
theorem heldBy_frame (vals : List (Val τ)) (f : Frame) (frames : List Frame) :
    (heldBy vals (f :: frames)).Perm (f.slot :: heldBy vals frames) := List.perm_middle

theorem borrow_agrees (hsafe : Safe σ .borrow) :
    Agrees J T σ .borrow (listStep T (σ.lists value) .borrow) := by
  obtain ⟨s, vals, frames, printed⟩ := σ
  match vals, h, hsafe with
  | [], _, _ => exact fun fuel => rfl
  | .tree _ :: _, _, _ => exact fun fuel => rfl
  | .trees _ :: _, _, _ => exact fun fuel => rfl
  | .stream self :: vals, h, hsafe =>
    have hstands : Stands J s value (self.toList ++ heldBy vals frames) :=
      heldBy_cons (.stream self) vals frames ▸ h.stands
    have hmay := hsafe self rfl
    obtain ⟨own, s', value', ts, hrun, hs', he, hvalue, hkept⟩ := treesMut_stands hstands
      (fun k hk => by
        subst hk
        simp only [MayOwn, Counts, List.append_nil, ← h.live] at hmay
        exact hmay)
      (fun hnone => by
        subst hnone
        exact hmay)
    refine ⟨0, ⟨s', vals, ⟨own, s'.moves⟩ :: frames, printed⟩, value', fun fuel _ => ?_,
      ⟨hs'.perm (heldBy_frame vals ⟨own, s'.moves⟩ frames).symm, fun f hf => ?_⟩, ?_⟩
    · rw [step]
      dsimp only
      rw [hrun]
      rfl
    · rcases List.mem_cons.mp hf with rfl | hf
      · exact ⟨ts, he⟩
      · exact h.own.kept hkept f hf
    · rw [State.lists, List.map_cons, hkept.vals_eq, hkept.frames_eq, hvalue]
      rfl

theorem push_agrees (hsafe : Safe σ .push) :
    Agrees J T σ .push (listStep T (σ.lists value) .push) := by
  obtain ⟨s, vals, frames, printed⟩ := σ
  match vals, frames, h, hsafe with
  | [], _, _, _ => exact fun fuel => rfl
  | .stream _ :: _, _, _, _ => exact fun fuel => rfl
  | .trees _ :: _, _, _, _ => exact fun fuel => rfl
  | .tree _ :: _, [], _, _ => exact fun fuel => rfl
  | .tree t :: vals, f :: frames, h, hsafe =>
    have hmoves : f.moves = s.moves := hsafe f rfl
    obtain ⟨ts, he⟩ := h.own f List.mem_cons_self
    have hperm : (heldBy (.tree t :: vals) (f :: frames)).Perm
        (f.slot :: (handlesOf [t] ++ heldBy vals frames)) := by
      rw [handlesOf, List.flatMap_singleton]
      exact (heldBy_frame (.tree t :: vals) f frames).trans
        (.of_eq (congrArg (f.slot :: ·) (heldBy_cons (.tree t) vals frames)))
    obtain ⟨s', value', hrun, hs', he', hvalue, hkept⟩ :=
      pushTrees_stands (h.stands.perm hperm) he rfl rfl
    have hown : Own s frames := fun g hg => h.own g (List.mem_cons_of_mem f hg)
    refine ⟨0, ⟨s', vals, f :: frames, printed⟩, value', fun fuel _ => ?_,
      ⟨hs'.perm (heldBy_frame vals f frames).symm, fun g hg => ?_⟩, ?_⟩
    · rw [step]
      dsimp only
      rw [if_pos hmoves, hrun]
      rfl
    · rcases List.mem_cons.mp hg with rfl | hg
      · exact ⟨_, he'⟩
      · exact hown.kept hkept g hg
    · rw [State.lists, List.map_cons, hkept.vals_eq, hkept.frames_eq, hvalue]
      rfl

theorem release_agrees :
    Agrees J T σ .release (listStep T (σ.lists value) .release) := by
  obtain ⟨s, vals, frames, printed⟩ := σ
  cases frames with
  | nil => exact fun fuel => rfl
  | cons f frames =>
    have hperm : (heldBy (.stream (some f.slot) :: vals) frames).Perm
      (heldBy vals (f :: frames)) := by
      rw [heldBy_cons]
      exact (heldBy_frame vals f frames).symm
    exact ⟨0, ⟨s, .stream (some f.slot) :: vals, frames, printed⟩, value, fun fuel _ => rfl,
      ⟨h.stands.perm hperm.symm, fun g hg => h.own g (List.mem_cons_of_mem f hg)⟩, rfl⟩

theorem intoIter_agrees (hsafe : Safe σ .intoIter) :
    Agrees J T σ .intoIter (listStep T (σ.lists value) .intoIter) := by
  obtain ⟨s, vals, frames, printed⟩ := σ
  match vals, h, hsafe with
  | [], _, _ => exact fun fuel => rfl
  | .tree _ :: _, _, _ => exact fun fuel => rfl
  | .trees _ :: _, _, _ => exact fun fuel => rfl
  | .stream none :: vals, h, _ =>
    exact agrees_moved [.stream none] [.trees []] h (fun _ => rfl) (List.Perm.refl _)
  | .stream (some k) :: vals, h, hsafe =>
    have hstands : Stands J s value (k :: heldBy vals frames) := by
      have hall := h.stands
      rwa [heldBy_cons] at hall
    obtain ⟨e, he, -⟩ := hstands.entry List.mem_cons_self
    have hcounts := hsafe k rfl
    simp only [Counts, copied, ← h.live, counted_entry he] at hcounts
    obtain ⟨s', hrun, hs', hkept, -⟩ := intoTrees_stands hstands he fun hone j => by
      have hj := hcounts j
      rwa [if_neg hone, handlesIn, treesIn_entry he] at hj
    have hagrees : Agrees J T ⟨s, .stream (some k) :: vals, frames, printed⟩ .intoIter
        (some ⟨.trees (e.trees.map (denote value)) :: vals.map (Val.list value),
          frames.map fun f => value f.slot, printed⟩) := by
      refine agrees_of 0 [.trees e.trees] (fun fuel _ => ?_) ?_ h.own hkept
      · rw [step]
        dsimp only
        rw [hrun]
        rfl
      · rw [List.flatMap_singleton]
        exact hs'
    rwa [← hstands.yields k e he] at hagrees

omit σ h in
theorem denote_handed (value : Handle → List (Value τ)) (t : Tree τ) :
    denote value (handed t) = handedValue (denote value t) := by
  cases t <;> rfl

theorem next_agrees :
    Agrees J T σ .next (listStep T (σ.lists value) .next) := by
  obtain ⟨s, vals, frames, printed⟩ := σ
  match vals, h with
  | [], _ => exact fun fuel => rfl
  | .tree _ :: _, _ => exact fun fuel => rfl
  | .stream _ :: _, _ => exact fun fuel => rfl
  | .trees [] :: vals, h =>
    exact agrees_moved [.trees []] [.trees []] h (fun _ => rfl) (List.Perm.refl _)
  | .trees (t :: ts) :: vals, h =>
    have hagrees : Agrees J T ⟨s, .trees (t :: ts) :: vals, frames, printed⟩ .next
        (some ⟨.tree (denote value (handed t)) :: .trees (ts.map (denote value)) ::
          vals.map (Val.list value), frames.map fun f => value f.slot, printed⟩) :=
      agrees_moved [.trees (t :: ts)] [.tree (handed t), .trees ts] h (fun _ => rfl) (by
        have hsame : (handed t).handles = t.handles := by cases t <;> rfl
        rw [List.flatMap_singleton, List.flatMap_cons, List.flatMap_singleton]
        change (handlesOf (t :: ts)).Perm ((handed t).handles ++ handlesOf ts)
        rw [hsame, handlesOf, List.flatMap_cons, handlesOf])
    rwa [denote_handed] at hagrees

theorem toString_agrees (hsafe : Safe σ .toString) :
    Agrees J T σ .toString (listStep T (σ.lists value) .toString) := by
  obtain ⟨s, vals, frames, printed⟩ := σ
  match vals, h, hsafe with
  | [], _, _ => exact fun fuel => rfl
  | .tree _ :: _, _, _ => exact fun fuel => rfl
  | .trees _ :: _, _, _ => exact fun fuel => rfl
  | .stream stream :: vals, h, hsafe =>
    have hstands : Stands J s value (stream.toList ++ heldBy vals frames) :=
      heldBy_cons (.stream stream) vals frames ▸ h.stands
    obtain ⟨n, hn⟩ := display_stands T hstands fun g k hg hw => by
      subst hg
      rw [h.live]
      exact hsafe g k rfl hw
    refine agrees_of n [.stream stream] (fun fuel hfuel => ?_) ?_ h.own (.refl s value _)
    · rw [step]
      dsimp only
      rw [hn fuel hfuel]
      rfl
    · rw [List.flatMap_singleton]
      exact hstands

omit σ h

/-! ## 3. Runs -/

theorem Stands.mono {J' : List (Tree τ) → List UInt8 → Prop} {roots : List Handle}
    (h : Stands J s value roots) (hJ : ∀ ts hidden, J ts hidden → J' ts hidden) :
    Stands J' s value roots :=
  { h with hidden := fun k e he => (h.hidden k e he).imp_right (hJ e.trees e.hidden) }

theorem Represents.mono {J' : List (Tree τ) → List UInt8 → Prop} {σ : State τ}
    (h : Represents J σ value) (hJ : ∀ ts hidden, J ts hidden → J' ts hidden) :
      Represents J' σ value :=
  ⟨h.stands.mono hJ, h.own⟩

/-- The operation hands over trees with their joins. -/
def Arrives (σ : State τ) (op : Op τ) (ts : List (Tree τ)) (hidden : List UInt8) : Prop :=
  ∃ joins, op = .receive joins ∧ σ.vals.head? = some (.trees ts) ∧ hidden = resized joins ts.length

theorem step_agrees {σ : State τ} (h : Represents J σ value) (op : Op τ) (hsafe : Safe σ op) :
    Agrees (fun ts hidden => J ts hidden ∨ Arrives σ op ts hidden) T σ op
      (listStep T (σ.lists value) op) := by
  have hJ := h.mono (fun ts hidden => @Or.inl (J ts hidden) (Arrives σ op ts hidden))
  cases op with
  | pick n => exact pick_agrees σ hJ n
  | newStream => exact agrees_moved [] [.stream none] hJ (fun _ => rfl) (List.Perm.refl _)
  | newTrees => exact agrees_moved [] [.trees []] hJ (fun _ => rfl) (List.Perm.refl _)
  | token t => exact agrees_moved [] [.tree (.token t)] hJ (fun _ => rfl) (List.Perm.refl _)
  | clone => exact clone_agrees σ hJ hsafe
  | drop => exact drop_agrees σ hJ
  | group delimiter fragment => exact group_agrees σ hJ delimiter fragment
  | stream => exact stream_agrees σ hJ hsafe
  | pushTree => exact pushTree_agrees σ hJ
  | collect => exact collect_agrees σ hJ hsafe
  | receive joins => exact receive_agrees σ hJ joins hsafe fun ts hts => .inr ⟨joins, rfl, hts, rfl⟩
  | extendStreams => exact extendStreams_agrees σ hJ hsafe
  | borrow => exact borrow_agrees σ hJ hsafe
  | push => exact push_agrees σ hJ hsafe
  | release => exact release_agrees σ hJ
  | intoIter => exact intoIter_agrees σ hJ hsafe
  | next => exact next_agrees σ hJ
  | toString => exact toString_agrees σ hJ hsafe

/-- Every operation of the run is safe where it is made. -/
def SafeRun (T : Texts τ) (σ : State τ) : List (Op τ) → Prop
  | [] => True
  | op :: ops => Safe σ op ∧ ∀ fuel σ', step T fuel σ op = .ok σ' → SafeRun T σ' ops

/-- The trees and joins of a stream as it arrived in the run. -/
def Received (T : Texts τ) (σ : State τ) (ops : List (Op τ)) (ts : List (Tree τ))
    (hidden : List UInt8) : Prop :=
  ∃ n before op after σ', ops = before ++ op :: after ∧
    (∀ fuel ≥ n, runFrom T fuel σ before = .ok σ') ∧ Arrives σ' op ts hidden

theorem Received.cons {σ σ' : State τ} {op : Op τ} {ops : List (Op τ)} {ts : List (Tree τ)}
    {hidden : List UInt8} {n : Nat} (hstep : ∀ fuel ≥ n, step T fuel σ op = .ok σ')
    (h : Received T σ' ops ts hidden) : Received T σ (op :: ops) ts hidden := by
  obtain ⟨m, before, op', after, σ'', rfl, hrun, harrives⟩ := h
  refine ⟨max n m, op :: before, op', after, σ'', rfl, fun fuel hfuel => ?_, harrives⟩
  rw [runFrom, hstep fuel (by omega), Outcome.ok_bind, hrun fuel (by omega)]

/-- By induction on the operations. -/
theorem runFrom_agrees (ops : List (Op τ)) {σ : State τ} (h : Represents J σ value)
    (hsafe : SafeRun T σ ops) :
    match listRunFrom T (σ.lists value) ops with
    | none => ∃ n, ∀ fuel ≥ n, runFrom T fuel σ ops = .err .rejected
    | some a => ∃ n σ' value', (∀ fuel ≥ n, runFrom T fuel σ ops = .ok σ') ∧
        Represents (fun ts hidden => J ts hidden ∨ Received T σ ops ts hidden) σ' value' ∧
        σ'.lists value' = a := by
  induction ops generalizing σ value J with
  | nil => exact ⟨0, σ, value, fun fuel _ => rfl, h.mono fun _ _ => .inl, rfl⟩
  | cons op ops ih =>
    have hstep : Agrees _ T σ op (listStep T (σ.lists value) op) := step_agrees h op hsafe.1
    rw [listRunFrom]
    cases hl : listStep T (σ.lists value) op with
    | none =>
      rw [hl] at hstep
      exact ⟨0, fun fuel _ => by rw [runFrom, hstep fuel, Outcome.err_bind]⟩
    | some a =>
      rw [hl] at hstep
      obtain ⟨n, σ', value', hrun, hrep, rfl⟩ := hstep
      have hrest := ih hrep (hsafe.2 n σ' (hrun n (Nat.le_refl n)))
      change match listRunFrom T (σ'.lists value') ops with | none => _ | some a => _
      cases hr : listRunFrom T (σ'.lists value') ops with
      | none =>
        rw [hr] at hrest
        obtain ⟨m, hm⟩ := hrest
        refine ⟨max n m, fun fuel hfuel => ?_⟩
        rw [runFrom, hrun fuel (by omega), Outcome.ok_bind, hm fuel (by omega)]
      | some a =>
        rw [hr] at hrest
        obtain ⟨m, σ'', value'', hm, hrep', hlists⟩ := hrest
        refine ⟨max n m, σ'', value'', fun fuel hfuel => ?_, hrep'.mono fun ts hidden hJ =>
          ?_, hlists⟩
        · rw [runFrom, hrun fuel (by omega), Outcome.ok_bind, hm fuel (by omega)]
        · rcases hJ with (hJ | harrives) | hreceived
          · exact .inl hJ
          · exact .inr ⟨0, [], op, ops, σ, rfl, fun fuel _ => rfl, harrives⟩
          · exact .inr (hreceived.cons hrun)

/-! ## 4. Streams are values -/

/-- The values are the lists that they would be if nothing were shared; a slot counts the live
    handles to it, and none is dead; joins are those of a stream that is as it arrived. -/
structure Holds (T : Texts τ) (ops : List (Op τ)) (σ : State τ) (value : Handle → List (Value τ))
    (a : ListState τ) : Prop where
  lists : σ.lists value = a
  yields : Yields σ.store value
  counts : ∀ h, counted σ.store h = σ.live h
  alive : ∀ h, 0 < σ.live h → ∃ e, σ.store.entry h = some e
  freed : ∀ h ∈ σ.store.FREE, σ.store.entry h = none ∧ σ.live h = 0
  joins : ∀ h e, σ.store.entry h = some e → e.hidden = [] ∨
    e.hidden.length = e.trees.length ∧ Received T start ops e.trees e.hidden

/-- A program that the compiler takes runs to its end, whatever it does to streams, and streams are
    values in it. -/
def AreValues (T : Texts τ) (ops : List (Op τ)) : Prop :=
  match listRun T ops with
  | none => ∃ n, ∀ fuel ≥ n, run T fuel ops = .err .rejected
  | some a => ∃ n σ value, (∀ fuel ≥ n, run T fuel ops = .ok σ) ∧ Holds T ops σ value a

theorem start_represents : Represents (fun _ _ => False) (start : State τ) fun _ => [] := by
  have hnone : ∀ h : Handle, (start : State τ).store.entry h = none := fun _ => rfl
  refine ⟨⟨⟨fun h => ?_, fun h e he => ?_, fun h hh => absurd hh List.not_mem_nil, List.nodup_nil,
    fun h hh => absurd hh List.not_mem_nil⟩, fun h e he => ?_, fun h e he => ?_⟩,
    fun f hf => absurd hf List.not_mem_nil⟩
  · rfl
  · cases (hnone h).symm.trans he
  · cases (hnone h).symm.trans he
  · cases (hnone h).symm.trans he

theorem resized_length (hidden : List UInt8) (n : Nat) : (resized hidden n).length = n := by
  rw [resized, List.length_append, List.length_take, List.length_replicate]
  omega

theorem Represents.holds {ops : List (Op τ)} {σ : State τ} {a : ListState τ}
    (h : Represents (fun ts hidden => False ∨ Received T start ops ts hidden) σ value)
    (hlists : σ.lists value = a) : Holds T ops σ value a := by
  refine ⟨hlists, h.stands.yields, h.live, fun k hk => ?_, fun k hk => ?_, fun k e he => ?_⟩
  · rw [← h.live] at hk
    obtain ⟨e, he, -⟩ := entry_of_counted hk
    exact ⟨e, he⟩
  · have hdead := (h.stands.counted.free_dead k hk).2
    refine ⟨hdead, ?_⟩
    rw [← h.live, counted, hdead, Option.elim_none]
  · refine (h.stands.hidden k e he).imp_right fun hJ => ?_
    rcases hJ with hfalse | hreceived
    · cases hfalse
    · refine ⟨?_, hreceived⟩
      obtain ⟨-, -, -, -, -, -, -, joins, -, -, hhidden⟩ := hreceived
      rw [hhidden, resized_length]

theorem streams_are_values (T : Texts τ) (ops : List (Op τ)) (hsafe : SafeRun T start ops) :
    AreValues T ops := by
  have hrun := runFrom_agrees ops start_represents hsafe
  unfold AreValues
  change match listRunFrom T (State.lists (fun _ => []) start) ops with | none => _ | some a => _
  cases hl : listRunFrom T (State.lists (fun _ => []) start) ops with
  | none =>
    rw [hl] at hrun
    exact hrun
  | some a =>
    rw [hl] at hrun
    obtain ⟨n, σ, value, hn, hrep, hlists⟩ := hrun
    exact ⟨n, σ, value, hn, hrep.holds hlists⟩

/-- A stream arrives, is cloned, and the clone is printed. -/
theorem clone_is_value : AreValues (⟨fun _ => ['x'], fun _ => false⟩ : Texts Unit)
    [.newTrees, .token (), .pushTree, .receive [1], .clone, .toString] := by
  refine streams_are_values _ _ ⟨trivial, ?_⟩
  rintro fuel σ ⟨⟩
  refine ⟨trivial, ?_⟩
  rintro fuel σ ⟨⟩
  refine ⟨trivial, ?_⟩
  rintro fuel σ ⟨⟩
  refine ⟨fun _ _ _ => .inr (by decide), ?_⟩
  rintro fuel σ ⟨⟩
  refine ⟨fun v hv h => ?_, ?_⟩
  · cases hv
    have hle : [0].count h ≤ 1 := List.count_le_length
    rw [State.live, held]
    change [0].count h + ∑ j ∈ Finset.range 1, _ + [0].count h < _
    rw [Finset.sum_range_one]
    change [0].count h + 0 + [0].count h < _
    omega
  rintro fuel σ ⟨⟩
  refine ⟨fun h k hhead hw => ?_, fun _ _ _ => trivial⟩
  cases hhead
  obtain ⟨j, hj, -⟩ := Relation.TransGen.head'_iff.mp hw
  exact absurd hj List.not_mem_nil

/-! ## 5. A reference into storage that was moved -/

/-- `Ident`, collected into a stream. -/
def collectOne : List (Op Unit) := [.newTrees, .token (), .pushTree, .collect]

/-- Four streams, and `extend` of the last one with a token and a group whose stream is made when
    the iterator is asked for it: the fifth slot does not fit. -/
def extendWithGroup : List (Op Unit) :=
  collectOne ++ collectOne ++ collectOne ++ collectOne ++ [.token (), .pick 1, .borrow, .push] ++
    collectOne ++ [.group .Parenthesis 0, .push, .release]

theorem extend_dangles : ¬ (∀ (T : Texts Unit) (ops : List (Op Unit)), AreValues T ops) ∧
    ∀ T fuel, run T fuel extendWithGroup = .err .dangling := by
  have hrun : ∀ T fuel, run T fuel extendWithGroup = .err .dangling := fun T fuel => rfl
  refine ⟨fun h => ?_, hrun⟩
  have hvalues := h ⟨fun _ => ['x'], fun _ => false⟩ extendWithGroup
  obtain ⟨n, σ, value, hn, -⟩ := hvalues
  have hok := hn n (Nat.le_refl n)
  rw [hrun] at hok
  cases hok

end Trustme.ProcMacro.Streams
