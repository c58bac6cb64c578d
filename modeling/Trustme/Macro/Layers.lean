/-
  Subject:   The layers of a variable hold a ragged table of its captures.

  * `Rep`: a layer that holds a table; what it has for parts without a value is left open;
  * `insert_paths`: the values of a table, inserted in the order of their paths;
  * `Rep.walks`: a capture is looked up, and changed, where its path leads.
-/
import Trustme.Lib.Ragged
import Trustme.Macro.Captures

namespace Trustme.Macro

open Lib (Ragged)
open Lib.Ragged (rows ofRows)

variable {H F : Type}

/-! ## 1. Layers and tables -/

/-- A capture as it is inserted. -/
def CapturedVal.fresh (data : InterpolatedFragment H F) : CapturedVal H F := ⟨0, 0, some data⟩

namespace CaptureLayer

/-- A variable outside of loops has one value; in one loop, a value for each iteration; in more, a
    layer for each iteration of the outermost that has a value at all. -/
def Rep : {k : Nat} → Ragged (CapturedVal H F) k → CaptureLayer H F → Prop
  | 0, c, layer => layer = Vals [c]
  | 1, vs, layer => layer = Vals (rows vs)
  | k + 2, ts, layer => ∃ e : List (CaptureLayer H F), layer.asNested = .ok e ∧
      ∀ (i : Nat) (t : Ragged (CapturedVal H F) (k + 1)), (rows ts)[i]? = some t → ¬ t.Bare →
        ∃ below, e[i]? = some below ∧ Rep t below

/-! ## 2. Insertion -/

variable {iter k : Nat} {e : List (CaptureLayer H F)}

theorem length_reach (h : e.length ≤ iter) :
    (reach iter e).length = iter + 1 := by
  have hpad : (e ++ List.replicate (iter - e.length) (Nested [])).length = iter := by
    rw [List.length_append, List.length_replicate]
    omega
  rw [reach, if_pos hpad, List.length_append, hpad]
  rfl

theorem reach_getElem?_last (h : e.length ≤ iter) :
    (reach iter e)[iter]? = some (Vals []) := by
  have hpad : (e ++ List.replicate (iter - e.length) (Nested [])).length = iter := by
    rw [List.length_append, List.length_replicate]
    omega
  rw [reach, if_pos hpad, List.getElem?_append_right (by omega), hpad, Nat.sub_self]
  rfl

theorem reach_getElem?_lt {j : Nat} (h : e.length ≤ iter)
    (hj : j < e.length) : (reach iter e)[j]? = e[j]? := by
  have hpad : (e ++ List.replicate (iter - e.length) (Nested [])).length = iter := by
    rw [List.length_append, List.length_replicate]
    omega
  rw [reach, if_pos hpad, List.getElem?_append_left (by omega), List.getElem?_append_left hj]

theorem reach_of_lt (h : iter < e.length) :
    reach iter e = e := by
  have hpad : e ++ List.replicate (iter - e.length) (Nested []) = e := by
    rw [Nat.sub_eq_zero_of_le (by omega), List.replicate_zero, List.append_nil]
  rw [reach, hpad, if_neg (by omega)]

/-- Captures inserted one after the other. -/
def insertPaths (layer : CaptureLayer H F)
    (xs : List (List Nat × InterpolatedFragment H F)) : Except Err (CaptureLayer H F) :=
  xs.foldlM (fun layer x => layer.insert x.2 x.1) layer

variable {layer below' : CaptureLayer H F} {xs : List (List Nat × InterpolatedFragment H F)}

theorem insertPaths_append {ys : List (List Nat × InterpolatedFragment H F)}
    {layer' : CaptureLayer H F} (h : layer.insertPaths xs = .ok layer') :
    layer.insertPaths (xs ++ ys) = layer'.insertPaths ys := by
  rw [insertPaths, List.foldlM_append]
  rw [insertPaths] at h
  rw [h]
  rfl

theorem insert_cons {data : InterpolatedFragment H F} {rest : List Nat} {below : CaptureLayer H F}
    (hr : rest ≠ []) (he : layer.asNested = .ok e) (hb : (reach iter e)[iter]? = some below)
    (hi : below.insert data rest = .ok below') :
    layer.insert data (iter :: rest) = .ok (Nested ((reach iter e).set iter below')) := by
  cases rest with
  | nil => exact absurd rfl hr
  | cons j rest => simp only [insert, he, hb, hi]

/-- Captures of one iteration, into its layer. -/
theorem insertPaths_below {below : CaptureLayer H F} (hx : ∀ x ∈ xs, x.1 ≠ [])
    (hb : e[iter]? = some below) (h : below.insertPaths xs = .ok below') :
    (Nested e).insertPaths (xs.map fun x => (iter :: x.1, x.2))
      = .ok (Nested (e.set iter below')) := by
  induction xs generalizing e below with
  | nil =>
    obtain rfl : below = below' := Except.ok.inj h
    obtain ⟨hlt, rfl⟩ := List.getElem?_eq_some_iff.1 hb
    rw [List.set_getElem_self]
    rfl
  | cons x xs ih =>
    have hlt := (List.getElem?_eq_some_iff.1 hb).1
    rw [insertPaths, List.foldlM_cons] at h
    cases hi : below.insert x.2 x.1 with
    | error err => rw [hi] at h; exact absurd h (by simp [bind, Except.bind])
    | ok below₁ =>
      rw [hi] at h
      have hstep : (Nested e).insert x.2 (iter :: x.1)
          = .ok (Nested ((reach iter e).set iter below₁)) :=
        insert_cons (hx x List.mem_cons_self) rfl (by rw [reach_of_lt hlt]; exact hb) hi
      rw [reach_of_lt hlt] at hstep
      have hrest := ih (e := e.set iter below₁) (fun y hy => hx y (List.mem_cons_of_mem _ hy))
        (List.getElem?_set_self hlt) h
      rw [List.set_set] at hrest
      rw [List.map_cons, insertPaths, List.foldlM_cons, hstep]
      exact hrest

/-- The first capture of an iteration makes its layer. -/
theorem insertPaths_new (hx : ∀ x ∈ xs, x.1 ≠ []) (hne : xs ≠ []) (he : layer.asNested = .ok e)
    (hlen : e.length ≤ iter) (h : (Vals []).insertPaths xs = .ok below') :
    layer.insertPaths (xs.map fun x => (iter :: x.1, x.2))
      = .ok (Nested ((reach iter e).set iter below')) := by
  cases xs with
  | nil => exact absurd rfl hne
  | cons x xs =>
    have hlt : iter < (reach iter e).length := by rw [length_reach hlen]; omega
    rw [insertPaths, List.foldlM_cons] at h
    cases hi : (Vals []).insert x.2 x.1 with
    | error err => rw [hi] at h; exact absurd h (by simp [bind, Except.bind])
    | ok below₁ =>
      rw [hi] at h
      have hstep := insert_cons (hx x List.mem_cons_self) he (reach_getElem?_last hlen) hi
      have hrest := insertPaths_below (e := (reach iter e).set iter below₁)
        (fun y hy => hx y (List.mem_cons_of_mem _ hy)) (List.getElem?_set_self hlt) h
      rw [List.set_set] at hrest
      rw [List.map_cons, insertPaths, List.foldlM_cons, hstep]
      exact hrest

/-- The values of a loop without inner loops, from iteration `i` on. -/
theorem insertPaths_vals {vs : List (CapturedVal H F)}
    {as : List (InterpolatedFragment H F)} {i : Nat} (hi : vs.length = i) :
    (Vals vs).insertPaths
        (Ragged.pathsFrom (k := 0) Ragged.paths i as)
      = .ok (Vals (vs ++ as.map CapturedVal.fresh)) := by
  induction as generalizing vs i with
  | nil => simp [Ragged.pathsFrom, insertPaths, pure, Except.pure]
  | cons a as ih =>
    have hpush : (Vals vs).insert a [i] = .ok (Vals (vs ++ [CapturedVal.fresh a])) := by
      rw [insert, pushVal, if_pos hi]
      rfl
    have hlen : (vs ++ [CapturedVal.fresh a]).length = i + 1 := by simp [hi]
    have hrest := ih hlen
    rw [List.append_assoc] at hrest
    show insertPaths _ (([i], a) :: Ragged.pathsFrom (k := 0) Ragged.paths (i + 1) as) = _
    rw [insertPaths, List.foldlM_cons, hpush]
    exact hrest

theorem paths_ne_nil {t : Ragged (InterpolatedFragment H F) (k + 1)} :
    ∀ x ∈ t.paths, x.1 ≠ [] := by
  have key : ∀ (i : Nat) (ts : List (Ragged (InterpolatedFragment H F) k)),
      ∀ x ∈ Ragged.pathsFrom Ragged.paths i ts, x.1 ≠ [] := by
    intro i ts
    induction ts generalizing i with
    | nil => intro x hx; simp [Ragged.pathsFrom] at hx
    | cons t ts ih =>
      intro x hx
      rw [Ragged.pathsFrom, List.mem_append] at hx
      rcases hx with hx | hx
      · obtain ⟨y, _, rfl⟩ := List.mem_map.1 hx
        exact List.cons_ne_nil _ _
      · exact ih (i + 1) x hx
  exact key 0 (rows t)

/-- What a layer that is nested more than once has of the iterations before `i`. -/
def RepUpTo {k : Nat} (ts : List (Ragged (CapturedVal H F) (k + 1))) (i : Nat)
    (layer : CaptureLayer H F) : Prop :=
  ∃ e : List (CaptureLayer H F), layer.asNested = .ok e ∧ e.length ≤ i ∧
    ∀ j t, j < i → ts[j]? = some t → ¬ t.Bare → ∃ below, e[j]? = some below ∧ Rep t below

/-- One iteration more. -/
theorem RepUpTo.step {k i : Nat} {ts : List (Ragged (CapturedVal H F) (k + 1))}
    {layer : CaptureLayer H F} {t : Ragged (InterpolatedFragment H F) (k + 1)}
    (h : RepUpTo ts i layer) (ht : ts[i]? = some (t.map CapturedVal.fresh))
    (hins : ∃ below, (Vals []).insertPaths t.paths = .ok below
      ∧ Rep (t.map CapturedVal.fresh) below) :
    ∃ layer', layer.insertPaths (t.paths.map fun x => (i :: x.1, x.2)) = .ok layer'
      ∧ RepUpTo ts (i + 1) layer' := by
  obtain ⟨e, he, hlen, hold⟩ := h
  by_cases hbare : t.paths = []
  · refine ⟨layer, by rw [hbare]; rfl, e, he, by omega, ?_⟩
    intro j u hj hu hnb
    rcases Nat.lt_succ_iff_lt_or_eq.1 hj with hj | rfl
    · exact hold j u hj hu hnb
    · obtain rfl := Option.some.inj (ht.symm.trans hu)
      exact absurd (Ragged.bare_map.2 (Ragged.bare_iff.2 hbare)) hnb
  · obtain ⟨below, hbelow, hrep⟩ := hins
    refine ⟨_, insertPaths_new paths_ne_nil hbare he hlen hbelow, _, rfl, ?_, ?_⟩
    · rw [List.length_set, length_reach hlen]
    · intro j u hj hu hnb
      rcases Nat.lt_succ_iff_lt_or_eq.1 hj with hj | rfl
      · obtain ⟨b, hb, hrb⟩ := hold j u hj hu hnb
        refine ⟨b, ?_, hrb⟩
        rw [List.getElem?_set_ne (by omega), reach_getElem?_lt hlen
          (List.getElem?_eq_some_iff.1 hb).1, hb]
      · obtain rfl := Option.some.inj (ht.symm.trans hu)
        refine ⟨below, ?_, hrep⟩
        rw [List.getElem?_set_self (by rw [length_reach hlen]; omega)]

/-- **The captures of a table, inserted in their order, are a layer that holds the table.** -/
theorem insert_paths (t : Ragged (InterpolatedFragment H F) k) :
    ∃ layer, (Vals []).insertPaths t.paths = .ok layer
      ∧ Rep (t.map CapturedVal.fresh) layer := by
  induction k with
  | zero => exact ⟨_, rfl, rfl⟩
  | succ k ih =>
    cases k with
    | zero =>
      have hlen : ([] : List (CapturedVal H F)).length = 0 := rfl
      exact ⟨_, insertPaths_vals hlen, rfl⟩
    | succ k =>
      -- the iterations from `i` on, over a layer that has those before
      have key : ∀ (done rest : List (Ragged (InterpolatedFragment H F) (k + 1)))
          (layer : CaptureLayer H F),
          RepUpTo ((done ++ rest).map (Ragged.map CapturedVal.fresh)) done.length layer →
          ∃ layer', layer.insertPaths (Ragged.pathsFrom Ragged.paths done.length rest)
              = .ok layer'
            ∧ RepUpTo ((done ++ rest).map (Ragged.map CapturedVal.fresh))
                (done ++ rest).length layer' := by
        intro done rest
        induction rest generalizing done with
        | nil =>
          intro layer h
          refine ⟨layer, rfl, ?_⟩
          rw [List.append_nil] at h ⊢
          exact h
        | cons u rest ihr =>
          intro layer h
          have hu : ((done ++ u :: rest).map (Ragged.map CapturedVal.fresh))[done.length]?
              = some (u.map CapturedVal.fresh) := by
            rw [List.getElem?_map, List.getElem?_append_right (Nat.le_refl _), Nat.sub_self]
            rfl
          obtain ⟨layer₁, h₁, hrep₁⟩ := h.step hu (ih u)
          have hassoc : done ++ u :: rest = (done ++ [u]) ++ rest := by simp
          rw [hassoc] at hrep₁ ⊢
          obtain ⟨layer', h', hrep'⟩ := ihr (done ++ [u]) layer₁ (by simpa using hrep₁)
          refine ⟨layer', ?_, hrep'⟩
          rw [Ragged.pathsFrom, insertPaths_append h₁]
          simpa using h'
      obtain ⟨layer, hins, e, he, hlen, hrep⟩ := key [] (rows t) (Vals [])
        ⟨[], rfl, Nat.le_refl _, fun j u hj => absurd hj (Nat.not_lt_zero j)⟩
      refine ⟨layer, hins, e, he, fun i u hu hnb => ?_⟩
      have hlt := (List.getElem?_eq_some_iff.1 hu).1
      rw [Ragged.map, Ragged.rows_ofRows, List.length_map] at hlt
      exact hrep i u hlt hu hnb

/-! ## 3. Looking up -/

/-- What is done at a capture, for every action on it. -/
def Opens (layer : CaptureLayer H F) (p : List Nat) (c : CapturedVal H F)
    (put : CapturedVal H F → CaptureLayer H F) : Prop :=
  ∀ (β : Type) (f : CapturedVal H F → Except Err (β × CapturedVal H F)),
    layer.withCap f p =
      match f c with
      | .error e => .error e
      | .ok (b, c') => .ok (b, put c')

/-- The same for the walk. -/
def Walks (layer : CaptureLayer H F) (p : List Nat) (c : CapturedVal H F)
    (put : CapturedVal H F → CaptureLayer H F) : Prop :=
  ∀ (β : Type) (f : CapturedVal H F → Except Err (β × CapturedVal H F)),
    layer.walk f p =
      match f c with
      | .error e => .error e
      | .ok (b, c') => .ok (b, put c')

theorem walk_vals {vals : List (CapturedVal H F)} {i : Nat} {p : List Nat} {c : CapturedVal H F}
    (h : vals[i]? = some c) {β : Type} (f : CapturedVal H F → Except Err (β × CapturedVal H F)) :
    (Vals vals).walk f (i :: p) =
      match f c with
      | .error e => .error e
      | .ok (b, c') => .ok (b, Vals (vals.set i c')) := by
  cases hf : f c with
  | error e => simp only [walk, h, hf]
  | ok x => simp only [walk, h, hf]

/-- The walk reaches the capture that the path leads to in the table. -/
theorem Rep.walks {t : Ragged (CapturedVal H F) (k + 1)} {p : List Nat} {c : CapturedVal H F}
    (h : Rep t layer) (hg : t.get p = some c) :
    ∃ put, Walks layer p c put ∧ ∀ c', Rep (t.set p c') (put c') := by
  induction k generalizing layer p with
  | zero =>
    cases p with
    | nil => simp [Ragged.get] at hg
    | cons i p =>
      obtain rfl : layer = Vals (rows t) := h
      have hi : (rows t)[i]? = some c := by
        rw [Ragged.get] at hg
        cases hr : (rows t)[i]? with
        | none => simp [hr] at hg
        | some c₀ =>
          simp only [hr] at hg
          exact hg
      refine ⟨fun c' => Vals ((rows t).set i c'), ?_, ?_⟩
      · exact fun β f => walk_vals hi f
      · intro c'
        show _ = Vals (rows (Ragged.set t (i :: p) c'))
        rw [Ragged.set]
        simp only [hi]
        rfl
  | succ k ih =>
    cases p with
    | nil => simp [Ragged.get] at hg
    | cons i p =>
      obtain ⟨e, he, hrep⟩ := h
      rw [Ragged.get] at hg
      cases hr : (rows t)[i]? with
      | none => simp [hr] at hg
      | some t' =>
        simp only [hr] at hg
        have hnb : ¬ t'.Bare := fun hb => by rw [hb.get p] at hg; exact absurd hg (by simp)
        obtain ⟨below, hbelow, hrb⟩ := hrep i t' hr hnb
        have hlt := (List.getElem?_eq_some_iff.1 hbelow).1
        have hlayer : layer = Nested e := by
          cases layer with
          | Nested e' => rw [asNested] at he; rw [Except.ok.inj he]
          | Vals vs =>
            cases vs with
            | nil =>
              obtain rfl : [] = e := Except.ok.inj he
              simp at hbelow
            | cons v vs => simp [asNested] at he
        subst hlayer
        obtain ⟨put, hput, hset⟩ := ih hrb hg
        refine ⟨fun c' => Nested (e.set i (put c')), ?_, ?_⟩
        · intro β f
          rw [walk, hbelow]
          simp only [hput β f]
          cases f c with
          | error err => rfl
          | ok x => rfl
        · intro c'
          refine ⟨e.set i (put c'), rfl, ?_⟩
          intro j u hu hnbu
          rw [Ragged.set] at hu
          simp only [hr, Ragged.rows_ofRows] at hu
          by_cases hij : i = j
          · subst hij
            rw [List.getElem?_set_self (List.getElem?_eq_some_iff.1 hr).1] at hu
            obtain rfl := Option.some.inj hu
            exact ⟨put c', List.getElem?_set_self hlt, hset c'⟩
          · rw [List.getElem?_set_ne hij] at hu
            obtain ⟨b, hb, hrb'⟩ := hrep j u hu hnbu
            exact ⟨b, by rw [List.getElem?_set_ne hij, hb], hrb'⟩

/-- **A capture is looked up where its path leads in the table**, also where a single value stands
    for every iteration. -/
theorem Rep.opens {t : Ragged (CapturedVal H F) k} {p : List Nat} {c : CapturedVal H F}
    (h : Rep t layer) (hg : t.get p = some c) :
    ∃ put, Opens layer p c put ∧ ∀ c', Rep (t.set p c') (put c') := by
  cases k with
  | zero =>
    obtain rfl : layer = Vals [t] := h
    obtain rfl : t = c := Option.some.inj hg
    exact ⟨fun c' => Vals [c'], fun β f => rfl, fun c' => rfl⟩
  | succ k =>
    obtain ⟨put, hput, hset⟩ := h.walks hg
    refine ⟨put, fun β f => ?_, hset⟩
    rw [← hput β f]
    cases layer with
    | Nested e => rfl
    | Vals vs =>
      obtain _ | ⟨v, _ | ⟨w, vs⟩⟩ := vs
      · -- no value: the walk would fail
        exact absurd (hput Unit (fun c => .ok ((), c))) (by cases p <;> simp [walk])
      · -- a single value: the path can only lead to it
        cases p with
        | nil => exact absurd (hput Unit (fun c => .ok ((), c))) (by simp [walk])
        | cons i p =>
          cases i with
          | zero => rfl
          | succ i => exact absurd (hput Unit (fun c => .ok ((), c))) (by simp [walk])
      · rfl

end CaptureLayer

end Trustme.Macro
