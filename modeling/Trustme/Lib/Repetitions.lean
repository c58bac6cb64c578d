/-
  Subject:   Patterns of letters and repetitions, and which letters stand side by side in their
             words.

  * `Rep`, `Yields`: patterns, and their words: letters and seams;
  * `First`, `Nullable`: how a word begins, and whether there may be none;
  * `Meets`: two letters that stand side by side in a word, or where it meets what follows;
  * `first_loop`, `meets_letter`, `Meets.of_loop`, `Meets.loop_body`, `Meets.loop_rest`: computed
    from the parts of the pattern.

  A seam is between an iteration and the next one where there is no separator, and before the
  separator of an iteration that is empty. Letters with a seam between them are not side by side.
-/
import Mathlib.Data.List.Basic

namespace Trustme.Lib

variable {σ α : Type}

/-- How many iterations: any number, at least one, or at most one. -/
inductive Times where
  | star
  | plus
  | opt
deriving DecidableEq

inductive Rep (σ α : Type) where
  | letter (a : α)
  | loop (sep : Option σ) (times : Times) (body : List (Rep σ α))

/-- The words of a pattern: letters, and seams (`none`). `emb` has the letter of a separator. -/
inductive Yields (emb : σ → α) : List (Rep σ α) → List (Option α) → Prop
  | nil : Yields emb [] []
  | letter {a : α} {ps : List (Rep σ α)} {w : List (Option α)} (rest : Yields emb ps w) :
      Yields emb (.letter a :: ps) (some a :: w)
  | skip {sep : Option σ} {times : Times} {body ps : List (Rep σ α)} {w : List (Option α)}
      (htimes : times ≠ .plus) (rest : Yields emb ps w) : Yields emb (.loop sep times body :: ps) w
  /-- The last iteration. -/
  | last {sep : Option σ} {times : Times} {body ps : List (Rep σ α)} {u w : List (Option α)}
      (round : Yields emb body u) (rest : Yields emb ps w) :
      Yields emb (.loop sep times body :: ps) (u ++ w)
  /-- An iteration, a separator, and more. -/
  | lap {s : σ} {times : Times} {body ps : List (Rep σ α)} {u w : List (Option α)}
      (htimes : times ≠ .opt) (round : Yields emb body u) (hne : u ≠ [])
      (rest : Yields emb (.loop (some s) .plus body :: ps) w) :
      Yields emb (.loop (some s) times body :: ps) (u ++ some (emb s) :: w)
  /-- An empty iteration, a separator, and more. -/
  | blank {s : σ} {times : Times} {body ps : List (Rep σ α)} {w : List (Option α)}
      (htimes : times ≠ .opt) (round : Yields emb body [])
      (rest : Yields emb (.loop (some s) .plus body :: ps) w) :
      Yields emb (.loop (some s) times body :: ps) (none :: some (emb s) :: w)
  /-- An iteration, and more; an empty one adds nothing. -/
  | again {times : Times} {body ps : List (Rep σ α)} {u w : List (Option α)}
      (htimes : times ≠ .opt) (round : Yields emb body u) (hne : u ≠ [])
      (rest : Yields emb (.loop none .plus body :: ps) w) :
      Yields emb (.loop none times body :: ps) (u ++ none :: w)

theorem exists_yields (emb : σ → α) : ∀ ps : List (Rep σ α), ∃ w, Yields emb ps w
  | [] => ⟨[], .nil⟩
  | .letter a :: ps => by
    obtain ⟨w, hw⟩ := exists_yields emb ps
    exact ⟨some a :: w, .letter hw⟩
  | .loop _ _ body :: ps => by
    obtain ⟨u, hu⟩ := exists_yields emb body
    obtain ⟨w, hw⟩ := exists_yields emb ps
    exact ⟨u ++ w, .last hu hw⟩

/-! ## 1. How a word begins -/

def First (emb : σ → α) (ps : List (Rep σ α)) (a : α) : Prop := ∃ w, Yields emb ps (some a :: w)

def Nullable (emb : σ → α) (ps : List (Rep σ α)) : Prop := Yields emb ps []

/-- What comes after a pattern: a beginning of the rest, or what is outside where the rest may be
    empty. -/
def After (emb : σ → α) (ps : List (Rep σ α)) (outer : α → Prop) (a : α) : Prop :=
  First emb ps a ∨ Nullable emb ps ∧ outer a

section Beginnings

variable {emb : σ → α} {a b : α} {sep : Option σ} {times : Times} {body ps : List (Rep σ α)}

theorem not_first_nil : ¬ First emb ([] : List (Rep σ α)) a := fun ⟨_, h⟩ => nomatch h

theorem nullable_nil : Nullable emb ([] : List (Rep σ α)) := .nil

theorem first_letter : First emb (.letter a :: ps) b ↔ b = a := by
  constructor
  · rintro ⟨w, h⟩
    cases h
    rfl
  · rintro rfl
    obtain ⟨w, hw⟩ := exists_yields emb ps
    exact ⟨w, .letter hw⟩

theorem not_nullable_letter : ¬ Nullable emb (.letter a :: ps) := fun h => nomatch h

theorem nullable_loop : Nullable emb (.loop sep times body :: ps) ↔
    (times ≠ .plus ∨ Nullable emb body) ∧ Nullable emb ps := by
  constructor
  · intro h
    unfold Nullable at h
    generalize hw : ([] : List (Option α)) = w at h
    cases h with
    | skip htimes rest =>
      subst hw
      exact ⟨.inl htimes, rest⟩
    | last round rest =>
      obtain ⟨rfl, rfl⟩ := List.append_eq_nil_iff.mp hw.symm
      exact ⟨.inr round, rest⟩
    | lap htimes round hne rest | again htimes round hne rest =>
      exact absurd hw.symm (List.append_ne_nil_of_right_ne_nil _ (List.cons_ne_nil _ _))
    | blank htimes round rest => cases hw
  · rintro ⟨htimes | hbody, hps⟩
    · exact .skip htimes hps
    · exact .last hbody hps

theorem first_loop : First emb (.loop sep times body :: ps) a ↔
    First emb body a ∨ (times ≠ .plus ∨ Nullable emb body) ∧ First emb ps a := by
  constructor
  · rintro ⟨w, h⟩
    generalize hw : some a :: w = w' at h
    cases h with
    | skip htimes rest => exact .inr ⟨.inl htimes, w, hw ▸ rest⟩
    | @last _ _ _ _ u v round rest =>
      cases u with
      | nil => exact .inr ⟨.inr round, w, hw ▸ rest⟩
      | cons x u =>
        cases hw
        exact .inl ⟨u, round⟩
    | @lap _ _ _ _ u v htimes round hne rest | @again _ _ _ u v htimes round hne rest =>
      cases u with
      | nil => exact absurd rfl hne
      | cons x u =>
        cases hw
        exact .inl ⟨u, round⟩
    | blank htimes round rest => cases hw
  · rintro (⟨u, hu⟩ | ⟨htimes | hbody, v, hv⟩)
    · obtain ⟨w, hw⟩ := exists_yields emb ps
      exact ⟨u ++ w, .last hu hw⟩
    · exact ⟨v, .skip htimes hv⟩
    · exact ⟨v, .last hbody hv⟩

end Beginnings

/-! ## 2. Neighbours -/

def Adjacent (w : List α) (a b : α) : Prop := ∃ u v, w = u ++ a :: b :: v

section Adjacent

variable {a b x : α} {u v w : List α}

theorem not_adjacent_nil : ¬ Adjacent [] a b := fun ⟨_, _, h⟩ => by simp at h

theorem adjacent_cons : Adjacent (x :: w) a b ↔ a = x ∧ w.head? = some b ∨ Adjacent w a b := by
  constructor
  · rintro ⟨_ | ⟨y, u⟩, v, h⟩
    · cases h
      exact .inl ⟨rfl, rfl⟩
    · cases h
      exact .inr ⟨u, v, rfl⟩
  · rintro (⟨rfl, hw⟩ | ⟨u, v, rfl⟩)
    · obtain ⟨v, rfl⟩ := List.head?_eq_some_iff.mp hw
      exact ⟨[], v, rfl⟩
    · exact ⟨x :: u, v, rfl⟩

theorem not_adjacent_singleton : ¬ Adjacent [x] a b := by
  rw [adjacent_cons]
  rintro (⟨-, h⟩ | h)
  · cases h
  · exact not_adjacent_nil h

theorem Adjacent.append_right (h : Adjacent v a b) (u : List α) : Adjacent (u ++ v) a b := by
  obtain ⟨l, r, rfl⟩ := h
  exact ⟨u ++ l, r, (List.append_assoc _ _ _).symm⟩

theorem Adjacent.append_left (h : Adjacent u a b) (v : List α) : Adjacent (u ++ v) a b := by
  obtain ⟨l, r, rfl⟩ := h
  exact ⟨l, r ++ v, by simp⟩

/-- In two parts: within the first and the letter behind it, or within the second. -/
theorem Adjacent.of_append (h : Adjacent (u ++ v) a b) :
    Adjacent (u ++ v.head?.toList) a b ∨ Adjacent v a b := by
  induction u with
  | nil => exact .inr h
  | cons x u ih =>
    rcases adjacent_cons.mp h with ⟨rfl, hhead⟩ | h
    · refine .inl (adjacent_cons.mpr (.inl ⟨rfl, ?_⟩))
      cases u with
      | nil =>
        have hhead : v.head? = some b := hhead
        rw [hhead]
        rfl
      | cons y u => exact hhead
    · exact (ih h).imp (fun h => adjacent_cons.mpr (.inr h)) id

/-- Letters in two parts: no seam is between the two. -/
theorem adjacent_letters {a b : α} {u v : List (Option α)}
    (h : Adjacent (u ++ v) (some a) (some b)) :
    (∃ o : Option α, (∀ c ∈ o, v.head? = some (some c)) ∧
      Adjacent (u ++ (o.map some).toList) (some a) (some b)) ∨ Adjacent v (some a) (some b) := by
  refine h.of_append.imp_left fun h => ?_
  rcases hv : v.head? with _ | _ | c
  · rw [hv] at h
    exact ⟨none, nofun, h⟩
  · rw [hv] at h
    obtain ⟨l, r, hlr⟩ := h
    rcases r.eq_nil_or_concat with rfl | ⟨r, x, rfl⟩
    · have hlast := congrArg List.getLast? hlr
      simp at hlast
    · have hcut : u ++ [none] = (l ++ some a :: some b :: r) ++ [x] := by
        simpa [List.concat_eq_append] using hlr
      have hu := (List.append_inj' hcut rfl).1
      refine ⟨none, nofun, l, r, ?_⟩
      rw [Option.map_none, Option.toList_none, List.append_nil, hu]
  · rw [hv] at h
    refine ⟨some c, ?_, h⟩
    rintro _ ⟨⟩
    rfl

end Adjacent

/-- Side by side in a word, or at the end of a word and the beginning of what is outside. -/
def Meets (emb : σ → α) (ps : List (Rep σ α)) (outer : α → Prop) (a b : α) : Prop :=
  ∃ (w : List (Option α)) (o : Option α), Yields emb ps w ∧ (∀ c ∈ o, outer c) ∧
    Adjacent (w ++ (o.map some).toList) (some a) (some b)

/-- What comes after an iteration. -/
def AfterLap (emb : σ → α) (sep : Option σ) (times : Times) (ps : List (Rep σ α))
    (outer : α → Prop) (c : α) : Prop :=
  (∃ s, sep = some s ∧ emb s = c) ∧ times ≠ .opt ∨ After emb ps outer c

section Meets

variable {emb : σ → α} {a b x : α} {sep : Option σ} {times : Times} {body ps : List (Rep σ α)}
variable {outer outer' : α → Prop}

theorem Meets.mono (h : Meets emb ps outer a b) (hsub : ∀ c, outer c → outer' c) :
    Meets emb ps outer' a b := by
  obtain ⟨w, o, hw, ho, hadj⟩ := h
  exact ⟨w, o, hw, fun c hc => hsub c (ho c hc), hadj⟩

theorem not_meets_nil : ¬ Meets emb [] outer a b := by
  rintro ⟨w, o, hw, -, hadj⟩
  cases hw
  cases o with
  | none => exact not_adjacent_nil hadj
  | some c => exact not_adjacent_singleton hadj

/-- The beginning of the rest of a word and of what is outside. -/
theorem after_head {w : List (Option α)} {o : Option α} (hw : Yields emb ps w)
    (ho : ∀ c ∈ o, outer c) (h : (w ++ (o.map some).toList).head? = some (some b)) :
    After emb ps outer b := by
  cases w with
  | nil =>
    cases o with
    | none => cases h
    | some c =>
      cases h
      exact .inr ⟨hw, ho _ rfl⟩
  | cons y w =>
    cases h
    exact .inl ⟨w, hw⟩

theorem After.exists_word (h : After emb ps outer b) :
    ∃ (w : List (Option α)) (o : Option α), Yields emb ps w ∧ (∀ c ∈ o, outer c) ∧
      (w ++ (o.map some).toList).head? = some (some b) := by
  rcases h with ⟨w, hw⟩ | ⟨hnil, hb⟩
  · exact ⟨some b :: w, none, hw, nofun, rfl⟩
  · refine ⟨[], some b, hnil, ?_, rfl⟩
    rintro _ ⟨⟩
    exact hb

theorem meets_letter : Meets emb (.letter x :: ps) outer a b ↔
    a = x ∧ After emb ps outer b ∨ Meets emb ps outer a b := by
  constructor
  · rintro ⟨w, o, hw, ho, hadj⟩
    cases hw with
    | letter rest =>
      rcases adjacent_cons.mp hadj with ⟨ha, hhead⟩ | hadj
      · exact .inl ⟨Option.some.inj ha, after_head rest ho hhead⟩
      · exact .inr ⟨_, o, rest, ho, hadj⟩
  · rintro (⟨ha, hafter⟩ | ⟨w, o, hw, ho, hadj⟩)
    · obtain ⟨w, o, hw, ho, hhead⟩ := hafter.exists_word
      exact ⟨some x :: w, o, .letter hw, ho,
        adjacent_cons.mpr (.inl ⟨congrArg some ha, hhead⟩)⟩
    · exact ⟨some x :: w, o, .letter hw, ho, adjacent_cons.mpr (.inr hadj)⟩

/-- Neighbours at a repetition: within an iteration and what comes after it, or within the rest, or
    the first of them is the separator. -/
theorem Meets.of_loop (h : Meets emb (.loop sep times body :: ps) outer a b) :
    (∃ s, sep = some s ∧ emb s = a) ∨ Meets emb body (AfterLap emb sep times ps outer) a b ∨
      Meets emb ps outer a b := by
  obtain ⟨w, o, hw, ho, hadj⟩ := h
  generalize hpat : Rep.loop sep times body :: ps = pat at hw
  induction hw generalizing times with
  | nil => cases hpat
  | letter => cases hpat
  | skip htimes rest ih =>
    cases hpat
    exact .inr (.inr ⟨_, o, rest, ho, hadj⟩)
  | @last _ _ _ _ u w round rest =>
    cases hpat
    rw [List.append_assoc] at hadj
    rcases adjacent_letters hadj with ⟨o', hhead, hadj⟩ | hadj
    · exact .inr (.inl ⟨u, o', round, fun c hc => .inr (after_head rest ho (hhead c hc)), hadj⟩)
    · exact .inr (.inr ⟨w, o, rest, ho, hadj⟩)
  | @lap s times' _ _ u w htimes round hne rest _ ih =>
    cases hpat
    rw [List.append_assoc] at hadj
    rcases adjacent_letters hadj with ⟨o', hhead, hadj⟩ | hadj
    · refine .inr (.inl ⟨u, o', round, fun c hc => .inl ⟨⟨s, rfl, ?_⟩, htimes⟩, hadj⟩)
      exact Option.some.inj (Option.some.inj (hhead c hc))
    · rcases adjacent_cons.mp hadj with ⟨ha, -⟩ | hadj
      · exact .inl ⟨s, rfl, (Option.some.inj ha).symm⟩
      · exact (ih hadj rfl).imp_right (.imp_left (·.mono fun c => .imp_left fun h => ⟨h.1, htimes⟩))
  | @blank s times' _ _ w htimes round rest _ ih =>
    cases hpat
    rcases adjacent_cons.mp hadj with ⟨ha, -⟩ | hadj
    · cases ha
    · rcases adjacent_cons.mp hadj with ⟨ha, -⟩ | hadj
      · exact .inl ⟨s, rfl, (Option.some.inj ha).symm⟩
      · exact (ih hadj rfl).imp_right (.imp_left (·.mono fun c => .imp_left fun h => ⟨h.1, htimes⟩))
  | @again times' _ _ u w htimes round hne rest _ ih =>
    cases hpat
    rw [List.append_assoc] at hadj
    rcases adjacent_letters hadj with ⟨o', hhead, hadj⟩ | hadj
    · refine .inr (.inl ⟨u, o', round, fun c hc => ?_, hadj⟩)
      cases hhead c hc
    · rcases adjacent_cons.mp hadj with ⟨ha, -⟩ | hadj
      · cases ha
      · exact (ih hadj rfl).imp_right (.imp_left (·.mono fun c => .imp_left fun h => ⟨h.1, htimes⟩))

theorem Meets.loop_body (h : Meets emb body (AfterLap emb sep times ps outer) a b) :
    Meets emb (.loop sep times body :: ps) outer a b := by
  obtain ⟨u, o, hu, ho, hadj⟩ := h
  cases o with
  | none =>
    obtain ⟨w, hw⟩ := exists_yields emb ps
    refine ⟨u ++ w, none, .last hu hw, nofun, ?_⟩
    rw [Option.map_none, Option.toList_none, List.append_nil] at hadj ⊢
    exact hadj.append_left w
  | some c =>
    rcases ho c rfl with ⟨⟨s, rfl, rfl⟩, htimes⟩ | hafter
    · obtain ⟨u', hu'⟩ := exists_yields emb body
      obtain ⟨w, hw⟩ := exists_yields emb ps
      have hne : u ≠ [] := by
        rintro rfl
        exact not_adjacent_singleton hadj
      refine ⟨u ++ some (emb s) :: (u' ++ w), none, .lap htimes hu hne (.last hu' hw), nofun, ?_⟩
      rw [Option.map_none, Option.toList_none, List.append_nil, ← List.singleton_append,
        ← List.append_assoc]
      exact hadj.append_left _
    · obtain ⟨w, o, hw, ho, hhead⟩ := hafter.exists_word
      obtain ⟨v, hv⟩ := List.head?_eq_some_iff.mp hhead
      refine ⟨u ++ w, o, .last hu hw, ho, ?_⟩
      rw [List.append_assoc, hv, ← List.singleton_append, ← List.append_assoc]
      exact hadj.append_left v

theorem Meets.loop_rest (h : Meets emb ps outer a b) :
    Meets emb (.loop sep times body :: ps) outer a b := by
  obtain ⟨w, o, hw, ho, hadj⟩ := h
  obtain ⟨u, hu⟩ := exists_yields emb body
  refine ⟨u ++ w, o, .last hu hw, ho, ?_⟩
  rw [List.append_assoc]
  exact hadj.append_right u

end Meets

end Trustme.Lib
