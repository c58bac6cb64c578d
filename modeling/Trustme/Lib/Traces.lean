/-
  Subject:   Steps with a label or without one, and what is seen of a run: its labels.

  * `Run`, `Trace`: runs, and the labels of the runs from a state;
  * `Run.simulate`: a relation whose steps are answered by runs carries whole runs over;
  * `trace_iff`: two states whose runs answer each other have the same traces.
-/
import Mathlib.Logic.Relation

namespace Trustme.Lib

variable {S S' E : Type}

/-- A run, and the labels of its steps. -/
inductive Run (step : S → Option E → S → Prop) : S → List E → S → Prop where
  | refl (s : S) : Run step s [] s
  | tail {s s' s'' : S} {tr : List E} {l : Option E} (hrun : Run step s tr s')
      (hstep : step s' l s'') : Run step s (tr ++ l.toList) s''

/-- What can be seen from a state on. -/
def Trace (step : S → Option E → S → Prop) (s : S) (tr : List E) : Prop := ∃ s', Run step s tr s'

variable {step : S → Option E → S → Prop} {step' : S' → Option E → S' → Prop}

theorem Run.single {s s' : S} {l : Option E} (h : step s l s') : Run step s l.toList s' := by
  have h' : Run step s ([] ++ l.toList) s' := (Run.refl s).tail h
  rwa [List.nil_append] at h'

theorem Run.trans {s s' s'' : S} {tr tr' : List E} (h : Run step s tr s')
    (h' : Run step s' tr' s'') :
    Run step s (tr ++ tr') s'' := by
  induction h' with
  | refl => rwa [List.append_nil]
  | tail _ hstep ih =>
    rw [← List.append_assoc]
    exact ih.tail hstep

/-- Silent steps are a run without labels. -/
theorem Run.of_silent {s s' : S} (h : Relation.ReflTransGen (step · none ·) s s') :
    Run step s [] s' := by
  induction h with
  | refl => exact .refl s
  | tail _ hstep ih => exact ih.tail hstep

/-- Every step from related states is answered by a run with the same labels. -/
def Simulates (step : S → Option E → S → Prop) (step' : S' → Option E → S' → Prop)
    (R : S → S' → Prop) : Prop :=
  ∀ s t l s', R s t → step s l s' → ∃ t', Run step' t l.toList t' ∧ R s' t'

theorem Run.simulate {R : S → S' → Prop} (hR : Simulates step step' R) {s s' : S} {t : S'}
    {tr : List E} (h : Run step s tr s') (hst : R s t) : ∃ t', Run step' t tr t' ∧ R s' t' := by
  induction h with
  | refl => exact ⟨t, .refl t, hst⟩
  | tail _ hstep ih =>
    obtain ⟨t₁, hrun, h₁⟩ := ih
    obtain ⟨t₂, hrun', h₂⟩ := hR _ _ _ _ h₁ hstep
    exact ⟨t₂, hrun.trans hrun', h₂⟩

theorem Trace.simulate {R : S → S' → Prop} (hR : Simulates step step' R) {s : S} {t : S'}
    {tr : List E} (h : Trace step s tr) (hst : R s t) : Trace step' t tr := by
  obtain ⟨s', hrun⟩ := h
  obtain ⟨t', hrun', _⟩ := hrun.simulate hR hst
  exact ⟨t', hrun'⟩

/-- Two relations, one for each direction. -/
theorem trace_iff {R : S → S' → Prop} {R' : S' → S → Prop} (hR : Simulates step step' R)
    (hR' : Simulates step' step R') {s : S} {t : S'} (hst : R s t) (hts : R' t s) {tr : List E} :
    Trace step s tr ↔ Trace step' t tr :=
  ⟨fun h => h.simulate hR hst, fun h => h.simulate hR' hts⟩

end Trustme.Lib
