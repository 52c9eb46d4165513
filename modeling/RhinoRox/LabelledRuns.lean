import Mathlib.Logic.Basic

/-!
# Runs with visible labels

A run is a list of labels that the steps of a system show. A simulation carries every run of one
system over to a run of another one with the same labels.
-/

namespace RhinoRox.LabelledRuns

variable {σ τ ε : Type}

inductive Run (step : σ → ε → σ → Prop) : σ → List ε → σ → Prop where
  | nil (s : σ) : Run step s [] s
  | cons {s s₁ s₂ : σ} {e : ε} {es : List ε} (head : step s e s₁) (rest : Run step s₁ es s₂) :
      Run step s (e :: es) s₂

variable {step : σ → ε → σ → Prop} {step' : τ → ε → τ → Prop}

theorem Run.one {s s₁ : σ} {e : ε} (h : step s e s₁) : Run step s [e] s₁ := .cons h (.nil s₁)

theorem Run.append {s s₁ s₂ : σ} {es es' : List ε} (h : Run step s es s₁) (h' : Run step s₁ es' s₂) :
    Run step s (es ++ es') s₂ := by
  induction h with
  | nil s => exact h'
  | cons head _ ih => exact .cons head (ih h')

/-- What every step keeps holds after every run. -/
theorem Run.invariant {inv : σ → Prop} (hstep : ∀ s e s₁, inv s → step s e s₁ → inv s₁) {s s₁ : σ} {es : List ε}
    (h : Run step s es s₁) (hs : inv s) : inv s₁ := by
  induction h with
  | nil s => exact hs
  | cons head _ ih => exact ih (hstep _ _ _ hs head)

/-- Every step of one system can be answered by a step of the other with the same label. -/
def Simulation (step : σ → ε → σ → Prop) (step' : τ → ε → τ → Prop) (R : σ → τ → Prop) : Prop :=
  ∀ s e s₁ t, R s t → step s e s₁ → ∃ t₁, step' t e t₁ ∧ R s₁ t₁

theorem Run.simulate {R : σ → τ → Prop} (hsim : Simulation step step' R) {s s₁ : σ} {es : List ε}
    (h : Run step s es s₁) {t : τ} (hst : R s t) : ∃ t₁, Run step' t es t₁ ∧ R s₁ t₁ := by
  induction h generalizing t with
  | nil s => exact ⟨t, .nil t, hst⟩
  | cons head _ ih =>
    obtain ⟨t₁, hhead, h₁⟩ := hsim _ _ _ _ hst head
    obtain ⟨t₂, hrest, h₂⟩ := ih h₁
    exact ⟨t₂, .cons hhead hrest, h₂⟩

end RhinoRox.LabelledRuns
