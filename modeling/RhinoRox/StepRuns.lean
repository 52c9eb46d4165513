import Mathlib.Logic.Basic

/-!
# Properties of every step of a run

A run is a list of events that a fallible step function consumes from a state; it ends at the
first failure. Two properties of the single steps hold along the same runs if they agree wherever
an invariant holds that the steps keep.
-/

namespace RhinoRox.StepRuns

variable {σ ε φ : Type} {step : σ → ε → Except φ σ} {p q r : σ → ε → Prop} {inv : σ → Prop}

/-- A property of every event of a run, in the state in which it happens. -/
def EachStep (step : σ → ε → Except φ σ) (p : σ → ε → Prop) : σ → List ε → Prop
  | _, [] => True
  | s, e :: es => p s e ∧
    match step s e with
    | .ok s' => EachStep step p s' es
    | .error _ => True

theorem eachStep_cons {s s' : σ} {e : ε} {es : List ε} (hstep : step s e = .ok s') :
    EachStep step p s (e :: es) ↔ p s e ∧ EachStep step p s' es := by
  rw [EachStep, hstep]

theorem eachStep_of_forall (h : ∀ s e, p s e) (s : σ) (es : List ε) : EachStep step p s es := by
  induction es generalizing s with
  | nil => trivial
  | cons e es ih =>
    refine ⟨h s e, ?_⟩
    cases step s e with
    | ok s' => exact ih s'
    | error _ => trivial

/-- Along a run whose steps satisfy `r`, the properties `p` and `q` are the same if they are the
same at every step and `q` keeps the invariant. -/
theorem eachStep_iff (hpq : ∀ s e, inv s → r s e → (p s e ↔ q s e))
    (hkeep : ∀ s e, inv s → r s e → q s e → ∃ s', step s e = .ok s' ∧ inv s') {s : σ} (hs : inv s) {es : List ε}
    (hr : EachStep step r s es) : EachStep step p s es ↔ EachStep step q s es := by
  induction es generalizing s with
  | nil => exact Iff.rfl
  | cons e es ih =>
    have hagree := hpq s e hs hr.1
    by_cases hq : q s e
    · obtain ⟨s', hstep, hs'⟩ := hkeep s e hs hr.1 hq
      rw [eachStep_cons hstep] at hr
      rw [eachStep_cons hstep, eachStep_cons hstep, hagree, ih hs' hr.2]
    · exact iff_of_false (fun h => hq (hagree.mp h.1)) (fun h => hq h.1)

end RhinoRox.StepRuns
