import Mathlib.Logic.Basic

/-!
# Runs that serve requests

A run serves a list of requests in order, each with an outcome, and takes any number of silent
steps in between. Two systems are compared by a relation that silent steps of either side keep.
-/

namespace RhinoRox.ServedRuns

variable {σ σ' ρ ω ω' τ : Type}

inductive Serves (silent : σ → σ → Prop) (serve : σ → ρ → σ → ω → Prop) : σ → List ρ → σ → List ω → Prop where
  | done (s : σ) : Serves silent serve s [] s []
  | silent {s s₁ s₂ : σ} {rs : List ρ} {os : List ω} (step : silent s s₁) (rest : Serves silent serve s₁ rs s₂ os) :
      Serves silent serve s rs s₂ os
  | serve {s s₁ s₂ : σ} {r : ρ} {rs : List ρ} {o : ω} {os : List ω} (step : serve s r s₁ o)
      (rest : Serves silent serve s₁ rs s₂ os) : Serves silent serve s (r :: rs) s₂ (o :: os)

variable {silent : σ → σ → Prop} {serve : σ → ρ → σ → ω → Prop} {silent' : σ' → σ' → Prop}
  {serve' : σ' → ρ → σ' → ω' → Prop} {inv : σ → Prop} {R : σ → σ' → Prop} {allowed : ρ → Prop}

/-- What holds of the outcome of every request in a state with the invariant holds of all
outcomes of a run. -/
theorem Serves.outcomes {p : ω → Prop} (hsilent : ∀ s s₁, inv s → silent s s₁ → inv s₁)
    (hserve : ∀ s r s₁ o, inv s → serve s r s₁ o → inv s₁ ∧ p o) {s s₁ : σ} {rs : List ρ} {os : List ω}
    (run : Serves silent serve s rs s₁ os) (hs : inv s) : ∀ o ∈ os, p o := by
  induction run with
  | done s =>
    intro o ho
    cases ho
  | silent step _ ih => exact ih (hsilent _ _ hs step)
  | serve step _ ih =>
    obtain ⟨hinv, hp⟩ := hserve _ _ _ _ hs step
    intro o ho
    cases ho with
    | head => exact hp
    | tail _ ho => exact ih hinv o ho

/-- If the other side can answer every request of a run, it has a run of its own. -/
theorem Serves.exists_run (hsilent : ∀ s s₁ t, R s t → silent s s₁ → R s₁ t)
    (hserve : ∀ s r s₁ o t, allowed r → R s t → serve s r s₁ o → ∃ t₁ o', serve' t r t₁ o' ∧ R s₁ t₁)
    {s s₁ : σ} {rs : List ρ} {os : List ω} (run : Serves silent serve s rs s₁ os) (hrs : ∀ r ∈ rs, allowed r)
    {t : σ'} (h : R s t) : ∃ t₁ os', Serves silent' serve' t rs t₁ os' := by
  induction run generalizing t with
  | done s => exact ⟨t, [], .done t⟩
  | silent step _ ih => exact ih hrs (hsilent _ _ _ h step)
  | serve step _ ih =>
    obtain ⟨t₁, o', hstep, h₁⟩ := hserve _ _ _ _ _ (hrs _ List.mem_cons_self) h step
    obtain ⟨t₂, os', hrest⟩ := ih (fun r hr => hrs r (List.mem_cons_of_mem _ hr)) h₁
    exact ⟨t₂, o' :: os', .serve hstep hrest⟩

section Agreement
variable {view : ω → τ} {view' : ω' → τ} (hsilent : ∀ s s₁ t, R s t → silent s s₁ → R s₁ t)
  (hsilent' : ∀ s t t₁, R s t → silent' t t₁ → R s t₁)
  (hserve : ∀ s r s₁ o t t₁ o', allowed r → R s t → serve s r s₁ o → serve' t r t₁ o' → R s₁ t₁ ∧ view o = view' o')
include hsilent'

/-- The other side before it serves its next request. -/
theorem Serves.next {t t₂ : σ'} {r : ρ} {rs : List ρ} {os : List ω'} (run : Serves silent' serve' t (r :: rs) t₂ os)
    {s : σ} (h : R s t) :
    ∃ t₀ t₁ o os₁, R s t₀ ∧ serve' t₀ r t₁ o ∧ Serves silent' serve' t₁ rs t₂ os₁ ∧ os = o :: os₁ := by
  generalize hrs : r :: rs = reqs at run
  induction run with
  | done t => cases hrs
  | silent step _ ih => exact ih (hsilent' _ _ _ h step) hrs
  | serve step rest _ =>
    obtain ⟨rfl, rfl⟩ := List.cons.inj hrs
    exact ⟨_, _, _, _, h, step, rest, rfl⟩

theorem Serves.finish {t t₂ : σ'} {os : List ω'} (run : Serves silent' serve' t ([] : List ρ) t₂ os) {s : σ}
    (h : R s t) : R s t₂ ∧ os = [] := by
  generalize hrs : ([] : List ρ) = reqs at run
  induction run with
  | done t => exact ⟨h, rfl⟩
  | silent step _ ih => exact ih (hsilent' _ _ _ h step) hrs
  | serve step rest _ => cases hrs

include hsilent hserve

/-- Runs of both sides on the same requests show the same outcomes, wherever their silent steps
fall. -/
theorem Serves.agree {s s₂ : σ} {rs : List ρ} {os : List ω} (run : Serves silent serve s rs s₂ os)
    (hrs : ∀ r ∈ rs, allowed r) {t t₂ : σ'} {os' : List ω'} (run' : Serves silent' serve' t rs t₂ os') (h : R s t) :
    R s₂ t₂ ∧ os.map view = os'.map view' := by
  induction run generalizing t os' with
  | done s =>
    obtain ⟨h₂, rfl⟩ := Serves.finish hsilent' run' h
    exact ⟨h₂, rfl⟩
  | silent step _ ih => exact ih hrs run' (hsilent _ _ _ h step)
  | serve step _ ih =>
    obtain ⟨t₀, t₁, o', os₁, h₀, hstep, hrest, rfl⟩ := Serves.next hsilent' run' h
    obtain ⟨h₁, hview⟩ := hserve _ _ _ _ _ _ _ (hrs _ List.mem_cons_self) h₀ step hstep
    obtain ⟨h₂, hviews⟩ := ih (fun r hr => hrs r (List.mem_cons_of_mem _ hr)) hrest h₁
    refine ⟨h₂, ?_⟩
    rw [List.map_cons, List.map_cons, hview, hviews]

end Agreement

end RhinoRox.ServedRuns
