import Mathlib.Logic.Basic

/-!
# Executions that record what they do

An execution returns or fails, and in both cases leaves a record of the events on the way. Without
the record it is a plain fallible execution, and a property of all events is found part by part.
-/

namespace RhinoRox.RecordedRuns

universe u
variable {ν ε : Type u} {α β : Type u}

/-- The events of an execution, in order, and how it ends. -/
structure Recorded (ν ε α : Type u) where
  events : List ν
  result : Except ε α

instance : Monad (Recorded ν ε) where
  pure a := ⟨[], .ok a⟩
  bind x f :=
    match x.result with
    | .error e => ⟨x.events, .error e⟩
    | .ok a => ⟨x.events ++ (f a).events, (f a).result⟩

/-- An execution without events. -/
def silent (x : Except ε α) : Recorded ν ε α := ⟨[], x⟩

@[simp] theorem result_pure (a : α) : (pure a : Recorded ν ε α).result = .ok a := rfl

@[simp] theorem result_silent (x : Except ε α) : (silent x : Recorded ν ε α).result = x := rfl

@[simp] theorem result_bind (x : Recorded ν ε α) (f : α → Recorded ν ε β) :
    (x >>= f).result = x.result >>= fun a => (f a).result := by
  change (match x.result with
    | .error e => Recorded.mk x.events (.error e)
    | .ok a => ⟨x.events ++ (f a).events, (f a).result⟩).result = _
  cases x.result with
  | error e => rfl
  | ok a => rfl

theorem mem_events_bind {x : Recorded ν ε α} {f : α → Recorded ν ε β} {v : ν} :
    v ∈ (x >>= f).events ↔ v ∈ x.events ∨ ∃ a, x.result = .ok a ∧ v ∈ (f a).events := by
  change v ∈ (match x.result with
    | .error e => Recorded.mk x.events (.error e)
    | .ok a => ⟨x.events ++ (f a).events, (f a).result⟩).events ↔ _
  cases x.result with
  | error e => simp
  | ok a => simp

/-- Every event of the execution has the property. -/
def Always (p : ν → Prop) (x : Recorded ν ε α) : Prop := ∀ v ∈ x.events, p v

variable {p : ν → Prop}

@[simp] theorem always_pure (a : α) : Always p (pure a : Recorded ν ε α) := fun _ hv => nomatch hv

@[simp] theorem always_silent (x : Except ε α) : Always p (silent x : Recorded ν ε α) := fun _ hv => nomatch hv

/-- The events of a sequence are those of the first part, and, if it returns, of the second. -/
theorem always_bind {x : Recorded ν ε α} {f : α → Recorded ν ε β} :
    Always p (x >>= f) ↔ Always p x ∧ ∀ a, x.result = .ok a → Always p (f a) := by
  constructor
  · intro h
    constructor
    · intro v hv
      exact h v (mem_events_bind.mpr (Or.inl hv))
    · intro a ha v hv
      exact h v (mem_events_bind.mpr (Or.inr ⟨a, ha, hv⟩))
  · intro h v hv
    rcases mem_events_bind.mp hv with hx | ⟨a, ha, hf⟩
    · exact h.1 v hx
    · exact h.2 a ha v hf

theorem always_silent_bind {x : Except ε α} {f : α → Recorded ν ε β} :
    Always p (silent x >>= f) ↔ ∀ a, x = .ok a → Always p (f a) := by
  rw [always_bind]
  exact and_iff_right (always_silent x)

end RhinoRox.RecordedRuns
