import RhinoRox.Minheap

/-!
# Heaps look at their elements through the comparison only

A function on elements that respects the comparison commutes with every operation of a
heap, faults included. The operations are thus determined by what the comparison can see.
-/

namespace RhinoRox

variable {α β : Type}

namespace Exec

theorem map_bind {γ : Type} (f : β → γ) (x : Exec α) (g : α → Exec β) :
    Except.map f (x >>= g) = x >>= fun a => (g a).map f := by
  cases x <;> rfl

theorem bind_map {γ : Type} (f : α → β) (x : Exec α) (g : β → Exec γ) :
    (Except.map f x >>= g) = x >>= fun a => g (f a) := by
  cases x <;> rfl

/-- Two runs that a pair of functions does not tell apart. -/
theorem map_cases {γ : Type} {f : α → γ} {g : β → γ} {x : Exec α} {y : Exec β} (h : x.map f = y.map g) :
    (∃ a b, x = .ok a ∧ y = .ok b ∧ f a = g b) ∨ ∃ e, x = .error e ∧ y = .error e := by
  cases x with
  | error e =>
    cases y with
    | error e' => exact .inr ⟨e, rfl, congrArg Except.error (Except.error.inj h).symm⟩
    | ok b => cases h
  | ok a =>
    cases y with
    | error e' => cases h
    | ok b => exact .inl ⟨a, b, rfl, rfl, Except.ok.inj h⟩

end Exec

/-! ## Arrays -/

def ArrayT.map (f : α → β) (a : ArrayT α) : ArrayT β := ⟨a.nelm, a.nrest, a.elm.map (Option.map f)⟩

section Arrays
variable (f : α → β) (a : ArrayT α)

@[simp] theorem arrayAt_map (i : ℤ) : arrayAt (a.map f) i = arrayAt a i := rfl

theorem arrayPush_map : arrayPush (a.map f) = ((arrayPush a).1, (arrayPush a).2.map f) := by
  rw [arrayPush, arrayPush]
  change (if 0 < a.nrest then _ else _) = _
  split
  · rfl
  · simp [ArrayT.map]

theorem arrayLoad_map (p : Option ℕ) : arrayLoad (a.map f) p = (arrayLoad a p).map f := by
  cases p with
  | none => rfl
  | some i =>
    simp only [arrayLoad, ArrayT.map, List.getElem?_map]
    cases a.elm[i]? with
    | none => rfl
    | some slot => cases slot <;> rfl

theorem arrayStore_map (x : α) (p : Option ℕ) :
    arrayStore (a.map f) (f x) p = (arrayStore a x p).map (ArrayT.map f) := by
  cases p with
  | none => rfl
  | some i =>
    simp only [arrayStore, ArrayT.map, List.length_map]
    split
    · simp [Except.map, ArrayT.map, List.map_set]
    · rfl

theorem arraySwap_map (p q : Option ℕ) :
    arraySwap (a.map f) p q = (arraySwap a p q).map (ArrayT.map f) := by
  simp only [arraySwap, arrayLoad_map, Exec.bind_map, Exec.map_bind, arrayStore_map]

end Arrays

/-! ## Sifting -/

section Sifting
variable {f : α → β} {comp : α → α → ℤ} {comp' : β → β → ℤ} (hcomp : ∀ x y, comp' (f x) (f y) = comp x y)
include hcomp

theorem shiftdown_map (a : ArrayT α) (start last : ℕ) :
    shiftdown comp' (a.map f) start last = (shiftdown comp a start last).map (ArrayT.map f) := by
  induction last using Nat.strong_induction_on generalizing a with
  | h last ih =>
    rw [shiftdown, shiftdown]
    split
    · rename_i hlt
      simp only [arrayAt_map, arrayLoad_map, Exec.bind_map, Exec.map_bind, hcomp]
      congr 1
      funext x
      congr 1
      funext y
      split
      · rw [arraySwap_map, Exec.bind_map, Exec.map_bind]
        congr 1
        funext a'
        exact ih _ (by omega) a'
      · rfl
    · rfl

theorem shiftupRight_map (a : ArrayT α) (ichild iend : ℕ) :
    shiftupRight comp' (a.map f) ichild iend = shiftupRight comp a ichild iend := by
  simp only [shiftupRight, arrayAt_map, arrayLoad_map, Exec.bind_map, hcomp]

theorem shiftupLoop_map (a : ArrayT α) (istart iend : ℕ) :
    shiftupLoop comp' (a.map f) istart iend =
      (shiftupLoop comp a istart iend).map fun r => (r.1.map f, r.2) := by
  induction h : iend - istart using Nat.strong_induction_on generalizing a istart with
  | h n ih =>
    rw [shiftupLoop, shiftupLoop]
    simp only
    split
    · rename_i hlt
      simp only [shiftupRight_map hcomp, arrayAt_map, arraySwap_map, Exec.bind_map, Exec.map_bind]
      congr 1
      funext right
      congr 1
      funext a'
      exact ih _ (by split <;> omega) a' _ rfl
    · rfl

theorem shiftup_map (a : ArrayT α) (start len : ℕ) :
    shiftup comp' (a.map f) start len = (shiftup comp a start len).map (ArrayT.map f) := by
  simp only [shiftup, shiftupLoop_map hcomp, Exec.bind_map, Exec.map_bind, shiftdown_map hcomp]

end Sifting

/-! ## Heaps -/

/-- The heap with other elements and the comparison that goes with them. -/
def Minheap.map (f : α → β) (comp' : β → β → ℤ) (h : Minheap α) : Minheap β := ⟨h.len, h.array.map f, comp'⟩

theorem Minheap.len_of_map {γ : Type} {f : α → γ} {g : β → γ} {comp comp' : γ → γ → ℤ} {h : Minheap α} {h' : Minheap β}
    (hmap : h.map f comp = h'.map g comp') : h.len = h'.len := (Minheap.mk.inj hmap).1

section Heaps
variable {f : α → β} {comp' : β → β → ℤ} {h : Minheap α} (hcomp : ∀ x y, comp' (f x) (f y) = h.comp x y)
include hcomp

theorem minheapPush_map (x : α) :
    minheapPush (h.map f comp') (f x) = (minheapPush h x).map (Minheap.map f comp') := by
  have hitem : minheapItem (h.map f comp') = ((minheapItem h).1, (minheapItem h).2.map f) := by
    simp only [minheapItem, Minheap.map, arrayLen, arrayPush_map]
    by_cases hfull : h.len = h.array.nelm
    · simp only [ArrayT.map, hfull, if_true]
    · have hfull' : ¬ h.len = (h.array.map f).nelm := hfull
      simp only [hfull, hfull', if_false, arrayAt_map]
  simp only [minheapPush, hitem, arrayStore_map, Exec.bind_map, Exec.map_bind]
  congr 1
  funext a
  simp only [Minheap.map, shiftdown_map hcomp, Exec.bind_map]
  rfl

omit hcomp in
theorem minheapPush_comp {h' : Minheap α} {x : α} (run : minheapPush h x = .ok h') : h'.comp = h.comp := by
  obtain ⟨a, -, run⟩ := Exec.bind_eq_ok.mp run
  obtain ⟨a', -, run⟩ := Exec.bind_eq_ok.mp run
  obtain rfl := Except.ok.inj run
  rfl

theorem minheapPop_map :
    minheapPop (h.map f comp') = (minheapPop h).map fun r => (r.1.map f, r.2.map f comp') := by
  rw [minheapPop, minheapPop]
  change (if h.len = 0 then _ else _) = _
  split
  · rfl
  · simp only [Minheap.map, arrayAt_map, arraySwap_map, Exec.bind_map, Exec.map_bind, shiftup_map hcomp,
      arrayLoad_map]
    rfl

omit hcomp in
theorem minheapPop_comp {h' : Minheap α} {x : Option α} (run : minheapPop h = .ok (x, h')) : h'.comp = h.comp := by
  rw [minheapPop] at run
  split at run
  · obtain ⟨-, rfl⟩ := Prod.mk.inj (Except.ok.inj run)
    rfl
  · obtain ⟨a, -, run⟩ := Exec.bind_eq_ok.mp run
    obtain ⟨a', -, run⟩ := Exec.bind_eq_ok.mp run
    obtain ⟨root, -, run⟩ := Exec.bind_eq_ok.mp run
    obtain ⟨-, rfl⟩ := Prod.mk.inj (Except.ok.inj run)
    rfl

omit hcomp in
theorem minheapMin_map : minheapMin (h.map f comp') = (minheapMin h).map (Option.map f) := by
  rw [minheapMin, minheapMin]
  change (if h.len = 0 then _ else _) = _
  split
  · rfl
  · simp only [Minheap.map, arrayAt_map, arrayLoad_map, Exec.bind_map, Exec.map_bind]
    rfl

end Heaps

end RhinoRox
