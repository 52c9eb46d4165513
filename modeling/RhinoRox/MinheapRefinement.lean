import RhinoRox.MinheapInvariant

/-!
# The heap refines a priority queue over multisets

The abstract queue is a multiset with an order on its elements: which of several
minimal elements a pop returns is left open. Histories of calls are compared result by
result, and draining the heap sorts what it holds.
-/

namespace RhinoRox

variable {α : Type}

inductive HeapOp (α : Type) where
  | push (v : α)
  | pop
  | min
  | len

inductive HeapResult (α : Type) where
  | pushed
  | popped (v : Option α)
  | least (v : Option α)
  | count (n : ℕ)
  deriving DecidableEq, Repr

/-- One call on the heap. -/
def HeapOp.run (h : Minheap α) : HeapOp α → Exec (HeapResult α × Minheap α)
  | .push v => do
    let h' ← minheapPush h v
    pure (.pushed, h')
  | .pop => do
    let (x, h') ← minheapPop h
    pure (.popped x, h')
  | .min => do
    let x ← minheapMin h
    pure (.least x, h)
  | .len => pure (.count (minheapLen h), h)

def runHeap (h : Minheap α) : List (HeapOp α) → Exec (List (HeapResult α) × Minheap α)
  | [] => pure ([], h)
  | op :: ops => do
    let (r, h') ← op.run h
    let (rs, h'') ← runHeap h' ops
    pure (r :: rs, h'')

/-- The number of elements after a call on a queue of `n`. -/
def HeapOp.size (n : ℕ) : HeapOp α → ℕ
  | .push _ => n + 1
  | .pop => n - 1
  | .min | .len => n

/-- A history from a queue of `n` elements keeps fewer than `2 ^ 31` of them. -/
def Fits (n : ℕ) : List (HeapOp α) → Prop
  | [] => True
  | op :: ops => op.size n < 2 ^ 31 ∧ Fits (op.size n) ops

/-- One call on a multiset whose elements are ordered by `lt`. -/
inductive QueueStep (lt : α → α → Prop) : Multiset α → HeapOp α → HeapResult α → Multiset α → Prop where
  | push (m : Multiset α) (v : α) : QueueStep lt m (.push v) .pushed (v ::ₘ m)
  | popEmpty : QueueStep lt 0 .pop (.popped none) 0
  | pop (m : Multiset α) (x : α) (least : ∀ y ∈ m, ¬ lt y x) :
      QueueStep lt (x ::ₘ m) .pop (.popped (some x)) m
  | minEmpty : QueueStep lt 0 .min (.least none) 0
  | min (m : Multiset α) (x : α) (mem : x ∈ m) (least : ∀ y ∈ m, ¬ lt y x) :
      QueueStep lt m .min (.least (some x)) m
  | len (m : Multiset α) : QueueStep lt m .len (.count m.card) m

inductive QueueRun (lt : α → α → Prop) :
    Multiset α → List (HeapOp α) → List (HeapResult α) → Multiset α → Prop where
  | nil (m : Multiset α) : QueueRun lt m [] [] m
  | cons {m m' m'' : Multiset α} {op : HeapOp α} {r : HeapResult α} {ops : List (HeapOp α)}
      {rs : List (HeapResult α)} (step : QueueStep lt m op r m') (rest : QueueRun lt m' ops rs m'') :
      QueueRun lt m (op :: ops) (r :: rs) m''

/-- Pop until the heap is empty. -/
def drain (h : Minheap α) : ℕ → Exec (List α)
  | 0 => throw .divergence
  | fuel + 1 => do
    let (x, h') ← minheapPop h
    match x with
    | none => pure []
    | some x => do
      let xs ← drain h' fuel
      pure (x :: xs)

section Refinement
variable {c : Comparator α}

theorem minheapPop_empty {h : Minheap α} (h0 : h.len = 0) : minheapPop h = .ok (none, h) := by
  simp [minheapPop, h0]

/-- One call keeps the invariant and is a step of the queue. -/
theorem HeapOp.run_spec {h : Minheap α} (hi : h.Inv c) (op : HeapOp α)
    (hf : op.size h.len < 2 ^ 31) :
    ∃ r h', op.run h = .ok (r, h') ∧ h'.Inv c ∧ h'.len = op.size h.len ∧
      QueueStep c.Below h.toMultiset op r h'.toMultiset := by
  have hcard := hi.card_toMultiset
  cases op with
  | push v =>
    obtain ⟨h', hr, hi', hl, hm, -⟩ := minheapPush_spec hi hf v
    exact ⟨.pushed, h', by simp [HeapOp.run, hr], hi', hl, hm ▸ .push _ v⟩
  | pop =>
    rcases Nat.eq_zero_or_pos h.len with h0 | hpos
    · have hm : h.toMultiset = 0 := Multiset.card_eq_zero.mp (hcard.trans h0)
      exact ⟨.popped none, h, by simp [HeapOp.run, minheapPop_empty h0], hi, by simp [HeapOp.size, h0],
        hm ▸ .popEmpty⟩
    · obtain ⟨x, h', hr, hi', hl, hm, hleast, -⟩ := minheapPop_spec hi hpos
      exact ⟨.popped (some x), h', by simp [HeapOp.run, hr], hi', by simp [HeapOp.size]; omega,
        hm ▸ .pop _ x hleast⟩
  | min =>
    rcases Nat.eq_zero_or_pos h.len with h0 | hpos
    · have hm : h.toMultiset = 0 := Multiset.card_eq_zero.mp (hcard.trans h0)
      exact ⟨.least none, h, by simp [HeapOp.run, minheapMin, h0], hi, rfl, hm ▸ .minEmpty⟩
    · obtain ⟨x, hr, hmem, hleast⟩ := minheapMin_spec hi hpos
      exact ⟨.least (some x), h, by simp [HeapOp.run, hr], hi, rfl, .min _ x hmem hleast⟩
  | len => exact ⟨.count h.len, h, by simp [HeapOp.run, minheapLen], hi, rfl, hcard ▸ .len _⟩

theorem runHeap_spec {h : Minheap α} (hi : h.Inv c) (ops : List (HeapOp α)) (hf : Fits h.len ops) :
    ∃ rs h', runHeap h ops = .ok (rs, h') ∧ h'.Inv c ∧
      QueueRun c.Below h.toMultiset ops rs h'.toMultiset := by
  induction ops generalizing h with
  | nil => exact ⟨[], h, rfl, hi, .nil _⟩
  | cons op ops ih =>
    obtain ⟨r, h₁, hr, hi₁, hl, hs⟩ := op.run_spec hi hf.1
    obtain ⟨rs, h₂, hrs, hi₂, hrun⟩ := ih hi₁ (hl ▸ hf.2)
    exact ⟨r :: rs, h₂, by simp [runHeap, hr, hrs], hi₂, .cons hs hrun⟩

/-- Draining returns every element, smallest first. -/
theorem drain_spec {h : Minheap α} (hi : h.Inv c) {fuel : ℕ} (hf : h.len < fuel) :
    ∃ xs, drain h fuel = .ok xs ∧ (xs : Multiset α) = h.toMultiset ∧
      xs.Pairwise (fun x y => ¬ c.Below y x) := by
  induction fuel generalizing h with
  | zero => omega
  | succ fuel ih =>
    rcases Nat.eq_zero_or_pos h.len with h0 | hpos
    · have hm : h.toMultiset = 0 := Multiset.card_eq_zero.mp (hi.card_toMultiset.trans h0)
      exact ⟨[], by simp [drain, minheapPop_empty h0], by simp [hm], .nil⟩
    · obtain ⟨x, h', hr, hi', hl, hm, hleast, -⟩ := minheapPop_spec hi hpos
      obtain ⟨xs, hxs, hmx, hp⟩ := ih hi' (by omega)
      refine ⟨x :: xs, by simp [drain, hr, hxs], by rw [hm, ← hmx]; rfl, .cons ?_ hp⟩
      intro y hy
      exact hleast y (by rw [← hmx]; simpa using hy)

/-- The values pushed in a history. -/
def pushes : List (HeapOp α) → List α
  | [] => []
  | .push v :: ops => v :: pushes ops
  | _ :: ops => pushes ops

/-- The values popped in a history. -/
def pops : List (HeapResult α) → List α
  | [] => []
  | .popped (some x) :: rs => x :: pops rs
  | _ :: rs => pops rs

theorem QueueStep.conserve {lt : α → α → Prop} {m m' : Multiset α} {op : HeapOp α} {r : HeapResult α}
    (h : QueueStep lt m op r m') : m + (pushes [op] : Multiset α) = (pops [r] : Multiset α) + m' := by
  cases h <;> simp [pushes, pops, ← Multiset.singleton_add, Multiset.add_comm]

theorem QueueRun.conserve {lt : α → α → Prop} {m m' : Multiset α} {ops : List (HeapOp α)}
    {rs : List (HeapResult α)} (h : QueueRun lt m ops rs m') :
    m + (pushes ops : Multiset α) = (pops rs : Multiset α) + m' := by
  induction h with
  | nil m => simp [pushes, pops]
  | @cons m m' m'' op r ops rs step rest ih =>
    have hpush : (pushes (op :: ops) : Multiset α) = (pushes [op] : Multiset α) + (pushes ops : Multiset α) := by
      cases op <;> simp [pushes]
    have hpop : (pops (r :: rs) : Multiset α) = (pops [r] : Multiset α) + (pops rs : Multiset α) := by
      rcases r with _ | (_ | _) | _ | _ <;> simp [pops]
    rw [hpush, hpop, ← Multiset.add_assoc, step.conserve, Multiset.add_assoc, ih, Multiset.add_assoc]

/-- Every history of calls on a fresh heap is a run of the queue, and what the heap then
holds drains in order; popped and drained elements are the pushed ones. -/
theorem minheap_refines_queue (c : Comparator α) (n : ℕ) (ops : List (HeapOp α)) (hf : Fits 0 ops) :
    ∃ rs h xs, runHeap (minheapCreate n c.comp) ops = .ok (rs, h) ∧
      QueueRun c.Below 0 ops rs h.toMultiset ∧
      drain h (h.len + 1) = .ok xs ∧ (xs : Multiset α) = h.toMultiset ∧
      (pops rs ++ xs).Perm (pushes ops) ∧ xs.Pairwise (fun x y => c.comp x y ≤ 0) := by
  obtain ⟨rs, h, hr, hi, hrun⟩ := runHeap_spec (minheapCreate_inv c n) ops hf
  rw [minheapCreate_toMultiset] at hrun
  obtain ⟨xs, hx, hm, hp⟩ := drain_spec hi (Nat.lt_succ_self _)
  refine ⟨rs, h, xs, hr, hrun, hx, hm, ?_, hp.imp Comparator.not_below.mp⟩
  rw [← Multiset.coe_eq_coe, ← Multiset.coe_add, hm, ← hrun.conserve, Multiset.zero_add]

/-- The order of integers. -/
def intComparator : Comparator ℤ where
  comp x y := x - y
  swap _ _ := by omega
  trans _ _ _ _ _ := by omega

theorem minheap_refines_queue_push_pop :
    Fits 0 [HeapOp.push (3 : ℤ), .push 1, .pop] ∧
      ∃ rs h xs, runHeap (minheapCreate 0 intComparator.comp) [.push 3, .push 1, .pop] = .ok (rs, h) ∧
        QueueRun intComparator.Below 0 [.push 3, .push 1, .pop] rs h.toMultiset ∧
        drain h (h.len + 1) = .ok xs ∧ (xs : Multiset ℤ) = h.toMultiset ∧
        (pops rs ++ xs).Perm [3, 1] ∧ xs.Pairwise (fun x y => intComparator.comp x y ≤ 0) := by
  have hf : Fits 0 [HeapOp.push (3 : ℤ), .push 1, .pop] := by simp [Fits, HeapOp.size]
  exact ⟨hf, minheap_refines_queue intComparator 0 _ hf⟩

end Refinement

end RhinoRox
