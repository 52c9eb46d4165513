import RhinoRox.MinheapRefinement
import RhinoRox.RecordedRuns

/-!
# The slots that the heap fetches from its array

`array_at` narrows the number of elements to an `int`, while the heap counts in `unsigned long` and
indexes with `long`. The operations of the heap stand here once more with a record of their calls
of `array_at`; without the record they are the functions of the source.
-/

namespace RhinoRox

open RecordedRuns

variable {α : Type}

/-! ## `array_at` -/

/-- The slot that an index stands for, counted from the end if it is negative. -/
def slotAt (nelm : ℕ) (i : ℤ) : Option ℕ :=
  if 0 ≤ i ∧ i < nelm then some i.toNat
  else if -nelm ≤ i ∧ i < 0 then some (nelm + i).toNat
  else none

/-- The number of elements that `array_at` compares with, where a negative one counts as none. -/
def narrowCount (nelm : ℕ) : ℕ := if nelm % 2 ^ 32 < 2 ^ 31 then nelm % 2 ^ 32 else 0

/-- An index counts in the same way with the narrowed number of elements, or is outside the array.
The smallest `long` has no negative: it is never found outside. -/
def SameCount (nelm : ℕ) (i : ℤ) : Prop :=
  if 0 ≤ i then i < narrowCount nelm ∨ nelm ≤ i
  else if i = -2 ^ 63 then nelm = 2 ^ 63
  else -i ≤ narrowCount nelm ∨ nelm < -i

instance (nelm : ℕ) (i : ℤ) : Decidable (SameCount nelm i) := inferInstanceAs (Decidable (ite _ _ _))

theorem narrowCount_le (n : ℕ) : narrowCount n ≤ n := by
  rw [narrowCount]
  split <;> omega

theorem narrowCount_of_lt {n : ℕ} (hn : n < 2 ^ 31) : narrowCount n = n := by
  rw [narrowCount, if_pos (by omega)]
  omega

theorem toInt32_natCast (n : ℕ) :
    toInt32 n = narrowCount n ∨ (-2 ^ 31 ≤ toInt32 n ∧ toInt32 n < 0 ∧ narrowCount n = 0) := by
  have hsize : ((Int32.size : ℕ) : ℤ) = 2 ^ 32 := by decide
  rw [toInt32, Int32.toInt_ofInt, Int.bmod_def, hsize, narrowCount]
  by_cases hpos : n % 2 ^ 32 < 2 ^ 31
  · rw [if_pos hpos, if_pos (by omega)]
    left
    push_cast
    rfl
  · rw [if_neg hpos, if_neg (by omega)]
    right
    exact ⟨by omega, by omega, rfl⟩

theorem arrayAt_of_nonneg {a : ArrayT α} {i : ℤ} (hi : 0 ≤ i) :
    arrayAt a i = if i < narrowCount a.nelm then some i.toNat else none := by
  have hnarrow := toInt32_natCast a.nelm
  rw [RhinoRox.arrayAt]
  by_cases hlt : i < narrowCount a.nelm
  · rw [if_pos hlt, if_neg (by omega), if_pos hi]
  · rw [if_neg hlt, if_pos (Or.inl (by omega))]

theorem arrayAt_of_neg {a : ArrayT α} {i : ℤ} (hi : i < 0) (hlong : -2 ^ 63 < i) (hn : a.nelm ≤ 2 ^ 63) :
    arrayAt a i = if -i ≤ narrowCount a.nelm then some (a.nelm + i).toNat else none := by
  have hnarrow := toInt32_natCast a.nelm
  have hneg : toInt64 (-i) = -i := toInt64_of_lt (by omega) (by omega)
  have hle := narrowCount_le a.nelm
  rw [RhinoRox.arrayAt, hneg]
  by_cases hlt : -i ≤ narrowCount a.nelm
  · rw [if_pos hlt, if_neg (by omega), if_neg (by omega), Int.emod_eq_of_lt (by omega) (by omega)]
  · rw [if_neg hlt, if_pos (Or.inr ⟨hi, by omega⟩)]

/-- The smallest `long` passes both comparisons. -/
theorem arrayAt_smallest (a : ArrayT α) :
    arrayAt a (-2 ^ 63) = some ((a.nelm + 2 ^ 63) % 2 ^ 64) := by
  have hneg : toInt64 (-(-2 ^ 63)) = -2 ^ 63 := by decide
  have hnarrow := toInt32_natCast a.nelm
  rw [RhinoRox.arrayAt, hneg, if_neg (by omega), if_neg (by omega)]
  rw [Option.some.injEq]
  omega

theorem slotAt_of_nonneg {n : ℕ} {i : ℤ} (hi : 0 ≤ i) : slotAt n i = if i < n then some i.toNat else none := by
  rw [slotAt]
  by_cases hlt : i < n
  · rw [if_pos hlt, if_pos ⟨hi, hlt⟩]
  · rw [if_neg hlt, if_neg (fun h => hlt h.2), if_neg (by omega)]

theorem slotAt_of_neg {n : ℕ} {i : ℤ} (hi : i < 0) : slotAt n i = if -i ≤ n then some (n + i).toNat else none := by
  rw [slotAt, if_neg (by omega)]
  by_cases hin : -i ≤ n
  · rw [if_pos hin, if_pos ⟨by omega, hi⟩]
  · rw [if_neg hin, if_neg (by omega)]

theorem ite_some_eq_iff {p q : Prop} [Decidable p] [Decidable q] {x : α} :
    (if p then some x else none) = (if q then some x else none) ↔ (p ↔ q) := by
  by_cases hp : p <;> by_cases hq : q <;> simp [hp, hq]

theorem arrayAt_eq_slotAt_iff {a : ArrayT α} (hn : a.nelm ≤ 2 ^ 63) {i : ℤ} (hlow : -2 ^ 63 ≤ i) :
    arrayAt a i = slotAt a.nelm i ↔ SameCount a.nelm i := by
  have hle := narrowCount_le a.nelm
  rw [SameCount]
  by_cases h0 : 0 ≤ i
  · rw [arrayAt_of_nonneg h0, slotAt_of_nonneg h0, ite_some_eq_iff, if_pos h0]
    omega
  rw [if_neg h0]
  by_cases hsmall : i = -2 ^ 63
  · subst hsmall
    rw [arrayAt_smallest, slotAt_of_neg (by decide), if_pos rfl]
    by_cases hall : a.nelm = 2 ^ 63
    · rw [if_pos (by omega), hall]
      exact iff_of_true rfl rfl
    · rw [if_neg (by omega)]
      exact iff_of_false (by simp) hall
  · rw [arrayAt_of_neg (by omega) (by omega) hn, slotAt_of_neg (by omega), if_neg hsmall, ite_some_eq_iff]
    omega

/-! ## The operations with a record -/

/-- A call of `array_at` for the slot `index`, and what it returns. -/
structure Fetch where
  index : ℕ
  slot : Option ℕ

/-- The call returns the slot of its index. -/
def Fetch.Right (f : Fetch) : Prop := f.slot = some f.index

abbrev Fetching := Recorded Fetch Fault

def fetch (a : ArrayT α) (i : ℕ) : Fetching (Option ℕ) := ⟨[⟨i, arrayAt a i⟩], .ok (arrayAt a i)⟩

def shiftdownFetching (comp : α → α → ℤ) (a : ArrayT α) (start last : ℕ) : Fetching (ArrayT α) :=
  if start < last then do
    let child ← fetch a last
    let i := (last - 1) / 2
    let parent ← fetch a i
    let x ← silent (arrayLoad a child)
    let y ← silent (arrayLoad a parent)
    if comp x y < 0 then do
      let a' ← silent (arraySwap a child parent)
      shiftdownFetching comp a' start i
    else pure a
  else pure a
termination_by last

def shiftupRightFetching (comp : α → α → ℤ) (a : ArrayT α) (ichild iend : ℕ) : Fetching Bool :=
  let iright := ichild + 1
  if iright < iend then do
    let child ← fetch a ichild
    let right ← fetch a iright
    let x ← silent (arrayLoad a child)
    let y ← silent (arrayLoad a right)
    pure (decide (comp x y > 0))
  else pure false

def shiftupLoopFetching (comp : α → α → ℤ) (a : ArrayT α) (istart iend : ℕ) : Fetching (ArrayT α × ℕ) :=
  let ichild := 2 * istart + 1
  if ichild < iend then do
    let right ← shiftupRightFetching comp a ichild iend
    let ichild' := if right then ichild + 1 else ichild
    let parent ← fetch a istart
    let child ← fetch a ichild'
    let a' ← silent (arraySwap a parent child)
    shiftupLoopFetching comp a' ichild' iend
  else pure (a, istart)
termination_by iend - istart
decreasing_by split <;> omega

def shiftupFetching (comp : α → α → ℤ) (a : ArrayT α) (start len : ℕ) : Fetching (ArrayT α) := do
  let (a', istart) ← shiftupLoopFetching comp a start len
  shiftdownFetching comp a' start istart

def minheapItemFetching (h : Minheap α) : Fetching (Option ℕ × ArrayT α) :=
  if h.len = arrayLen h.array then pure (arrayPush h.array)
  else do
    let item ← fetch h.array h.len
    pure (item, h.array)

def minheapPushFetching (h : Minheap α) (val : α) : Fetching (Minheap α) := do
  let (item, a) ← minheapItemFetching h
  let a' ← silent (arrayStore a val item)
  let a'' ← shiftdownFetching h.comp a' 0 h.len
  pure { h with array := a'', len := h.len + 1 }

def minheapPopFetching (h : Minheap α) : Fetching (Option α × Minheap α) :=
  if h.len = 0 then pure (none, h)
  else do
    let first ← fetch h.array 0
    let last ← fetch h.array (h.len - 1)
    let a ← silent (arraySwap h.array first last)
    let a' ← shiftupFetching h.comp a 0 (h.len - 1)
    let slot ← fetch a' (h.len - 1)
    let root ← silent (arrayLoad a' slot)
    pure (some root, { h with array := a', len := h.len - 1 })

def minheapMinFetching (h : Minheap α) : Fetching (Option α) :=
  if h.len = 0 then pure none
  else do
    let root ← fetch h.array 0
    let x ← silent (arrayLoad h.array root)
    pure (some x)

def HeapOp.runFetching (h : Minheap α) : HeapOp α → Fetching (HeapResult α × Minheap α)
  | .push v => do
    let h' ← minheapPushFetching h v
    pure (.pushed, h')
  | .pop => do
    let (x, h') ← minheapPopFetching h
    pure (.popped x, h')
  | .min => do
    let x ← minheapMinFetching h
    pure (.least x, h)
  | .len => pure (.count (minheapLen h), h)

def runHeapFetching (h : Minheap α) : List (HeapOp α) → Fetching (List (HeapResult α) × Minheap α)
  | [] => pure ([], h)
  | op :: ops => do
    let (r, h') ← op.runFetching h
    let (rs, h'') ← runHeapFetching h' ops
    pure (r :: rs, h'')

/-! ## Without the record -/

@[simp] theorem fetch_result (a : ArrayT α) (i : ℕ) : (fetch a i).result = .ok (arrayAt a i) := rfl

@[simp] theorem shiftdownFetching_result (comp : α → α → ℤ) (a : ArrayT α) (start last : ℕ) :
    (shiftdownFetching comp a start last).result = shiftdown comp a start last := by
  induction last using Nat.strong_induction_on generalizing a with
  | _ last ih =>
    rw [shiftdownFetching, shiftdown]
    by_cases hlt : start < last
    · have hi : (last - 1) / 2 < last := by omega
      simp only [if_pos hlt, result_bind, fetch_result, result_silent, Exec.ok_bind, apply_ite Recorded.result,
        ih _ hi, result_pure, Exec.pure_eq]
    · rw [if_neg hlt, if_neg hlt, result_pure, Exec.pure_eq]

@[simp] theorem shiftupRightFetching_result (comp : α → α → ℤ) (a : ArrayT α) (ichild iend : ℕ) :
    (shiftupRightFetching comp a ichild iend).result = shiftupRight comp a ichild iend := by
  rw [shiftupRightFetching, shiftupRight]
  by_cases hlt : ichild + 1 < iend
  · simp only [if_pos hlt, result_bind, fetch_result, result_silent, Exec.ok_bind, result_pure, Exec.pure_eq]
  · simp only [if_neg hlt, result_pure, Exec.pure_eq]

@[simp] theorem shiftupLoopFetching_result (comp : α → α → ℤ) (a : ArrayT α) (istart iend : ℕ) :
    (shiftupLoopFetching comp a istart iend).result = shiftupLoop comp a istart iend := by
  induction hn : iend - istart using Nat.strong_induction_on generalizing a istart with
  | _ n ih =>
    rw [shiftupLoopFetching, shiftupLoop]
    by_cases hlt : 2 * istart + 1 < iend
    · have hnext : ∀ (right : Bool) (b : ArrayT α),
          (shiftupLoopFetching comp b (if right then 2 * istart + 1 + 1 else 2 * istart + 1) iend).result =
            shiftupLoop comp b (if right then 2 * istart + 1 + 1 else 2 * istart + 1) iend := by
        intro right b
        refine ih _ ?_ b _ rfl
        split <;> omega
      simp only [if_pos hlt, result_bind, shiftupRightFetching_result, fetch_result, result_silent, Exec.ok_bind,
        hnext]
    · simp only [if_neg hlt, result_pure, Exec.pure_eq]

@[simp] theorem shiftupFetching_result (comp : α → α → ℤ) (a : ArrayT α) (start len : ℕ) :
    (shiftupFetching comp a start len).result = shiftup comp a start len := by
  simp only [shiftupFetching, shiftup, result_bind, shiftupLoopFetching_result, shiftdownFetching_result]

@[simp] theorem minheapItemFetching_result (h : Minheap α) :
    (minheapItemFetching h).result = .ok (minheapItem h) := by
  rw [minheapItemFetching, minheapItem]
  by_cases hfull : h.len = arrayLen h.array
  · rw [if_pos hfull, if_pos hfull, result_pure]
  · simp only [if_neg hfull, result_bind, fetch_result, Exec.ok_bind, result_pure]

/-- Without the record the push is the one of the source. -/
@[simp] theorem minheapPushFetching_result (h : Minheap α) (val : α) :
    (minheapPushFetching h val).result = minheapPush h val := by
  simp only [minheapPushFetching, minheapPush, result_bind, minheapItemFetching_result, Exec.ok_bind, result_silent,
    shiftdownFetching_result, result_pure, Exec.pure_eq]

/-- Without the record the pop is the one of the source. -/
@[simp] theorem minheapPopFetching_result (h : Minheap α) : (minheapPopFetching h).result = minheapPop h := by
  rw [minheapPopFetching, minheapPop]
  by_cases hempty : h.len = 0
  · rw [if_pos hempty, if_pos hempty, result_pure, Exec.pure_eq]
  · simp only [if_neg hempty, result_bind, fetch_result, Exec.ok_bind, result_silent, shiftupFetching_result,
      result_pure, Exec.pure_eq]
    rfl

@[simp] theorem minheapMinFetching_result (h : Minheap α) : (minheapMinFetching h).result = minheapMin h := by
  rw [minheapMinFetching, minheapMin]
  by_cases hempty : h.len = 0
  · rw [if_pos hempty, if_pos hempty, result_pure, Exec.pure_eq]
  · simp only [if_neg hempty, result_bind, fetch_result, Exec.ok_bind, result_silent, result_pure, Exec.pure_eq]
    rfl

@[simp] theorem HeapOp.runFetching_result (h : Minheap α) (op : HeapOp α) : (op.runFetching h).result = op.run h := by
  cases op with
  | push v => simp [HeapOp.runFetching, HeapOp.run]
  | pop => simp [HeapOp.runFetching, HeapOp.run]
  | min => simp [HeapOp.runFetching, HeapOp.run]
  | len => rfl

/-- Without the record a run is one of the source's calls. -/
theorem runHeapFetching_result (h : Minheap α) (ops : List (HeapOp α)) :
    (runHeapFetching h ops).result = runHeap h ops := by
  induction ops generalizing h with
  | nil => rfl
  | cons op ops ih =>
    simp only [runHeapFetching, runHeap, result_bind, HeapOp.runFetching_result, ih, result_pure, Exec.pure_eq]

/-! ## Which fetches are right -/

theorem always_fetch {a : ArrayT α} {i : ℕ} : Always Fetch.Right (fetch a i) ↔ i < narrowCount a.nelm := by
  have hone : Always Fetch.Right (fetch a i) ↔ arrayAt a i = some i := by
    simp [Always, fetch, Fetch.Right]
  rw [hone, arrayAt_of_nonneg (by omega)]
  simp only [Int.ofNat_lt]
  by_cases hlt : i < narrowCount a.nelm
  · rw [if_pos hlt, Int.toNat_natCast]
    exact iff_of_true rfl hlt
  · rw [if_neg hlt]
    exact iff_of_false (by simp) hlt

theorem always_fetch_bind {β : Type} {a : ArrayT α} {i : ℕ} {f : Option ℕ → Fetching β} :
    Always Fetch.Right (fetch a i >>= f) ↔
      i < narrowCount a.nelm ∧ Always Fetch.Right (f (arrayAt a i)) := by
  rw [always_bind, always_fetch]
  simp

/-- The first fetch has the largest index. -/
theorem always_shiftdown {comp : α → α → ℤ} {a : ArrayT α} {start last : ℕ} :
    Always Fetch.Right (shiftdownFetching comp a start last) ↔
      (start < last → last < narrowCount a.nelm) := by
  induction last using Nat.strong_induction_on generalizing a with
  | _ last ih =>
    rw [shiftdownFetching]
    by_cases hlt : start < last
    · rw [if_pos hlt, always_fetch_bind]
      constructor
      · intro h _
        exact h.1
      · intro h
        have hlast := h hlt
        rw [always_fetch_bind, always_silent_bind]
        refine ⟨hlast, by omega, fun x _ => ?_⟩
        rw [always_silent_bind]
        intro y _
        -- a swap goes on from the parent, whose index is smaller
        by_cases hcomp : comp x y < 0
        · rw [if_pos hcomp, always_silent_bind]
          intro b hb
          apply (ih _ (by omega)).mpr
          intro _
          rw [(arraySwap_size hb).nelm]
          omega
        · rw [if_neg hcomp]
          exact always_pure a
    · rw [if_neg hlt]
      exact iff_of_true (always_pure a) (fun h => absurd h hlt)

theorem always_shiftupRight {comp : α → α → ℤ} {a : ArrayT α} {ichild iend : ℕ} (h : iend ≤ narrowCount a.nelm) :
    Always Fetch.Right (shiftupRightFetching comp a ichild iend) := by
  rw [shiftupRightFetching]
  by_cases hlt : ichild + 1 < iend
  · rw [if_pos hlt, always_fetch_bind, always_fetch_bind, always_silent_bind]
    refine ⟨by omega, by omega, fun x _ => ?_⟩
    rw [always_silent_bind]
    intro y _
    exact always_pure _
  · rw [if_neg hlt]
    exact always_pure _

theorem always_shiftupLoop {comp : α → α → ℤ} {a : ArrayT α} {istart iend : ℕ} (h : iend ≤ narrowCount a.nelm) :
    Always Fetch.Right (shiftupLoopFetching comp a istart iend) := by
  induction hn : iend - istart using Nat.strong_induction_on generalizing a istart with
  | _ n ih =>
    rw [shiftupLoopFetching]
    by_cases hlt : 2 * istart + 1 < iend
    · rw [if_pos hlt, always_bind]
      refine ⟨always_shiftupRight h, fun right hright => ?_⟩
      rw [shiftupRightFetching_result] at hright
      have hchild := shiftupRight_lt hright hlt
      have hdown : iend - (if right then 2 * istart + 1 + 1 else 2 * istart + 1) < n := by
        split <;> omega
      rw [always_fetch_bind, always_fetch_bind, always_silent_bind]
      refine ⟨by omega, by omega, fun b hb => ?_⟩
      exact ih _ hdown ((arraySwap_size hb).nelm ▸ h) rfl
    · rw [if_neg hlt]
      exact always_pure _

theorem always_shiftup {comp : α → α → ℤ} {a : ArrayT α} {len : ℕ} (h : len ≤ narrowCount a.nelm) :
    Always Fetch.Right (shiftupFetching comp a 0 len) := by
  rw [shiftupFetching, always_bind]
  refine ⟨always_shiftupLoop h, fun r hr => ?_⟩
  rw [shiftupLoopFetching_result] at hr
  obtain ⟨hsize, hi⟩ := shiftupLoop_size hr
  apply always_shiftdown.mpr
  intro hpos
  rw [hsize.nelm]
  omega

/-- A pop of a heap with elements starts with the fetches of the first and of the last. -/
theorem always_pop {h : Minheap α} :
    Always Fetch.Right (minheapPopFetching h) ↔ h.len ≤ narrowCount h.array.nelm := by
  rw [minheapPopFetching]
  by_cases hempty : h.len = 0
  · rw [if_pos hempty]
    exact iff_of_true (always_pure _) (by omega)
  · rw [if_neg hempty, always_fetch_bind, always_fetch_bind, always_silent_bind]
    constructor
    · intro hall
      have hlast := hall.2.1
      omega
    · intro hlen
      refine ⟨by omega, by omega, fun a ha => ?_⟩
      -- the rest stays below the last index, in an array with the same counters
      have hna := (arraySwap_size ha).nelm
      rw [always_bind]
      refine ⟨always_shiftup (by rw [hna]; omega), fun a' ha' => ?_⟩
      rw [shiftupFetching_result] at ha'
      rw [always_fetch_bind, always_silent_bind, (shiftup_size ha').nelm, hna]
      exact ⟨by omega, fun root _ => always_pure _⟩

/-- The item of a push is fetched only if it lies in the array. -/
theorem always_item {h : Minheap α} :
    Always Fetch.Right (minheapItemFetching h) ↔
      (h.len ≠ h.array.nelm → h.len < narrowCount h.array.nelm) := by
  rw [minheapItemFetching, arrayLen]
  by_cases hfull : h.len = h.array.nelm
  · rw [if_pos hfull]
    exact iff_of_true (always_pure _) (fun hne => absurd hfull hne)
  · rw [if_neg hfull, always_fetch_bind]
    constructor
    · intro hall _
      exact hall.1
    · intro hlt
      exact ⟨hlt hfull, always_pure _⟩

/-- The fetches of a push: the item, and after the copy those of `shiftdown`. -/
theorem always_push_parts {h : Minheap α} {v : α} :
    Always Fetch.Right (minheapPushFetching h v) ↔
      (h.len ≠ h.array.nelm → h.len < narrowCount h.array.nelm) ∧
      ∀ a, arrayStore (minheapItem h).2 v (minheapItem h).1 = .ok a → 0 < h.len → h.len < narrowCount a.nelm := by
  rw [minheapPushFetching, always_bind, always_item]
  apply and_congr_right
  intro _
  constructor
  · intro hall a ha hpos
    have hp := hall _ (minheapItemFetching_result h)
    rw [always_silent_bind] at hp
    have hdown := always_bind.mp (hp a ha)
    exact always_shiftdown.mp hdown.1 hpos
  · intro hall p hp
    obtain rfl := Except.ok.inj ((minheapItemFetching_result h).symm.trans hp)
    rw [always_silent_bind]
    intro a ha
    rw [always_bind]
    exact ⟨always_shiftdown.mpr (hall a ha), fun a' _ => always_pure _⟩

/-- A push fetches the slot of the new element, to write it or to compare it with its parent. -/
theorem always_push {h : Minheap α} (hs : h.Sized) (v : α) :
    Always Fetch.Right (minheapPushFetching h v) ↔
      h.len < narrowCount (max h.array.nelm (h.len + 1)) := by
  have hle := hs.len_le
  rw [always_push_parts]
  constructor
  · intro ⟨hitem, hall⟩
    by_cases hfull : h.len = h.array.nelm
    · rcases Nat.eq_zero_or_pos h.len with hzero | hpos
      · -- nothing is fetched for the first element, but its slot would be right
        rw [← hfull, hzero]
        decide
      · obtain ⟨a, ha, hna⟩ := minheapItem_store hs hfull hpos v
        have hlast := hall a ha hpos
        rwa [hna, show h.len + 1 = max h.array.nelm (h.len + 1) by omega] at hlast
    · rw [show max h.array.nelm (h.len + 1) = h.array.nelm by omega]
      exact hitem hfull
  · intro hlt
    refine ⟨fun hne => ?_, fun a ha _ => ?_⟩
    · rwa [show max h.array.nelm (h.len + 1) = h.array.nelm by omega] at hlt
    · rwa [(arrayStore_size ha).nelm, minheapItem_nelm hs]

theorem always_min {h : Minheap α} :
    Always Fetch.Right (minheapMinFetching h) ↔ (h.len ≠ 0 → 0 < narrowCount h.array.nelm) := by
  rw [minheapMinFetching]
  by_cases hempty : h.len = 0
  · rw [if_pos hempty]
    exact iff_of_true (always_pure _) (fun hne => absurd hempty hne)
  · rw [if_neg hempty, always_fetch_bind, always_silent_bind]
    constructor
    · intro hall _
      exact hall.1
    · intro hpos
      exact ⟨hpos hempty, fun x _ => always_pure _⟩

theorem HeapOp.run_resized {h h' : Minheap α} {op : HeapOp α} {r : HeapResult α} (hs : h.Sized)
    (hrun : op.run h = .ok (r, h')) : h.Resized (op.size h.len) h' := by
  have hsame : h.Resized h.len h := ⟨hs, rfl, (max_eq_left hs.len_le).symm⟩
  cases op with
  | push v =>
    obtain ⟨h₁, hpush, h₂⟩ := Exec.bind_eq_ok.mp hrun
    obtain ⟨-, rfl⟩ := Prod.mk.inj (Except.ok.inj h₂)
    exact minheapPush_resized hs hpush
  | pop =>
    obtain ⟨⟨x, h₁⟩, hpop, h₂⟩ := Exec.bind_eq_ok.mp hrun
    obtain ⟨-, rfl⟩ := Prod.mk.inj (Except.ok.inj h₂)
    exact minheapPop_resized hs hpop
  | min =>
    obtain ⟨x, -, h₂⟩ := Exec.bind_eq_ok.mp hrun
    obtain ⟨-, rfl⟩ := Prod.mk.inj (Except.ok.inj h₂)
    exact hsame
  | len =>
    obtain ⟨-, rfl⟩ := Prod.mk.inj (Except.ok.inj hrun)
    exact hsame

/-- Every heap that calls lead to from a new one agrees with its counters. -/
theorem runHeap_sized {h h' : Minheap α} {ops : List (HeapOp α)} {rs : List (HeapResult α)} (hs : h.Sized)
    (hrun : runHeap h ops = .ok (rs, h')) : h'.Sized := by
  induction ops generalizing h rs with
  | nil =>
    obtain ⟨-, rfl⟩ := Prod.mk.inj (Except.ok.inj hrun)
    exact hs
  | cons op ops ih =>
    obtain ⟨⟨r, h₁⟩, hop, h₂⟩ := Exec.bind_eq_ok.mp hrun
    obtain ⟨⟨rs', h₃⟩, hrest, h₄⟩ := Exec.bind_eq_ok.mp h₂
    obtain ⟨-, rfl⟩ := Prod.mk.inj (Except.ok.inj h₄)
    exact ih (HeapOp.run_resized hs hop).sized hrest

theorem always_run {h : Minheap α} (hs : h.Sized) (hsmall : h.array.nelm < 2 ^ 31) {op : HeapOp α}
    (hf : op.size h.len < 2 ^ 31) : Always Fetch.Right (op.runFetching h) := by
  have hle := hs.len_le
  have hcount := narrowCount_of_lt hsmall
  cases op with
  | push v =>
    have hmax : max h.array.nelm (h.len + 1) < 2 ^ 31 := max_lt hsmall hf
    rw [HeapOp.runFetching, always_bind, always_push hs, narrowCount_of_lt hmax]
    exact ⟨by omega, fun h' _ => always_pure _⟩
  | pop =>
    rw [HeapOp.runFetching, always_bind, always_pop, hcount]
    exact ⟨hle, fun p _ => always_pure _⟩
  | min =>
    rw [HeapOp.runFetching, always_bind, always_min, hcount]
    exact ⟨by omega, fun x _ => always_pure _⟩
  | len => exact always_pure _

/-- A run that keeps fewer than `2 ^ 31` elements fetches only right slots. -/
theorem always_runHeap {h : Minheap α} (hs : h.Sized) (hsmall : h.array.nelm < 2 ^ 31) {ops : List (HeapOp α)}
    (hf : Fits h.len ops) : Always Fetch.Right (runHeapFetching h ops) := by
  induction ops generalizing h with
  | nil => exact always_pure _
  | cons op ops ih =>
    rw [runHeapFetching, always_bind]
    refine ⟨always_run hs hsmall hf.1, fun p hp => ?_⟩
    rw [HeapOp.runFetching_result] at hp
    have hnext := HeapOp.run_resized hs hp
    rw [always_bind]
    refine ⟨ih hnext.sized ?_ (hnext.len ▸ hf.2), fun q _ => always_pure _⟩
    rw [hnext.nelm]
    exact max_lt hsmall hf.1

/-- `array_at` finds the slots of exactly the indices that count in the same way, and a push and a
pop fetch only right slots exactly if the narrowed number of elements covers the heap. All calls of
`shiftdown` and `shiftup` are in these two records. -/
theorem minheap_fetches_iff {h : Minheap α} (hs : h.Sized) (hfit : h.array.nelm ≤ 2 ^ 63) :
    (∀ i : ℤ, -2 ^ 63 ≤ i → i < 2 ^ 63 →
      (arrayAt h.array i = slotAt h.array.nelm i ↔ SameCount h.array.nelm i)) ∧
    (∀ v, h.len < 2 ^ 63 →
      (Always Fetch.Right (minheapPushFetching h v) ↔ h.len < narrowCount (max h.array.nelm (h.len + 1)))) ∧
    (Always Fetch.Right (minheapPopFetching h) ↔ h.len ≤ narrowCount h.array.nelm) := by
  refine ⟨fun i hlow _ => ?_, fun v _ => ?_, ?_⟩
  · exact arrayAt_eq_slotAt_iff hfit hlow
  · exact always_push hs v
  · exact always_pop

theorem minheap_fetches_one_element :
    arrayAt (⟨1, 0, [some 5]⟩ : ArrayT ℤ) (-1) = slotAt 1 (-1) ∧
    Always Fetch.Right (minheapPushFetching ⟨1, ⟨1, 0, [some 5]⟩, fun x y => x - y⟩ (4 : ℤ)) ∧
    Always Fetch.Right (minheapPopFetching (⟨1, ⟨1, 0, [some 5]⟩, fun x y => x - y⟩ : Minheap ℤ)) := by
  have hs : Minheap.Sized (⟨1, ⟨1, 0, [some 5]⟩, fun x y => x - y⟩ : Minheap ℤ) := ⟨rfl, le_rfl⟩
  obtain ⟨hat, hpush, hpop⟩ := minheap_fetches_iff hs (by decide)
  refine ⟨?_, ?_, ?_⟩
  · exact (hat (-1) (by decide) (by decide)).mpr (by decide)
  · exact (hpush 4 (by decide)).mpr (by decide)
  · exact hpop.mpr (by decide)

/-! ## The array of `2 ^ 31` elements -/

/-- Pushes alone fill the array as far as the heap. -/
theorem runHeap_pushes {c : Comparator α} {h : Minheap α} (hi : h.Inv c) (hfull : h.len = h.array.nelm) (v : α)
    {k : ℕ} (hk : h.len + k < 2 ^ 31) :
    ∃ rs h', runHeap h (List.replicate k (.push v)) = .ok (rs, h') ∧ h'.Inv c ∧ h'.len = h.len + k ∧
      h'.len = h'.array.nelm := by
  induction k generalizing h with
  | zero => exact ⟨[], h, rfl, hi, rfl, hfull⟩
  | succ k ih =>
    obtain ⟨h₁, hpush, hi₁, hl₁, -, hn₁⟩ := minheapPush_spec hi (by omega) v
    obtain ⟨rs, h₂, hrun, hi₂, hl₂, hfull₂⟩ := ih hi₁ (by omega) (by omega)
    refine ⟨.pushed :: rs, h₂, ?_, hi₂, by omega, hfull₂⟩
    simp [List.replicate_succ, runHeap, HeapOp.run, hpush, hrun]

/-- The push that makes the number of elements negative fetches a null pointer, and the comparison
reads through it. -/
theorem push_fetches_null :
    ∃ rs h, runHeap (minheapCreate 1 fun _ _ => 0) (List.replicate (2 ^ 31 - 1) (.push ())) = .ok (rs, h) ∧
      ¬ Always Fetch.Right (minheapPushFetching h ()) ∧ minheapPush h () = .error .nullPointer := by
  obtain ⟨rs, h, hrun, hi, hlen, hfull⟩ :=
    runHeap_pushes (minheapCreate_inv ⟨fun _ _ => 0, by simp, by simp⟩ 1) rfl () (k := 2 ^ 31 - 1) (by decide)
  have hmany : h.len + 1 = 2 ^ 31 := by
    rw [hlen]
    rfl
  refine ⟨rs, h, hrun, ?_, minheapPush_overflow hi.shaped hfull hmany ()⟩
  rw [always_push (runHeap_sized (minheapCreate_sized 1 _) hrun), ← hfull, Nat.max_eq_right (by omega), hmany]
  have hnone : narrowCount (2 ^ 31) = 0 := by decide
  omega

end RhinoRox
