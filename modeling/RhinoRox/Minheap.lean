import RhinoRox.ByteStrings

/-!
# The growing array of `rr_array.c` and the heap of `rr_minheap.c`

A slot of the array is uninitialised until an element is copied into it. `array_at`
returns `NULL` outside the array, and reading or swapping through `NULL` is a fault.
Popped elements stay in their slots beyond `len`.
-/

namespace RhinoRox

variable {α : Type}

structure ArrayT (α : Type) where
  nelm : ℕ
  nrest : ℕ
  elm : List (Option α)
  deriving DecidableEq, Repr

def arrayCreate (n : ℕ) : ArrayT α :=
  let initialNumber := if n = 0 then 1 else n
  ⟨0, initialNumber, List.replicate initialNumber none⟩

def arrayLen (a : ArrayT α) : ℕ := a.nelm

/-- The slot returned by `array_push`, with the array that may have been doubled. -/
def arrayPush (a : ArrayT α) : Option ℕ × ArrayT α :=
  if 0 < a.nrest then (some a.nelm, { a with nrest := a.nrest - 1, nelm := a.nelm + 1 })
  else
    (some a.nelm,
      { elm := a.elm ++ List.replicate (2 * a.nelm - a.elm.length) none
        nrest := a.nelm - 1
        nelm := a.nelm + 1 })

/-- The number of elements is narrowed to an `int` before the comparison. The negation of the
smallest `long` wraps around, and so does the sum, which is unsigned. -/
def arrayAt (a : ArrayT α) (i : ℤ) : Option ℕ :=
  if i ≥ toInt32 a.nelm ∨ (i < 0 ∧ toInt64 (-i) > toInt32 a.nelm) then none
  else some (if i ≥ 0 then i.toNat else ((a.nelm + i) % 2 ^ 64).toNat)

/-- Read the element behind a pointer into the array. -/
def arrayLoad (a : ArrayT α) : Option ℕ → Exec α
  | none => throw .nullPointer
  | some i =>
    match a.elm[i]? with
    | none => throw .outOfBounds
    | some none => throw .uninitialised
    | some (some x) => pure x

/-- Copy an element to the slot behind a pointer. -/
def arrayStore (a : ArrayT α) (x : α) : Option ℕ → Exec (ArrayT α)
  | none => throw .nullPointer
  | some i => if i < a.elm.length then pure { a with elm := a.elm.set i (some x) } else throw .outOfBounds

def arraySwap (a : ArrayT α) (p q : Option ℕ) : Exec (ArrayT α) := do
  let x ← arrayLoad a p
  let y ← arrayLoad a q
  let a' ← arrayStore a y p
  arrayStore a' x q

structure Minheap (α : Type) where
  len : ℕ
  array : ArrayT α
  comp : α → α → ℤ

def minheapCreate (n : ℕ) (comp : α → α → ℤ) : Minheap α := ⟨0, arrayCreate n, comp⟩

def minheapLen (h : Minheap α) : ℕ := h.len

/-- Move the element at `last` towards `start` while it compares below its parent. -/
def shiftdown (comp : α → α → ℤ) (a : ArrayT α) (start last : ℕ) : Exec (ArrayT α) :=
  if start < last then do
    let child := arrayAt a last
    let i := (last - 1) / 2
    let parent := arrayAt a i
    let x ← arrayLoad a child
    let y ← arrayLoad a parent
    if comp x y < 0 then do
      let a' ← arraySwap a child parent
      shiftdown comp a' start i
    else pure a
  else pure a
termination_by last

/-- Whether the loop of `shiftup` goes to the right child. -/
def shiftupRight (comp : α → α → ℤ) (a : ArrayT α) (ichild iend : ℕ) : Exec Bool :=
  let iright := ichild + 1
  if iright < iend then do
    let x ← arrayLoad a (arrayAt a ichild)
    let y ← arrayLoad a (arrayAt a iright)
    pure (decide (comp x y > 0))
  else pure false

/-- The loop of `shiftup`: the hole sinks to a leaf through the smaller child. -/
def shiftupLoop (comp : α → α → ℤ) (a : ArrayT α) (istart iend : ℕ) : Exec (ArrayT α × ℕ) :=
  let ichild := 2 * istart + 1
  if ichild < iend then do
    let right ← shiftupRight comp a ichild iend
    let ichild' := if right then ichild + 1 else ichild
    let a' ← arraySwap a (arrayAt a istart) (arrayAt a ichild')
    shiftupLoop comp a' ichild' iend
  else pure (a, istart)
termination_by iend - istart
decreasing_by split <;> omega

def shiftup (comp : α → α → ℤ) (a : ArrayT α) (start len : ℕ) : Exec (ArrayT α) := do
  let (a', istart) ← shiftupLoop comp a start len
  shiftdown comp a' start istart

/-- The slot that a push writes, in the array it belongs to. -/
def minheapItem (h : Minheap α) : Option ℕ × ArrayT α :=
  if h.len = arrayLen h.array then arrayPush h.array else (arrayAt h.array h.len, h.array)

def minheapPush (h : Minheap α) (val : α) : Exec (Minheap α) := do
  let (item, a) := minheapItem h
  let a' ← arrayStore a val item
  let a'' ← shiftdown h.comp a' 0 h.len
  pure { h with array := a'', len := h.len + 1 }

/-- The popped element is read through the pointer that `minheap_pop` returns. -/
def minheapPop (h : Minheap α) : Exec (Option α × Minheap α) :=
  if h.len = 0 then pure (none, h)
  else do
    let a ← arraySwap h.array (arrayAt h.array 0) (arrayAt h.array (h.len - 1 : ℕ))
    let a' ← shiftup h.comp a 0 (h.len - 1)
    let root ← arrayLoad a' (arrayAt a' (h.len - 1 : ℕ))
    pure (some root, { h with array := a', len := h.len - 1 })

def minheapMin (h : Minheap α) : Exec (Option α) :=
  if h.len = 0 then pure none
  else do
    let x ← arrayLoad h.array (arrayAt h.array 0)
    pure (some x)

end RhinoRox
