import Mathlib.Data.Finmap
import Mathlib.Tactic.Common

/-!
# Segments of doubly linked lists

A memory holds nodes with a pointer in each direction. A segment is a sequence of nodes that point
at each other in order; two pointers leave it, one at each end.
-/

namespace RhinoRox.LinkedSegments

structure Node (α : Type) where
  prev : Option ℕ
  next : Option ℕ
  value : α

abbrev Memory (α : Type) := Finmap fun _ : ℕ => Node α

/-- Addresses with the values stored there. -/
abbrev Nodes (α : Type) := List (ℕ × α)

variable {α : Type}

def addrs (xs : Nodes α) : List ℕ := xs.map Prod.fst

/-- A pointer to the first node, or to what follows. -/
def first : Nodes α → Option ℕ → Option ℕ
  | [], next => next
  | x :: _, _ => some x.1

/-- A pointer to the last node, or to what comes before. -/
def last : Option ℕ → Nodes α → Option ℕ
  | prev, [] => prev
  | _, x :: xs => last (some x.1) xs

@[simp] theorem addrs_nil : addrs ([] : Nodes α) = [] := rfl

@[simp] theorem addrs_cons (x : ℕ × α) (xs : Nodes α) : addrs (x :: xs) = x.1 :: addrs xs := rfl

@[simp] theorem addrs_append (xs ys : Nodes α) : addrs (xs ++ ys) = addrs xs ++ addrs ys := List.map_append

@[simp] theorem first_nil (next : Option ℕ) : first ([] : Nodes α) next = next := rfl

@[simp] theorem first_cons (x : ℕ × α) (xs : Nodes α) (next : Option ℕ) : first (x :: xs) next = some x.1 := rfl

@[simp] theorem last_nil (prev : Option ℕ) : last prev ([] : Nodes α) = prev := rfl

@[simp] theorem last_cons (prev : Option ℕ) (x : ℕ × α) (xs : Nodes α) : last prev (x :: xs) = last (some x.1) xs := rfl

@[simp] theorem first_append (xs ys : Nodes α) (next : Option ℕ) : first (xs ++ ys) next = first xs (first ys next) := by
  cases xs <;> rfl

@[simp] theorem last_append (prev : Option ℕ) (xs ys : Nodes α) : last prev (xs ++ ys) = last (last prev xs) ys := by
  induction xs generalizing prev with
  | nil => rfl
  | cons x xs ih => exact ih (some x.1)

theorem exists_of_first {xs : Nodes α} {a : ℕ} (h : first xs none = some a) : ∃ v rest, xs = (a, v) :: rest := by
  cases xs with
  | nil => cases h
  | cons x rest =>
    obtain ⟨b, v⟩ := x
    obtain rfl : b = a := Option.some.inj h
    exact ⟨v, rest, rfl⟩

theorem exists_of_last {xs : Nodes α} {a : ℕ} (h : last none xs = some a) : ∃ v front, xs = front ++ [(a, v)] := by
  induction xs using List.reverseRecOn with
  | nil => cases h
  | append_singleton front x _ =>
    rw [last_append, last_cons, last_nil] at h
    obtain ⟨b, v⟩ := x
    obtain rfl : b = a := Option.some.inj h
    exact ⟨v, front, rfl⟩

theorem first_eq_none {xs : Nodes α} : first xs none = none ↔ xs = [] := by
  cases xs <;> simp

theorem last_eq_none {xs : Nodes α} : last none xs = none ↔ xs = [] := by
  induction xs using List.reverseRecOn with
  | nil => simp
  | append_singleton front x _ => simp

theorem exists_of_mem_addrs {xs : Nodes α} {a : ℕ} (h : a ∈ addrs xs) :
    ∃ v front back, xs = front ++ (a, v) :: back := by
  obtain ⟨⟨b, v⟩, hmem, rfl⟩ := List.mem_map.mp h
  obtain ⟨front, back, hxs⟩ := List.append_of_mem hmem
  exact ⟨v, front, back, hxs⟩

/-- The nodes point at each other in order. -/
def Segment (m : Memory α) : Option ℕ → Nodes α → Option ℕ → Prop
  | _, [], _ => True
  | prev, x :: xs, next => m.lookup x.1 = some ⟨prev, first xs next, x.2⟩ ∧ Segment m (some x.1) xs next

namespace Segment
variable {m m' : Memory α} {prev next : Option ℕ} {xs ys : Nodes α} {a : ℕ} {v : α}

theorem append_iff :
    Segment m prev (xs ++ ys) next ↔ Segment m prev xs (first ys next) ∧ Segment m (last prev xs) ys next := by
  induction xs generalizing prev with
  | nil => exact (Iff.of_eq (true_and _)).symm
  | cons x xs ih =>
    rw [List.cons_append, Segment, ih, first_append, Segment, last_cons, and_assoc]

theorem single_iff : Segment m prev [(a, v)] next ↔ m.lookup a = some ⟨prev, next, v⟩ :=
  Iff.of_eq (and_true _)

/-- A segment depends on nothing but its nodes. -/
theorem congr (h : Segment m prev xs next) (hm : ∀ a ∈ addrs xs, m'.lookup a = m.lookup a) :
    Segment m' prev xs next := by
  induction xs generalizing prev with
  | nil => exact trivial
  | cons x xs ih =>
    refine ⟨?_, ih h.2 fun a ha => hm a (List.mem_cons_of_mem _ ha)⟩
    rw [hm x.1 List.mem_cons_self]
    exact h.1

theorem insert (h : Segment m prev xs next) (ha : a ∉ addrs xs) (n : Node α) : Segment (m.insert a n) prev xs next := by
  apply h.congr
  intro b hb
  exact Finmap.lookup_insert_of_ne m (ne_of_mem_of_not_mem hb ha)

theorem erase (h : Segment m prev xs next) (ha : a ∉ addrs xs) : Segment (m.erase a) prev xs next := by
  apply h.congr
  intro b hb
  exact Finmap.lookup_erase_ne (ne_of_mem_of_not_mem hb ha)

/-- The pointers of a node in the middle. -/
theorem lookup (h : Segment m prev (xs ++ (a, v) :: ys) next) : m.lookup a = some ⟨last prev xs, first ys next, v⟩ :=
  (append_iff.mp h).2.1

theorem mem (h : Segment m prev xs next) (ha : a ∈ addrs xs) : a ∈ m := by
  obtain ⟨v, front, back, rfl⟩ := exists_of_mem_addrs ha
  rw [← Finmap.lookup_isSome, h.lookup]
  rfl

/-- The pointer that leaves a segment at its end is changed. -/
theorem relink_next (h : Segment m prev (xs ++ [(a, v)]) next) (ha : a ∉ addrs xs) (next' : Option ℕ) :
    Segment (m.insert a ⟨last prev xs, next', v⟩) prev (xs ++ [(a, v)]) next' := by
  obtain ⟨hxs, -⟩ := append_iff.mp h
  rw [append_iff]
  exact ⟨hxs.insert ha _, single_iff.mpr (Finmap.lookup_insert m)⟩

/-- The pointer that leaves a segment at its start is changed. -/
theorem relink_prev (h : Segment m prev ((a, v) :: xs) next) (ha : a ∉ addrs xs) (prev' : Option ℕ) :
    Segment (m.insert a ⟨prev', first xs next, v⟩) prev' ((a, v) :: xs) next :=
  ⟨Finmap.lookup_insert m, insert h.2 ha _⟩

/-- The first node determines a segment that ends in `NULL`. -/
theorem unique (h : Segment m prev xs none) (h' : Segment m prev ys none) (he : first xs none = first ys none) : xs = ys := by
  induction xs generalizing prev ys with
  | nil => exact (first_eq_none.mp he.symm).symm
  | cons x xs ih =>
    obtain ⟨v, rest, rfl⟩ := exists_of_first he.symm
    obtain ⟨hx, hxs⟩ := h
    obtain ⟨hy, hrest⟩ := h'
    obtain ⟨-, hnext, hvalue⟩ := Node.mk.inj (Option.some.inj (hx.symm.trans hy))
    rw [ih hxs hrest hnext, show v = x.2 from hvalue.symm]

end Segment

end RhinoRox.LinkedSegments
