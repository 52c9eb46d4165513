import Mathlib.Algebra.BigOperators.Group.Finset.Piecewise
import Mathlib.Algebra.BigOperators.Ring.Finset
import Mathlib.Algebra.Order.BigOperators.Group.Finset
import Mathlib.Data.Fintype.Basic
import Mathlib.Data.Int.ModEq
import Mathlib.Tactic.Ring
import RhinoRox.ByteStrings
import RhinoRox.LabelledRuns

/-!
# The memory in use, from `rr_malloc.c`

Every thread allocates and frees, and the statistic is updated by atomic additions that other calls
may come between. The sizes counted are those of the blocks that the allocator hands out. Whatever
the interleaving, the statistic is exact whenever no call is under way.
-/

namespace RhinoRox.UsedMemory

open LabelledRuns

/-- Where a thread is: outside, between `malloc` and its addition, between its subtraction and `free`,
or in `rr_realloc` before the subtraction and before the addition. -/
inductive Phase where
  | idle
  | allocated (ptr size : ℕ)
  | freeing (ptr size : ℕ)
  | moved (ptr oldsize size : ℕ)
  | recounted (ptr size : ℕ)
  deriving DecidableEq, Repr

/-- The block that a call works on, with its size. -/
def Phase.block : Phase → Option (ℕ × ℕ)
  | .idle => none
  | .allocated ptr size | .freeing ptr size | .moved ptr _ size | .recounted ptr size => some (ptr, size)

/-- The blocks in use with their usable sizes, `used_memory`, and the threads. -/
structure Memory (T : Type) where
  live : Finset ℕ
  usable : ℕ → ℕ
  used : ℕ
  phase : T → Phase

/-- `ATOM_INC` on a `size_t`. `ATOM_DEC` is `subSize`. -/
def addSize (a b : ℕ) : ℕ := (a + b) % 2 ^ 64

theorem addSize_lt (a b : ℕ) : addSize a b < 2 ^ 64 := Nat.mod_lt _ (Nat.two_pow_pos 64)

theorem subSize_lt (a b : ℕ) : subSize a b < 2 ^ 64 := Nat.mod_lt _ (Nat.two_pow_pos 64)

theorem addSize_modEq (a b : ℕ) : (addSize a b : ℤ) ≡ a + b [ZMOD 2 ^ 64] := by
  simp only [addSize, Int.natCast_mod, Nat.cast_add, Nat.cast_pow, Nat.cast_ofNat]
  exact Int.mod_modEq _ _

theorem subSize_modEq (a b : ℕ) : (subSize a b : ℤ) ≡ a - b [ZMOD 2 ^ 64] := by
  have hle : b % 2 ^ 64 ≤ a + 2 ^ 64 := (Nat.mod_lt b (Nat.two_pow_pos 64)).le.trans (Nat.le_add_left _ _)
  simp only [subSize, Int.natCast_mod, Nat.cast_sub hle, Nat.cast_add, Nat.cast_pow, Nat.cast_ofNat]
  have hb : (b : ℤ) % 2 ^ 64 ≡ b [ZMOD 2 ^ 64] := Int.mod_modEq _ _
  have ha : (a : ℤ) + 2 ^ 64 ≡ a [ZMOD 2 ^ 64] := Int.add_modEq_right
  exact (Int.mod_modEq _ _).trans (ha.sub hb)

namespace Memory
variable {T : Type}

/-- No call was made yet. -/
def start : Memory T := ⟨∅, fun _ => 0, 0, fun _ => .idle⟩

def block (m : Memory T) (t : T) : Option (ℕ × ℕ) := (m.phase t).block

/-- No thread is in a call with this block. -/
def Unused (m : Memory T) (ptr : ℕ) : Prop := ∀ t size, m.block t ≠ some (ptr, size)

def setUsed (m : Memory T) (used : ℕ) : Memory T := { m with used := used }

def allocate (m : Memory T) (ptr size : ℕ) : Memory T :=
  { m with live := insert ptr m.live, usable := Function.update m.usable ptr size }

def release (m : Memory T) (ptr : ℕ) : Memory T := { m with live := m.live.erase ptr }

/-- The size of all blocks in use. -/
def total (m : Memory T) : ℕ := ∑ ptr ∈ m.live, m.usable ptr

theorem total_allocate {m : Memory T} {ptr : ℕ} (hnew : ptr ∉ m.live) (size : ℕ) :
    (m.allocate ptr size).total = m.total + size := by
  change ∑ p ∈ insert ptr m.live, Function.update m.usable ptr size p = _
  rw [Finset.sum_insert hnew, Function.update_self, Finset.sum_update_of_notMem hnew, Nat.add_comm]
  rfl

theorem total_release {m : Memory T} {ptr : ℕ} (hlive : ptr ∈ m.live) :
    (m.release ptr).total + m.usable ptr = m.total :=
  Finset.sum_erase_add m.live m.usable hlive

variable [DecidableEq T]

def goto (m : Memory T) (t : T) (phase : Phase) : Memory T := { m with phase := Function.update m.phase t phase }

theorem block_goto_of_ne {m : Memory T} {t t' : T} (h : t' ≠ t) (phase : Phase) : (m.goto t phase).block t' = m.block t' :=
  congrArg Phase.block (Function.update_of_ne h _ _)

theorem block_goto_self (m : Memory T) (t : T) (phase : Phase) : (m.goto t phase).block t = phase.block :=
  congrArg Phase.block (Function.update_self _ _ _)

end Memory

/-- `rr_get_used_memory`, which subtracts `0`. -/
def rrGetUsedMemory {T : Type} (m : Memory T) : ℕ := subSize m.used 0

/-- An atomic part of a call. -/
inductive Action where
  | malloc (ptr size : ℕ)
  | free (ptr : ℕ)
  | realloc (ptr newptr size : ℕ)
  | proceed
  deriving DecidableEq, Repr

variable {T : Type}

/-- `rr_malloc` and `rr_calloc` get a block and then add its size. `rr_free` subtracts the size and
then gives the block back. `rr_realloc` gets the new block for the old one, subtracts the old size and
adds the new one. A block is passed to `rr_free` or `rr_realloc` by one thread at a time. -/
inductive Step [DecidableEq T] : Memory T → T × Action → Memory T → Prop where
  | malloc {m : Memory T} {t : T} {ptr size : ℕ} (hidle : m.phase t = .idle) (hnew : ptr ∉ m.live) :
      Step m (t, .malloc ptr size) ((m.allocate ptr size).goto t (.allocated ptr size))
  | counted {m : Memory T} {t : T} {ptr size : ℕ} (hphase : m.phase t = .allocated ptr size) :
      Step m (t, .proceed) ((m.setUsed (addSize m.used size)).goto t .idle)
  | free {m : Memory T} {t : T} {ptr : ℕ} (hidle : m.phase t = .idle) (hlive : ptr ∈ m.live) (hunused : m.Unused ptr) :
      Step m (t, .free ptr) ((m.setUsed (subSize m.used (m.usable ptr))).goto t (.freeing ptr (m.usable ptr)))
  | freed {m : Memory T} {t : T} {ptr size : ℕ} (hphase : m.phase t = .freeing ptr size) :
      Step m (t, .proceed) ((m.release ptr).goto t .idle)
  | realloc {m : Memory T} {t : T} {ptr newptr size : ℕ} (hidle : m.phase t = .idle) (hlive : ptr ∈ m.live)
      (hunused : m.Unused ptr) (hnew : newptr ∉ (m.release ptr).live) :
      Step m (t, .realloc ptr newptr size)
        (((m.release ptr).allocate newptr size).goto t (.moved newptr (m.usable ptr) size))
  | recount {m : Memory T} {t : T} {ptr oldsize size : ℕ} (hphase : m.phase t = .moved ptr oldsize size) :
      Step m (t, .proceed) ((m.setUsed (subSize m.used oldsize)).goto t (.recounted ptr size))
  | recounted {m : Memory T} {t : T} {ptr size : ℕ} (hphase : m.phase t = .recounted ptr size) :
      Step m (t, .proceed) ((m.setUsed (addSize m.used size)).goto t .idle)

/-! ## What is not counted yet -/

/-- How much the statistic is behind because of a thread. -/
def Phase.pending : Phase → ℤ
  | .idle => 0
  | .allocated _ size | .freeing _ size | .recounted _ size => size
  | .moved _ oldsize size => size - oldsize

def Memory.pending [Fintype T] (m : Memory T) : ℤ := ∑ t, (m.phase t).pending

/-- The statistic is what is in use less what is not counted. Each call works on its own block. -/
structure Counted [Fintype T] (m : Memory T) : Prop where
  used_lt : m.used < 2 ^ 64
  used : (m.used : ℤ) ≡ m.total - m.pending [ZMOD 2 ^ 64]
  block {t : T} {ptr size : ℕ} : m.block t = some (ptr, size) → ptr ∈ m.live ∧ m.usable ptr = size
  distinct {t t' : T} {ptr size size' : ℕ} : m.block t = some (ptr, size) → m.block t' = some (ptr, size') → t = t'

variable [Fintype T] {m m' : Memory T} {t : T}

theorem Counted.of_block (h : Counted m) {ptr size : ℕ} (hb : m.block t = some (ptr, size)) :
    ptr ∈ m.live ∧ m.usable ptr = size ∧ ∀ t' ≠ t, ∀ size', m.block t' ≠ some (ptr, size') := by
  obtain ⟨hlive, hsize⟩ := h.block hb
  exact ⟨hlive, hsize, fun t' ht' size' hb' => ht' (h.distinct hb' hb)⟩

def Memory.blockSize (m : Memory T) (t : T) : ℕ := ((m.block t).map Prod.snd).getD 0

theorem Phase.pending_le (phase : Phase) : phase.pending ≤ ((phase.block.map Prod.snd).getD 0 : ℕ) := by
  cases phase with
  | idle => exact le_refl _
  | allocated ptr size => exact le_refl _
  | freeing ptr size => exact le_refl _
  | moved ptr oldsize size => exact sub_le_self _ (Int.natCast_nonneg oldsize)
  | recounted ptr size => exact le_refl _

/-- The blocks of the calls under way are different blocks in use. -/
theorem Counted.sum_blockSize_le (h : Counted m) : ∑ t, m.blockSize t ≤ m.total := by
  let ptr : T → ℕ := fun t => ((m.block t).map Prod.fst).getD 0
  let busy : Finset T := {t | (m.block t).isSome}
  have hblock : ∀ t ∈ busy, m.block t = some (ptr t, m.blockSize t) := by
    intro t ht
    obtain ⟨⟨p, size⟩, hb⟩ := Option.isSome_iff_exists.mp (Finset.mem_filter.mp ht).2
    simp only [ptr, Memory.blockSize, hb, Option.map_some, Option.getD_some]
  have hinj : Set.InjOn ptr busy := by
    intro t ht t' ht' he
    have hb := hblock t' ht'
    rw [← he] at hb
    exact h.distinct (hblock t ht) hb
  calc ∑ t, m.blockSize t = ∑ t ∈ busy, m.blockSize t := by
        refine (Finset.sum_subset (Finset.subset_univ busy) fun t _ ht => ?_).symm
        have hnone : m.block t = none := by
          by_contra hsome
          exact ht (Finset.mem_filter.mpr ⟨Finset.mem_univ t, Option.isSome_iff_ne_none.mpr hsome⟩)
        rw [Memory.blockSize, hnone]
        rfl
    _ = ∑ t ∈ busy, m.usable (ptr t) := Finset.sum_congr rfl fun t ht => (h.block (hblock t ht)).2.symm
    _ = ∑ p ∈ busy.image ptr, m.usable p := (Finset.sum_image hinj).symm
    _ ≤ m.total := by
        refine Finset.sum_le_sum_of_subset (Finset.image_subset_iff.mpr fun t ht => ?_)
        exact (h.block (hblock t ht)).1

theorem Counted.pending_le (h : Counted m) : m.pending ≤ m.total := by
  have hsum : m.pending ≤ ∑ t, (m.blockSize t : ℤ) := Finset.sum_le_sum fun t _ => (m.phase t).pending_le
  rw [← Nat.cast_sum] at hsum
  exact hsum.trans (Nat.cast_le.mpr h.sum_blockSize_le)

theorem Counted.start : Counted (Memory.start : Memory T) where
  used_lt := Nat.two_pow_pos 64
  used := by
    have hpending : (Memory.start : Memory T).pending = 0 := Finset.sum_eq_zero fun _ _ => rfl
    rw [hpending, sub_zero]
    exact Int.ModEq.refl _
  block h := by cases h
  distinct h := by cases h

theorem Counted.get_eq (h : Counted m) : rrGetUsedMemory m = m.used :=
  (subSize_of_le (Nat.zero_le _) h.used_lt).trans (Nat.sub_zero _)

/-! ## Steps -/

variable [DecidableEq T]

theorem pending_goto (m : Memory T) (t : T) (phase : Phase) :
    (m.goto t phase).pending = m.pending + phase.pending - (m.phase t).pending := by
  have hupdate : (fun t' => ((m.goto t phase).phase t').pending) =
      Function.update (fun t => (m.phase t).pending) t phase.pending :=
    Function.comp_update Phase.pending m.phase t phase
  have hsplit := Finset.sum_sdiff (Finset.subset_univ {t}) (f := fun t => (m.phase t).pending)
  rw [Finset.sum_singleton] at hsplit
  rw [Memory.pending, hupdate, Finset.sum_update_of_mem (Finset.mem_univ t), Memory.pending, ← hsplit]
  ring

/-- A thread goes on, and what the others rely on stays. -/
theorem Counted.goto (h : Counted m) (m₁ : Memory T) (phase : Phase) (hphase : m₁.phase = m.phase)
    (hlt : m₁.used < 2 ^ 64)
    (hused : (m₁.used : ℤ) ≡ m₁.total - (m.pending + phase.pending - (m.phase t).pending) [ZMOD 2 ^ 64])
    (hown : ∀ ptr size, phase.block = some (ptr, size) → ptr ∈ m₁.live ∧ m₁.usable ptr = size)
    (hothers : ∀ t' ≠ t, ∀ ptr size, m.block t' = some (ptr, size) →
      ptr ∈ m₁.live ∧ m₁.usable ptr = size ∧ ∀ size', phase.block ≠ some (ptr, size')) :
    Counted (m₁.goto t phase) := by
  have hblock : ∀ t', m₁.block t' = m.block t' := fun t' => congrArg (fun phase : T → Phase => (phase t').block) hphase
  have hpending : m₁.pending = m.pending := congrArg (fun phase : T → Phase => ∑ t, (phase t).pending) hphase
  refine ⟨hlt, ?_, ?_, ?_⟩
  · rw [pending_goto, hpending, hphase]
    exact hused
  · intro t' ptr size hb
    by_cases ht : t' = t
    · rw [ht, Memory.block_goto_self] at hb
      exact hown ptr size hb
    · rw [Memory.block_goto_of_ne ht, hblock] at hb
      obtain ⟨hlive, hsize, -⟩ := hothers t' ht ptr size hb
      exact ⟨hlive, hsize⟩
  · intro t₁ t₂ ptr size₁ size₂ h₁ h₂
    by_cases ht₁ : t₁ = t <;> by_cases ht₂ : t₂ = t
    · rw [ht₁, ht₂]
    · rw [ht₁, Memory.block_goto_self] at h₁
      rw [Memory.block_goto_of_ne ht₂, hblock] at h₂
      exact absurd h₁ ((hothers t₂ ht₂ ptr size₂ h₂).2.2 size₁)
    · rw [ht₂, Memory.block_goto_self] at h₂
      rw [Memory.block_goto_of_ne ht₁, hblock] at h₁
      exact absurd h₂ ((hothers t₁ ht₁ ptr size₁ h₁).2.2 size₂)
    · rw [Memory.block_goto_of_ne ht₁, hblock] at h₁
      rw [Memory.block_goto_of_ne ht₂, hblock] at h₂
      exact h.distinct h₁ h₂

/-- A thread counts, and its block is what it was before or none. -/
theorem Counted.setUsed (h : Counted m) {used : ℕ} (phase : Phase) (hlt : used < 2 ^ 64)
    (hused : (used : ℤ) ≡ m.used + ((m.phase t).pending - phase.pending) [ZMOD 2 ^ 64])
    (hown : ∀ ptr size, phase.block = some (ptr, size) → ptr ∈ m.live ∧ m.usable ptr = size ∧
      ∀ t' ≠ t, ∀ size', m.block t' ≠ some (ptr, size')) :
    Counted ((m.setUsed used).goto t phase) := by
  refine h.goto (m.setUsed used) phase rfl hlt ?_ ?_ ?_
  · have hsum := hused.trans (h.used.add_right ((m.phase t).pending - phase.pending))
    have heq : (m.total : ℤ) - m.pending + ((m.phase t).pending - phase.pending) =
        (m.setUsed used).total - (m.pending + phase.pending - (m.phase t).pending) := by
      change _ = (m.total : ℤ) - _
      ring
    exact heq ▸ hsum
  · intro ptr size hb
    obtain ⟨hlive, hsize, -⟩ := hown ptr size hb
    exact ⟨hlive, hsize⟩
  · intro t' ht' ptr size hb
    obtain ⟨hlive, hsize⟩ := h.block hb
    exact ⟨hlive, hsize, fun size' he => (hown ptr size' he).2.2 t' ht' size hb⟩

/-- A thread gets a block or gives one back, which `used_memory` does not show. -/
theorem Counted.goto_same (h : Counted m) (m₁ : Memory T) (phase : Phase) (hphase : m₁.phase = m.phase)
    (hsame : m₁.used = m.used)
    (htotal : (m₁.total : ℤ) - phase.pending = m.total - (m.phase t).pending)
    (hown : ∀ ptr size, phase.block = some (ptr, size) → ptr ∈ m₁.live ∧ m₁.usable ptr = size)
    (hothers : ∀ t' ≠ t, ∀ ptr size, m.block t' = some (ptr, size) →
      ptr ∈ m₁.live ∧ m₁.usable ptr = size ∧ ∀ size', phase.block ≠ some (ptr, size')) :
    Counted (m₁.goto t phase) := by
  refine h.goto m₁ phase hphase (hsame ▸ h.used_lt) ?_ hown hothers
  have heq : (m.total : ℤ) - m.pending = m₁.total - (m.pending + phase.pending - (m.phase t).pending) := by
    calc (m.total : ℤ) - m.pending = m.total - (m.phase t).pending - m.pending + (m.phase t).pending := by ring
      _ = m₁.total - phase.pending - m.pending + (m.phase t).pending := by rw [htotal]
      _ = m₁.total - (m.pending + phase.pending - (m.phase t).pending) := by ring
  rw [hsame, ← heq]
  exact h.used

/-- What an allocation needs to know of the blocks of other calls. -/
theorem Counted.allocate (h : Counted m) {ptr size : ℕ} (m₁ : Memory T) (phase : Phase) (hphase : m₁.phase = m.phase)
    (hsame : m₁.used = m.used) (htotal : (m₁.total : ℤ) + size - phase.pending = m.total - (m.phase t).pending)
    (hblock : phase.block = some (ptr, size)) (hnew : ptr ∉ m₁.live)
    (hothers : ∀ t' ≠ t, ∀ ptr' size', m.block t' = some (ptr', size') → ptr' ∈ m₁.live ∧ m₁.usable ptr' = size') :
    Counted ((m₁.allocate ptr size).goto t phase) := by
  refine h.goto_same (m₁.allocate ptr size) phase hphase hsame ?_ ?_ ?_
  · rw [Memory.total_allocate hnew, Nat.cast_add]
    exact htotal
  · intro ptr' size' he
    obtain ⟨rfl, rfl⟩ := Prod.mk.inj (Option.some.inj (hblock.symm.trans he))
    exact ⟨Finset.mem_insert_self _ _, Function.update_self _ _ _⟩
  · intro t' ht' ptr' size' hb
    obtain ⟨hlive, hsize⟩ := hothers t' ht' ptr' size' hb
    have hne : ptr' ≠ ptr := fun he => hnew (he ▸ hlive)
    refine ⟨Finset.mem_insert_of_mem hlive, (Function.update_of_ne hne _ _).trans hsize, fun size'' he => ?_⟩
    exact hne (Prod.mk.inj (Option.some.inj (hblock.symm.trans he))).1.symm

theorem Counted.step (h : Counted m) {a : Action} (step : Step m (t, a) m') : Counted m' := by
  cases step with
  | @malloc _ ptr size hidle hnew =>
    refine h.allocate m (.allocated ptr size) rfl rfl ?_ rfl hnew fun _ _ _ _ hb => h.block hb
    rw [hidle]
    simp only [Phase.pending, sub_zero, add_sub_cancel_right]
  | @counted _ ptr size hphase =>
    refine h.setUsed .idle (addSize_lt _ _) ?_ fun _ _ he => by cases he
    rw [hphase]
    simpa only [Phase.pending, sub_zero] using addSize_modEq m.used size
  | @free _ ptr hidle hlive hunused =>
    refine h.setUsed (.freeing ptr (m.usable ptr)) (subSize_lt _ _) ?_ ?_
    · rw [hidle]
      simpa only [Phase.pending, zero_sub, ← sub_eq_add_neg] using subSize_modEq m.used (m.usable ptr)
    · rintro _ _ ⟨⟩
      exact ⟨hlive, rfl, fun t' _ size' => hunused t' size'⟩
  | @freed _ ptr size hphase =>
    obtain ⟨hlive, hsize, hothers⟩ := h.of_block (congrArg Phase.block hphase)
    refine h.goto_same (m.release ptr) .idle rfl rfl ?_ (fun _ _ he => by cases he) fun t' ht' ptr' size' hb => ?_
    · rw [hphase, ← Memory.total_release hlive, hsize]
      simp only [Phase.pending, Nat.cast_add, sub_zero, add_sub_cancel_right]
    · obtain ⟨hlive', hsize'⟩ := h.block hb
      have hne : ptr' ≠ ptr := by
        rintro rfl
        exact hothers t' ht' size' hb
      exact ⟨Finset.mem_erase_of_ne_of_mem hne hlive', hsize', fun _ he => by cases he⟩
  | @realloc _ ptr newptr size hidle hlive hunused hnew =>
    refine h.allocate (m.release ptr) (.moved newptr (m.usable ptr) size) rfl rfl ?_ rfl hnew fun t' ht' ptr' size' hb => ?_
    · rw [hidle, ← Memory.total_release hlive]
      simp only [Phase.pending, Nat.cast_add]
      ring
    · obtain ⟨hlive', hsize'⟩ := h.block hb
      have hne : ptr' ≠ ptr := by
        rintro rfl
        exact hunused t' size' hb
      exact ⟨Finset.mem_erase_of_ne_of_mem hne hlive', hsize'⟩
  | @recount _ ptr oldsize size hphase =>
    have hblock : m.block t = some (ptr, size) := congrArg Phase.block hphase
    refine h.setUsed (.recounted ptr size) (subSize_lt _ _) ?_ ?_
    · rw [hphase]
      have hdiff : (Phase.moved ptr oldsize size).pending - (Phase.recounted ptr size).pending = -oldsize := by
        simp only [Phase.pending]
        ring
      rw [hdiff, ← sub_eq_add_neg]
      exact subSize_modEq _ _
    · rintro _ _ ⟨⟩
      exact h.of_block hblock
  | @recounted _ ptr size hphase =>
    refine h.setUsed .idle (addSize_lt _ _) ?_ fun _ _ he => by cases he
    rw [hphase]
    simpa only [Phase.pending, sub_zero] using addSize_modEq m.used size

/-! ## Runs -/

/-- Whatever the threads do, `rr_get_used_memory` lags behind the blocks in use by what the calls under
way have not counted. It is exact when there are none. -/
theorem used_memory_exact {calls : List (T × Action)} (run : Run Step Memory.start calls m) :
    m.pending ≤ m.total ∧
      (m.total - m.pending < 2 ^ 64 → (rrGetUsedMemory m : ℤ) = m.total - m.pending) ∧
      ((∀ t, m.phase t = .idle) → rrGetUsedMemory m = m.total % 2 ^ 64) := by
  have h : Counted m := run.invariant (fun _ _ _ hs step => hs.step step) .start
  have hlt : (m.used : ℤ) < 2 ^ 64 := by exact_mod_cast h.used_lt
  have hmod : (m.used : ℤ) = (m.total - m.pending) % 2 ^ 64 :=
    (Int.emod_eq_of_lt (Int.natCast_nonneg _) hlt).symm.trans h.used
  refine ⟨h.pending_le, fun hsmall => ?_, fun hidle => ?_⟩
  · rw [h.get_eq, hmod]
    exact Int.emod_eq_of_lt (sub_nonneg.mpr h.pending_le) hsmall
  · have hpending : m.pending = 0 := Finset.sum_eq_zero fun t _ => congrArg Phase.pending (hidle t)
    rw [hpending, sub_zero] at hmod
    rw [h.get_eq]
    exact_mod_cast hmod

/-- Two threads allocate at once. -/
theorem used_memory_exact_two :
    let m₁ := ((Memory.start : Memory Bool).allocate 1 16).goto true (.allocated 1 16)
    let m₂ := (m₁.allocate 2 32).goto false (.allocated 2 32)
    let m₃ := (m₂.setUsed (addSize m₂.used 16)).goto true .idle
    rrGetUsedMemory ((m₃.setUsed (addSize m₃.used 32)).goto false .idle) = 48 := by
  intro m₁ m₂ m₃
  have h₁ : Step .start (true, .malloc 1 16) m₁ := .malloc rfl (by decide)
  have h₂ : Step m₁ (false, .malloc 2 32) m₂ := .malloc rfl (by decide)
  have h₃ : Step m₂ (true, .proceed) m₃ := @Step.counted _ _ m₂ true 1 16 rfl
  have h₄ : Step m₃ (false, .proceed) ((m₃.setUsed (addSize m₃.used 32)).goto false .idle) := @Step.counted _ _ m₃ false 2 32 rfl
  have hidle := (used_memory_exact (.cons h₁ (.cons h₂ (.cons h₃ (.one h₄))))).2.2
  exact hidle (by decide)

end RhinoRox.UsedMemory
