import Mathlib.Algebra.Order.Ring.Int
import Mathlib.Data.List.Nodup
import Mathlib.Logic.Function.Basic

/-!
# Tally lists

A list of entries with pairwise distinct keys and positive weights stands for a function
that is zero almost everywhere. Putting an entry in front, and changing or dropping the
entry of one key, change the function at that key only.
-/

namespace RhinoRox.TallyList

universe u v
variable {ι : Type u} {κ : Type v} [DecidableEq κ] (key : ι → κ) (weight : ι → ℤ)

/-- Change the first entry with key `a`, or drop it. -/
def updateFirst (a : κ) (f : ι → Option ι) : List ι → List ι
  | [] => []
  | i :: l => if key i = a then (f i).toList ++ l else i :: updateFirst a f l

/-- The entries of `l` are the non-zero values of `c`. -/
structure Tallies (l : List ι) (c : κ → ℤ) : Prop where
  nodup : (l.map key).Nodup
  pos : ∀ i ∈ l, 0 < weight i
  weight_eq : ∀ i ∈ l, weight i = c (key i)
  absent : ∀ a, a ∉ l.map key → c a = 0

variable {key weight} {l : List ι} {c : κ → ℤ}

namespace Tallies

theorem nonneg (h : Tallies key weight l c) (a : κ) : 0 ≤ c a := by
  by_cases ha : a ∈ l.map key
  · obtain ⟨i, hi, rfl⟩ := List.mem_map.mp ha
    exact h.weight_eq i hi ▸ (h.pos i hi).le
  · exact (h.absent a ha).ge

theorem mem_keys (h : Tallies key weight l c) {a : κ} : a ∈ l.map key ↔ 0 < c a := by
  constructor
  · intro ha
    obtain ⟨i, hi, rfl⟩ := List.mem_map.mp ha
    exact h.weight_eq i hi ▸ h.pos i hi
  · intro hc
    by_contra ha
    exact hc.ne' (h.absent a ha)

theorem find?_eq_none (h : Tallies key weight l c) {a : κ} :
    (l.find? fun i => decide (key i = a)) = none ↔ c a = 0 := by
  have hiff : ¬ (∃ i ∈ l, key i = a) ↔ c a = 0 := by
    rw [← List.mem_map, h.mem_keys, not_lt, le_iff_eq_or_lt, or_iff_left (h.nonneg a).not_gt]
  rw [List.find?_eq_none, ← hiff]
  simp

theorem cons (h : Tallies key weight l c) {i : ι} (hi : c (key i) = 0) (hw : 0 < weight i) :
    Tallies key weight (i :: l) (Function.update c (key i) (weight i)) := by
  have hkey : key i ∉ l.map key := fun hm => (h.mem_keys.mp hm).ne' hi
  refine ⟨List.nodup_cons.mpr ⟨hkey, h.nodup⟩, ?_, ?_, ?_⟩
  · intro x hx
    rcases List.mem_cons.mp hx with rfl | hx
    · exact hw
    · exact h.pos x hx
  · intro x hx
    rcases List.mem_cons.mp hx with rfl | hx
    · rw [Function.update_self]
    · have hne : key x ≠ key i := fun he => hkey (he ▸ List.mem_map_of_mem hx)
      rw [Function.update_of_ne hne, h.weight_eq x hx]
  · intro a ha
    obtain ⟨hne, ha⟩ := not_or.mp (List.mem_cons.not.mp ha)
    rw [Function.update_of_ne hne, h.absent a ha]

theorem tail {i : ι} (h : Tallies key weight (i :: l) c) :
    Tallies key weight l (Function.update c (key i) 0) := by
  obtain ⟨hkey, hnodup⟩ := List.nodup_cons.mp h.nodup
  refine ⟨hnodup, fun x hx => h.pos x (List.mem_cons_of_mem _ hx), ?_, ?_⟩
  · intro x hx
    have hne : key x ≠ key i := fun he => hkey (he ▸ List.mem_map_of_mem hx)
    rw [Function.update_of_ne hne, h.weight_eq x (List.mem_cons_of_mem _ hx)]
  · intro a ha
    by_cases hne : a = key i
    · rw [hne, Function.update_self]
    · rw [Function.update_of_ne hne]
      exact h.absent a (List.mem_cons.not.mpr (not_or.mpr ⟨hne, ha⟩))

/-- Changing the entry of `a` by `δ`, where it is dropped when nothing is left. -/
theorem updateFirst {a : κ} {f : ι → Option ι} {δ : ℤ} (h : Tallies key weight l c) (ha : 0 < c a)
    (hsome : ∀ i i', key i = a → 0 < weight i → f i = some i' →
      key i' = a ∧ weight i' = weight i + δ ∧ 0 < weight i + δ)
    (hnone : ∀ i, key i = a → 0 < weight i → f i = none → weight i + δ = 0) :
    Tallies key weight (updateFirst key a f l) (Function.update c a (c a + δ)) := by
  induction l generalizing c with
  | nil => exact absurd (h.absent a (by simp)) ha.ne'
  | cons i l ih =>
    have hi := h.weight_eq i (by simp)
    have hpos := h.pos i (by simp)
    rw [TallyList.updateFirst]
    by_cases hk : key i = a
    · rw [if_pos hk]
      have ht := h.tail
      rw [hk] at ht hi
      rcases hf : f i with _ | i'
      · rw [← hi, hnone i hk hpos hf]
        exact ht
      · obtain ⟨hk', hw, hpos'⟩ := hsome i i' hk hpos hf
        have hc := ht.cons (i := i') (by rw [hk', Function.update_self]) (hw ▸ hpos')
        rwa [hk', Function.update_idem, hw, hi] at hc
    · rw [if_neg hk]
      have hne : a ≠ key i := fun he => hk he.symm
      have htail := ih h.tail (by rwa [Function.update_of_ne hne])
      rw [Function.update_of_ne hne] at htail
      have hc := htail.cons (i := i)
        (by rw [Function.update_of_ne hk, Function.update_self]) hpos
      rwa [Function.update_comm hne, Function.update_idem, hi, Function.update_eq_self] at hc

end Tallies

end RhinoRox.TallyList
