import RhinoRox.CritBitTree
import Mathlib.Algebra.BigOperators.Finprod

/-!
# Totals over finite partial functions

The sum of a quantity over the values of a partial function with finite domain. A change at
one key leaves the sum over the other keys as it is, so every total is the part of one key
and the rest.
-/

namespace RhinoRox.KeyedTotal

variable {κ ν M : Type} [AddCommMonoid M]

/-- What a key contributes. -/
def part (g : ν → M) : Option ν → M
  | none => 0
  | some v => g v

@[simp] theorem part_none (g : ν → M) : part g none = 0 := rfl

@[simp] theorem part_some (g : ν → M) (v : ν) : part g (some v) = g v := rfl

/-- The sum over all keys. -/
noncomputable def total (g : ν → M) (f : κ → Option ν) : M := finsum fun k => part g (f k)

/-- The sum over all keys but one. -/
noncomputable def rest (g : ν → M) (f : κ → Option ν) (k : κ) : M :=
  finsum fun j => finsum fun _ : j ≠ k => part g (f j)

/-- Finitely many keys have a value. -/
def FiniteDomain (f : κ → Option ν) : Prop := {k | (f k).isSome}.Finite

theorem FiniteDomain.support {f : κ → Option ν} (h : FiniteDomain f) (g : ν → M) :
    (Function.support fun k => part g (f k)).Finite := by
  refine h.subset fun k hk => ?_
  rw [Function.mem_support] at hk
  rcases hf : f k with _ | v
  · simp [hf] at hk
  · simp [hf]

theorem FiniteDomain.total_eq {f : κ → Option ν} (h : FiniteDomain f) (g : ν → M) (k : κ) :
    total g f = part g (f k) + rest g f k :=
  (add_finsum_cond_ne k (h.support g)).symm

theorem rest_congr {f f' : κ → Option ν} (g : ν → M) {k : κ} (h : ∀ j, j ≠ k → f' j = f j) :
    rest g f' k = rest g f k := by
  refine finsum_congr fun j => finsum_congr fun hj => ?_
  rw [h j hj]

@[simp] theorem total_none (g : ν → M) : total g (fun _ : κ => none) = 0 := by
  simp [total]

section Finmap
variable [DecidableEq κ]

theorem finiteDomain_lookup (m : Finmap fun _ : κ => ν) : FiniteDomain fun k => m.lookup k := by
  refine m.keys.finite_toSet.subset fun k hk => ?_
  rw [Finset.mem_coe, Finmap.mem_keys]
  exact Finmap.lookup_isSome.mp hk

theorem insert_erase (m : Finmap fun _ : κ => ν) (k : κ) (v : ν) : (m.erase k).insert k v = m.insert k v := by
  apply Finmap.ext_lookup
  intro j
  by_cases hj : j = k
  · rw [hj, Finmap.lookup_insert, Finmap.lookup_insert]
  · rw [Finmap.lookup_insert_of_ne _ hj, Finmap.lookup_insert_of_ne _ hj, Finmap.lookup_erase_ne hj]

theorem erase_insert (m : Finmap fun _ : κ => ν) (k : κ) (v : ν) : (m.insert k v).erase k = m.erase k := by
  apply Finmap.ext_lookup
  intro j
  by_cases hj : j = k
  · rw [hj, Finmap.lookup_erase, Finmap.lookup_erase]
  · rw [Finmap.lookup_erase_ne hj, Finmap.lookup_erase_ne hj, Finmap.lookup_insert_of_ne _ hj]

/-- The sum over the entries of a finite map. -/
noncomputable def mapTotal (g : ν → M) (m : Finmap fun _ : κ => ν) : M := total g fun k => m.lookup k

noncomputable def mapRest (g : ν → M) (m : Finmap fun _ : κ => ν) (k : κ) : M := rest g (fun j => m.lookup j) k

variable (g : ν → M) (m : Finmap fun _ : κ => ν) (k : κ)

theorem mapTotal_eq : mapTotal g m = part g (m.lookup k) + mapRest g m k :=
  (finiteDomain_lookup m).total_eq g k

theorem mapTotal_insert (v : ν) : mapTotal g (m.insert k v) = g v + mapRest g m k := by
  rw [mapTotal_eq g (m.insert k v) k, Finmap.lookup_insert]
  congr 1
  exact rest_congr g fun j hj => Finmap.lookup_insert_of_ne m hj

theorem mapTotal_erase : mapTotal g (m.erase k) = mapRest g m k := by
  rw [mapTotal_eq g (m.erase k) k, Finmap.lookup_erase, part_none, zero_add]
  exact rest_congr g fun j hj => Finmap.lookup_erase_ne hj

/-- What a total of multisets consists of. -/
theorem mem_mapTotal {β : Type} {g : ν → Multiset β} {m : Finmap fun _ : κ => ν} {b : β} :
    b ∈ mapTotal g m ↔ ∃ k v, m.lookup k = some v ∧ b ∈ g v := by
  constructor
  · -- a property of sums that holds of every summand
    refine finsum_induction (fun s : Multiset β => b ∈ s → ∃ k v, m.lookup k = some v ∧ b ∈ g v) ?_ ?_ ?_
    · intro hb
      simp at hb
    · intro s t hs ht hb
      rcases Multiset.mem_add.mp hb with hb | hb
      · exact hs hb
      · exact ht hb
    · intro k hb
      change b ∈ part g (m.lookup k) at hb
      rcases hl : m.lookup k with _ | v
      · simp [hl] at hb
      · rw [hl] at hb
        exact ⟨k, v, hl, hb⟩
  · rintro ⟨k, v, hl, hb⟩
    rw [mapTotal_eq g m k, hl]
    exact Multiset.mem_add.mpr (.inl hb)

@[simp] theorem mapTotal_empty : mapTotal g (∅ : Finmap fun _ : κ => ν) = 0 := by
  simp [mapTotal]

/-- The total of the map that a list of pairs denotes. -/
theorem mapTotal_toMap {l : List (κ × ν)} (hn : (l.map Prod.fst).Nodup) (g : ν → M) :
    mapTotal g (CritBitTree.toMap l) = (l.map fun e => g e.2).sum := by
  induction l with
  | nil => simp
  | cons e l ih =>
    obtain ⟨k, v⟩ := e
    obtain ⟨hk, hn'⟩ := List.nodup_cons.mp hn
    have hl := ih hn'
    rw [mapTotal_eq g _ k, (CritBitTree.lookup_toMap_eq_none hn' k).mpr hk, part_none, zero_add] at hl
    have hins := CritBitTree.toMap_insert (l := []) (r := l) (k := k) (v := v) hn
    rw [List.nil_append, List.nil_append] at hins
    rw [hins, mapTotal_insert, hl, List.map_cons, List.sum_cons]

end Finmap

end RhinoRox.KeyedTotal
