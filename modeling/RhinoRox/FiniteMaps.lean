import Mathlib.Data.Finmap
import Mathlib.Tactic.Common

/-!
# Finite maps

The values of a finite map replaced by their images, one key set to an optional value, and the
list of all pairs in the order of the keys.
-/

namespace RhinoRox.FiniteMaps

variable {κ α β : Type} [DecidableEq κ]

/-- The same keys with other values. -/
def mapValues (f : α → β) (m : Finmap fun _ : κ => α) : Finmap fun _ : κ => β where
  entries := m.entries.map fun e => ⟨e.1, f e.2⟩
  nodupKeys := by
    rw [← Multiset.nodup_keys, Multiset.keys, Multiset.map_map]
    exact Multiset.nodup_keys.mpr m.nodupKeys

/-- A key set to a value, or erased. -/
def put (m : Finmap fun _ : κ => α) (k : κ) : Option α → Finmap fun _ : κ => α
  | none => m.erase k
  | some v => m.insert k v

variable (m : Finmap fun _ : κ => α)

theorem lookup_mapValues (f : α → β) (k : κ) : (mapValues f m).lookup k = (m.lookup k).map f := by
  ext w
  rw [Finmap.lookup_eq_some_iff, Option.map_eq_some_iff]
  simp only [mapValues, Multiset.mem_map, Finmap.lookup_eq_some_iff]
  constructor
  · rintro ⟨⟨k', v⟩, hmem, he⟩
    obtain ⟨rfl, hv⟩ := Sigma.mk.inj he
    exact ⟨v, hmem, eq_of_heq hv⟩
  · rintro ⟨v, hmem, rfl⟩
    exact ⟨⟨k, v⟩, hmem, rfl⟩

theorem keys_mapValues (f : α → β) : (mapValues f m).keys = m.keys := by
  ext k
  rw [Finmap.mem_keys, Finmap.mem_keys, ← Finmap.lookup_isSome, ← Finmap.lookup_isSome, lookup_mapValues,
    Option.isSome_map]

theorem lookup_put (k : κ) (v : Option α) (j : κ) : (put m k v).lookup j = if j = k then v else m.lookup j := by
  split
  · rename_i hj
    rw [hj]
    cases v with
    | none => exact Finmap.lookup_erase k m
    | some v => exact Finmap.lookup_insert m
  · rename_i hj
    cases v with
    | none => exact Finmap.lookup_erase_ne hj
    | some v => exact Finmap.lookup_insert_of_ne m hj

/-- A map that differs from another one in a single key. -/
theorem eq_put {m m' : Finmap fun _ : κ => α} {k : κ} {v : Option α} (hk : m'.lookup k = v)
    (hframe : ∀ j, j ≠ k → m'.lookup j = m.lookup j) : m' = put m k v := by
  apply Finmap.ext_lookup
  intro j
  rw [lookup_put]
  split
  · rename_i hj
    rw [hj, hk]
  · rename_i hj
    exact hframe j hj

theorem put_lookup (k : κ) : put m k (m.lookup k) = m := (eq_put rfl fun _ _ => rfl).symm

theorem mapValues_put (f : α → β) (k : κ) (v : Option α) : mapValues f (put m k v) = put (mapValues f m) k (v.map f) := by
  apply eq_put
  · rw [lookup_mapValues, lookup_put, if_pos rfl]
  · intro j hj
    rw [lookup_mapValues, lookup_mapValues, lookup_put, if_neg hj]

theorem mapValues_insert (f : α → β) (k : κ) (v : α) : mapValues f (m.insert k v) = (mapValues f m).insert k (f v) :=
  mapValues_put m f k (some v)

theorem mapValues_erase (f : α → β) (k : κ) : mapValues f (m.erase k) = (mapValues f m).erase k :=
  mapValues_put m f k none

/-! ## The pairs in the order of the keys -/

variable [LT κ]

/-- The pairs of a map, each once, in ascending order of the keys. -/
structure Lists (xs : List (κ × α)) (m : Finmap fun _ : κ => α) : Prop where
  mem_iff : ∀ k v, (k, v) ∈ xs ↔ m.lookup k = some v
  sorted : xs.Pairwise fun e e' => e.1 < e'.1

variable {m}

theorem Lists.map {xs : List (κ × α)} (h : Lists xs m) (f : α → β) :
    Lists (xs.map (Prod.map id f)) (mapValues f m) where
  mem_iff k w := by
    rw [lookup_mapValues, Option.map_eq_some_iff, List.mem_map]
    constructor
    · rintro ⟨⟨k', v⟩, hmem, he⟩
      obtain ⟨rfl, rfl⟩ := Prod.mk.inj he
      exact ⟨v, (h.mem_iff k' v).mp hmem, rfl⟩
    · rintro ⟨v, hl, rfl⟩
      exact ⟨(k, v), (h.mem_iff k v).mpr hl, rfl⟩
  sorted := List.pairwise_map.mpr h.sorted

end RhinoRox.FiniteMaps
