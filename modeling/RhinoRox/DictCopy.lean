import RhinoRox.DictTraversals

/-!
# Copying a dictionary into another one

`dict_copy` stores the pairs of one dictionary in another with `dict_set`, which counts the
new keys, and then sets the size to that of the source. The size is right only if the
destination has no key of its own.
-/

namespace RhinoRox
open CritBitTree

variable {α : Type}

/-- `copy`, with the values that the callback of the destination is given. -/
def copy (dest : DictT α) : Dict α → Exec (Bool × DictT α × List α)
  | .empty => throw .nullPointer
  | .leaf s v => dictSet dest s (some v)
  | .node _ a b => do
    let (more, dest, freed) ← copy dest a
    if more then do
      let (rv, dest, freed') ← copy dest b
      pure (rv, dest, freed ++ freed')
    else pure (false, dest, freed)

def dictCopy (dest : DictT α) (src : Option (DictT α)) : Exec (Bool × DictT α × List α) :=
  match src with
  | none => pure (false, dest, [])
  | some src =>
    if emptyNode src.dict then pure (false, dest, [])
    else do
      let (rv, dest, freed) ← copy dest src.dict
      pure (rv, { dest with size := src.size, freeCb := src.freeCb }, freed)

theorem lookup_toMap_append {l r : List (Bytes × α)} (hn : ((l ++ r).map Prod.fst).Nodup) (k : Bytes) :
    (toMap (l ++ r)).lookup k = ((toMap r).lookup k).or ((toMap l).lookup k) := by
  rw [List.map_append] at hn
  obtain ⟨hl, hr, hdisjoint⟩ := List.nodup_append.mp hn
  apply Option.ext
  intro v
  rw [← List.map_append] at hn
  rw [lookup_toMap hn, List.mem_append]
  cases hlr : (toMap r).lookup k with
  | none =>
    have hnot := (lookup_toMap_eq_none hr k).mp hlr
    rw [Option.none_or, lookup_toMap hl]
    exact or_iff_left fun hm => hnot (List.mem_map_of_mem hm)
  | some w =>
    have hw := (lookup_toMap hr k w).mp hlr
    rw [Option.some_or, ← hlr, lookup_toMap hr]
    refine or_iff_right fun hm => ?_
    exact hdisjoint k (List.mem_map_of_mem hm) k (List.mem_map_of_mem hw) rfl

/-- The copy stores every pair of the tree and keeps the invariant. -/
theorem copy_spec {t : Dict α} (ht : WellFormed direction t) (hnul : ∀ k ∈ t.keys, 0 ∉ k) {dest : DictT α}
    (h : dest.Inv) :
    ∃ dest' freed, copy dest t = .ok (true, dest', freed) ∧ dest'.Inv ∧
      ∀ k, dest'.toMap.lookup k = ((toMap t.entries).lookup k).or (dest.toMap.lookup k) := by
  induction ht generalizing dest with
  | leaf s v =>
    obtain ⟨dest', freed, hr, hi, hm, -⟩ := dictSet_spec h s v
    rw [cStr_of_notMem (hnul s (by simp))] at hm
    refine ⟨dest', freed, hr, hi, fun k => ?_⟩
    have hone : toMap [(s, v)] = (∅ : Finmap fun _ : Bytes => α).insert s v :=
      toMap_insert (l := []) (r := []) (by simp)
    rw [hm, Tree.entries_leaf, hone]
    by_cases hk : k = s
    · rw [hk, Finmap.lookup_insert, Finmap.lookup_insert]
      rfl
    · rw [Finmap.lookup_insert_of_ne _ hk, Finmap.lookup_insert_of_ne _ hk]
      rfl
  | @node p a b left right zero one agree iha ihb =>
    have hn : ((a.entries ++ b.entries).map Prod.fst).Nodup :=
      (WellFormed.node left right zero one agree).keys_nodup
    rw [Tree.keys_node] at hnul
    obtain ⟨d₁, freed₁, hr₁, hi₁, hm₁⟩ := iha (fun k hk => hnul k (List.mem_append_left _ hk)) h
    obtain ⟨d₂, freed₂, hr₂, hi₂, hm₂⟩ := ihb (fun k hk => hnul k (List.mem_append_right _ hk)) hi₁
    refine ⟨d₂, freed₁ ++ freed₂, by simp [copy, hr₁, hr₂], hi₂, fun k => ?_⟩
    rw [hm₂, hm₁, Tree.entries_node, lookup_toMap_append hn, Option.or_assoc]

/-- The pairs of `src` override those of `dest`, the size is the number of keys, and later calls
and iterations behave as on the map that is now stored. -/
structure CopyOf (dest src dest' : DictT α) : Prop where
  stored : ∀ k v, Stored dest' k v ↔ Stored src k v ∨ Stored dest k v ∧ ∀ w, ¬ Stored src k w
  length : dictLength dest' = dest'.dict.keys.length
  empty : dictEmpty dest' = true ↔ ∀ k v, ¬ Stored dest' k v
  later : ∀ ops, ∃ d, runDict dest' ops = .ok ((runMap dest'.toMap ops).1, d) ∧ d.toMap = (runMap dest'.toMap ops).2
  iteration : ∃ it, dictIterCreate dest' = .ok it ∧ dictIterAll it = .ok dest'.entries

theorem DictT.Inv.not_stored_iff {d : DictT α} (h : d.Inv) {k : Bytes} :
    (∀ v, ¬ Stored d k v) ↔ d.toMap.lookup k = none := by
  rw [Option.eq_none_iff_forall_ne_some]
  refine forall_congr' fun v => not_congr ?_
  rw [← h.mem_entries_iff, ← h.lookup_iff]

theorem DictT.Inv.keys_toMap {d : DictT α} (h : d.Inv) : d.dict.keys.length = d.toMap.keys.card := by
  rw [h.card_keys, h.size_eq, Tree.keys, List.length_map, DictT.entries]

/-- A dictionary that keeps the invariant and stores the right pairs is a copy. -/
theorem DictT.Inv.copyOf {dest src dest' : DictT α} (h : dest.Inv) (hsrc : src.Inv) (h' : dest'.Inv)
    (hm : ∀ k, dest'.toMap.lookup k = (src.toMap.lookup k).or (dest.toMap.lookup k)) : CopyOf dest src dest' where
  stored k v := by
    rw [hsrc.not_stored_iff, ← h'.mem_entries_iff, ← h.mem_entries_iff, ← hsrc.mem_entries_iff, ← h'.lookup_iff,
      ← h.lookup_iff, ← hsrc.lookup_iff, hm]
    cases src.toMap.lookup k <;> simp
  length := by rw [dictLength, h'.keys_toMap, h'.card_keys]
  empty := by
    rw [dictEmpty, beq_iff_eq, h'.size_eq, List.length_eq_zero_iff, List.eq_nil_iff_forall_not_mem, Prod.forall]
    exact forall₂_congr fun k v => not_congr h'.mem_entries_iff
  later ops := by
    obtain ⟨d, hr, -, hmap⟩ := runDict_spec h' ops
    exact ⟨d, hr, hmap⟩
  iteration := dictIterCreate_spec h'

theorem DictT.Inv.stored_iff_keys {d : DictT α} (h : d.Inv) {k : Bytes} : (∃ v, Stored d k v) ↔ k ∈ d.toMap.keys := by
  rw [Finmap.mem_keys, ← Finmap.lookup_isSome, Option.isSome_iff_exists]
  refine exists_congr fun v => ?_
  rw [← h.mem_entries_iff, h.lookup_iff]

/-- The number of keys after a copy is the size of the source exactly if the source has every key. -/
theorem card_keys_eq_iff {m m' r : Finmap fun _ : Bytes => α} (hr : ∀ k, r.lookup k = (m'.lookup k).or (m.lookup k)) :
    r.keys.card = m'.keys.card ↔ m.keys ⊆ m'.keys := by
  have hkeys : r.keys = m'.keys ∪ m.keys := by
    apply Finset.ext
    intro k
    rw [Finset.mem_union, Finmap.mem_keys, Finmap.mem_keys, Finmap.mem_keys, ← Finmap.lookup_isSome,
      ← Finmap.lookup_isSome, ← Finmap.lookup_isSome, hr, Option.isSome_or, Bool.or_eq_true]
  rw [hkeys]
  constructor
  · intro hcard
    have heq := Finset.eq_of_subset_of_card_le (@Finset.subset_union_left _ _ m'.keys m.keys) hcard.le
    rw [heq]
    exact Finset.subset_union_right
  · intro hsub
    rw [Finset.union_eq_left.mpr hsub]

/-- The copy is right exactly if there is nothing to copy or the destination has no key that the
source lacks. -/
theorem dict_copy_iff {dest src : DictT α} (h : DictReachable dest) (h' : DictReachable src) :
    (∃ rv dest' freed, dictCopy dest (some src) = .ok (rv, dest', freed) ∧ CopyOf dest src dest') ↔
      (∀ k v, ¬ Stored src k v) ∨ ∀ k v, Stored dest k v → ∃ w, Stored src k w := by
  have hdest := h.inv
  have hsrc := h'.inv
  rcases hsrc.valid with he | hw
  · -- nothing to copy
    have hnone : ∀ k, src.toMap.lookup k = none := fun k => by simp [DictT.toMap, DictT.entries, he]
    refine iff_of_true ⟨false, dest, [], by simp [dictCopy, he, emptyNode], ?_⟩ (.inl fun k => ?_)
    · refine hdest.copyOf hsrc hdest fun k => ?_
      rw [hnone, Option.none_or]
    · exact hsrc.not_stored_iff.mpr (hnone k)
  · obtain ⟨d, freed, hr, hi, hm⟩ := copy_spec hw hsrc.nulFree hdest
    have hrun : dictCopy dest (some src) = .ok (true, { d with size := src.size, freeCb := src.freeCb }, freed) := by
      simp [dictCopy, emptyNode_of_wellFormed hw, hr]
    have hcard : d.toMap.keys.card = src.toMap.keys.card ↔ dest.toMap.keys ⊆ src.toMap.keys := card_keys_eq_iff hm
    have hkeys : dest.toMap.keys ⊆ src.toMap.keys ↔ ∀ k v, Stored dest k v → ∃ w, Stored src k w := by
      refine forall_congr' fun k => ?_
      rw [← hdest.stored_iff_keys, ← hsrc.stored_iff_keys, forall_exists_index]
    rw [hi.card_keys, hsrc.card_keys, hkeys] at hcard
    constructor
    · rintro ⟨rv, dest', freed', hrun', hcopy⟩
      rw [hrun, Except.ok.injEq, Prod.mk.injEq, Prod.mk.injEq] at hrun'
      obtain ⟨-, rfl, -⟩ := hrun'
      refine .inr (hcard.mp ?_)
      rw [← hi.card_keys, ← hi.keys_toMap]
      exact hcopy.length.symm
    · intro hcond
      have hall : ∀ k v, Stored dest k v → ∃ w, Stored src k w := by
        refine hcond.resolve_left fun hnone => ?_
        obtain ⟨e, he⟩ := List.exists_mem_of_ne_nil _ hw.entries_ne_nil
        exact hnone e.1 e.2 (hsrc.mem_entries_iff.mp he)
      refine ⟨true, _, freed, hrun, hdest.copyOf hsrc ⟨hi.valid, hi.nulFree, ?_⟩ hm⟩
      exact (hcard.mpr hall).symm.trans hi.size_eq

/-- The key `a`. -/
def keyA : DictT ℕ := ⟨.leaf [97] 1, 1, false⟩

/-- The key `b`. -/
def keyB : DictT ℕ := ⟨.leaf [98] 2, 1, false⟩

theorem keyA_reachable : DictReachable keyA := by
  have hrun : dictSet (dictCreate : DictT ℕ) [97] (some 1) = .ok (true, keyA, []) := rfl
  exact .set .create [97] (some 1) hrun

theorem keyB_reachable : DictReachable keyB := by
  have hrun : dictSet (dictCreate : DictT ℕ) [98] (some 2) = .ok (true, keyB, []) := rfl
  exact .set .create [98] (some 2) hrun

theorem dict_copy_iff_same_key : ∃ rv dest' freed, dictCopy keyA (some keyA) = .ok (rv, dest', freed) ∧
    CopyOf keyA keyA dest' :=
  (dict_copy_iff keyA_reachable keyA_reachable).mpr (.inr fun _ v hv => ⟨v, hv⟩)

/-- Two keys are stored and the size is one. -/
theorem dict_copy_undercounts : DictReachable keyA ∧ DictReachable keyB ∧
    ∃ dest', dictCopy keyA (some keyB) = .ok (true, dest', []) ∧ dest'.dict.keys = [[97], [98]] ∧
      dictLength dest' = 1 ∧ ¬ CopyOf keyA keyB dest' := by
  refine ⟨keyA_reachable, keyB_reachable, ⟨.node ⟨0, 1⟩ (.leaf [97] 1) (.leaf [98] 2), 1, false⟩, rfl, rfl, rfl, ?_⟩
  intro h
  exact absurd h.length (by decide)

end RhinoRox
