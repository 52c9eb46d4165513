import RhinoRox.AdlistOperations

/-!
# Lists that are created, copied and released

A released list gives back its nodes and hands every value to its `free` method. A copy has nodes of
its own; if a value cannot be copied, nothing is left of it.
-/

namespace RhinoRox.Adlist

open LinkedSegments FiniteMaps

variable {α : Type} {h h' : Heap α} {σ : Sequences α} {l a : ℕ} {s : Sequence α} {xs : Nodes α} {m : Allocator}

theorem zmalloc_cases (m : Allocator) (h : Heap α) : h.zmalloc m = .error .exit ∨ ∃ a, h.zmalloc m = .ok a := by
  rw [Heap.zmalloc]
  split
  · exact .inl rfl
  · exact .inr ⟨_, rfl⟩

/-! ## Creation -/

/-- Lists that are added or lost without a change of nodes. -/
theorem Heap.Represents.of_insert (hr : h.Represents σ) (hl : σ.lookup l = none) (hfresh : h.Fresh l) (methods : Methods α) :
    (h.setList l (Sequence.record ⟨[], methods⟩)).Represents (σ.insert l ⟨[], methods⟩) := by
  have hcases : ∀ l' t, (σ.insert l ⟨[], methods⟩).lookup l' = some t → t.nodes = [] ∨ σ.lookup l' = some t := by
    intro l' t hl'
    by_cases hne : l' = l
    · rw [hne, Finmap.lookup_insert] at hl'
      exact .inl (congrArg Sequence.nodes (Option.some.inj hl').symm)
    · rw [Finmap.lookup_insert_of_ne _ hne] at hl'
      exact .inr hl'
  constructor
  case lists => exact (congrArg (Finmap.insert l _) hr.lists).trans (mapValues_insert σ _ l _).symm
  case segment =>
    intro l' t hl'
    rcases hcases l' t hl' with ht | hl'
    · rw [ht]
      exact trivial
    · exact hr.segment l' t hl'
  case nodup =>
    intro l' t hl'
    rcases hcases l' t hl' with ht | hl'
    · rw [ht]
      exact List.nodup_nil
    · exact hr.nodup l' t hl'
  case apart =>
    intro l₁ l₂ t₁ t₂ b hl₁ hl₂ hb₁ hb₂
    rcases hcases l₁ t₁ hl₁ with ht | hold₁
    · rw [ht] at hb₁
      cases hb₁
    rcases hcases l₂ t₂ hl₂ with ht | hold₂
    · rw [ht] at hb₂
      cases hb₂
    · exact hr.apart _ _ _ _ b hold₁ hold₂ hb₁ hb₂
  case owned =>
    intro b hb
    obtain ⟨l', t, hl', hmem⟩ := hr.owned b hb
    have hne : l' ≠ l := by
      rintro rfl
      rw [hl] at hl'
      cases hl'
    exact ⟨l', t, (Finmap.lookup_insert_of_ne σ hne).trans hl', hmem⟩
  case word =>
    intro b hb
    obtain ⟨hlist, hword⟩ := hr.word b hb
    refine ⟨fun hmem => ?_, hword⟩
    rcases Finmap.mem_insert.mp hmem with he | hmem
    · exact hfresh.1 (he ▸ hb)
    · exact hlist hmem

theorem listCreate_spec (hr : h.Represents σ) (ha : h.zmalloc m = .ok l) :
    ∃ h', listCreate m h = .ok (h', l) ∧ h'.freed = h.freed ∧ h'.nodes = h.nodes ∧ σ.lookup l = none ∧
      h'.Represents (σ.insert l ⟨[], .unset⟩) := by
  have hl : σ.lookup l = none := by
    have hlists : h.lists.lookup l = none := Finmap.lookup_eq_none.mpr (zmalloc_fresh ha).2.1
    rw [hr.lists, lookup_mapValues] at hlists
    exact Option.map_eq_none_iff.mp hlists
  refine ⟨h.setList l (Sequence.record ⟨[], .unset⟩), ?_, rfl, rfl, hl, hr.of_insert hl (zmalloc_fresh ha) .unset⟩
  simp only [listCreate, ha, Exec.ok_bind, Exec.pure_eq]
  rfl

theorem listSetMethods_spec (hr : h.Represents σ) (hl : σ.lookup l = some s) (methods : Methods α) :
    ∃ h', listSetMethods h l methods = .ok h' ∧ h'.freed = h.freed ∧ h'.nodes = h.nodes ∧
      h'.Represents (σ.insert l { s with methods := methods }) := by
  have hrel : h.Relinks h s.nodes s.nodes := by
    refine ⟨hr.segment l s hl, hr.nodup l s hl, fun _ _ _ => rfl, fun b hb hold => absurd hb hold, fun b hb hnew => absurd hb hnew⟩
  refine ⟨h.setList l (Sequence.record { s with methods := methods }), ?_, rfl, rfl, hr.setList hl hrel rfl⟩
  simp only [listSetMethods, hr.list_eq hl, Exec.ok_bind, Exec.pure_eq]
  rfl

/-! ## Release -/

theorem releaseNodes_spec {prev : Option ℕ} (free : Bool) (hs : Segment h.nodes prev xs none) (hnd : (addrs xs).Nodup) :
    ∃ h', releaseNodes free xs.length (first xs none) h = .ok h' ∧
      (∀ a, h'.nodes.lookup a = if a ∈ addrs xs then none else h.nodes.lookup a) ∧ h'.lists = h.lists ∧
      h'.freed = h.freed ++ if free then xs.map Prod.snd else [] := by
  induction xs generalizing h prev with
  | nil => exact ⟨h, rfl, fun _ => rfl, rfl, by cases free <;> exact (List.append_nil _).symm⟩
  | cons x xs ih =>
    obtain ⟨hx, hnd⟩ : x.1 ∉ addrs xs ∧ (addrs xs).Nodup := List.nodup_cons.mp hnd
    obtain ⟨hnode, hs⟩ := hs
    have hs' : Segment ((h.freeValue free x.2).zfreeNode x.1).nodes (some x.1) xs none := by
      change Segment ((h.freeValue free x.2).nodes.erase x.1) _ _ _
      rw [freeValue_nodes]
      exact hs.erase hx
    obtain ⟨h', hr, hnodes, hlists, hfreed⟩ := ih hs' hnd
    refine ⟨h', ?_, fun b => ?_, hlists.trans (freeValue_lists h free x.2), ?_⟩
    · simp only [List.length_cons, first_cons, releaseNodes, node_of_lookup hnode, Exec.ok_bind]
      exact hr
    · rw [hnodes b]
      change (if b ∈ addrs xs then none else ((h.freeValue free x.2).nodes.erase x.1).lookup b) = _
      rw [freeValue_nodes, addrs_cons]
      by_cases hb : b = x.1
      · rw [hb, if_neg hx, Finmap.lookup_erase, if_pos List.mem_cons_self]
      · rw [Finmap.lookup_erase_ne hb]
        simp only [List.mem_cons, hb, false_or]
    · rw [hfreed]
      cases free
      · rfl
      · exact List.append_assoc _ _ _

/-- A list and its nodes are gone. -/
theorem Heap.Represents.of_erase (hr : h.Represents σ) (hl : σ.lookup l = some s) (hlists : h'.lists = h.lists.erase l)
    (hnodes : ∀ a, h'.nodes.lookup a = if a ∈ addrs s.nodes then none else h.nodes.lookup a) :
    h'.Represents (σ.erase l) := by
  have hcases : ∀ l' t, (σ.erase l).lookup l' = some t → l' ≠ l ∧ σ.lookup l' = some t := by
    intro l' t hl'
    have hne : l' ≠ l := by
      rintro rfl
      rw [Finmap.lookup_erase] at hl'
      cases hl'
    exact ⟨hne, (Finmap.lookup_erase_ne hne).symm.trans hl'⟩
  have hkept : ∀ a ∈ h'.nodes, a ∉ addrs s.nodes ∧ a ∈ h.nodes := by
    intro a ha
    rw [← Finmap.lookup_isSome, hnodes] at ha
    split at ha
    · cases ha
    · rename_i hmem
      exact ⟨hmem, Finmap.lookup_isSome.mp ha⟩
  constructor
  case lists => rw [hlists, hr.lists, mapValues_erase]
  case segment =>
    intro l' t hl'
    obtain ⟨hne, hl'⟩ := hcases l' t hl'
    apply (hr.segment l' t hl').congr
    intro b hb
    rw [hnodes, if_neg fun hmem => hne (hr.apart _ _ _ _ b hl' hl hb hmem)]
  case nodup => exact fun l' t hl' => hr.nodup l' t (hcases l' t hl').2
  case apart => exact fun l₁ l₂ t₁ t₂ b hl₁ hl₂ => hr.apart l₁ l₂ t₁ t₂ b (hcases l₁ t₁ hl₁).2 (hcases l₂ t₂ hl₂).2
  case owned =>
    intro b hb
    obtain ⟨hold, hb⟩ := hkept b hb
    obtain ⟨l', t, hl', hmem⟩ := hr.owned b hb
    have hne : l' ≠ l := by
      rintro rfl
      rw [hl] at hl'
      exact hold (Option.some.inj hl' ▸ hmem)
    exact ⟨l', t, (Finmap.lookup_erase_ne hne).trans hl', hmem⟩
  case word =>
    intro b hb
    obtain ⟨hlist, hword⟩ := hr.word b (hkept b hb).2
    refine ⟨fun hmem => ?_, hword⟩
    rw [hlists] at hmem
    exact hlist (Finmap.mem_erase.mp hmem).2

theorem listRelease_spec (hr : h.Represents σ) (hl : σ.lookup l = some s) :
    ∃ h', listRelease h l = .ok h' ∧ h'.freed = h.freed ++ s.methods.frees (s.nodes.map Prod.snd) ∧
      h'.Represents (σ.erase l) := by
  obtain ⟨h₁, hrun, hnodes, hlists, hfreed⟩ := releaseNodes_spec s.methods.free (hr.segment l s hl) (hr.nodup l s hl)
  refine ⟨{ h₁ with lists := h₁.lists.erase l }, ?_, hfreed, hr.of_erase hl (congrArg (Finmap.erase l) hlists) hnodes⟩
  simp only [listRelease, hr.list_eq hl, Exec.ok_bind]
  change (releaseNodes s.methods.free s.nodes.length (first s.nodes none) h >>= _) = _
  rw [hrun]
  rfl

end RhinoRox.Adlist
