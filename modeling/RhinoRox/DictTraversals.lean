import RhinoRox.DictIteration

/-!
# Whole traversals of a dictionary

Both ways to visit all pairs, the iterator and `dict_foreach`, follow the leaves from left to
right, which is the order of `strcmp`. The subtree of a prefix is visited the same way.
-/

namespace RhinoRox
open CritBitTree

variable {α σ : Type}

/-! ## `dict_foreach` -/

/-- `iterate`; the handler is given the state behind `data`. -/
def iterate (handle : σ → Bytes → α → Bool × σ) : Dict α → σ → Exec (Bool × σ)
  | .empty, _ => throw .nullPointer
  | .leaf s v, data => pure (handle data s v)
  | .node _ a b, data => do
    let (more, data) ← iterate handle a data
    if more then iterate handle b data else pure (false, data)

def dictForeach (handle : σ → Bytes → α → Bool × σ) (d : DictT α) (data : σ) : Exec σ :=
  if emptyNode d.dict then pure data
  else do
    let (_, data) ← iterate handle d.dict data
    pure data

/-- The pairs up to and including the first for which the handler returns `false`. -/
def visited (handle : σ → Bytes → α → Bool × σ) : σ → List (Bytes × α) → List (Bytes × α)
  | _, [] => []
  | data, (k, v) :: kvs =>
    (k, v) :: if (handle data k v).1 then visited handle (handle data k v).2 kvs else []

/-- The state after the calls of the handler on these pairs. -/
def afterCalls (handle : σ → Bytes → α → Bool × σ) (data : σ) (kvs : List (Bytes × α)) : σ :=
  kvs.foldl (fun data kv => (handle data kv.1 kv.2).2) data

/-- Whether the handler returns `true` for all pairs. -/
def acceptsAll (handle : σ → Bytes → α → Bool × σ) : σ → List (Bytes × α) → Bool
  | _, [] => true
  | data, (k, v) :: kvs => (handle data k v).1 && acceptsAll handle (handle data k v).2 kvs

section Foreach
variable (handle : σ → Bytes → α → Bool × σ)

theorem visited_append (data : σ) (kvs kvs' : List (Bytes × α)) :
    visited handle data (kvs ++ kvs') = visited handle data kvs ++
      if acceptsAll handle data kvs then visited handle (afterCalls handle data kvs) kvs' else [] := by
  induction kvs generalizing data with
  | nil => rfl
  | cons kv kvs ih =>
    obtain ⟨k, v⟩ := kv
    cases hmore : (handle data k v).1 with
    | true => simp [visited, acceptsAll, afterCalls, hmore, ih]
    | false => simp [visited, acceptsAll, hmore]

theorem visited_of_acceptsAll {data : σ} {kvs : List (Bytes × α)} (h : acceptsAll handle data kvs = true) :
    visited handle data kvs = kvs := by
  induction kvs generalizing data with
  | nil => rfl
  | cons kv kvs ih =>
    obtain ⟨k, v⟩ := kv
    obtain ⟨hmore, hrest⟩ := Bool.and_eq_true_iff.mp h
    simp [visited, hmore, ih hrest]

theorem acceptsAll_append (data : σ) (kvs kvs' : List (Bytes × α)) :
    acceptsAll handle data (kvs ++ kvs') =
      (acceptsAll handle data kvs && acceptsAll handle (afterCalls handle data kvs) kvs') := by
  induction kvs generalizing data with
  | nil => rfl
  | cons kv kvs ih => simp [acceptsAll, afterCalls, ih, Bool.and_assoc]

theorem afterCalls_append (data : σ) (kvs kvs' : List (Bytes × α)) :
    afterCalls handle data (kvs ++ kvs') = afterCalls handle (afterCalls handle data kvs) kvs' :=
  List.foldl_append

theorem iterate_spec {t : Dict α} (h : WellFormed direction t) (data : σ) :
    iterate handle t data =
      .ok (acceptsAll handle data t.entries, afterCalls handle data (visited handle data t.entries)) := by
  induction h generalizing data with
  | leaf s v => simp [iterate, acceptsAll, visited, afterCalls]
  | @node p a b _ _ _ _ _ iha ihb =>
    simp only [iterate, iha, Exec.ok_bind, Tree.entries_node, acceptsAll_append, visited_append]
    cases hall : acceptsAll handle data a.entries with
    | true =>
      rw [visited_of_acceptsAll handle hall]
      simp [ihb, afterCalls_append]
    | false => simp

/-- `dict_foreach` calls the handler on the pairs from left to right until it returns `false`. -/
theorem dictForeach_spec {d : DictT α} (h : d.Inv) (data : σ) :
    dictForeach handle d data = .ok (afterCalls handle data (visited handle data d.entries)) := by
  rcases h.valid with he | hw
  · simp [dictForeach, DictT.entries, he, emptyNode, visited, afterCalls]
  · simp [dictForeach, emptyNode_of_wellFormed hw, iterate_spec handle hw, DictT.entries]

end Foreach

/-! ## Stored pairs -/

/-- The value `dict_get` returns for a key; keys have no NUL. -/
def Stored (d : DictT α) (k : Bytes) (v : α) : Prop := 0 ∉ k ∧ dictGet d k = .ok (some v)

theorem DictT.Inv.mem_entries_iff {d : DictT α} (h : d.Inv) {k : Bytes} {v : α} :
    (k, v) ∈ d.entries ↔ Stored d k v := by
  rw [Stored, dictGet_spec h]
  constructor
  · intro hm
    have hk : 0 ∉ k := h.nulFree k (Tree.mem_keys_of_mem hm)
    rw [cStr_of_notMem hk, h.lookup_iff.mpr hm]
    exact ⟨hk, rfl⟩
  · rintro ⟨hk, hget⟩
    rw [cStr_of_notMem hk] at hget
    exact h.lookup_iff.mp (Except.ok.inj hget)

/-- An iterator yields the stored pairs in ascending order, as often as `dict_length` says, and
`dict_foreach` visits the same sequence up to the first pair that its handler refuses. -/
theorem dict_iteration_ascending {d : DictT α} (h : DictReachable d) :
    ∃ it kvs, dictIterCreate d = .ok it ∧ (∀ n, dictLength d ≤ n → dictIterRun n it = .ok kvs) ∧
      (∀ k v, (k, v) ∈ kvs ↔ Stored d k v) ∧
      kvs.Pairwise (fun e e' => e.1 < e'.1) ∧ kvs.length = dictLength d ∧
      ∀ (σ : Type) (handle : σ → Bytes → α → Bool × σ) (data : σ),
        dictForeach handle d data = .ok (afterCalls handle data (visited handle data kvs)) ∧
        (acceptsAll handle data kvs = true → visited handle data kvs = kvs) := by
  have hi := h.inv
  obtain ⟨it, hit, hrun⟩ : ∃ it, dictIterCreate d = .ok it ∧
      ∀ n, dictLength d ≤ n → dictIterRun n it = .ok d.entries := by
    rw [dictLength, hi.size_eq]
    rcases hi.valid with he | hw
    · have hz : d.size = 0 := by simp [hi.size_eq, DictT.entries, he]
      refine ⟨⟨[]⟩, by simp [dictIterCreate, iterCreate, hz], fun n _ => ?_⟩
      cases n <;> simp [dictIterRun, dictIterHasnext, DictT.entries, he]
    · obtain ⟨it, hit, hrun, -⟩ := iterCreate_run hw (hi.size_ne_zero hw)
      exact ⟨it, hit, hrun⟩
  refine ⟨it, d.entries, hit, hrun, fun k v => hi.mem_entries_iff, hi.sorted, hi.size_eq.symm, ?_⟩
  intro σ handle data
  exact ⟨dictForeach_spec handle hi data, visited_of_acceptsAll handle⟩

/-- The key `b` and then the key `a`. -/
def twoKeys : DictT ℕ := ⟨.node ⟨0, 1⟩ (.leaf [97] 2) (.leaf [98] 1), 2, false⟩

theorem twoKeys_reachable : DictReachable twoKeys := by
  have hb : dictSet (dictCreate : DictT ℕ) [98] (some 1) = .ok (true, ⟨.leaf [98] 1, 1, false⟩, []) := rfl
  have ha : dictSet ⟨.leaf [98] 1, 1, false⟩ [97] (some 2) = .ok (true, twoKeys, []) := rfl
  exact .set (.set .create [98] (some 1) hb) [97] (some 2) ha

theorem dict_iteration_ascending_two_keys :
    ∃ it kvs, dictIterCreate twoKeys = .ok it ∧ dictIterRun 2 it = .ok kvs ∧
      kvs.Pairwise (fun e e' => e.1 < e'.1) ∧ kvs.length = 2 := by
  obtain ⟨it, kvs, hit, hrun, -, hsorted, hlen, -⟩ := dict_iteration_ascending twoKeys_reachable
  exact ⟨it, kvs, hit, hrun 2 le_rfl, hsorted, hlen⟩

/-! ## The subtree of a prefix -/

/-- The walk only ever remembers nodes of the tree. -/
theorem getPrefixWalk_subtree {pre s : Bytes} {t n top r : Dict α} (hn : n.Subtree t) (htop : top.Subtree t)
    (h : getPrefixWalk pre n top = .ok (r, s)) : r.Subtree t := by
  induction n generalizing top with
  | empty => cases h
  | leaf k v =>
    obtain ⟨rfl, -⟩ := Prod.mk.inj (Except.ok.inj h)
    exact htop
  | node p a b iha ihb =>
    simp only [getPrefixWalk] at h
    generalize (if p.byteIdx < pre.length then byteAt pre p.byteIdx else 0) = c at h
    split at h
    · refine ihb hn.one ?_ h
      split
      · exact hn.one
      · exact htop
    · refine iha hn.zero ?_ h
      split
      · exact hn.zero
      · exact htop

theorem getPrefix_subtree {pre : Bytes} {t n : Dict α} (h : getPrefix t pre = .ok n) :
    n = .empty ∨ n.Subtree t := by
  rw [getPrefix] at h
  split at h
  · obtain rfl := Except.ok.inj h
    exact .inr (.refl t)
  · obtain ⟨⟨top, s⟩, hwalk, h⟩ := Exec.bind_eq_ok.mp h
    simp only at h
    split at h
    · obtain rfl := Except.ok.inj h
      exact .inr (getPrefixWalk_subtree (.refl t) (.refl t) hwalk)
    · obtain rfl := Except.ok.inj h
      exact .inl rfl

/-- The subtree that `get_prefix` returns has exactly the pairs whose key starts with the prefix,
and `dict_has_prefix` says whether there is one. -/
theorem prefix_subtree_exact {d : DictT α} (h : DictReachable d) (pre : CString) :
    ∃ n, getPrefix d.dict pre.1 = .ok n ∧ (n = .empty ∨ n.Subtree d.dict) ∧
      (∀ k v, (k, v) ∈ n.entries ↔ Stored d k v ∧ pre.1 <+: k) ∧
      (n = .empty ↔ ∀ k v, Stored d k v → ¬ pre.1 <+: k) ∧
      ∃ b, dictHasPrefix d pre.1 = .ok b ∧ (b = true ↔ ∃ k v, Stored d k v ∧ pre.1 <+: k) := by
  have hi := h.inv
  obtain ⟨n, hn, hvalid, he⟩ := getPrefix_spec hi pre.2
  have hmem : ∀ k v, (k, v) ∈ n.entries ↔ Stored d k v ∧ pre.1 <+: k := by
    intro k v
    rw [he, DictT.withPrefix, List.mem_filter, hi.mem_entries_iff, List.isPrefixOf_iff_prefix]
  have hempty : n = .empty ↔ ∀ k v, Stored d k v → ¬ pre.1 <+: k := by
    constructor
    · rintro rfl k v hs hpre
      cases (hmem k v).mpr ⟨hs, hpre⟩
    · intro hnone
      refine hvalid.resolve_right fun hw => ?_
      obtain ⟨k, hk⟩ := hw.exists_key
      obtain ⟨v, hv⟩ := Tree.exists_mem_of_mem_keys hk
      obtain ⟨hs, hpre⟩ := (hmem k v).mp hv
      exact hnone k v hs hpre
  have hflag : emptyNode n = true ↔ n = .empty := by
    cases n <;> simp [emptyNode]
  refine ⟨n, hn, getPrefix_subtree hn, hmem, hempty, !emptyNode n, ?_, ?_⟩
  · rw [dictHasPrefix, cStr_coe, hn]
    rfl
  · rw [Bool.not_eq_true', ← Bool.not_eq_true, hflag, hempty]
    simp

theorem prefix_subtree_exact_two_keys :
    ∃ n, getPrefix twoKeys.dict [97] = .ok n ∧ ∀ k v, (k, v) ∈ n.entries ↔ Stored twoKeys k v ∧ [97] <+: k := by
  obtain ⟨n, hn, -, hmem, -⟩ := prefix_subtree_exact twoKeys_reachable ⟨[97], by decide⟩
  exact ⟨n, hn, hmem⟩

end RhinoRox
