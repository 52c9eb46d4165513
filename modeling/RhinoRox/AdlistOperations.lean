import RhinoRox.AdlistInvariant

/-!
# Nodes that are added and removed

Adding a node between two parts of a list, taking a node out and moving the last node to the front
leave the other lists as they are.
-/

namespace RhinoRox.Adlist

open LinkedSegments FiniteMaps

variable {α : Type} {h h' : Heap α} {σ : Sequences α} {l a o : ℕ} {s s' : Sequence α} {xs ys : Nodes α} {v w : α}

/-- A list had the nodes `xs` and has the nodes `ys`. -/
structure Heap.Relinks (h h' : Heap α) (xs ys : Nodes α) : Prop where
  segment : Segment h'.nodes none ys none
  nodup : (addrs ys).Nodup
  frame : ∀ a, a ∉ addrs xs → a ∉ addrs ys → h'.nodes.lookup a = h.nodes.lookup a
  fresh : ∀ a ∈ addrs ys, a ∉ addrs xs → h.Fresh a
  gone : ∀ a ∈ addrs xs, a ∉ addrs ys → a ∉ h'.nodes

theorem Heap.Relinks.of_nodes {h'' : Heap α} (hrel : h.Relinks h' xs ys) (hn : h''.nodes = h'.nodes) : h.Relinks h'' xs ys := by
  obtain ⟨hs, hnd, hframe, hfresh, hgone⟩ := hrel
  rw [← hn] at hs hframe hgone
  exact ⟨hs, hnd, hframe, hfresh, hgone⟩

namespace Heap.Represents

/-- The nodes of other lists are neither used nor freed. -/
theorem notMem_of_other (hr : h.Represents σ) (hl : σ.lookup l = some s) (hrel : h.Relinks h' s.nodes ys) {l' : ℕ}
    {t : Sequence α} (hl' : σ.lookup l' = some t) (hne : l' ≠ l) (ha : a ∈ addrs t.nodes) :
    a ∉ addrs s.nodes ∧ a ∉ addrs ys := by
  have hs : a ∉ addrs s.nodes := fun hmem => hne (hr.apart _ _ _ _ a hl' hl ha hmem)
  exact ⟨hs, fun hmem => (hrel.fresh a hmem hs).1 (hr.mem_nodes hl' ha)⟩

theorem relink (hr : h.Represents σ) (hl : σ.lookup l = some s) (hrel : h.Relinks h' s.nodes s'.nodes)
    (hlists : h'.lists = h.lists.insert l s'.record) : h'.Represents (σ.insert l s') := by
  have hcases : ∀ l' t, (σ.insert l s').lookup l' = some t → l' = l ∧ t = s' ∨ l' ≠ l ∧ σ.lookup l' = some t := by
    intro l' t hl'
    by_cases hne : l' = l
    · rw [hne, Finmap.lookup_insert] at hl'
      exact .inl ⟨hne, (Option.some.inj hl').symm⟩
    · rw [Finmap.lookup_insert_of_ne _ hne] at hl'
      exact .inr ⟨hne, hl'⟩
  have hkept : ∀ a ∈ h'.nodes, a ∉ addrs s'.nodes → a ∉ addrs s.nodes ∧ a ∈ h.nodes := by
    intro a ha hnew
    have hold : a ∉ addrs s.nodes := fun hmem => hrel.gone a hmem hnew ha
    rw [← Finmap.lookup_isSome, hrel.frame a hold hnew, Finmap.lookup_isSome] at ha
    exact ⟨hold, ha⟩
  constructor
  case lists => rw [hlists, hr.lists, mapValues_insert]
  case segment =>
    intro l' t hl'
    obtain ⟨-, rfl⟩ | ⟨hne, hl'⟩ := hcases l' t hl'
    · exact hrel.segment
    · apply (hr.segment l' t hl').congr
      intro a ha
      obtain ⟨hold, hnew⟩ := hr.notMem_of_other hl hrel hl' hne ha
      exact hrel.frame a hold hnew
  case nodup =>
    intro l' t hl'
    obtain ⟨-, rfl⟩ | ⟨-, hl'⟩ := hcases l' t hl'
    · exact hrel.nodup
    · exact hr.nodup l' t hl'
  case apart =>
    intro l₁ l₂ t₁ t₂ a hl₁ hl₂ ha₁ ha₂
    rcases hcases l₁ t₁ hl₁ with ⟨hl₁', ht₁⟩ | ⟨hne₁, hold₁⟩ <;> rcases hcases l₂ t₂ hl₂ with ⟨hl₂', ht₂⟩ | ⟨hne₂, hold₂⟩
    · rw [hl₁', hl₂']
    · rw [ht₁] at ha₁
      exact absurd ha₁ (hr.notMem_of_other hl hrel hold₂ hne₂ ha₂).2
    · rw [ht₂] at ha₂
      exact absurd ha₂ (hr.notMem_of_other hl hrel hold₁ hne₁ ha₁).2
    · exact hr.apart _ _ _ _ a hold₁ hold₂ ha₁ ha₂
  case owned =>
    intro a ha
    by_cases hnew : a ∈ addrs s'.nodes
    · exact ⟨l, s', Finmap.lookup_insert σ, hnew⟩
    · obtain ⟨hold, ha⟩ := hkept a ha hnew
      obtain ⟨l', t, hl', hmem⟩ := hr.owned a ha
      have hne : l' ≠ l := by
        rintro rfl
        rw [hl] at hl'
        exact hold (Option.some.inj hl' ▸ hmem)
      exact ⟨l', t, (Finmap.lookup_insert_of_ne σ hne).trans hl', hmem⟩
  case word =>
    intro a ha
    have hmem := hr.mem_lists hl
    have hword : a ∉ h.lists ∧ 0 < a ∧ a < 2 ^ 64 := by
      by_cases hnew : a ∈ addrs s'.nodes
      · by_cases hold : a ∈ addrs s.nodes
        · exact hr.word a (hr.mem_nodes hl hold)
        · exact (hrel.fresh a hnew hold).2
      · exact hr.word a (hkept a ha hnew).2
    rw [hlists, Finmap.mem_insert, not_or]
    exact ⟨⟨fun he => hword.1 (he ▸ hmem), hword.1⟩, hword.2⟩

end Heap.Represents

/-! ## Adding and removing a node -/

/-- A new node between two parts of a list. -/
theorem splice_spec (hs : Segment h.nodes none (xs ++ ys) none) (hnd : (addrs (xs ++ ys)).Nodup)
    (hfresh : h.Fresh a) (v : α) :
    ∃ h₁ h₂, (h.setNode a ⟨last none xs, first ys none, v⟩).linkNext (last none xs) (some a) = .ok h₁ ∧
      h₁.linkPrev (first ys none) (some a) = .ok h₂ ∧
      h.Relinks h₂ (xs ++ ys) (xs ++ (a, v) :: ys) ∧ h₂.lists = h.lists ∧ h₂.freed = h.freed := by
  have ha : a ∉ addrs (xs ++ ys) := fun hmem => hfresh.1 (hs.mem hmem)
  rw [addrs_append, List.mem_append, not_or] at ha
  obtain ⟨hxs, hys⟩ := Segment.append_iff.mp hs
  have hnd' := hnd
  rw [addrs_append] at hnd'
  have hdisj := List.disjoint_of_nodup_append hnd'
  have h0 : h.Keeps (h.setNode a ⟨last none xs, first ys none, v⟩) [a] := .setNode h _ List.mem_cons_self
  have hxs₀ := h0.segment hxs fun b hb he => ha.1 (List.mem_singleton.mp he ▸ hb)
  have hys₀ := h0.segment hys fun b hb he => ha.2 (List.mem_singleton.mp he ▸ hb)
  obtain ⟨h₁, hr₁, hxs₁, hk₁⟩ := linkNext_spec hxs₀ (List.Nodup.of_append_left hnd') (some a)
  have hys₁ := hk₁.segment hys₀ fun b hb hb' => hdisj hb' hb
  obtain ⟨h₂, hr₂, hys₂, hk₂⟩ := linkPrev_spec hys₁ (List.Nodup.of_append_right hnd') (some a)
  have hxs₂ := hk₂.segment hxs₁ fun b hb hb' => hdisj hb hb'
  have hmem : ∀ b, b ∉ addrs (xs ++ ys) → b ≠ a → h₂.nodes.lookup b = h.nodes.lookup b := by
    intro b hb hne
    rw [addrs_append, List.mem_append, not_or] at hb
    rw [hk₂.nodes b hb.2, hk₁.nodes b hb.1, h0.nodes b (by simpa using hne)]
  refine ⟨h₁, h₂, hr₁, hr₂, ?_, (hk₂.lists.trans hk₁.lists), (hk₂.freed.trans hk₁.freed)⟩
  have hnode : h₂.nodes.lookup a = some ⟨last none xs, first ys none, v⟩ := by
    rw [hk₂.nodes a ha.2, hk₁.nodes a ha.1]
    exact Finmap.lookup_insert _
  constructor
  case segment => exact Segment.append_iff.mpr ⟨hxs₂, hnode, hys₂⟩
  case nodup =>
    rw [addrs_append, addrs_cons, List.nodup_middle, List.nodup_cons, List.mem_append, not_or]
    exact ⟨ha, hnd'⟩
  case frame =>
    intro b hb hb'
    rw [addrs_append, addrs_cons, List.mem_append, List.mem_cons, not_or, not_or] at hb'
    exact hmem b hb hb'.2.1
  case fresh =>
    intro b hb hold
    rw [addrs_append, addrs_cons, List.mem_append, List.mem_cons] at hb
    rw [addrs_append, List.mem_append, not_or] at hold
    obtain rfl : b = a := by tauto
    exact hfresh
  case gone =>
    intro b hb hnew
    rw [addrs_append, List.mem_append] at hb
    rw [addrs_append, addrs_cons, List.mem_append, List.mem_cons, not_or, not_or] at hnew
    tauto

/-- A node is taken out of a list. -/
theorem unsplice_spec (hs : Segment h.nodes none (xs ++ (a, v) :: ys) none) (hnd : (addrs (xs ++ (a, v) :: ys)).Nodup) :
    ∃ h₁ h₂, h.linkNext (last none xs) (first ys none) = .ok h₁ ∧
      h₁.node (some a) = .ok ⟨last none xs, first ys none, v⟩ ∧
      h₁.linkPrev (first ys none) (last none xs) = .ok h₂ ∧
      h.Relinks (h₂.zfreeNode a) (xs ++ (a, v) :: ys) (xs ++ ys) ∧ h₂.lists = h.lists ∧ h₂.freed = h.freed := by
  have hnode := hs.lookup
  obtain ⟨hxs, -, hys⟩ := Segment.append_iff.mp hs
  rw [addrs_append, addrs_cons, List.nodup_middle, List.nodup_cons, List.mem_append, not_or] at hnd
  obtain ⟨ha, hnd⟩ := hnd
  have hdisj := List.disjoint_of_nodup_append hnd
  obtain ⟨h₁, hr₁, hxs₁, hk₁⟩ := linkNext_spec hxs (List.Nodup.of_append_left hnd) (first ys none)
  have hys₁ := hk₁.segment hys fun b hb hb' => hdisj hb' hb
  obtain ⟨h₂, hr₂, hys₂, hk₂⟩ := linkPrev_spec hys₁ (List.Nodup.of_append_right hnd) (last none xs)
  have hxs₂ := hk₂.segment hxs₁ fun b hb hb' => hdisj hb hb'
  refine ⟨h₁, h₂, hr₁, node_of_lookup ((hk₁.nodes a ha.1).trans hnode), hr₂, ?_, hk₂.lists.trans hk₁.lists,
    hk₂.freed.trans hk₁.freed⟩
  constructor
  case segment => exact Segment.append_iff.mpr ⟨hxs₂.erase ha.1, hys₂.erase ha.2⟩
  case nodup =>
    rw [addrs_append]
    exact hnd
  case frame =>
    intro b hb hb'
    rw [addrs_append, addrs_cons, List.mem_append, List.mem_cons, not_or, not_or] at hb
    exact (Finmap.lookup_erase_ne hb.2.1).trans ((hk₂.nodes b hb.2.2).trans (hk₁.nodes b hb.1))
  case fresh =>
    intro b hb hold
    rw [addrs_append, List.mem_append] at hb
    rw [addrs_append, addrs_cons, List.mem_append, List.mem_cons, not_or, not_or] at hold
    tauto
  case gone =>
    intro b hb hnew
    rw [addrs_append, addrs_cons, List.mem_append, List.mem_cons] at hb
    rw [addrs_append, List.mem_append, not_or] at hnew
    obtain rfl : b = a := by tauto
    exact Finmap.notMem_erase_self

/-! ## The operations -/

section Operations
variable {m : Allocator}

theorem length_lt_of_relinks (hr : h.Represents σ) (hl : σ.lookup l = some s) (hrel : h.Relinks h' s.nodes ys) :
    ys.length < 2 ^ 64 := by
  apply length_lt_of_words hrel.nodup
  intro a ha
  by_cases hold : a ∈ addrs s.nodes
  · exact (hr.word a (hr.mem_nodes hl hold)).2
  · exact (hrel.fresh a ha hold).2.2

theorem Heap.Represents.setList (hr : h.Represents σ) (hl : σ.lookup l = some s) (hrel : h.Relinks h' s.nodes s'.nodes)
    (hlists : h'.lists = h.lists) : (h'.setList l s'.record).Represents (σ.insert l s') := by
  have hrel' : h.Relinks (h'.setList l s'.record) s.nodes s'.nodes := hrel.of_nodes rfl
  apply hr.relink hl hrel'
  rw [← hlists]
  rfl

/-- The counter does not overflow. -/
theorem grow_len {n : ℕ} (h : n + 1 < 2 ^ 64) : (n + 1) % 2 ^ 64 = n + 1 := Nat.mod_eq_of_lt h

theorem listAddNodeHead_spec (hr : h.Represents σ) (hl : σ.lookup l = some s) (ha : h.zmalloc m = .ok a) (v : α) :
    ∃ h', listAddNodeHead m h l v = .ok (h', a) ∧ h'.freed = h.freed ∧
      h'.Represents (σ.insert l { s with nodes := (a, v) :: s.nodes }) := by
  obtain ⟨nodes, methods⟩ := s
  have hfresh := zmalloc_fresh ha
  have hs : Segment h.nodes none ([] ++ nodes) none := hr.segment l _ hl
  obtain ⟨h₁, h₂, hr₁, hr₂, hrel, hlists, hfreed⟩ := splice_spec hs (hr.nodup l _ hl) hfresh v
  obtain rfl := Except.ok.inj hr₁
  have hlen : (nodes.length + 1) % 2 ^ 64 = nodes.length + 1 := grow_len (length_lt_of_relinks hr hl hrel)
  refine ⟨h₂.setList l (Sequence.record ⟨(a, v) :: nodes, methods⟩), ?_, hfreed, hr.setList hl hrel hlists⟩
  simp only [listAddNodeHead, ha, hr.list_eq hl, Exec.ok_bind, Exec.pure_eq]
  cases nodes with
  | nil =>
    obtain rfl := Except.ok.inj hr₂
    rfl
  | cons x rest =>
    change Heap.setPrev _ (some x.1) (some a) = .ok h₂ at hr₂
    rw [last_nil, first_cons] at hr₂
    simp only [List.length_cons] at hlen
    simp only [Sequence.record, List.length_cons, Nat.add_eq_zero_iff, Nat.one_ne_zero, and_false, if_false, first_cons,
      hr₂, Exec.ok_bind, AdList.grow, last_cons, hlen]

theorem listAddNodeTail_spec (hr : h.Represents σ) (hl : σ.lookup l = some s) (ha : h.zmalloc m = .ok a) (v : α) :
    ∃ h', listAddNodeTail m h l v = .ok (h', a) ∧ h'.freed = h.freed ∧
      h'.Represents (σ.insert l { s with nodes := s.nodes ++ [(a, v)] }) := by
  obtain ⟨nodes, methods⟩ := s
  have hfresh := zmalloc_fresh ha
  have hs : Segment h.nodes none (nodes ++ []) none := by
    rw [List.append_nil]
    exact hr.segment l _ hl
  have hnd : (addrs (nodes ++ [])).Nodup := by
    rw [List.append_nil]
    exact hr.nodup l _ hl
  obtain ⟨h₁, h₂, hr₁, hr₂, hrel, hlists, hfreed⟩ := splice_spec hs hnd hfresh v
  obtain rfl := Except.ok.inj hr₂
  rw [List.append_nil] at hrel
  have hlength := length_lt_of_relinks hr hl hrel
  rw [List.length_append, List.length_singleton] at hlength
  have hlen := grow_len hlength
  refine ⟨h₁.setList l (Sequence.record ⟨nodes ++ [(a, v)], methods⟩), ?_, hfreed, hr.setList hl hrel hlists⟩
  simp only [listAddNodeTail, ha, hr.list_eq hl, Exec.ok_bind, Exec.pure_eq]
  cases nodes with
  | nil =>
    obtain rfl := Except.ok.inj hr₁
    rfl
  | cons x rest =>
    have hlast : (last none (x :: rest)).isSome = true := by
      rw [Option.isSome_iff_ne_none, Ne, last_eq_none]
      exact List.cons_ne_nil x rest
    rw [Heap.linkNext, if_pos hlast, first_nil, last_cons] at hr₁
    simp only [List.length_cons] at hlen
    simp only [Sequence.record, List.length_cons, Nat.add_eq_zero_iff, Nat.one_ne_zero, and_false, if_false,
      hr₁, Exec.ok_bind, AdList.grow, List.cons_append, first_cons, last_append, last_cons, last_nil,
      List.length_append, List.length_nil, Nat.zero_add, hlen]

theorem last_eq_self_iff (ho : o ∉ addrs ys) : last (some o) ys = some o ↔ ys = [] := by
  constructor
  · intro h
    induction ys using List.reverseRecOn with
    | nil => rfl
    | append_singleton front x _ =>
      rw [last_append, last_cons, last_nil] at h
      rw [addrs_append, List.mem_append, not_or] at ho
      exact absurd (Option.some.inj h ▸ List.mem_cons_self) ho.2
  · rintro rfl
    rfl

theorem listInsertNode_after_spec (hr : h.Represents σ) (hl : σ.lookup l = some s) (hnodes : s.nodes = xs ++ (o, w) :: ys)
    (ha : h.zmalloc m = .ok a) (v : α) :
    ∃ h', listInsertNode m h l o v true = .ok (h', a) ∧ h'.freed = h.freed ∧
      h'.Represents (σ.insert l { s with nodes := xs ++ (o, w) :: (a, v) :: ys }) := by
  obtain ⟨nodes, methods⟩ := s
  obtain rfl : nodes = xs ++ (o, w) :: ys := hnodes
  have hfresh := zmalloc_fresh ha
  have hsplit : ∀ zs : Nodes α, xs ++ (o, w) :: zs = (xs ++ [(o, w)]) ++ zs := by
    intro zs
    rw [List.append_assoc, List.singleton_append]
  have hold : h.node (some o) = .ok ⟨last none xs, first ys none, w⟩ := node_of_lookup (hr.segment l _ hl).lookup
  have hs : Segment h.nodes none ((xs ++ [(o, w)]) ++ ys) none := hsplit ys ▸ hr.segment l _ hl
  have hnd : (addrs ((xs ++ [(o, w)]) ++ ys)).Nodup := hsplit ys ▸ hr.nodup l _ hl
  obtain ⟨h₁, h₂, hr₁, hr₂, hrel, hlists, hfreed⟩ := splice_spec hs hnd hfresh v
  rw [← hsplit, ← hsplit] at hrel
  have ho : o ∉ addrs ys := by
    rw [addrs_append, addrs_append] at hnd
    exact fun hmem => List.disjoint_of_nodup_append hnd (List.mem_append_right _ List.mem_cons_self) hmem
  have hlength : (xs ++ (o, w) :: (a, v) :: ys).length < 2 ^ 64 := length_lt_of_relinks hr hl hrel
  have hlen : ((xs ++ (o, w) :: ys).length + 1) % 2 ^ 64 = (xs ++ (o, w) :: (a, v) :: ys).length := by
    simp only [List.length_append, List.length_cons] at hlength ⊢
    omega
  refine ⟨h₂.setList l (Sequence.record ⟨xs ++ (o, w) :: (a, v) :: ys, methods⟩), ?_, hfreed,
    hr.setList hl hrel hlists⟩
  simp only [last_append, last_cons, last_nil] at hr₁
  simp only [listInsertNode, ha, hold, hr.list_eq hl, Exec.ok_bind, ↓reduceIte, Sequence.record, hr₁, hr₂, Exec.pure_eq,
    first_append, first_cons, last_append, last_cons, last_eq_self_iff ho]
  cases ys with
  | nil => simp only [↓reduceIte, AdList.grow, hlen, last_nil]
  | cons y ys => simp only [reduceCtorEq, ↓reduceIte, AdList.grow, hlen, last_cons]

theorem first_eq_self_iff (ho : o ∉ addrs xs) : first xs (some o) = some o ↔ xs = [] := by
  cases xs with
  | nil => exact iff_of_true rfl rfl
  | cons x xs =>
    refine iff_of_false (fun he => ho ?_) (List.cons_ne_nil x xs)
    rw [first_cons] at he
    exact Option.some.inj he ▸ List.mem_cons_self

theorem listInsertNode_before_spec (hr : h.Represents σ) (hl : σ.lookup l = some s) (hnodes : s.nodes = xs ++ (o, w) :: ys)
    (ha : h.zmalloc m = .ok a) (v : α) :
    ∃ h', listInsertNode m h l o v false = .ok (h', a) ∧ h'.freed = h.freed ∧
      h'.Represents (σ.insert l { s with nodes := xs ++ (a, v) :: (o, w) :: ys }) := by
  obtain ⟨nodes, methods⟩ := s
  obtain rfl : nodes = xs ++ (o, w) :: ys := hnodes
  have hfresh := zmalloc_fresh ha
  have hold : h.node (some o) = .ok ⟨last none xs, first ys none, w⟩ := node_of_lookup (hr.segment l _ hl).lookup
  have hnd : (addrs (xs ++ (o, w) :: ys)).Nodup := hr.nodup l _ hl
  obtain ⟨h₁, h₂, hr₁, hr₂, hrel, hlists, hfreed⟩ := splice_spec (hr.segment l _ hl) hnd hfresh v
  have ho : o ∉ addrs xs := by
    rw [addrs_append] at hnd
    exact fun hmem => List.disjoint_of_nodup_append hnd hmem List.mem_cons_self
  have hlength : (xs ++ (a, v) :: (o, w) :: ys).length < 2 ^ 64 := length_lt_of_relinks hr hl hrel
  have hlen : ((xs ++ (o, w) :: ys).length + 1) % 2 ^ 64 = (xs ++ (a, v) :: (o, w) :: ys).length := by
    simp only [List.length_append, List.length_cons] at hlength ⊢
    omega
  refine ⟨h₂.setList l (Sequence.record ⟨xs ++ (a, v) :: (o, w) :: ys, methods⟩), ?_, hfreed,
    hr.setList hl hrel hlists⟩
  rw [first_cons] at hr₁ hr₂
  simp only [listInsertNode, ha, hold, hr.list_eq hl, Exec.ok_bind, Bool.false_eq_true, ↓reduceIte, Sequence.record, hr₁,
    hr₂, Exec.pure_eq, first_append, first_cons, last_append, last_cons, first_eq_self_iff ho]
  cases xs with
  | nil => simp only [↓reduceIte, AdList.grow, hlen, first_nil]
  | cons x xs => simp only [reduceCtorEq, ↓reduceIte, AdList.grow, hlen, first_cons]

@[simp] theorem freeValue_nodes (h : Heap α) (free : Bool) (v : α) : (h.freeValue free v).nodes = h.nodes := by
  cases free <;> rfl

@[simp] theorem freeValue_lists (h : Heap α) (free : Bool) (v : α) : (h.freeValue free v).lists = h.lists := by
  cases free <;> rfl

/-- The values that a `free` method is called with. -/
def Methods.frees (methods : Methods α) (vs : List α) : List α := if methods.free then vs else []

theorem isSome_last_cons (x : ℕ × α) (xs : Nodes α) : (last none (x :: xs)).isSome = true := by
  rw [Option.isSome_iff_ne_none, Ne, last_eq_none]
  exact List.cons_ne_nil x xs

@[simp] theorem cutHead_free (list : AdList α) (n : Node α) : (list.cutHead n).free = list.free := by
  rw [AdList.cutHead]
  split <;> rfl

@[simp] theorem cutTail_free (list : AdList α) (n : Node α) : (list.cutTail n).free = list.free := by
  rw [AdList.cutTail]
  split <;> rfl

/-- The record of a list after a node was taken out. -/
theorem record_cut (methods : Methods α) (hlen : subSize (xs ++ (a, v) :: ys).length 1 = (xs ++ ys).length) :
    (((Sequence.record ⟨xs ++ (a, v) :: ys, methods⟩).cutHead ⟨last none xs, first ys none, v⟩).cutTail
      ⟨last none xs, first ys none, v⟩).shrink = Sequence.record ⟨xs ++ ys, methods⟩ := by
  cases xs with
  | nil => cases ys <;> simp [AdList.cutHead, AdList.cutTail, AdList.shrink, Sequence.record] at hlen ⊢ <;> exact hlen
  | cons x xs =>
    rw [AdList.cutHead, if_pos (isSome_last_cons x xs)]
    cases ys <;> simp [AdList.cutTail, AdList.shrink, Sequence.record] at hlen ⊢ <;> exact hlen

theorem listDelNode_spec (hr : h.Represents σ) (hl : σ.lookup l = some s) (hnodes : s.nodes = xs ++ (a, v) :: ys) :
    ∃ h', listDelNode h l a = .ok h' ∧ h'.freed = h.freed ++ s.methods.frees [v] ∧
      h'.Represents (σ.insert l { s with nodes := xs ++ ys }) := by
  obtain ⟨nodes, methods⟩ := s
  obtain rfl : nodes = xs ++ (a, v) :: ys := hnodes
  have hnode : h.node (some a) = .ok ⟨last none xs, first ys none, v⟩ := node_of_lookup (hr.segment l _ hl).lookup
  obtain ⟨h₁, h₂, hr₁, hnode₁, hr₂, hrel, hlists, hfreed⟩ := unsplice_spec (hr.segment l _ hl) (hr.nodup l _ hl)
  have hlen : subSize (xs ++ (a, v) :: ys).length 1 = (xs ++ ys).length := by
    have hlt : (xs ++ (a, v) :: ys).length < 2 ^ 64 := hr.length_lt hl
    rw [subSize_of_le (by rw [List.length_append, List.length_cons]; omega) hlt, List.length_append, List.length_append,
      List.length_cons]
    omega
  have hrel' : h.Relinks ((h₂.freeValue methods.free v).zfreeNode a) (xs ++ (a, v) :: ys) (xs ++ ys) :=
    hrel.of_nodes (congrArg (Finmap.erase a) (freeValue_nodes h₂ _ v))
  refine ⟨((h₂.freeValue methods.free v).zfreeNode a).setList l (Sequence.record ⟨xs ++ ys, methods⟩), ?_, ?_,
    hr.setList hl hrel' ((freeValue_lists h₂ _ v).trans hlists)⟩
  · simp only [listDelNode, hr.list_eq hl, hnode, hr₁, hnode₁, hr₂, Exec.ok_bind, Exec.pure_eq, cutHead_free, cutTail_free,
      record_cut methods hlen]
    rfl
  · rw [← hfreed]
    cases hfree : methods.free <;> simp [Methods.frees, Heap.freeValue, Heap.zfreeNode, Heap.setList, hfree]

end Operations

/-! ## A new value and a new order -/

theorem lists_insert_record (hr : h.Represents σ) (hl : σ.lookup l = some s) : h.lists.insert l s.record = h.lists := by
  have hlookup : h.lists.lookup l = some s.record := by rw [hr.lists, lookup_mapValues, hl, Option.map_some]
  have hput := put_lookup h.lists l
  rw [hlookup] at hput
  exact hput

theorem setNodeValue_spec (hr : h.Represents σ) (hl : σ.lookup l = some s) (hnodes : s.nodes = xs ++ (a, v) :: ys) (w : α) :
    ∃ h', setNodeValue h a w = .ok h' ∧ h'.freed = h.freed ∧
      h'.Represents (σ.insert l { s with nodes := xs ++ (a, w) :: ys }) := by
  obtain ⟨nodes, methods⟩ := s
  obtain rfl : nodes = xs ++ (a, v) :: ys := hnodes
  have hs : Segment h.nodes none (xs ++ (a, v) :: ys) none := hr.segment l _ hl
  have hnd : (addrs (xs ++ (a, v) :: ys)).Nodup := hr.nodup l _ hl
  have haddrs : addrs (xs ++ (a, w) :: ys) = addrs (xs ++ (a, v) :: ys) := by rw [addrs_append, addrs_append]; rfl
  have ha : a ∉ addrs xs ∧ a ∉ addrs ys := by
    rw [addrs_append, addrs_cons, List.nodup_middle, List.nodup_cons, List.mem_append, not_or] at hnd
    exact hnd.1
  obtain ⟨hxs, -, hys⟩ := Segment.append_iff.mp hs
  refine ⟨h.setNode a ⟨last none xs, first ys none, w⟩, ?_, rfl, ?_⟩
  · simp only [setNodeValue, node_of_lookup hs.lookup, Exec.ok_bind, Exec.pure_eq]
  · have hrel : h.Relinks (h.setNode a ⟨last none xs, first ys none, w⟩) (xs ++ (a, v) :: ys) (xs ++ (a, w) :: ys) := by
      constructor
      case segment =>
        rw [Segment.append_iff]
        exact ⟨hxs.insert ha.1 _, Finmap.lookup_insert _, hys.insert ha.2 _⟩
      case nodup => rwa [haddrs]
      case frame =>
        intro b hb _
        apply Finmap.lookup_insert_of_ne
        rintro rfl
        exact hb (List.mem_map_of_mem (List.mem_append_right xs List.mem_cons_self))
      case fresh => exact fun b hb hold => absurd (haddrs ▸ hb) hold
      case gone => exact fun b hb hnew => absurd (haddrs ▸ hb) hnew
    apply hr.relink hl hrel
    have hrecord : Sequence.record ⟨xs ++ (a, w) :: ys, methods⟩ = Sequence.record ⟨xs ++ (a, v) :: ys, methods⟩ := by
      simp [Sequence.record]
    exact hrecord ▸ (lists_insert_record hr hl).symm

/-- The last node comes first. -/
def rotated (xs : Nodes α) : Nodes α := xs.getLast?.toList ++ xs.dropLast

theorem rotated_append_singleton (xs : Nodes α) (x : ℕ × α) : rotated (xs ++ [x]) = x :: xs := by
  rw [rotated, List.getLast?_concat, List.dropLast_concat]
  rfl

/-- The four assignments of `listRotate` on a list with two nodes or more. -/
theorem rotate_spec {front : Nodes α} {t b : ℕ} (hs : Segment h.nodes none (front ++ [(t, v)]) none)
    (hnd : (addrs (front ++ [(t, v)])).Nodup) (hfirst : first front none = some b) :
    ∃ h₁ h₂ h₃ h₄, h.setNext (last none front) none = .ok h₁ ∧ h₁.setPrev (some b) (some t) = .ok h₂ ∧
      h₂.setPrev (some t) none = .ok h₃ ∧ h₃.setNext (some t) (some b) = .ok h₄ ∧
      h.Relinks h₄ (front ++ [(t, v)]) ((t, v) :: front) ∧ h₄.lists = h.lists ∧ h₄.freed = h.freed := by
  obtain ⟨c, hlast⟩ : ∃ c, last none front = some c := by
    obtain ⟨_, rest, rfl⟩ := exists_of_first hfirst
    exact Option.isSome_iff_exists.mp (isSome_last_cons _ rest)
  have hnode := hs.lookup
  obtain ⟨hfront, -⟩ := Segment.append_iff.mp hs
  rw [addrs_append] at hnd
  have hndf := List.Nodup.of_append_left hnd
  have ht : t ∉ addrs front := fun hmem => List.disjoint_of_nodup_append hnd hmem List.mem_cons_self
  obtain ⟨h₁, hr₁, hs₁, hk₁⟩ := setNext_of_last hfront hndf hlast none
  obtain ⟨h₂, hr₂, hs₂, hk₂⟩ := setPrev_of_first hs₁ hndf hfirst (some t)
  have hnode₂ : h₂.nodes.lookup t = some ⟨last none front, none, v⟩ :=
    (hk₂.nodes t ht).trans ((hk₁.nodes t ht).trans hnode)
  have hnode₃ : (h₂.setNode t ⟨none, none, v⟩).nodes.lookup t = some ⟨none, none, v⟩ := Finmap.lookup_insert _
  refine ⟨h₁, h₂, h₂.setNode t ⟨none, none, v⟩, (h₂.setNode t ⟨none, none, v⟩).setNode t ⟨none, some b, v⟩, ?_, hr₂, ?_,
    ?_, ?_, hk₂.lists.trans hk₁.lists, hk₂.freed.trans hk₁.freed⟩
  · rw [hlast]
    exact hr₁
  · simp only [Heap.setPrev, node_of_lookup hnode₂, Exec.ok_bind, Exec.pure_eq]
  · simp only [Heap.setNext, node_of_lookup hnode₃, Exec.ok_bind, Exec.pure_eq]
  · constructor
    case segment =>
      refine ⟨?_, (hs₂.insert ht _).insert ht _⟩
      rw [hfirst]
      exact Finmap.lookup_insert _
    case nodup => exact List.nodup_cons.mpr ⟨ht, hndf⟩
    case frame =>
      intro d hd _
      rw [addrs_append, List.mem_append, not_or] at hd
      have hdt : d ≠ t := fun he => hd.2 (he ▸ List.mem_cons_self)
      rw [← hk₁.nodes d hd.1, ← hk₂.nodes d hd.1]
      exact (Finmap.lookup_insert_of_ne _ hdt).trans (Finmap.lookup_insert_of_ne _ hdt)
    case fresh =>
      intro d hd hold
      rw [addrs_append, List.mem_append, not_or] at hold
      exact ((List.mem_cons.mp hd).elim (fun he => hold.2 (he ▸ List.mem_cons_self)) hold.1).elim
    case gone =>
      intro d hd hnew
      rw [addrs_cons, List.mem_cons, not_or] at hnew
      rw [addrs_append, List.mem_append] at hd
      exact (hd.elim hnew.2 fun hmem => hnew.1 (List.mem_singleton.mp hmem)).elim

theorem listRotate_spec (hr : h.Represents σ) (hl : σ.lookup l = some s) :
    ∃ h', listRotate h l = .ok h' ∧ h'.freed = h.freed ∧
      h'.Represents (σ.insert l { s with nodes := rotated s.nodes }) := by
  obtain ⟨nodes, methods⟩ := s
  have hlist := hr.list_eq hl
  by_cases hshort : nodes.length ≤ 1
  · have hrot : rotated nodes = nodes := by
      match nodes, hshort with
      | [], _ => rfl
      | [x], _ => rfl
    have hσ : σ.insert l ⟨nodes, methods⟩ = σ := by
      have hput := put_lookup σ l
      rw [hl] at hput
      exact hput
    refine ⟨h, ?_, rfl, ?_⟩
    · simp only [listRotate, hlist, Exec.ok_bind, Exec.pure_eq]
      exact if_pos hshort
    · rw [hrot, hσ]
      exact hr
  · obtain ⟨front, t, v, rfl⟩ : ∃ front t v, nodes = front ++ [(t, v)] := by
      induction nodes using List.reverseRecOn with
      | nil => exact absurd (Nat.zero_le 1) hshort
      | append_singleton front y _ => exact ⟨front, y.1, y.2, rfl⟩
    obtain ⟨b, hfirst⟩ : ∃ b, first front none = some b := by
      cases front with
      | nil => exact absurd le_rfl hshort
      | cons x rest => exact ⟨x.1, rfl⟩
    obtain ⟨h₁, h₂, h₃, h₄, hr₁, hr₂, hr₃, hr₄, hrel, hlists, hfreed⟩ :=
      rotate_spec (hr.segment l _ hl) (hr.nodup l _ hl) hfirst
    have hnode : h.node (some t) = .ok ⟨last none front, none, v⟩ := node_of_lookup (hr.segment l _ hl).lookup
    rw [show rotated (front ++ [(t, v)]) = (t, v) :: front from rotated_append_singleton front (t, v)]
    refine ⟨h₄.setList l (Sequence.record ⟨(t, v) :: front, methods⟩), ?_, hfreed, hr.setList hl hrel hlists⟩
    obtain ⟨u, rest, rfl⟩ := exists_of_first hfirst
    have hlong : ¬ (Sequence.record ⟨(b, u) :: rest ++ [(t, v)], methods⟩).len ≤ 1 := hshort
    simp only [last_cons] at hr₁ hnode
    simp only [listRotate, hlist, Exec.ok_bind, Exec.pure_eq, if_neg hlong]
    simp only [Sequence.record, List.cons_append, first_cons, last_append, last_cons, last_nil, hnode, hr₁, hr₂, hr₃, hr₄,
      Exec.ok_bind, List.length_append, List.length_cons, List.length_nil, Nat.zero_add]

end RhinoRox.Adlist
