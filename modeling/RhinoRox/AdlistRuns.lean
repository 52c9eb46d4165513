import RhinoRox.AdlistWalks
import RhinoRox.LabelledRuns

/-!
# Runs of calls on lists

Whatever calls its users make, a heap of doubly linked lists behaves like a table of sequences. A
user has to pass lists and nodes that are in use. No call then follows `NULL` or freed memory, and
the heap holds the nodes of its lists and nothing else.
-/

namespace RhinoRox.Adlist

open LinkedSegments LabelledRuns

variable {α : Type}

inductive Call (α : Type) where
  | create (m : Allocator)
  | setMethods (l : ℕ) (methods : Methods α)
  | addHead (m : Allocator) (l : ℕ) (v : α)
  | addTail (m : Allocator) (l : ℕ) (v : α)
  | insert (m : Allocator) (l node : ℕ) (v : α) (after : Bool)
  | del (l node : ℕ)
  | setValue (node : ℕ) (v : α)
  | rotate (l : ℕ)
  | dup (m : Allocator) (l : ℕ)
  | release (l : ℕ)
  | search (l : ℕ) (key : α)
  | index (l : ℕ) (i : ℤ)

inductive Answer where
  | done
  | address (a : ℕ)
  | pointer (a : Option ℕ)

/-! ## Sequences -/

/-- The sequences and the values that `free` methods were called with. -/
structure Lists (α : Type) where
  sequences : Sequences α
  freed : List α

namespace Lists

def empty : Lists α := ⟨∅, []⟩

/-- No list and no node has the address. -/
def Unused (t : Lists α) (a : ℕ) : Prop :=
  t.sequences.lookup a = none ∧ ∀ l s, t.sequences.lookup l = some s → a ∉ addrs s.nodes

/-- A list is given other nodes. -/
def set (t : Lists α) (l : ℕ) (s : Sequence α) (nodes : Nodes α) : Lists α :=
  { t with sequences := t.sequences.insert l { s with nodes := nodes } }

def free (t : Lists α) (methods : Methods α) (vs : List α) : Lists α := { t with freed := t.freed ++ methods.frees vs }

/-- What a user has to make sure of. -/
def Allowed (t : Lists α) : Call α → Prop
  | .create _ => True
  | .setMethods l _ | .addHead _ l _ | .addTail _ l _ | .rotate l | .dup _ l | .release l | .search l _ => l ∈ t.sequences
  | .insert _ l node _ _ | .del l node => ∃ s, t.sequences.lookup l = some s ∧ node ∈ addrs s.nodes
  | .setValue node _ => ∃ l s, t.sequences.lookup l = some s ∧ node ∈ addrs s.nodes
  | .index l i => l ∈ t.sequences ∧ -2 ^ 63 < i

variable [DecidableEq α]

/-- What a call does to the sequences, and its answer. -/
inductive Does : Lists α → Call α × Answer → Lists α → Prop where
  | create {t : Lists α} {l : ℕ} (m : Allocator) (h : t.Unused l) :
      Does t (.create m, .address l) { t with sequences := t.sequences.insert l ⟨[], .unset⟩ }
  | setMethods {t : Lists α} {l : ℕ} {s : Sequence α} (methods : Methods α) (hl : t.sequences.lookup l = some s) :
      Does t (.setMethods l methods, .done) { t with sequences := t.sequences.insert l { s with methods := methods } }
  | addHead {t : Lists α} {l a : ℕ} {s : Sequence α} (m : Allocator) (v : α) (hl : t.sequences.lookup l = some s)
      (h : t.Unused a) : Does t (.addHead m l v, .address a) (t.set l s ((a, v) :: s.nodes))
  | addTail {t : Lists α} {l a : ℕ} {s : Sequence α} (m : Allocator) (v : α) (hl : t.sequences.lookup l = some s)
      (h : t.Unused a) : Does t (.addTail m l v, .address a) (t.set l s (s.nodes ++ [(a, v)]))
  | insertAfter {t : Lists α} {l a o : ℕ} {s : Sequence α} {xs ys : Nodes α} {w : α} (m : Allocator) (v : α)
      (hl : t.sequences.lookup l = some s) (hnodes : s.nodes = xs ++ (o, w) :: ys) (h : t.Unused a) :
      Does t (.insert m l o v true, .address a) (t.set l s (xs ++ (o, w) :: (a, v) :: ys))
  | insertBefore {t : Lists α} {l a o : ℕ} {s : Sequence α} {xs ys : Nodes α} {w : α} (m : Allocator) (v : α)
      (hl : t.sequences.lookup l = some s) (hnodes : s.nodes = xs ++ (o, w) :: ys) (h : t.Unused a) :
      Does t (.insert m l o v false, .address a) (t.set l s (xs ++ (a, v) :: (o, w) :: ys))
  | del {t : Lists α} {l a : ℕ} {s : Sequence α} {xs ys : Nodes α} {v : α} (hl : t.sequences.lookup l = some s)
      (hnodes : s.nodes = xs ++ (a, v) :: ys) :
      Does t (.del l a, .done) ((t.set l s (xs ++ ys)).free s.methods [v])
  | setValue {t : Lists α} {l a : ℕ} {s : Sequence α} {xs ys : Nodes α} {v : α} (w : α)
      (hl : t.sequences.lookup l = some s) (hnodes : s.nodes = xs ++ (a, v) :: ys) :
      Does t (.setValue a w, .done) (t.set l s (xs ++ (a, w) :: ys))
  | rotate {t : Lists α} {l : ℕ} {s : Sequence α} (hl : t.sequences.lookup l = some s) :
      Does t (.rotate l, .done) (t.set l s (rotated s.nodes))
  | dup {t : Lists α} {l copy : ℕ} {s : Sequence α} {ys : Nodes α} (m : Allocator) (hl : t.sequences.lookup l = some s)
      (hall : (s.methods.copied (s.nodes.map Prod.snd)).2 = true)
      (hvalues : ys.map Prod.snd = (s.methods.copied (s.nodes.map Prod.snd)).1) (h : t.Unused copy)
      (hnd : (addrs ys).Nodup) (hnodes : ∀ a ∈ addrs ys, t.Unused a) :
      Does t (.dup m l, .pointer (some copy)) { t with sequences := t.sequences.insert copy ⟨ys, s.methods⟩ }
  | dupFails {t : Lists α} {l : ℕ} {s : Sequence α} (m : Allocator) (hl : t.sequences.lookup l = some s)
      (hsome : (s.methods.copied (s.nodes.map Prod.snd)).2 = false) :
      Does t (.dup m l, .pointer none) (t.free s.methods (s.methods.copied (s.nodes.map Prod.snd)).1)
  | release {t : Lists α} {l : ℕ} {s : Sequence α} (hl : t.sequences.lookup l = some s) :
      Does t (.release l, .done) ({ t with sequences := t.sequences.erase l }.free s.methods (s.nodes.map Prod.snd))
  | search {t : Lists α} {l : ℕ} {s : Sequence α} (key : α) (hl : t.sequences.lookup l = some s) :
      Does t (.search l key, .pointer ((s.nodes.find? fun x => s.methods.matches x.2 key).map Prod.fst)) t
  | index {t : Lists α} {l : ℕ} {s : Sequence α} (i : ℤ) (hl : t.sequences.lookup l = some s) :
      Does t (.index l i, .pointer (nodeAt s.nodes i)) t

end Lists

/-! ## Heaps -/

namespace Heap
variable [DecidableEq α]

def exec (h : Heap α) : Call α → Exec (Heap α × Answer)
  | .create m => do
    let r ← listCreate m h
    pure (r.1, .address r.2)
  | .setMethods l methods => do
    let h ← listSetMethods h l methods
    pure (h, .done)
  | .addHead m l v => do
    let r ← listAddNodeHead m h l v
    pure (r.1, .address r.2)
  | .addTail m l v => do
    let r ← listAddNodeTail m h l v
    pure (r.1, .address r.2)
  | .insert m l node v after => do
    let r ← listInsertNode m h l node v after
    pure (r.1, .address r.2)
  | .del l node => do
    let h ← listDelNode h l node
    pure (h, .done)
  | .setValue node v => do
    let h ← setNodeValue h node v
    pure (h, .done)
  | .rotate l => do
    let h ← listRotate h l
    pure (h, .done)
  | .dup m l => do
    let r ← listDup m h l
    pure (r.1, .pointer r.2)
  | .release l => do
    let h ← listRelease h l
    pure (h, .done)
  | .search l key => do
    let a ← listSearchKey h l key
    pure (h, .pointer a)
  | .index l i => do
    let a ← listIndex h l i
    pure (h, .pointer a)

/-- A heap and what it stands for. -/
structure Stands (h : Heap α) (t : Lists α) : Prop where
  represents : h.Represents t.sequences
  freed : h.freed = t.freed

omit [DecidableEq α] in
theorem Stands.unused {h : Heap α} {t : Lists α} {a : ℕ} (hs : h.Stands t) (ha : h.Fresh a) : t.Unused a := by
  constructor
  · have hlists : h.lists.lookup a = none := Finmap.lookup_eq_none.mpr ha.2.1
    rw [hs.represents.lists, FiniteMaps.lookup_mapValues] at hlists
    exact Option.map_eq_none_iff.mp hlists
  · intro l s hl hmem
    exact ha.1 (hs.represents.mem_nodes hl hmem)

/-! ## One call -/

/-- A call answers as the sequences do, or there is no memory. -/
def Answers (h : Heap α) (t : Lists α) (call : Call α) : Prop :=
  h.exec call = .error .exit ∨
    ∃ h' answer t', h.exec call = .ok (h', answer) ∧ t.Does (call, answer) t' ∧ h'.Stands t'

variable {h : Heap α} {t : Lists α}

theorem answers_create (hs : h.Stands t) (m : Allocator) : h.Answers t (.create m) := by
  rcases zmalloc_cases m h with hexit | ⟨l, ha⟩
  · exact .inl (by simp only [exec, listCreate, hexit, Exec.error_bind])
  · obtain ⟨h', hrun, hfreed, -, -, hr⟩ := listCreate_spec hs.represents ha
    exact .inr ⟨h', _, _, by simp only [exec, hrun, Exec.ok_bind, Exec.pure_eq], .create m (hs.unused (zmalloc_fresh ha)),
      hr, hfreed.trans hs.freed⟩

theorem answers_add (hs : h.Stands t) (m : Allocator) {l : ℕ} {s : Sequence α} (hl : t.sequences.lookup l = some s) (v : α) :
    h.Answers t (.addHead m l v) ∧ h.Answers t (.addTail m l v) := by
  rcases zmalloc_cases m h with hexit | ⟨a, ha⟩
  · exact ⟨.inl (by simp only [exec, listAddNodeHead, hexit, Exec.error_bind]),
      .inl (by simp only [exec, listAddNodeTail, hexit, Exec.error_bind])⟩
  · have hunused := hs.unused (zmalloc_fresh ha)
    constructor
    · obtain ⟨h', hrun, hfreed, hr⟩ := listAddNodeHead_spec hs.represents hl ha v
      exact .inr ⟨h', _, _, by simp only [exec, hrun, Exec.ok_bind, Exec.pure_eq], .addHead m v hl hunused, hr,
        hfreed.trans hs.freed⟩
    · obtain ⟨h', hrun, hfreed, hr⟩ := listAddNodeTail_spec hs.represents hl ha v
      exact .inr ⟨h', _, _, by simp only [exec, hrun, Exec.ok_bind, Exec.pure_eq], .addTail m v hl hunused, hr,
        hfreed.trans hs.freed⟩

theorem answers_insert (hs : h.Stands t) (m : Allocator) {l node : ℕ} {s : Sequence α}
    (hl : t.sequences.lookup l = some s) (hmem : node ∈ addrs s.nodes) (v : α) (after : Bool) :
    h.Answers t (.insert m l node v after) := by
  obtain ⟨w, xs, ys, hnodes⟩ := exists_of_mem_addrs hmem
  rcases zmalloc_cases m h with hexit | ⟨a, ha⟩
  · exact .inl (by simp only [exec, listInsertNode, hexit, Exec.error_bind])
  · have hunused := hs.unused (zmalloc_fresh ha)
    cases after with
    | true =>
      obtain ⟨h', hrun, hfreed, hr⟩ := listInsertNode_after_spec hs.represents hl hnodes ha v
      exact .inr ⟨h', _, _, by simp only [exec, hrun, Exec.ok_bind, Exec.pure_eq], .insertAfter m v hl hnodes hunused, hr,
        hfreed.trans hs.freed⟩
    | false =>
      obtain ⟨h', hrun, hfreed, hr⟩ := listInsertNode_before_spec hs.represents hl hnodes ha v
      exact .inr ⟨h', _, _, by simp only [exec, hrun, Exec.ok_bind, Exec.pure_eq], .insertBefore m v hl hnodes hunused, hr,
        hfreed.trans hs.freed⟩

theorem answers_node (hs : h.Stands t) {l node : ℕ} {s : Sequence α} (hl : t.sequences.lookup l = some s)
    (hmem : node ∈ addrs s.nodes) (v : α) : h.Answers t (.del l node) ∧ h.Answers t (.setValue node v) := by
  obtain ⟨w, xs, ys, hnodes⟩ := exists_of_mem_addrs hmem
  constructor
  · obtain ⟨h', hrun, hfreed, hr⟩ := listDelNode_spec hs.represents hl hnodes
    exact .inr ⟨h', _, _, by simp only [exec, hrun, Exec.ok_bind, Exec.pure_eq], .del hl hnodes, hr,
      hfreed.trans (congrArg (· ++ _) hs.freed)⟩
  · obtain ⟨h', hrun, hfreed, hr⟩ := setNodeValue_spec hs.represents hl hnodes v
    exact .inr ⟨h', _, _, by simp only [exec, hrun, Exec.ok_bind, Exec.pure_eq], .setValue v hl hnodes, hr,
      hfreed.trans hs.freed⟩

theorem answers_dup (hs : h.Stands t) (m : Allocator) {l : ℕ} {s : Sequence α} (hl : t.sequences.lookup l = some s) :
    h.Answers t (.dup m l) := by
  rcases listDup_spec m hs.represents hl with hexit | ⟨hall, h', copy, ys, hrun, hnone, hvalues, hfreed, hr⟩ |
    ⟨hsome, h', hrun, hfreed, hr⟩
  · exact .inl (by simp only [exec, hexit, Exec.error_bind])
  · have hcopy : (t.sequences.insert copy ⟨ys, s.methods⟩).lookup copy = some ⟨ys, s.methods⟩ := Finmap.lookup_insert _
    have hother : ∀ l' s', t.sequences.lookup l' = some s' →
        l' ≠ copy ∧ (t.sequences.insert copy ⟨ys, s.methods⟩).lookup l' = some s' := by
      intro l' s' hl'
      have hne : l' ≠ copy := by
        rintro rfl
        rw [hnone] at hl'
        cases hl'
      exact ⟨hne, (Finmap.lookup_insert_of_ne _ hne).trans hl'⟩
    have hunused : t.Unused copy := by
      refine ⟨hnone, fun l' s' hl' hmem => ?_⟩
      exact (hr.word copy (hr.mem_nodes (hother l' s' hl').2 hmem)).1 (hr.mem_lists hcopy)
    have hnodes : ∀ a ∈ addrs ys, t.Unused a := by
      intro a ha
      constructor
      · rw [Option.eq_none_iff_forall_ne_some]
        intro s' hl'
        exact (hr.word a (hr.mem_nodes hcopy ha)).1 (hr.mem_lists (hother a s' hl').2)
      · intro l' s' hl' hmem
        exact (hother l' s' hl').1 (hr.apart _ _ _ _ a (hother l' s' hl').2 hcopy hmem ha)
    exact .inr ⟨h', _, _, by simp only [exec, hrun, Exec.ok_bind, Exec.pure_eq],
      .dup m hl hall hvalues hunused (hr.nodup _ _ hcopy) hnodes, hr, hfreed.trans hs.freed⟩
  · exact .inr ⟨h', _, _, by simp only [exec, hrun, Exec.ok_bind, Exec.pure_eq], .dupFails m hl hsome, hr,
      hfreed.trans (congrArg (· ++ _) hs.freed)⟩

/-- Every call that a user may make. -/
theorem answers_of_allowed (hs : h.Stands t) {call : Call α} (ha : t.Allowed call) : h.Answers t call := by
  have hlookup : ∀ {l}, l ∈ t.sequences → ∃ s, t.sequences.lookup l = some s := fun hl =>
    Option.isSome_iff_exists.mp (Finmap.lookup_isSome.mpr hl)
  cases call with
  | create m => exact answers_create hs m
  | setMethods l methods =>
    obtain ⟨s, hl⟩ := hlookup ha
    obtain ⟨h', hrun, hfreed, -, hr⟩ := listSetMethods_spec hs.represents hl methods
    exact .inr ⟨h', _, _, by simp only [exec, hrun, Exec.ok_bind, Exec.pure_eq], .setMethods methods hl, hr,
      hfreed.trans hs.freed⟩
  | addHead m l v =>
    obtain ⟨s, hl⟩ := hlookup ha
    exact (answers_add hs m hl v).1
  | addTail m l v =>
    obtain ⟨s, hl⟩ := hlookup ha
    exact (answers_add hs m hl v).2
  | insert m l node v after =>
    obtain ⟨s, hl, hmem⟩ := ha
    exact answers_insert hs m hl hmem v after
  | del l node =>
    obtain ⟨s, hl, hmem⟩ := ha
    obtain ⟨v, -⟩ := exists_of_mem_addrs hmem
    exact (answers_node hs hl hmem v).1
  | setValue node v =>
    obtain ⟨l, s, hl, hmem⟩ := ha
    exact (answers_node hs hl hmem v).2
  | rotate l =>
    obtain ⟨s, hl⟩ := hlookup ha
    obtain ⟨h', hrun, hfreed, hr⟩ := listRotate_spec hs.represents hl
    exact .inr ⟨h', _, _, by simp only [exec, hrun, Exec.ok_bind, Exec.pure_eq], .rotate hl, hr, hfreed.trans hs.freed⟩
  | dup m l =>
    obtain ⟨s, hl⟩ := hlookup ha
    exact answers_dup hs m hl
  | release l =>
    obtain ⟨s, hl⟩ := hlookup ha
    obtain ⟨h', hrun, hfreed, hr⟩ := listRelease_spec hs.represents hl
    exact .inr ⟨h', _, _, by simp only [exec, hrun, Exec.ok_bind, Exec.pure_eq], .release hl, hr,
      hfreed.trans (congrArg (· ++ _) hs.freed)⟩
  | search l key =>
    obtain ⟨s, hl⟩ := hlookup ha
    have hrun := listSearchKey_spec hs.represents hl key
    exact .inr ⟨h, _, _, by simp only [exec, hrun, Exec.ok_bind, Exec.pure_eq], .search key hl, hs⟩
  | index l i =>
    obtain ⟨s, hl⟩ := hlookup ha.1
    have hrun := listIndex_spec hs.represents hl ha.2
    exact .inr ⟨h, _, _, by simp only [exec, hrun, Exec.ok_bind, Exec.pure_eq], .index i hl, hs⟩

/-! ## Runs -/

/-- A call with its answer, by a user that keeps to what is allowed. -/
inductive Step : Heap α → Call α × Answer → Heap α → Prop where
  | call {h h' : Heap α} {t : Lists α} {call : Call α} {answer : Answer} (hs : h.Stands t) (ha : t.Allowed call)
      (run : h.exec call = .ok (h', answer)) : Step h (call, answer) h'

theorem step_simulation : Simulation (Step (α := α)) Lists.Does Stands := by
  rintro h _ h' t hs ⟨hs', ha, run⟩
  rename_i t' call answer
  have hsequences : t' = t := by
    obtain ⟨sequences, freed⟩ := t
    obtain ⟨sequences', freed'⟩ := t'
    obtain rfl : sequences' = sequences := hs'.represents.unique hs.represents
    obtain rfl : freed' = freed := hs'.freed.symm.trans hs.freed
    rfl
  rw [hsequences] at ha
  rcases answers_of_allowed hs ha with hexit | ⟨h₁, answer₁, t₁, hrun, hdoes, hs₁⟩
  · rw [hexit] at run
    cases run
  · rw [hrun] at run
    obtain ⟨rfl, rfl⟩ := Prod.mk.inj (Except.ok.inj run)
    exact ⟨t₁, hdoes, hs₁⟩

/-- After any run of calls the heap stands for the sequences after the same calls with the same
answers, and every call that is allowed then returns if there is memory. -/
theorem lists_refine_sequences {es : List (Call α × Answer)} (run : Run Step Heap.empty es h) :
    ∃ t, Run Lists.Does Lists.empty es t ∧ h.Stands t ∧
      ∀ call, t.Allowed call → h.exec call = .error .exit ∨ ∃ r, h.exec call = .ok r := by
  have hempty : Stands (Heap.empty : Heap α) Lists.empty := ⟨.empty, rfl⟩
  obtain ⟨t, hrun, hs⟩ := run.simulate step_simulation hempty
  refine ⟨t, hrun, hs, fun call ha => ?_⟩
  rcases answers_of_allowed hs ha with hexit | ⟨h', answer, -, hrun', -⟩
  · exact .inl hexit
  · exact .inr ⟨_, hrun'⟩

end Heap

/-- The address after the largest one in use. -/
def Allocator.bump : Allocator where
  malloc s := if s.fold max 0 id + 1 < 2 ^ 64 then some (s.fold max 0 id + 1) else none
  fresh s a h := by
    split at h
    · rename_i hlt
      obtain rfl := Option.some.inj h
      have hle : ∀ x ∈ s, x ≤ s.fold max 0 id := fun x hx => (Finset.le_fold_max x).mpr (.inr ⟨x, hx, le_rfl⟩)
      exact ⟨fun hmem => absurd (hle _ hmem) (Nat.not_succ_le_self _), Nat.succ_pos _, hlt⟩
    · cases h

/-- A new list with one node. -/
theorem exists_represents_singleton (v : ℕ) :
    ∃ h₁ h₂ : Heap ℕ, Heap.empty.exec (.create .bump) = .ok (h₁, .address 1) ∧
      h₁.exec (.addTail .bump 1 v) = .ok (h₂, .address 2) ∧ h₁.Stands ⟨(∅ : Sequences ℕ).insert 1 ⟨[], .unset⟩, []⟩ ∧
      h₂.Represents ((∅ : Sequences ℕ).insert 1 ⟨[(2, v)], .unset⟩) := by
  have hz : (Heap.empty : Heap ℕ).zmalloc .bump = .ok 1 := rfl
  obtain ⟨h₁, hr₁, hf₁, -, -, hrep₁⟩ := listCreate_spec Heap.Represents.empty hz
  have hh : (Heap.empty : Heap ℕ).setList 1 { Methods.unset with head := none, tail := none, len := 0 } = h₁ :=
    (Prod.mk.inj (Except.ok.inj hr₁)).1
  have hz₁ : h₁.zmalloc .bump = .ok 2 := by
    rw [← hh]
    rfl
  have hl : ((∅ : Sequences ℕ).insert 1 ⟨[], .unset⟩).lookup 1 = some ⟨[], .unset⟩ := Finmap.lookup_insert _
  obtain ⟨h₂, hr₂, -, hrep₂⟩ := listAddNodeTail_spec hrep₁ hl hz₁ v
  rw [Finmap.insert_insert] at hrep₂
  refine ⟨h₁, h₂, ?_, ?_, ⟨hrep₁, hf₁⟩, hrep₂⟩
  · simp only [Heap.exec, hr₁, Exec.ok_bind, Exec.pure_eq]
  · simp only [Heap.exec, hr₂, Exec.ok_bind, Exec.pure_eq]

theorem lists_refine_sequences_add :
    ∃ t, Run Lists.Does (Lists.empty : Lists ℕ) [(.create .bump, .address 1), (.addTail .bump 1 7, .address 2)] t := by
  obtain ⟨h₁, h₂, hrun₁, hrun₂, hs₁, -⟩ := exists_represents_singleton 7
  have hs₀ : Heap.Stands (Heap.empty : Heap ℕ) Lists.empty := ⟨.empty, rfl⟩
  have ha₀ : Lists.empty.Allowed (.create .bump : Call ℕ) := trivial
  have ha₁ : Lists.Allowed ⟨(∅ : Sequences ℕ).insert 1 ⟨[], .unset⟩, []⟩ (.addTail .bump 1 7) :=
    Finmap.mem_insert.mpr (.inl rfl)
  obtain ⟨t, ht, -⟩ := Heap.lists_refine_sequences (.cons (.call hs₀ ha₀ hrun₁) (.one (.call hs₁ ha₁ hrun₂)))
  exact ⟨t, ht⟩

/-! ## Iteration -/

section Iteration
variable {S β : Type} {heap : S → Heap α} {body : ℕ → S → Exec (S ⊕ β)} {st : S} {σ : Sequences α} {s : Sequence α} {l : ℕ}

/-- A loop over an iterator visits the nodes that the list had at the start, each once and in order,
whatever its body does to the nodes up to the one at hand. -/
theorem iterator_visits_once {dir : Direction} (hbody : KeepsRest heap l dir body) (hr : (heap st).Represents σ)
    (hl : σ.lookup l = some s) :
    (listGetIterator (heap st) l dir >>= fun iter => whileNext heap body (heap st).fuel iter st) =
      visit body (addrs (dir.order s.nodes)) st :=
  iteration_visits hbody hr hl (hr.length_lt_fuel hl)

/-- A body that removes the node at hand. -/
def delBody (l a : ℕ) (h : Heap α) : Exec (Heap α ⊕ Empty) := (listDelNode h l a).map .inl

theorem delBody_keeps (l : ℕ) (dir : Direction) : KeepsRest id l dir (delBody (α := α) l) := by
  intro h σ s done a v rest h' hr hl hsplit hrun
  have hr : h.Represents σ := hr
  cases dir with
  | head =>
    have hnodes : s.nodes = done ++ (a, v) :: rest := hsplit
    obtain ⟨h₁, hdel, -, hr₁⟩ := listDelNode_spec hr hl hnodes
    rw [delBody, hdel] at hrun
    obtain rfl := Sum.inl.inj (Except.ok.inj hrun)
    exact ⟨_, _, done, hr₁, Finmap.lookup_insert _, rfl⟩
  | tail =>
    have hnodes : s.nodes = rest.reverse ++ (a, v) :: done.reverse := by
      rw [← List.reverse_reverse s.nodes, show s.nodes.reverse = _ from hsplit]
      simp only [List.reverse_append, List.reverse_cons, List.append_assoc, List.singleton_append]
    obtain ⟨h₁, hdel, -, hr₁⟩ := listDelNode_spec hr hl hnodes
    rw [delBody, hdel] at hrun
    obtain rfl := Sum.inl.inj (Except.ok.inj hrun)
    refine ⟨_, _, done, hr₁, Finmap.lookup_insert _, ?_⟩
    simp only [Direction.order, List.reverse_append, List.reverse_reverse]

end Iteration

theorem iterator_visits_once_del :
    ∃ h : Heap ℕ, (listGetIterator h 1 .tail >>= fun iter => whileNext id (delBody 1) h.fuel iter h) =
      visit (delBody 1) [2] h := by
  obtain ⟨-, h, -, -, -, hr⟩ := exists_represents_singleton 7
  have hheap : (id h).Represents ((∅ : Sequences ℕ).insert 1 ⟨[(2, 7)], .unset⟩) := hr
  have hl : ((∅ : Sequences ℕ).insert 1 ⟨[(2, 7)], .unset⟩).lookup 1 = some ⟨[(2, 7)], .unset⟩ := Finmap.lookup_insert _
  exact ⟨h, iterator_visits_once (delBody_keeps 1 .tail) hheap hl⟩

end RhinoRox.Adlist
