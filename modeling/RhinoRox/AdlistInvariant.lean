import RhinoRox.Adlist
import RhinoRox.FiniteMaps
import Mathlib.Data.Finset.Card
import Mathlib.Order.Interval.Finset.Nat

/-!
# What the operations on lists do

A heap represents a sequence of nodes for each list. Every node belongs to exactly one list. Each
operation changes the sequence of its list alone.
-/

namespace RhinoRox.Adlist

open LinkedSegments FiniteMaps

variable {α : Type}

/-- What a list stands for. -/
structure Sequence (α : Type) where
  nodes : Nodes α
  methods : Methods α

def Sequence.record (s : Sequence α) : AdList α :=
  { s.methods with head := first s.nodes none, tail := last none s.nodes, len := s.nodes.length }

abbrev Sequences (α : Type) := Finmap fun _ : ℕ => Sequence α

/-- An address that is not in use. -/
def Heap.Fresh (h : Heap α) (a : ℕ) : Prop := a ∉ h.nodes ∧ a ∉ h.lists ∧ 0 < a ∧ a < 2 ^ 64

structure Heap.Represents (h : Heap α) (σ : Sequences α) : Prop where
  lists : h.lists = mapValues Sequence.record σ
  segment : ∀ l s, σ.lookup l = some s → Segment h.nodes none s.nodes none
  nodup : ∀ l s, σ.lookup l = some s → (addrs s.nodes).Nodup
  apart : ∀ l l' s s' a, σ.lookup l = some s → σ.lookup l' = some s' → a ∈ addrs s.nodes → a ∈ addrs s'.nodes → l = l'
  owned : ∀ a ∈ h.nodes, ∃ l s, σ.lookup l = some s ∧ a ∈ addrs s.nodes
  word : ∀ a ∈ h.nodes, a ∉ h.lists ∧ 0 < a ∧ a < 2 ^ 64

/-- There are fewer than 2^64 addresses. -/
theorem length_lt_of_words {xs : Nodes α} (hnd : (addrs xs).Nodup) (hword : ∀ a ∈ addrs xs, 0 < a ∧ a < 2 ^ 64) :
    xs.length < 2 ^ 64 := by
  have hsub : (addrs xs).toFinset ⊆ Finset.Ico 1 (2 ^ 64) := by
    intro a ha
    rw [Finset.mem_Ico]
    exact hword a (List.mem_toFinset.mp ha)
  have hcard := Finset.card_le_card hsub
  rw [List.toFinset_card_of_nodup hnd, Nat.card_Ico, addrs, List.length_map] at hcard
  omega

/-! ## Reading -/

namespace Heap.Represents
variable {h h' : Heap α} {σ : Sequences α} {l a : ℕ} {s s' : Sequence α} {m : Allocator} {v : α}

theorem empty : (Heap.empty : Heap α).Represents ∅ where
  lists := rfl
  segment l s hl := by
    rw [Finmap.lookup_empty] at hl
    cases hl
  nodup l s hl := by
    rw [Finmap.lookup_empty] at hl
    cases hl
  apart l l' s s' a hl := by
    rw [Finmap.lookup_empty] at hl
    cases hl
  owned a ha := (Finmap.notMem_empty ha).elim
  word a ha := (Finmap.notMem_empty ha).elim

theorem list_eq (hr : h.Represents σ) (hl : σ.lookup l = some s) : h.list l = .ok s.record := by
  rw [Heap.list, hr.lists, lookup_mapValues, hl]
  rfl

theorem mem_lists (hr : h.Represents σ) (hl : σ.lookup l = some s) : l ∈ h.lists := by
  rw [← Finmap.lookup_isSome, hr.lists, lookup_mapValues, hl]
  rfl

theorem mem_nodes (hr : h.Represents σ) (hl : σ.lookup l = some s) (ha : a ∈ addrs s.nodes) : a ∈ h.nodes :=
  (hr.segment l s hl).mem ha

theorem length_lt (hr : h.Represents σ) (hl : σ.lookup l = some s) : s.nodes.length < 2 ^ 64 :=
  length_lt_of_words (hr.nodup l s hl) fun a ha => (hr.word a (hr.mem_nodes hl ha)).2

/-- A heap represents nothing else. -/
theorem unique {σ' : Sequences α} (hr : h.Represents σ) (hr' : h.Represents σ') : σ = σ' := by
  apply Finmap.ext_lookup
  intro l
  have hrecord : (σ.lookup l).map Sequence.record = (σ'.lookup l).map Sequence.record := by
    rw [← lookup_mapValues, ← lookup_mapValues, ← hr.lists, ← hr'.lists]
  cases hl : σ.lookup l with
  | none =>
    rw [hl] at hrecord
    exact (Option.map_eq_none_iff.mp hrecord.symm).symm
  | some s =>
    rw [hl] at hrecord
    obtain ⟨s', hl', he⟩ := Option.map_eq_some_iff.mp hrecord.symm
    have hnodes : s'.nodes = s.nodes :=
      (hr'.segment l s' hl').unique (hr.segment l s hl) (congrArg AdList.head he)
    have hmethods : s'.methods = s.methods := congrArg AdList.toMethods he
    rw [hl']
    obtain ⟨nodes, methods⟩ := s
    obtain ⟨nodes', methods'⟩ := s'
    obtain rfl : nodes' = nodes := hnodes
    obtain rfl : methods' = methods := hmethods
    rfl

end Heap.Represents

theorem zmalloc_fresh {h : Heap α} {m : Allocator} {a : ℕ} (ha : h.zmalloc m = .ok a) : h.Fresh a := by
  rw [Heap.zmalloc] at ha
  split at ha
  · cases ha
  · rename_i b hb
    obtain rfl : b = a := Except.ok.inj ha
    obtain ⟨hfresh, hword⟩ := m.fresh _ _ hb
    rw [Finset.mem_union, not_or, Finmap.mem_keys, Finmap.mem_keys] at hfresh
    exact ⟨hfresh.1, hfresh.2, hword⟩

/-! ## Pointers that are changed -/

/-- The same lists and freed values, and the same nodes but for some. -/
structure Heap.Keeps (h h' : Heap α) (as : List ℕ) : Prop where
  nodes : ∀ a, a ∉ as → h'.nodes.lookup a = h.nodes.lookup a
  lists : h'.lists = h.lists
  freed : h'.freed = h.freed

namespace Heap.Keeps
variable {h h' : Heap α} {as : List ℕ}

theorem refl (h : Heap α) (as : List ℕ) : h.Keeps h as := ⟨fun _ _ => rfl, rfl, rfl⟩

theorem setNode (h : Heap α) {a : ℕ} (n : Node α) (ha : a ∈ as) : h.Keeps (h.setNode a n) as :=
  ⟨fun _ hb => Finmap.lookup_insert_of_ne _ fun he => hb (he ▸ ha), rfl, rfl⟩

theorem segment {prev next : Option ℕ} {xs : Nodes α} (hk : h.Keeps h' as) (hs : Segment h.nodes prev xs next)
    (hxs : ∀ a ∈ addrs xs, a ∉ as) : Segment h'.nodes prev xs next :=
  hs.congr fun a ha => hk.nodes a (hxs a ha)

end Heap.Keeps

theorem node_of_lookup {h : Heap α} {a : ℕ} {n : Node α} (hn : h.nodes.lookup a = some n) : h.node (some a) = .ok n := by
  simp only [Heap.node, hn, Exec.pure_eq]

section Links
variable {h : Heap α} {prev next : Option ℕ} {xs ys : Nodes α} {a : ℕ} {v : α}

theorem setNext_of_last (hs : Segment h.nodes prev xs next) (hnd : (addrs xs).Nodup) (hlast : last none xs = some a)
    (next' : Option ℕ) :
    ∃ h', h.setNext (some a) next' = .ok h' ∧ Segment h'.nodes prev xs next' ∧ h.Keeps h' (addrs xs) := by
  obtain ⟨v, front, rfl⟩ := exists_of_last hlast
  rw [addrs_append] at hnd
  have ha : a ∉ addrs front := fun hmem => List.disjoint_of_nodup_append hnd hmem List.mem_cons_self
  refine ⟨_, ?_, hs.relink_next ha next', .setNode h _ ?_⟩
  · simp only [Heap.setNext, node_of_lookup hs.lookup, Exec.ok_bind, Exec.pure_eq, first_nil]
  · rw [addrs_append]
    exact List.mem_append_right _ List.mem_cons_self

theorem setPrev_of_first (hs : Segment h.nodes prev xs next) (hnd : (addrs xs).Nodup) (hfirst : first xs none = some a)
    (prev' : Option ℕ) :
    ∃ h', h.setPrev (some a) prev' = .ok h' ∧ Segment h'.nodes prev' xs next ∧ h.Keeps h' (addrs xs) := by
  obtain ⟨v, rest, rfl⟩ := exists_of_first hfirst
  refine ⟨_, ?_, hs.relink_prev (List.nodup_cons.mp hnd).1 prev', .setNode h _ List.mem_cons_self⟩
  simp only [Heap.setPrev, node_of_lookup hs.1, Exec.ok_bind, Exec.pure_eq]

theorem linkNext_spec (hs : Segment h.nodes prev xs next) (hnd : (addrs xs).Nodup) (next' : Option ℕ) :
    ∃ h', h.linkNext (last none xs) next' = .ok h' ∧ Segment h'.nodes prev xs next' ∧ h.Keeps h' (addrs xs) := by
  cases hlast : last none xs with
  | none =>
    obtain rfl := last_eq_none.mp hlast
    exact ⟨h, rfl, trivial, .refl h _⟩
  | some a => exact setNext_of_last hs hnd hlast next'

theorem linkPrev_spec (hs : Segment h.nodes prev xs next) (hnd : (addrs xs).Nodup) (prev' : Option ℕ) :
    ∃ h', h.linkPrev (first xs none) prev' = .ok h' ∧ Segment h'.nodes prev' xs next ∧ h.Keeps h' (addrs xs) := by
  cases hfirst : first xs none with
  | none =>
    obtain rfl := first_eq_none.mp hfirst
    exact ⟨h, rfl, trivial, .refl h _⟩
  | some a => exact setPrev_of_first hs hnd hfirst prev'

end Links

end RhinoRox.Adlist
