import Mathlib.Data.Finmap
import Mathlib.Data.List.Perm.Basic

/-!
# Crit-bit trees over an ordered set of bit positions

A crit-bit tree stores keys at its leaves and one bit position at every internal
node. A walk reads the key's bit at each position and compares a whole key only at
the leaf. Nothing here depends on how keys are laid out: positions are any linear
order `P` and a key is any value with a bit at every position.
-/

namespace RhinoRox.CritBitTree

/-- `empty` occurs only as a whole tree; well-formedness excludes it below a node. -/
inductive Tree (P κ ν : Type*) where
  | empty
  | leaf (key : κ) (value : ν)
  | node (pos : P) (zero one : Tree P κ ν)
  deriving DecidableEq, Repr

variable {P κ ν : Type*}

namespace Tree

/-- The stored pairs from left to right. -/
def entries : Tree P κ ν → List (κ × ν)
  | .empty => []
  | .leaf k v => [(k, v)]
  | .node _ a b => a.entries ++ b.entries

def keys (t : Tree P κ ν) : List κ := t.entries.map Prod.fst

@[simp] theorem entries_empty : (empty : Tree P κ ν).entries = [] := rfl
@[simp] theorem entries_leaf (k : κ) (v : ν) : (leaf k v : Tree P κ ν).entries = [(k, v)] := rfl
@[simp] theorem entries_node (p : P) (a b : Tree P κ ν) :
    (node p a b).entries = a.entries ++ b.entries := rfl

@[simp] theorem keys_empty : (empty : Tree P κ ν).keys = [] := rfl
@[simp] theorem keys_leaf (k : κ) (v : ν) : (leaf k v : Tree P κ ν).keys = [k] := rfl
@[simp] theorem keys_node (p : P) (a b : Tree P κ ν) :
    (node p a b).keys = a.keys ++ b.keys := by simp [keys]

theorem mem_keys_of_mem {t : Tree P κ ν} {k : κ} {v : ν} (h : (k, v) ∈ t.entries) :
    k ∈ t.keys := List.mem_map.mpr ⟨_, h, rfl⟩

theorem exists_mem_of_mem_keys {t : Tree P κ ν} {k : κ} (h : k ∈ t.keys) :
    ∃ v, (k, v) ∈ t.entries := by
  obtain ⟨⟨k', v⟩, hm, rfl⟩ := List.mem_map.mp h
  exact ⟨v, hm⟩

/-- The leaf reached by following the bits of `k`. -/
def closest (bit : κ → P → Bool) (k : κ) : Tree P κ ν → Option (κ × ν)
  | .empty => none
  | .leaf s v => some (s, v)
  | .node p a b => if bit k p then b.closest bit k else a.closest bit k

/-- Put a different value into the leaf reached by following the bits of `k`. -/
def assign (bit : κ → P → Bool) (k : κ) (v : ν) : Tree P κ ν → Tree P κ ν
  | .empty => .empty
  | .leaf s _ => .leaf s v
  | .node p a b => if bit k p then .node p a (b.assign bit k v) else .node p (a.assign bit k v) b

/-- A new node at `p` with the leaf `(k, v)` on the side its own bit selects. -/
def fork (bit : κ → P → Bool) (k : κ) (v : ν) (p : P) (t : Tree P κ ν) : Tree P κ ν :=
  if bit k p then .node p t (.leaf k v) else .node p (.leaf k v) t

/-- Follow the bits of `k` down to the first node past `p` and fork there. -/
def graft [LT P] [DecidableLT P] (bit : κ → P → Bool) (k : κ) (v : ν) (p : P) :
    Tree P κ ν → Tree P κ ν
  | .empty => .empty
  | .leaf s w => fork bit k v p (.leaf s w)
  | .node q a b =>
    if p < q then fork bit k v p (.node q a b)
    else if bit k q then .node q a (b.graft bit k v p) else .node q (a.graft bit k v p) b

def isLeaf : Tree P κ ν → Bool
  | .leaf _ _ => true
  | _ => false

/-- Remove the leaf reached by following the bits of `k`; its sibling moves up. -/
def prune (bit : κ → P → Bool) (k : κ) : Tree P κ ν → Tree P κ ν
  | .empty => .empty
  | .leaf _ _ => .empty
  | .node p a b =>
    if bit k p then (if b.isLeaf then a else .node p a (b.prune bit k))
    else (if a.isLeaf then b else .node p (a.prune bit k) b)

/-- Follow the bits of `k` while the positions stay inside `S`. -/
def descend (bit : κ → P → Bool) (S : P → Bool) (k : κ) : Tree P κ ν → Tree P κ ν
  | .empty => .empty
  | .leaf s v => .leaf s v
  | .node p a b =>
    if S p then (if bit k p then b.descend bit S k else a.descend bit S k) else .node p a b

/-- The positions on the way from the root to each leaf. -/
def paths : Tree P κ ν → List (List P)
  | .empty => []
  | .leaf _ _ => [[]]
  | .node p a b => (a.paths ++ b.paths).map (p :: ·)

/-- One of the slots of a tree. -/
inductive Subtree : Tree P κ ν → Tree P κ ν → Prop where
  | refl (t : Tree P κ ν) : Subtree t t
  | inZero {s a : Tree P κ ν} (p : P) (b : Tree P κ ν) (h : Subtree s a) : Subtree s (.node p a b)
  | inOne {s b : Tree P κ ν} (p : P) (a : Tree P κ ν) (h : Subtree s b) : Subtree s (.node p a b)

theorem Subtree.trans {r s t : Tree P κ ν} (h : Subtree r s) (h' : Subtree s t) : Subtree r t := by
  induction h' with
  | refl => exact h
  | inZero p b _ ih => exact .inZero p b ih
  | inOne p a _ ih => exact .inOne p a ih

theorem Subtree.zero {p : P} {a b t : Tree P κ ν} (h : Subtree (.node p a b) t) : Subtree a t :=
  Subtree.trans (.inZero p b (.refl a)) h

theorem Subtree.one {p : P} {a b t : Tree P κ ν} (h : Subtree (.node p a b) t) : Subtree b t :=
  Subtree.trans (.inOne p a (.refl b)) h

end Tree

section Invariant

variable [LinearOrder P] {bit : κ → P → Bool}

/-- Two keys have the same bits at all positions before `p`. -/
def Agree (bit : κ → P → Bool) (p : P) (k k' : κ) : Prop := ∀ q < p, bit k q = bit k' q

theorem Agree.symm {p : P} {k k' : κ} (h : Agree bit p k k') : Agree bit p k' k :=
  fun q hq => (h q hq).symm

theorem Agree.trans {p : P} {k k' k'' : κ} (h : Agree bit p k k') (h' : Agree bit p k' k'') :
    Agree bit p k k'' := fun q hq => (h q hq).trans (h' q hq)

theorem Agree.mono {p q : P} {k k' : κ} (h : Agree bit p k k') (hq : q ≤ p) :
    Agree bit q k k' := fun r hr => h r (hr.trans_le hq)

/-- The representation invariant of a non-empty tree. -/
inductive WellFormed (bit : κ → P → Bool) : Tree P κ ν → Prop where
  | leaf (k : κ) (v : ν) : WellFormed bit (.leaf k v)
  | node {p : P} {a b : Tree P κ ν} (left : WellFormed bit a) (right : WellFormed bit b)
      (zero : ∀ k ∈ a.keys, bit k p = false) (one : ∀ k ∈ b.keys, bit k p = true)
      (agree : ∀ k ∈ a.keys ++ b.keys, ∀ k' ∈ a.keys ++ b.keys, Agree bit p k k') :
      WellFormed bit (.node p a b)

/-- The invariant of a whole tree, which may be empty. -/
def Valid (bit : κ → P → Bool) (t : Tree P κ ν) : Prop := t = .empty ∨ WellFormed bit t

theorem WellFormed.valid {t : Tree P κ ν} (h : WellFormed bit t) : Valid bit t := Or.inr h

theorem valid_empty : Valid bit (.empty : Tree P κ ν) := Or.inl rfl

theorem WellFormed.exists_key {t : Tree P κ ν} (h : WellFormed bit t) : ∃ k, k ∈ t.keys := by
  induction h with
  | leaf k v => exact ⟨k, by simp⟩
  | node _ _ _ _ _ ih _ =>
    obtain ⟨k, hk⟩ := ih
    exact ⟨k, by simp [hk]⟩

theorem WellFormed.entries_ne_nil {t : Tree P κ ν} (h : WellFormed bit t) : t.entries ≠ [] := by
  obtain ⟨k, hk⟩ := h.exists_key
  obtain ⟨v, hv⟩ := Tree.exists_mem_of_mem_keys hk
  exact List.ne_nil_of_mem hv

theorem WellFormed.exists_closest {t : Tree P κ ν} (h : WellFormed bit t) (k : κ) :
    ∃ s v, t.closest bit k = some (s, v) := by
  induction h with
  | leaf s v => exact ⟨s, v, rfl⟩
  | node _ _ _ _ _ iha ihb =>
    simp only [Tree.closest]
    split
    · exact ihb
    · exact iha

omit [LinearOrder P] in
theorem closest_mem {t : Tree P κ ν} {k : κ} {e : κ × ν} (h : t.closest bit k = some e) :
    e ∈ t.entries := by
  induction t with
  | empty => simp [Tree.closest] at h
  | leaf s v => simpa [Tree.closest, eq_comm] using h
  | node p a b iha ihb =>
    simp only [Tree.closest] at h
    split at h
    · exact List.mem_append_right _ (ihb h)
    · exact List.mem_append_left _ (iha h)

/-- The walk for a stored key ends at that key. -/
theorem WellFormed.closest_of_mem {t : Tree P κ ν} (h : WellFormed bit t) {k : κ} {v : ν}
    (hm : (k, v) ∈ t.entries) : t.closest bit k = some (k, v) := by
  induction h with
  | leaf s w =>
    obtain ⟨rfl, rfl⟩ := Prod.mk.inj (List.mem_singleton.mp hm)
    rfl
  | node _ _ zero one _ iha ihb =>
    rcases List.mem_append.mp hm with hm | hm
    · simp [Tree.closest, zero k (Tree.mem_keys_of_mem hm), iha hm]
    · simp [Tree.closest, one k (Tree.mem_keys_of_mem hm), ihb hm]

theorem WellFormed.keys_nodup {t : Tree P κ ν} (h : WellFormed bit t) : t.keys.Nodup := by
  induction h with
  | leaf k v => simp
  | node _ _ zero one _ iha ihb =>
    rw [Tree.keys_node, List.nodup_append]
    refine ⟨iha, ihb, ?_⟩
    rintro k hk k' hk' rfl
    simpa [one k hk'] using zero k hk

theorem Valid.keys_nodup {t : Tree P κ ν} (h : Valid bit t) : t.keys.Nodup := by
  rcases h with rfl | h
  · simp
  · exact h.keys_nodup

/-- A subtree whose keys share a bit at `p` and agree before it starts past `p`. -/
theorem WellFormed.lt_pos {p q : P} {c d : Tree P κ ν} (h : WellFormed bit (.node q c d)) {x : Bool}
    (same : ∀ k ∈ c.keys ++ d.keys, bit k p = x)
    (agree : ∀ k ∈ c.keys ++ d.keys, ∀ k' ∈ c.keys ++ d.keys, Agree bit p k k') : p < q := by
  cases h with
  | node left right zero one _ =>
    obtain ⟨k, hk⟩ := left.exists_key
    obtain ⟨k', hk'⟩ := right.exists_key
    have hm : k ∈ c.keys ++ d.keys := List.mem_append_left _ hk
    have hm' : k' ∈ c.keys ++ d.keys := List.mem_append_right _ hk'
    have hne : bit k q ≠ bit k' q := by rw [zero k hk, one k' hk']; decide
    refine lt_of_le_of_ne (le_of_not_gt fun hqp => hne (agree k hm k' hm' q hqp)) ?_
    rintro rfl
    exact hne ((same k hm).trans (same k' hm').symm)

theorem WellFormed.pos_lt_zero {p q : P} {b c d : Tree P κ ν}
    (h : WellFormed bit (.node p (.node q c d) b)) : p < q := by
  cases h with
  | node left _ zero _ agree =>
    rw [Tree.keys_node] at zero agree
    exact left.lt_pos zero fun k hk k' hk' =>
      agree k (List.mem_append_left _ hk) k' (List.mem_append_left _ hk')

theorem WellFormed.subtree {s t : Tree P κ ν} (h : WellFormed bit t) (hs : s.Subtree t) : WellFormed bit s := by
  induction hs with
  | refl => exact h
  | inZero p b _ ih =>
    cases h with
    | node left _ _ _ _ => exact ih left
  | inOne p a _ ih =>
    cases h with
    | node _ right _ _ _ => exact ih right

/-- Below a subtree whose keys share a bit at `p` and agree before it all positions are past `p`. -/
theorem WellFormed.lt_of_mem_path {p : P} {t : Tree P κ ν} (h : WellFormed bit t) {x : Bool}
    (same : ∀ k ∈ t.keys, bit k p = x) (agree : ∀ k ∈ t.keys, ∀ k' ∈ t.keys, Agree bit p k k')
    {ps : List P} (hps : ps ∈ t.paths) {q : P} (hq : q ∈ ps) : p < q := by
  induction h generalizing ps with
  | leaf k v =>
    obtain rfl : ps = [] := by simpa [Tree.paths] using hps
    cases hq
  | @node r a b left right zero one agree' iha ihb =>
    have hroot : p < r := by
      rw [Tree.keys_node] at same agree
      exact (WellFormed.node left right zero one agree').lt_pos same agree
    obtain ⟨qs, hqs, rfl⟩ := List.mem_map.mp hps
    rcases List.mem_cons.mp hq with rfl | hq
    · exact hroot
    · rcases List.mem_append.mp hqs with hqs | hqs
      · exact iha (fun k hk => same k (by simp [hk]))
          (fun k hk k' hk' => agree k (by simp [hk]) k' (by simp [hk'])) hqs hq
      · exact ihb (fun k hk => same k (by simp [hk]))
          (fun k hk k' hk' => agree k (by simp [hk]) k' (by simp [hk'])) hqs hq

theorem WellFormed.paths_sorted {t : Tree P κ ν} (h : WellFormed bit t) {ps : List P} (hps : ps ∈ t.paths) :
    ps.Pairwise (· < ·) := by
  induction h generalizing ps with
  | leaf k v =>
    obtain rfl : ps = [] := by simpa [Tree.paths] using hps
    exact List.Pairwise.nil
  | node left right zero one agree iha ihb =>
    obtain ⟨qs, hqs, rfl⟩ := List.mem_map.mp hps
    rcases List.mem_append.mp hqs with hqs | hqs
    · refine List.pairwise_cons.mpr ⟨fun q hq => ?_, iha hqs⟩
      exact left.lt_of_mem_path zero (fun k hk k' hk' => agree k (by simp [hk]) k' (by simp [hk'])) hqs hq
    · refine List.pairwise_cons.mpr ⟨fun q hq => ?_, ihb hqs⟩
      exact right.lt_of_mem_path one (fun k hk k' hk' => agree k (by simp [hk]) k' (by simp [hk'])) hqs hq

/-! ## Uniqueness

A tree is determined by its pairs: the position of its root is the first in which its keys
differ. -/

theorem WellFormed.pos_le {p q : P} {a b c d : Tree P κ ν} (h : WellFormed bit (.node p a b))
    (h' : WellFormed bit (.node q c d)) (hk : ∀ k ∈ a.keys ++ b.keys, k ∈ c.keys ++ d.keys) : q ≤ p := by
  cases h with
  | node left right zero one _ =>
    cases h' with
    | node _ _ _ _ agree =>
      obtain ⟨k, hka⟩ := left.exists_key
      obtain ⟨k', hkb⟩ := right.exists_key
      refine le_of_not_gt fun hpq => ?_
      have hsame := agree k (hk k (List.mem_append_left _ hka)) k' (hk k' (List.mem_append_right _ hkb)) p hpq
      rw [zero k hka, one k' hkb] at hsame
      cases hsame

/-- A tree with an internal node has two keys. -/
theorem WellFormed.not_singleton {p : P} {a b : Tree P κ ν} (h : WellFormed bit (.node p a b)) {e : κ × ν}
    (he : ∀ x ∈ (Tree.node p a b).entries, x = e) : False := by
  cases h with
  | node left right zero one _ =>
    obtain ⟨k, hk⟩ := left.exists_key
    obtain ⟨k', hk'⟩ := right.exists_key
    obtain ⟨v, hv⟩ := Tree.exists_mem_of_mem_keys hk
    obtain ⟨v', hv'⟩ := Tree.exists_mem_of_mem_keys hk'
    have hsame : k = k' := congrArg Prod.fst
      ((he _ (List.mem_append_left _ hv)).trans (he _ (List.mem_append_right _ hv')).symm)
    have hbit := zero k hk
    rw [hsame, one k' hk'] at hbit
    cases hbit

theorem WellFormed.eq_of_mem_iff {t t' : Tree P κ ν} (h : WellFormed bit t) (h' : WellFormed bit t')
    (hm : ∀ e, e ∈ t.entries ↔ e ∈ t'.entries) : t = t' := by
  induction h generalizing t' with
  | leaf k v =>
    cases h' with
    | leaf k' v' =>
      obtain ⟨rfl, rfl⟩ := Prod.mk.inj (List.mem_singleton.mp ((hm (k, v)).mp List.mem_cons_self))
      rfl
    | node left right zero one agree =>
      refine (WellFormed.not_singleton (.node left right zero one agree) (e := (k, v)) fun x hx => ?_).elim
      exact List.mem_singleton.mp ((hm x).mpr hx)
  | @node p a b left right zero one agree iha ihb =>
    have hw : WellFormed bit (.node p a b) := .node left right zero one agree
    cases h' with
    | leaf k' v' =>
      refine (hw.not_singleton (e := (k', v')) fun x hx => ?_).elim
      exact List.mem_singleton.mp ((hm x).mp hx)
    | @node q c d left' right' zero' one' agree' =>
      have hkeys : ∀ k, k ∈ a.keys ++ b.keys ↔ k ∈ c.keys ++ d.keys := by
        intro k
        rw [← Tree.keys_node p, ← Tree.keys_node q, Tree.keys, Tree.keys, List.mem_map, List.mem_map]
        exact exists_congr fun e => and_congr_left fun _ => hm e
      obtain rfl : q = p := le_antisymm (hw.pos_le (.node left' right' zero' one' agree') fun k => (hkeys k).mp)
        (WellFormed.pos_le (.node left' right' zero' one' agree') hw fun k => (hkeys k).mpr)
      -- the bit at the root separates the pairs of both trees in the same way
      have hbit : ∀ e, (e ∈ a.entries → bit e.1 q = false) ∧ (e ∈ b.entries → bit e.1 q = true) ∧
          (e ∈ c.entries → bit e.1 q = false) ∧ (e ∈ d.entries → bit e.1 q = true) := fun e =>
        ⟨fun he => zero _ (List.mem_map_of_mem he), fun he => one _ (List.mem_map_of_mem he),
          fun he => zero' _ (List.mem_map_of_mem he), fun he => one' _ (List.mem_map_of_mem he)⟩
      have hboth : ∀ e, e ∈ a.entries ∨ e ∈ b.entries ↔ e ∈ c.entries ∨ e ∈ d.entries := by
        intro e
        rw [← List.mem_append, ← List.mem_append]
        exact hm e
      congr 1
      · refine iha left' fun e => ?_
        have := hboth e
        have := hbit e
        grind
      · refine ihb right' fun e => ?_
        have := hboth e
        have := hbit e
        grind

theorem Valid.eq_of_mem_iff {t t' : Tree P κ ν} (h : Valid bit t) (h' : Valid bit t')
    (hm : ∀ e, e ∈ t.entries ↔ e ∈ t'.entries) : t = t' := by
  rcases h with rfl | h
  · rcases h' with rfl | h'
    · rfl
    · exact (h'.entries_ne_nil (List.eq_nil_iff_forall_not_mem.mpr fun e he => by cases (hm e).mpr he)).elim
  · rcases h' with rfl | h'
    · exact (h.entries_ne_nil (List.eq_nil_iff_forall_not_mem.mpr fun e he => by cases (hm e).mp he)).elim
    · exact h.eq_of_mem_iff h' hm

/-! ## Growing, overwriting and contracting

Every operation is described by where it acts in the left-to-right sequence of pairs. -/

omit [LinearOrder P] in
theorem assign_entries {t : Tree P κ ν} {k s : κ} {w : ν} (v : ν)
    (h : t.closest bit k = some (s, w)) :
    ∃ l r, t.entries = l ++ (s, w) :: r ∧ (t.assign bit k v).entries = l ++ (s, v) :: r := by
  induction t with
  | empty => simp [Tree.closest] at h
  | leaf s' w' =>
    obtain ⟨rfl, rfl⟩ := Prod.mk.inj (Option.some.inj h)
    exact ⟨[], [], rfl, rfl⟩
  | node p a b iha ihb =>
    by_cases hb : bit k p = true
    · obtain ⟨l, r, he, he'⟩ := ihb (by simpa [Tree.closest, hb] using h)
      exact ⟨a.entries ++ l, r, by simp [he], by simp [Tree.assign, hb, he']⟩
    · obtain ⟨l, r, he, he'⟩ := iha (by simpa [Tree.closest, hb] using h)
      exact ⟨l, r ++ b.entries, by simp [he], by simp [Tree.assign, hb, he']⟩

omit [LinearOrder P] in
@[simp] theorem keys_assign (t : Tree P κ ν) (k : κ) (v : ν) : (t.assign bit k v).keys = t.keys := by
  induction t with
  | empty => rfl
  | leaf s w => rfl
  | node p a b iha ihb =>
    by_cases hb : bit k p = true
    · simp [Tree.assign, hb, ihb]
    · simp [Tree.assign, hb, iha]

theorem WellFormed.assign {t : Tree P κ ν} (h : WellFormed bit t) (k : κ) (v : ν) :
    WellFormed bit (t.assign bit k v) := by
  induction h with
  | leaf s w => exact .leaf s v
  | @node p a b left right zero one agree iha ihb =>
    by_cases hb : bit k p = true
    · simpa [Tree.assign, hb] using
        WellFormed.node left ihb zero (by simpa using one) (by simpa using agree)
    · simpa [Tree.assign, hb] using
        WellFormed.node iha right (by simpa using zero) one (by simpa using agree)

/-- The leaf the walk for `k` reaches, and the first position where `k` leaves it. -/
structure Departs (bit : κ → P → Bool) (t : Tree P κ ν) (k : κ) (p : P) (s : κ) (w : ν) : Prop where
  closest : t.closest bit k = some (s, w)
  agree : Agree bit p k s
  differ : bit k p ≠ bit s p

theorem Departs.one {q p : P} {a b : Tree P κ ν} {k s : κ} {w : ν}
    (h : Departs bit (.node q a b) k p s w) (hb : bit k q = true) : Departs bit b k p s w :=
  ⟨by simpa [Tree.closest, hb] using h.closest, h.agree, h.differ⟩

theorem Departs.zero {q p : P} {a b : Tree P κ ν} {k s : κ} {w : ν}
    (h : Departs bit (.node q a b) k p s w) (hb : bit k q = false) : Departs bit a k p s w :=
  ⟨by simpa [Tree.closest, hb] using h.closest, h.agree, h.differ⟩

omit [LinearOrder P] in
theorem fork_entries (k : κ) (v : ν) (p : P) (t : Tree P κ ν) :
    ∃ l r, t.entries = l ++ r ∧ (t.fork bit k v p).entries = l ++ (k, v) :: r := by
  by_cases hb : bit k p = true
  · exact ⟨t.entries, [], by simp, by simp [Tree.fork, hb]⟩
  · exact ⟨[], t.entries, by simp, by simp [Tree.fork, hb]⟩

/-- A fork is well formed when `k` and the whole tree below agree up to the fork and part there. -/
theorem WellFormed.fork {t : Tree P κ ν} (h : WellFormed bit t) {k : κ} (v : ν) {p : P}
    (agree : ∀ s ∈ t.keys, Agree bit p k s) (differ : ∀ s ∈ t.keys, bit k p ≠ bit s p) :
    WellFormed bit (t.fork bit k v p) := by
  have hall : ∀ s ∈ k :: t.keys, ∀ s' ∈ k :: t.keys, Agree bit p s s' := by
    intro s hs s' hs'
    have hks : ∀ x ∈ k :: t.keys, Agree bit p k x := by
      intro x hx
      rcases List.mem_cons.mp hx with rfl | hx
      · exact fun _ _ => rfl
      · exact agree x hx
    exact (hks s hs).symm.trans (hks s' hs')
  by_cases hb : bit k p = true
  · rw [Tree.fork, if_pos hb]
    refine .node h (.leaf k v) ?_ (by simpa using hb) ?_
    · intro s hs
      simpa [hb] using (differ s hs).symm
    · intro s hs s' hs'
      refine hall s ?_ s' ?_ <;> simp_all [or_comm]
  · rw [Tree.fork, if_neg hb]
    refine .node (.leaf k v) h (by simpa using hb) ?_ ?_
    · intro s hs
      have hd := differ s hs
      simp only [Bool.not_eq_true] at hb
      simpa [hb] using hd.symm
    · intro s hs s' hs'
      refine hall s ?_ s' ?_ <;> simp_all

theorem WellFormed.graft_entries {t : Tree P κ ν} (h : WellFormed bit t) (k : κ) (v : ν) (p : P) :
    ∃ l r, t.entries = l ++ r ∧ (t.graft bit k v p).entries = l ++ (k, v) :: r := by
  induction h with
  | leaf s w => exact fork_entries k v p _
  | @node q a b _ _ _ _ _ iha ihb =>
    by_cases hpq : p < q
    · rw [Tree.graft, if_pos hpq]
      exact fork_entries k v p _
    · by_cases hb : bit k q = true
      · obtain ⟨l, r, he, he'⟩ := ihb
        exact ⟨a.entries ++ l, r, by simp [he], by simp [Tree.graft, hpq, hb, he']⟩
      · obtain ⟨l, r, he, he'⟩ := iha
        exact ⟨l, r ++ b.entries, by simp [he], by simp [Tree.graft, hpq, hb, he']⟩

theorem WellFormed.mem_keys_graft {t : Tree P κ ν} (h : WellFormed bit t) {k : κ} {v : ν} {p : P}
    {x : κ} : x ∈ (t.graft bit k v p).keys ↔ x = k ∨ x ∈ t.keys := by
  obtain ⟨l, r, he, he'⟩ := h.graft_entries k v p
  simp only [Tree.keys, he, he', List.map_append, List.map_cons, List.mem_append, List.mem_cons]
  exact or_left_comm

/-- No node on the walk carries the position where `k` leaves the leaf it reaches. -/
theorem Departs.pos_ne {q p : P} {a b : Tree P κ ν} {k s : κ} {w : ν}
    (h : Departs bit (.node q a b) k p s w) (hw : WellFormed bit (.node q a b)) : q ≠ p := by
  rintro rfl
  cases hw with
  | node _ _ zero one _ =>
    cases hb : bit k q with
    | true => exact h.differ (hb.trans (one s (Tree.mem_keys_of_mem (closest_mem (h.one hb).closest))).symm)
    | false =>
      exact h.differ (hb.trans (zero s (Tree.mem_keys_of_mem (closest_mem (h.zero hb).closest))).symm)

/-- Insertion splits the edge at the position found from the closest leaf alone; the
invariant makes that position right for the whole displaced subtree. -/
theorem WellFormed.graft {t : Tree P κ ν} (h : WellFormed bit t) {k s : κ} {w : ν} {p : P} (v : ν)
    (hd : Departs bit t k p s w) : WellFormed bit (t.graft bit k v p) := by
  induction h with
  | leaf s' w' =>
    obtain ⟨rfl, rfl⟩ := Prod.mk.inj (Option.some.inj hd.closest)
    exact (WellFormed.leaf s' w').fork v (by simpa using hd.agree) (by simpa using hd.differ)
  | @node q a b left right zero one agree iha ihb =>
    have hw : WellFormed bit (.node q a b) := .node left right zero one agree
    have hs : s ∈ a.keys ++ b.keys := by
      simpa using Tree.mem_keys_of_mem (closest_mem hd.closest)
    by_cases hpq : p < q
    · rw [Tree.graft, if_pos hpq]
      refine hw.fork v ?_ ?_
      · intro x hx
        rw [Tree.keys_node] at hx
        exact hd.agree.trans ((agree s hs x hx).mono hpq.le)
      · intro x hx
        rw [Tree.keys_node] at hx
        rw [← agree s hs x hx p hpq]
        exact hd.differ
    · have hqp : q < p := lt_of_le_of_ne (not_lt.mp hpq) (hd.pos_ne hw)
      have hk : ∀ x ∈ a.keys ++ b.keys, Agree bit q k x := fun x hx =>
        (hd.agree.mono hqp.le).trans (agree s hs x hx)
      have hall : ∀ x, (x = k ∨ x ∈ a.keys ∨ x ∈ b.keys) → ∀ y, (y = k ∨ y ∈ a.keys ∨ y ∈ b.keys) →
          Agree bit q x y := by
        simp only [← List.mem_append]
        rintro x (rfl | hx) y (rfl | hy)
        · exact fun _ _ => rfl
        · exact hk y hy
        · exact (hk x hx).symm
        · exact agree x hx y hy
      rw [Tree.graft, if_neg hpq]
      cases hb : bit k q with
      | true =>
        refine .node left (ihb (hd.one hb)) zero ?_ ?_
        · intro x hx
          rcases right.mem_keys_graft.mp hx with rfl | hx
          · exact hb
          · exact one x hx
        · intro x hx y hy
          simp only [List.mem_append, right.mem_keys_graft] at hx hy
          exact hall x (or_left_comm.mp hx) y (or_left_comm.mp hy)
      | false =>
        refine .node (iha (hd.zero hb)) right ?_ one ?_
        · intro x hx
          rcases left.mem_keys_graft.mp hx with rfl | hx
          · exact hb
          · exact zero x hx
        · intro x hx y hy
          simp only [List.mem_append, left.mem_keys_graft] at hx hy
          exact hall x (or_assoc.mp hx) y (or_assoc.mp hy)

omit [LinearOrder P] in
theorem prune_of_isLeaf {t : Tree P κ ν} (h : t.isLeaf = true) (k : κ) :
    (t.prune bit k).entries = [] := by
  cases t with
  | leaf s w => rfl
  | _ => simp [Tree.isLeaf] at h

omit [LinearOrder P] in
theorem prune_entries {t : Tree P κ ν} {k : κ} {e : κ × ν} (h : t.closest bit k = some e) :
    ∃ l r, t.entries = l ++ e :: r ∧ (t.prune bit k).entries = l ++ r := by
  induction t with
  | empty => simp [Tree.closest] at h
  | leaf s w => exact ⟨[], [], by simpa [Tree.closest] using h, rfl⟩
  | node p a b iha ihb =>
    by_cases hb : bit k p = true
    · obtain ⟨l, r, he, he'⟩ := ihb (by simpa [Tree.closest, hb] using h)
      refine ⟨a.entries ++ l, r, by simp [he], ?_⟩
      by_cases hl : b.isLeaf = true
      · rw [prune_of_isLeaf hl] at he'
        simp [Tree.prune, hb, hl, ← he']
      · simp [Tree.prune, hb, hl, he']
    · obtain ⟨l, r, he, he'⟩ := iha (by simpa [Tree.closest, hb] using h)
      refine ⟨l, r ++ b.entries, by simp [he], ?_⟩
      by_cases hl : a.isLeaf = true
      · rw [prune_of_isLeaf hl] at he'
        have hn : l = [] ∧ r = [] := by simpa using he'.symm
        simp [Tree.prune, hb, hl, hn]
      · simp [Tree.prune, hb, hl, he']

omit [LinearOrder P] in
theorem mem_keys_of_mem_prune {t : Tree P κ ν} {k x : κ} (hx : x ∈ (t.prune bit k).keys) :
    x ∈ t.keys := by
  induction t with
  | empty => exact hx
  | leaf s w => simp [Tree.prune] at hx
  | node p a b iha ihb =>
    rw [Tree.keys_node, List.mem_append]
    simp only [Tree.prune] at hx
    split_ifs at hx
    · exact Or.inl hx
    · rcases List.mem_append.mp (Tree.keys_node .. ▸ hx) with hx | hx
      · exact Or.inl hx
      · exact Or.inr (ihb hx)
    · exact Or.inr hx
    · rcases List.mem_append.mp (Tree.keys_node .. ▸ hx) with hx | hx
      · exact Or.inl (iha hx)
      · exact Or.inr hx

/-- Only the removal of a tree's single leaf leaves nothing behind. -/
theorem WellFormed.prune {t : Tree P κ ν} (h : WellFormed bit t) (k : κ)
    (hl : t.isLeaf = false) : WellFormed bit (t.prune bit k) := by
  induction h with
  | leaf s w => simp [Tree.isLeaf] at hl
  | @node p a b left right zero one agree iha ihb =>
    simp only [Tree.prune]
    split_ifs with hb hlb hla
    · exact left
    · refine .node left (ihb (by simpa using hlb)) zero
        (fun x hx => one x (mem_keys_of_mem_prune hx)) ?_
      intro x hx y hy
      simp only [List.mem_append] at hx hy agree
      exact agree x (hx.imp_right mem_keys_of_mem_prune) y (hy.imp_right mem_keys_of_mem_prune)
    · exact right
    · refine .node (iha (by simpa using hla)) right
        (fun x hx => zero x (mem_keys_of_mem_prune hx)) one ?_
      intro x hx y hy
      simp only [List.mem_append] at hx hy agree
      exact agree x (hx.imp_left mem_keys_of_mem_prune) y (hy.imp_left mem_keys_of_mem_prune)

theorem WellFormed.prune_valid {t : Tree P κ ν} (h : WellFormed bit t) (k : κ) :
    Valid bit (t.prune bit k) := by
  cases hl : t.isLeaf with
  | true =>
    cases t with
    | leaf s w => exact valid_empty
    | _ => simp [Tree.isLeaf] at hl
  | false => exact (h.prune k hl).valid

/-! ## Order and common prefixes -/

/-- `k` comes before `k'` in the order of first differing bits. -/
def BitLt (bit : κ → P → Bool) (k k' : κ) : Prop :=
  ∃ p, Agree bit p k k' ∧ bit k p = false ∧ bit k' p = true

theorem WellFormed.pairwise_bitLt {t : Tree P κ ν} (h : WellFormed bit t) :
    t.entries.Pairwise (fun e e' => BitLt bit e.1 e'.1) := by
  induction h with
  | leaf k v => simp
  | @node p a b _ _ zero one agree iha ihb =>
    rw [Tree.entries_node, List.pairwise_append]
    refine ⟨iha, ihb, fun e he e' he' => ?_⟩
    have hk : e.1 ∈ a.keys := List.mem_map_of_mem he
    have hk' : e'.1 ∈ b.keys := List.mem_map_of_mem he'
    exact ⟨p, agree _ (List.mem_append_left _ hk) _ (List.mem_append_right _ hk'), zero _ hk, one _ hk'⟩

theorem Valid.pairwise_bitLt {t : Tree P κ ν} (h : Valid bit t) :
    t.entries.Pairwise (fun e e' => BitLt bit e.1 e'.1) := by
  rcases h with rfl | h
  · simp
  · exact h.pairwise_bitLt

theorem WellFormed.descend {t : Tree P κ ν} (h : WellFormed bit t) (S : P → Bool) (k : κ) :
    WellFormed bit (t.descend bit S k) := by
  induction h with
  | leaf s v => exact .leaf s v
  | node left right zero one agree iha ihb =>
    simp only [Tree.descend]
    split_ifs
    · exact ihb
    · exact iha
    · exact .node left right zero one agree

omit [LinearOrder P] in
theorem closest_descend (t : Tree P κ ν) (S : P → Bool) (k : κ) :
    (t.descend bit S k).closest bit k = t.closest bit k := by
  induction t with
  | empty => rfl
  | leaf s v => rfl
  | node p a b iha ihb =>
    by_cases hS : S p = true <;> by_cases hb : bit k p = true <;>
      simp [Tree.descend, Tree.closest, hS, hb, iha, ihb]

/-- `m` decides which keys have the bits of `k` at all positions in `S`. -/
def Matching (bit : κ → P → Bool) (S : P → Bool) (k : κ) (m : κ → Bool) (xs : List κ) : Prop :=
  ∀ x ∈ xs, m x = true ↔ ∀ p, S p = true → bit x p = bit k p

omit [LinearOrder P] in
theorem Matching.mono {S : P → Bool} {k : κ} {m : κ → Bool} {xs ys : List κ}
    (h : Matching bit S k m xs) (hs : ∀ y ∈ ys, y ∈ xs) : Matching bit S k m ys :=
  fun x hx => h x (hs x hx)

theorem WellFormed.filter_descend {t : Tree P κ ν} (h : WellFormed bit t) {S : P → Bool} {k : κ}
    {m : κ → Bool} (hm : Matching bit S k m t.keys) :
    t.entries.filter (fun e => m e.1) = (t.descend bit S k).entries.filter (fun e => m e.1) := by
  induction h with
  | leaf s v => rfl
  | @node p a b _ _ zero one agree iha ihb =>
    have ha : Matching bit S k m a.keys := hm.mono (by simp +contextual)
    have hb : Matching bit S k m b.keys := hm.mono (by simp +contextual)
    simp only [Tree.descend, Tree.entries_node, List.filter_append]
    split_ifs with hS hk
    · rw [← ihb hb, List.append_left_eq_self, List.filter_eq_nil_iff]
      intro e he hme
      have hka : e.1 ∈ a.keys := List.mem_map_of_mem he
      have := (ha _ hka).mp hme p hS
      rw [zero _ hka, hk] at this
      exact Bool.noConfusion this
    · rw [← iha ha, List.append_right_eq_self, List.filter_eq_nil_iff]
      intro e he hme
      have hkb : e.1 ∈ b.keys := List.mem_map_of_mem he
      have := (hb _ hkb).mp hme p hS
      rw [one _ hkb] at this
      exact hk this.symm
    · simp

/-- All keys below the point where the walk leaves `S` have the same bits in `S`. -/
theorem WellFormed.agree_descend {t : Tree P κ ν} (h : WellFormed bit t) {S : P → Bool}
    (lower : ∀ p q, S p = true → q ≤ p → S q = true) {k x y : κ}
    (hx : x ∈ (t.descend bit S k).keys) (hy : y ∈ (t.descend bit S k).keys) {p : P}
    (hp : S p = true) : bit x p = bit y p := by
  induction h with
  | leaf s v =>
    simp only [Tree.descend, Tree.keys_leaf, List.mem_singleton] at hx hy
    rw [hx, hy]
  | @node q a b _ _ _ _ agree iha ihb =>
    simp only [Tree.descend] at hx hy
    split_ifs at hx hy with hS
    · exact ihb hx hy
    · exact iha hx hy
    · rw [Tree.keys_node] at hx hy
      refine agree x hx y hy p (lt_of_not_ge fun hqp => hS (lower p q hp hqp))

/-- The single comparison at the leaf speaks for the whole subtree. -/
theorem WellFormed.filter_eq_descend {t : Tree P κ ν} (h : WellFormed bit t) {S : P → Bool}
    (lower : ∀ p q, S p = true → q ≤ p → S q = true) {k s : κ} {w : ν} {m : κ → Bool}
    (hm : Matching bit S k m t.keys) (hc : t.closest bit k = some (s, w)) :
    t.entries.filter (fun e => m e.1) = if m s then (t.descend bit S k).entries else [] := by
  have hsub : ∀ x ∈ (t.descend bit S k).keys, x ∈ t.keys := by
    clear hm hc
    intro x hx
    induction h with
    | leaf s v => exact hx
    | node _ _ _ _ _ iha ihb =>
      rw [Tree.keys_node, List.mem_append]
      simp only [Tree.descend] at hx
      split_ifs at hx
      · exact Or.inr (ihb hx)
      · exact Or.inl (iha hx)
      · simpa using hx
  have hs : s ∈ (t.descend bit S k).keys := by
    rw [← closest_descend t S k] at hc
    exact Tree.mem_keys_of_mem (closest_mem hc)
  have hiff : ∀ x ∈ (t.descend bit S k).keys, (m x = true ↔ m s = true) := by
    intro x hx
    rw [hm x (hsub x hx), hm s (hsub s hs)]
    constructor
    · intro hk p hp
      rw [h.agree_descend lower hs hx hp, hk p hp]
    · intro hk p hp
      rw [h.agree_descend lower hx hs hp, hk p hp]
  rw [h.filter_descend hm]
  split_ifs with hms
  · rw [List.filter_eq_self]
    exact fun e he => (hiff _ (List.mem_map_of_mem he)).mpr hms
  · rw [List.filter_eq_nil_iff]
    exact fun e he hme => hms ((hiff _ (List.mem_map_of_mem he)).mp hme)

end Invariant

/-! ## The finite map a sequence of pairs denotes -/

section Map

variable [DecidableEq κ]

def toMap (l : List (κ × ν)) : Finmap (fun _ : κ => ν) :=
  (l.map (fun e => (⟨e.1, e.2⟩ : Sigma fun _ : κ => ν))).toFinmap

omit [DecidableEq κ] in
private theorem nodupKeys_map {l : List (κ × ν)} (h : (l.map Prod.fst).Nodup) :
    (l.map (fun e => (⟨e.1, e.2⟩ : Sigma fun _ : κ => ν))).NodupKeys := by
  simpa [List.NodupKeys, List.keys, Function.comp_def] using h

theorem lookup_toMap {l : List (κ × ν)} (h : (l.map Prod.fst).Nodup) (k : κ) (v : ν) :
    (toMap l).lookup k = some v ↔ (k, v) ∈ l := by
  rw [toMap, Finmap.dlookup_list_toFinmap, ← Option.mem_def, List.mem_dlookup_iff (nodupKeys_map h)]
  simp only [List.mem_map, Sigma.mk.injEq, heq_eq_eq, Prod.exists]
  constructor
  · rintro ⟨a, b, hm, rfl, rfl⟩
    exact hm
  · exact fun hm => ⟨k, v, hm, rfl, rfl⟩

theorem lookup_toMap_eq_none {l : List (κ × ν)} (h : (l.map Prod.fst).Nodup) (k : κ) :
    (toMap l).lookup k = none ↔ k ∉ l.map Prod.fst := by
  rw [Option.eq_none_iff_forall_ne_some]
  constructor
  · rintro hn hm
    obtain ⟨⟨k', v⟩, hv, rfl⟩ := List.mem_map.mp hm
    exact hn v ((lookup_toMap h _ v).mpr hv)
  · exact fun hn v hv => hn (List.mem_map_of_mem ((lookup_toMap h k v).mp hv))

@[simp] theorem toMap_nil : toMap ([] : List (κ × ν)) = ∅ := rfl

theorem toMap_insert {l r : List (κ × ν)} {k : κ} {v : ν}
    (h : ((l ++ (k, v) :: r).map Prod.fst).Nodup) :
    toMap (l ++ (k, v) :: r) = (toMap (l ++ r)).insert k v := by
  have h' : ((l ++ r).map Prod.fst).Nodup :=
    h.sublist (((List.sublist_cons_self _ _).append_left _).map _)
  apply Finmap.ext_lookup
  intro x
  by_cases hx : x = k
  · subst hx
    rw [Finmap.lookup_insert, lookup_toMap h]
    simp
  · rw [Finmap.lookup_insert_of_ne _ hx]
    apply Option.ext
    intro w
    rw [lookup_toMap h, lookup_toMap h']
    simp [hx]

theorem toMap_assign {l r : List (κ × ν)} {k : κ} {w : ν} (v : ν)
    (h : ((l ++ (k, w) :: r).map Prod.fst).Nodup) :
    toMap (l ++ (k, v) :: r) = (toMap (l ++ (k, w) :: r)).insert k v := by
  rw [toMap_insert h, Finmap.insert_insert, toMap_insert (by simpa using h)]

theorem toMap_erase {l r : List (κ × ν)} {k : κ} {w : ν}
    (h : ((l ++ (k, w) :: r).map Prod.fst).Nodup) :
    toMap (l ++ r) = (toMap (l ++ (k, w) :: r)).erase k := by
  have h' : ((l ++ r).map Prod.fst).Nodup :=
    h.sublist (((List.sublist_cons_self _ _).append_left _).map _)
  have hk : k ∉ (l ++ r).map Prod.fst := by
    rw [List.map_append, List.map_cons, List.nodup_middle] at h
    simpa using (List.nodup_cons.mp h).1
  rw [toMap_insert h]
  apply Finmap.ext_lookup
  intro x
  by_cases hx : x = k
  · subst hx
    rw [Finmap.lookup_erase, lookup_toMap_eq_none h']
    exact hk
  · rw [Finmap.lookup_erase_ne hx, Finmap.lookup_insert_of_ne _ hx]

theorem erase_absent {m : Finmap fun _ : κ => ν} {k : κ} (h : m.lookup k = none) : m.erase k = m := by
  apply Finmap.ext_lookup
  intro j
  by_cases hj : j = k
  · rw [hj, Finmap.lookup_erase, h]
  · rw [Finmap.lookup_erase_ne hj]

theorem erase_insert_absent {m : Finmap fun _ : κ => ν} {k : κ} (h : m.lookup k = none) (v : ν) :
    (m.insert k v).erase k = m := by
  apply Finmap.ext_lookup
  intro j
  by_cases hj : j = k
  · rw [hj, Finmap.lookup_erase, h]
  · rw [Finmap.lookup_erase_ne hj, Finmap.lookup_insert_of_ne _ hj]

theorem card_keys_toMap {l : List (κ × ν)} (h : (l.map Prod.fst).Nodup) :
    (toMap l).keys.card = l.length := by
  have hk : (toMap l).keys = (l.map Prod.fst).toFinset := by
    ext k
    rw [Finmap.mem_keys, ← Finmap.lookup_isSome, Option.isSome_iff_ne_none, ne_eq,
      lookup_toMap_eq_none h, not_not, List.mem_toFinset]
  rw [hk, List.toFinset_card_of_nodup h, List.length_map]

end Map

end RhinoRox.CritBitTree
