import RhinoRox.DictRefinement
import Mathlib.Algebra.Order.BigOperators.Group.List
import Mathlib.Algebra.Order.Group.Nat

/-!
# Iterators and prefix search of `rr_dict.c`

The iterator keeps an explicit stack: a leaf on top of exactly those ancestors whose
left subtree is in progress. Prefix search picks a subtree and hands it to the same
iterator, together with the size of the whole dictionary.
-/

namespace RhinoRox
open CritBitTree

variable {α : Type}

structure DictIterator (α : Type) where
  stack : List (Dict α)
  deriving DecidableEq, Repr

/-- Push a node and then its leftmost descendants. A node without value and children
sends the loop through a `NULL` child pointer. -/
def pushLeft (n : Dict α) (stack : List (Dict α)) : Exec (List (Dict α)) :=
  match n with
  | .empty => throw .nullPointer
  | .leaf s v => pure (.leaf s v :: stack)
  | .node p a b => pushLeft a (.node p a b :: stack)

def iterCreate (n : Dict α) (size : ℕ) : Exec (DictIterator α) :=
  if size == 0 then pure ⟨[]⟩
  else do
    let stack ← pushLeft n []
    pure ⟨stack⟩

def dictIterCreate (d : DictT α) : Exec (DictIterator α) := iterCreate d.dict d.size

def dictIterHasnext (it : DictIterator α) : Bool := !it.stack.isEmpty

def dictIterNext (it : DictIterator α) : Exec ((Bytes × α) × DictIterator α) :=
  match it.stack with
  | [] => throw .nullPointer
  | .leaf s v :: rest =>
    match rest with
    | [] => pure ((s, v), ⟨[]⟩)
    | .node _ _ b :: rest' => do
      let stack ← pushLeft b rest'
      pure ((s, v), ⟨stack⟩)
    | .leaf _ _ :: _ => throw .assertion
    | .empty :: _ => throw .nullPointer
  | _ :: _ => throw .assertion

/-- `while (dict_iter_hasnext(iter)) dict_iter_next(iter)`, for at most `n` rounds. -/
def dictIterRun : ℕ → DictIterator α → Exec (List (Bytes × α))
  | 0, it => if dictIterHasnext it then throw .divergence else pure []
  | n + 1, it =>
    if dictIterHasnext it then do
      let (kv, it') ← dictIterNext it
      let rest ← dictIterRun n it'
      pure (kv :: rest)
    else pure []

/-- The whole loop: no subtree on the stack yields more pairs than it has leaves. -/
def dictIterAll (it : DictIterator α) : Exec (List (Bytes × α)) :=
  dictIterRun (it.stack.map fun n => n.entries.length).sum it

/-- Walk to a leaf and remember the last node reached on a byte of the prefix itself. -/
def getPrefixWalk (pre : Bytes) (n top : Dict α) : Exec (Dict α × Bytes) :=
  match n with
  | .empty => throw .nullPointer
  | .leaf s _ => pure (top, s)
  | .node p a b =>
    let c := if p.byteIdx < pre.length then byteAt pre p.byteIdx else 0
    if c.toNat.testBit p.bitIdx then getPrefixWalk pre b (if c ≠ 0 then b else top)
    else getPrefixWalk pre a (if c ≠ 0 then a else top)

/-- The static `get_prefix`; a prefix that does not appear gives the static empty node. -/
def getPrefix (n : Dict α) (pre : Bytes) : Exec (Dict α) :=
  if emptyNode n then pure n
  else do
    let (top, s) ← getPrefixWalk pre n n
    if pre.isPrefixOf s then pure top else pure .empty

def dictHasPrefix (d : DictT α) (pre : Bytes) : Exec Bool := do
  let n ← getPrefix d.dict (cStr pre)
  pure !emptyNode n

def dictGetPrefix (d : DictT α) (pre : Bytes) : Exec (DictIterator α) := do
  let n ← getPrefix d.dict (cStr pre)
  iterCreate n d.size

/-! ## The stack invariant -/

/-- The pairs still to come from an ancestor on the stack. -/
def pendingRight : Dict α → List (Bytes × α)
  | .node _ _ b => b.entries
  | _ => []

inductive InProgress : Dict α → Prop where
  | node (p : CritPos) (a b : Dict α) (right : WellFormed direction b) : InProgress (.node p a b)

theorem pushLeft_spec {t : Dict α} (h : WellFormed direction t) (stack : List (Dict α))
    (hs : ∀ n ∈ stack, InProgress n) :
    ∃ s v rest, pushLeft t stack = .ok (.leaf s v :: rest) ∧ (∀ n ∈ rest, InProgress n) ∧
      (s, v) :: rest.flatMap pendingRight = t.entries ++ stack.flatMap pendingRight := by
  induction h generalizing stack with
  | leaf s v => exact ⟨s, v, stack, rfl, hs, rfl⟩
  | @node p a b _ right _ _ _ iha _ =>
    have hs' : ∀ n ∈ CritBitTree.Tree.node p a b :: stack, InProgress n := by
      intro n hn
      rcases List.mem_cons.mp hn with rfl | hn
      · exact .node p a b right
      · exact hs n hn
    obtain ⟨s, v, rest, hr, hrest, he⟩ := iha _ hs'
    exact ⟨s, v, rest, hr, hrest, by simpa [pendingRight] using he⟩

/-- Running a well-formed stack yields its top leaf and then what is pending below it. -/
theorem dictIterRun_spec (n : ℕ) (s : Bytes) (v : α) (rest : List (Dict α))
    (hs : ∀ m ∈ rest, InProgress m) (hn : (rest.flatMap pendingRight).length < n) :
    dictIterRun n ⟨.leaf s v :: rest⟩ = .ok ((s, v) :: rest.flatMap pendingRight) := by
  induction n generalizing s v rest with
  | zero => omega
  | succ n ih =>
    cases rest with
    | nil => cases n <;> simp [dictIterRun, dictIterHasnext, dictIterNext]
    | cons m rest =>
      cases hs m List.mem_cons_self with
      | node p a b right =>
        obtain ⟨s', v', rest', hr, hrest', he⟩ :=
          pushLeft_spec right rest fun m hm => hs m (List.mem_cons_of_mem _ hm)
        have hlen : (rest'.flatMap pendingRight).length < n := by
          have := congrArg List.length he
          simp only [List.flatMap_cons, pendingRight, List.length_append, List.length_cons] at this hn
          omega
        have := ih s' v' rest' hrest' hlen
        rw [dictIterRun]
        simp [dictIterHasnext, dictIterNext, hr, this, pendingRight, he]

/-- A new iterator yields the pairs of the subtree in as many rounds as there are pairs. -/
theorem iterCreate_run {t : Dict α} (h : WellFormed direction t) {size : ℕ} (hsize : size ≠ 0) :
    ∃ it, iterCreate t size = .ok it ∧ (∀ n, t.entries.length ≤ n → dictIterRun n it = .ok t.entries) ∧
      t.entries.length ≤ (it.stack.map fun n => n.entries.length).sum := by
  obtain ⟨s, v, rest, hr, hrest, he⟩ := pushLeft_spec h [] (by simp)
  rw [List.flatMap_nil, List.append_nil] at he
  have hlen : t.entries.length = (rest.flatMap pendingRight).length + 1 := by
    rw [← he, List.length_cons]
  have hle : (rest.flatMap pendingRight).length ≤ (rest.map fun n => n.entries.length).sum := by
    rw [List.length_flatMap]
    refine List.sum_le_sum fun n hn => ?_
    cases hrest n hn with
    | node p a b _ => simp [pendingRight]
  refine ⟨⟨.leaf s v :: rest⟩, by simp [iterCreate, hsize, hr], fun n hn => ?_, ?_⟩
  · rw [dictIterRun_spec n s v rest hrest (by omega), he]
  · simp only [List.map_cons, Tree.entries_leaf, List.length_singleton, List.sum_cons]
    omega

theorem iterCreate_spec {t : Dict α} (h : WellFormed direction t) {size : ℕ} (hsize : size ≠ 0) :
    ∃ it, iterCreate t size = .ok it ∧ dictIterAll it = .ok t.entries := by
  obtain ⟨it, hit, hrun, hle⟩ := iterCreate_run h hsize
  exact ⟨it, hit, hrun _ hle⟩

/-- The size guard and the tree agree on which dictionaries are empty. -/
theorem DictT.Inv.size_ne_zero {d : DictT α} (h : d.Inv) (hw : WellFormed direction d.dict) :
    d.size ≠ 0 := by
  rw [h.size_eq, DictT.entries, ne_eq, List.length_eq_zero_iff]
  exact hw.entries_ne_nil

/-- A full iteration returns every stored pair, from left to right. -/
theorem dictIterCreate_spec {d : DictT α} (h : d.Inv) :
    ∃ it, dictIterCreate d = .ok it ∧ dictIterAll it = .ok d.entries := by
  rcases h.valid with he | hw
  · have hz : d.size = 0 := by simp [h.size_eq, DictT.entries, he]
    refine ⟨⟨[]⟩, by simp [dictIterCreate, iterCreate, hz], ?_⟩
    simp [dictIterAll, dictIterRun, dictIterHasnext, DictT.entries, he]
  · exact iterCreate_spec hw (h.size_ne_zero hw)

/-! ## Byte order -/

private theorem byteAt_eq_of_direction {k k' : Bytes} {i : ℕ}
    (h : ∀ j, direction k ⟨i, j⟩ = direction k' ⟨i, j⟩) : byteAt k i = byteAt k' i := by
  apply UInt8.toNat_inj.mp
  apply Nat.eq_of_testBit_eq
  intro j
  simpa [direction_eq] using h j

private theorem lt_of_byteAt {k k' : Bytes} (hk : 0 ∉ k) (hk' : 0 ∉ k') {i : ℕ}
    (heq : ∀ j < i, byteAt k j = byteAt k' j) (hlt : byteAt k i < byteAt k' i) : k < k' := by
  induction i generalizing k k' with
  | zero =>
    cases k' with
    | nil => simp at hlt
    | cons b t =>
      cases k with
      | nil => exact List.nil_lt_cons b t
      | cons a s => exact List.cons_lt_cons_iff.mpr (Or.inl (by simpa using hlt))
  | succ i ih =>
    have h₀ := heq 0 (by omega)
    cases k' with
    | nil => simp at hlt
    | cons b t =>
      cases k with
      | nil => exact absurd (by simpa using h₀) fun hb : (0 : UInt8) = b => hk' (hb ▸ List.mem_cons_self)
      | cons a s =>
        simp only [byteAt_cons_zero] at h₀
        refine List.cons_lt_cons_iff.mpr (Or.inr ⟨h₀, ?_⟩)
        refine ih (fun hm => hk (List.mem_cons_of_mem _ hm)) (fun hm => hk' (List.mem_cons_of_mem _ hm)) ?_
          (by simpa using hlt)
        intro j hj
        simpa using heq (j + 1) (by omega)

/-- The order of the leaves is unsigned-byte lexicographic order. -/
theorem lt_of_bitLt {k k' : Bytes} (h : BitLt direction k k') (hk : 0 ∉ k) (hk' : 0 ∉ k') : k < k' := by
  obtain ⟨⟨i, j⟩, ha, hz, ho⟩ := h
  refine lt_of_byteAt hk hk' (i := i) ?_ ?_
  · intro n hn
    exact byteAt_eq_of_direction fun m => ha ⟨n, m⟩ (CritPos.lt_iff.mpr (Or.inl hn))
  · rw [UInt8.lt_iff_toNat_lt]
    refine Nat.lt_of_testBit j (by simpa [direction_eq] using hz) (by simpa [direction_eq] using ho) ?_
    intro m hm
    simpa [direction_eq] using ha ⟨i, m⟩ (CritPos.lt_iff.mpr (Or.inr ⟨rfl, hm⟩))

theorem DictT.Inv.sorted {d : DictT α} (h : d.Inv) :
    d.entries.Pairwise (fun e e' => e.1 < e'.1) := by
  refine h.valid.pairwise_bitLt.imp_of_mem fun hm hm' hlt => ?_
  exact lt_of_bitLt hlt (h.nulFree _ (List.mem_map_of_mem hm)) (h.nulFree _ (List.mem_map_of_mem hm'))

/-! ## Prefix search -/

/-- The positions inside the bytes of a prefix. -/
def inPrefix (pre : Bytes) (p : CritPos) : Bool := p.byteIdx < pre.length

theorem inPrefix_lower (pre : Bytes) (p q : CritPos) (h : inPrefix pre p = true) (hq : q ≤ p) :
    inPrefix pre q = true := by
  simp only [inPrefix, decide_eq_true_eq] at h ⊢
  exact (CritPos.byteIdx_le hq).trans_lt h

private theorem isPrefixOf_iff_byteAt {pre x : Bytes} (hp : 0 ∉ pre) :
    pre.isPrefixOf x = true ↔ ∀ i < pre.length, byteAt x i = byteAt pre i := by
  induction pre generalizing x with
  | nil => simp
  | cons b pre ih =>
    cases x with
    | nil =>
      simp only [List.isPrefixOf, Bool.false_eq_true, false_iff, not_forall]
      exact ⟨0, by simp, by simpa using fun hb : (0 : UInt8) = b => hp (hb ▸ List.mem_cons_self)⟩
    | cons a x =>
      rw [List.isPrefixOf, Bool.and_eq_true, beq_iff_eq, ih fun hm => hp (List.mem_cons_of_mem _ hm)]
      constructor
      · rintro ⟨rfl, h⟩ i hi
        cases i with
        | zero => simp
        | succ i => simpa using h i (by simpa using hi)
      · intro h
        refine ⟨by simpa using (h 0 (by simp)).symm, fun i hi => ?_⟩
        simpa using h (i + 1) (by simpa using hi)

theorem isPrefixOf_matching {pre : Bytes} (hp : 0 ∉ pre) (xs : List Bytes) :
    Matching direction (inPrefix pre) pre (fun x => pre.isPrefixOf x) xs := by
  intro x _
  rw [isPrefixOf_iff_byteAt hp]
  constructor
  · intro h p hpre
    rw [direction_eq, direction_eq, h _ (by simpa [inPrefix] using hpre)]
  · intro h i hi
    exact byteAt_eq_of_direction fun j => h ⟨i, j⟩ (by simpa [inPrefix] using hi)

private theorem byteAt_ne_zero_iff {pre : Bytes} (hp : 0 ∉ pre) (i : ℕ) :
    byteAt pre i ≠ 0 ↔ i < pre.length := by
  constructor
  · intro h
    by_contra hle
    exact h (byteAt_of_le (not_lt.mp hle))
  · intro h hz
    rw [byteAt_of_lt h] at hz
    exact hp (hz ▸ List.getElem_mem h)

/-- Past the prefix the walk keeps the node it has remembered. -/
theorem getPrefixWalk_past {pre : Bytes} {t : Dict α} (h : WellFormed direction t) (top : Dict α)
    (hpast : ∀ p a b, t = .node p a b → inPrefix pre p = false) {s : Bytes} {w : α}
    (hc : t.closest direction pre = some (s, w)) : getPrefixWalk pre t top = .ok (top, s) := by
  induction h with
  | leaf s' w' =>
    obtain ⟨rfl, rfl⟩ := Prod.mk.inj (Option.some.inj hc)
    rfl
  | @node p a b left right zero one agree iha ihb =>
    have hw : WellFormed direction (.node p a b) := .node left right zero one agree
    have hp : ¬ p.byteIdx < pre.length := by simpa [inPrefix] using hpast p a b rfl
    have hd : direction pre p = false := by simp [direction, hp]
    simp only [Tree.closest, hd] at hc
    suffices hs : getPrefixWalk pre a top = .ok (top, s) by simpa [getPrefixWalk, hp] using hs
    refine iha ?_ hc
    rintro q c d rfl
    have hlt := hw.pos_lt_zero
    by_contra hq
    rw [Bool.not_eq_false] at hq
    simpa [inPrefix, hp] using inPrefix_lower pre q p hq hlt.le

/-- The walk finds the subtree where the positions leave the prefix. -/
theorem getPrefixWalk_spec {pre : Bytes} (hp : 0 ∉ pre) {t : Dict α} (h : WellFormed direction t)
    {s : Bytes} {w : α} (hc : t.closest direction pre = some (s, w)) :
    getPrefixWalk pre t t = .ok (t.descend direction (inPrefix pre) pre, s) := by
  induction h with
  | leaf s' w' =>
    obtain ⟨rfl, rfl⟩ := Prod.mk.inj (Option.some.inj hc)
    rfl
  | @node p a b left right zero one agree iha ihb =>
    by_cases hpre : p.byteIdx < pre.length
    · have hne := (byteAt_ne_zero_iff hp p.byteIdx).mpr hpre
      have hin : inPrefix pre p = true := by simpa [inPrefix] using hpre
      simp only [getPrefixWalk, hpre, if_true, hne, Tree.descend, hin, ne_eq, not_false_eq_true,
        ← direction_eq]
      cases hb : direction pre p with
      | true => simpa using ihb (by simpa [Tree.closest, hb] using hc)
      | false => simpa using iha (by simpa [Tree.closest, hb] using hc)
    · have hout : inPrefix pre p = false := by simpa [inPrefix] using hpre
      rw [getPrefixWalk_past (.node left right zero one agree) _ (by rintro q c d ⟨⟩; exact hout) hc]
      simp [Tree.descend, hout]

/-- The pairs whose key starts with the prefix. -/
def DictT.withPrefix (d : DictT α) (pre : Bytes) : List (Bytes × α) :=
  d.entries.filter fun e => pre.isPrefixOf e.1

/-- The subtree `get_prefix` returns holds exactly the matching pairs. -/
theorem getPrefix_spec {d : DictT α} (h : d.Inv) {pre : Bytes} (hp : 0 ∉ pre) :
    ∃ n, getPrefix d.dict pre = .ok n ∧ Valid direction n ∧ n.entries = d.withPrefix pre := by
  rcases h.valid with he | hw
  · refine ⟨.empty, ?_, valid_empty, ?_⟩
    · simp [getPrefix, he, emptyNode]
    · simp [DictT.withPrefix, DictT.entries, he]
  · obtain ⟨s, w, hc⟩ := hw.exists_closest pre
    have hf := hw.filter_eq_descend (inPrefix_lower pre) (isPrefixOf_matching hp _) hc
    rw [getPrefix, emptyNode_of_wellFormed hw, getPrefixWalk_spec hp hw hc, DictT.withPrefix, DictT.entries,
      hf]
    simp only [Bool.false_eq_true, if_false, Exec.ok_bind]
    cases hm : pre.isPrefixOf s with
    | true => exact ⟨_, rfl, (hw.descend _ _).valid, rfl⟩
    | false => exact ⟨.empty, rfl, valid_empty, rfl⟩

end RhinoRox
