import RhinoRox.Dict

/-!
# What every dictionary operation does to the map it stores

The crit-bit representation invariant instantiates the general one with the bits of
NUL-free keys. Each operation is specified once, by its effect on the finite map that
the leaves denote; users of the dictionary rely on these specifications only.
-/

namespace RhinoRox
open CritBitTree

variable {α : Type}

/-! ## Bits of keys -/

theorem direction_eq (k : Bytes) (p : CritPos) :
    direction k p = (byteAt k p.byteIdx).toNat.testBit p.bitIdx := by
  unfold direction
  split
  · rfl
  · rename_i h
    simp [byteAt_of_le (not_lt.mp h)]

theorem firstDiff_eq_none {s t : Bytes} : firstDiff s t = none ↔ s = t := by
  induction s generalizing t with
  | nil => cases t <;> simp [firstDiff]
  | cons a s ih =>
    cases t with
    | nil => simp [firstDiff]
    | cons b t =>
      by_cases h : a = b
      · simp [firstDiff, h, ih]
      · simp [firstDiff, h]

theorem firstDiff_spec {s t : Bytes} (hs : 0 ∉ s) (ht : 0 ∉ t) {i : ℕ} (h : firstDiff s t = some i) :
    (∀ j < i, byteAt s j = byteAt t j) ∧ byteAt s i ≠ byteAt t i := by
  induction s generalizing t i with
  | nil =>
    cases t with
    | nil => simp [firstDiff] at h
    | cons b t =>
      obtain rfl : 0 = i := by simpa [firstDiff] using h
      exact ⟨by simp, by simpa using fun hb : (0 : UInt8) = b => ht (hb ▸ List.mem_cons_self)⟩
  | cons a s ih =>
    cases t with
    | nil =>
      obtain rfl : 0 = i := by simpa [firstDiff] using h
      exact ⟨by simp, by simpa using fun ha : a = 0 => hs (ha ▸ List.mem_cons_self)⟩
    | cons b t =>
      by_cases hab : a = b
      · subst hab
        simp only [firstDiff, if_true, Option.map_eq_some_iff] at h
        obtain ⟨j, hj, rfl⟩ := h
        obtain ⟨hlt, hne⟩ := ih (fun hm => hs (List.mem_cons_of_mem _ hm))
          (fun hm => ht (List.mem_cons_of_mem _ hm)) hj
        refine ⟨fun n hn => ?_, by simpa using hne⟩
        cases n with
        | zero => simp
        | succ n => simpa using hlt n (by omega)
      · obtain rfl : 0 = i := by simpa [firstDiff, hab] using h
        exact ⟨by simp, by simpa using hab⟩

/-- The highest set bit of the difference separates the two bytes, and no higher one does. -/
theorem highBit_spec {a b : UInt8} (h : a ≠ b) :
    a.toNat.testBit (highBit (a ^^^ b)) ≠ b.toNat.testBit (highBit (a ^^^ b)) ∧
      ∀ j, highBit (a ^^^ b) < j → a.toNat.testBit j = b.toNat.testBit j := by
  have hx : a.toNat ^^^ b.toNat ≠ 0 := by
    rw [ne_eq, Nat.xor_eq_zero_iff]
    exact fun he => h (UInt8.toNat_inj.mp he)
  have hxor : (a ^^^ b).toNat = a.toNat ^^^ b.toNat := UInt8.toNat_xor a b
  constructor
  · have hb := Nat.testBit_log2 hx
    rw [Nat.testBit_xor] at hb
    simpa [highBit, hxor] using hb
  · intro j hj
    have hlt : a.toNat ^^^ b.toNat < 2 ^ j := by
      refine Nat.lt_of_lt_of_le (Nat.lt_log2_self) (Nat.pow_le_pow_right (by omega) ?_)
      rw [Nat.succ_le_iff, ← hxor]
      exact hj
    have hb := Nat.testBit_lt_two_pow hlt
    rw [Nat.testBit_xor] at hb
    simpa using hb

/-- The position computed from two different keys is the first one in which they differ. -/
theorem critPos_spec {s t : Bytes} (hs : 0 ∉ s) (ht : 0 ∉ t) {i : ℕ} (h : firstDiff s t = some i) :
    Agree direction ⟨i, highBit (byteAt s i ^^^ byteAt t i)⟩ t s ∧
      direction t ⟨i, highBit (byteAt s i ^^^ byteAt t i)⟩ ≠
        direction s ⟨i, highBit (byteAt s i ^^^ byteAt t i)⟩ := by
  obtain ⟨hlt, hne⟩ := firstDiff_spec hs ht h
  obtain ⟨hd, ha⟩ := highBit_spec hne
  constructor
  · intro q hq
    rw [direction_eq, direction_eq]
    rcases CritPos.lt_iff.mp hq with hq | ⟨he, hq⟩
    · rw [hlt _ hq]
    · rw [he]
      exact (ha _ hq).symm
  · rw [direction_eq, direction_eq]
    exact hd.symm

/-! ## The walks as walks of the general tree -/

theorem closest_eq (key : Bytes) (t : Dict α) :
    closest key t = match t.closest direction key with
      | some e => .ok e
      | none => .error .nullPointer := by
  induction t with
  | empty => rfl
  | leaf s v => rfl
  | node p a b iha ihb =>
    simp only [closest, Tree.closest]
    split
    · exact ihb
    · exact iha

theorem closest_ok {key : Bytes} {t : Dict α} {e : Bytes × α}
    (h : t.closest direction key = some e) : closest key t = .ok e := by
  rw [closest_eq, h]

theorem newNode_eq (key : Bytes) (v : α) (p : CritPos) (n : Dict α) :
    newNode key v p n = n.fork direction key v p := by
  simp only [newNode, Tree.fork, direction_eq]

theorem overwrite_ok {t : Dict α} (h : WellFormed direction t) (key : Bytes) (v : α) :
    overwrite key v t = .ok (t.assign direction key v) := by
  induction h with
  | leaf s w => rfl
  | node _ _ _ _ _ iha ihb =>
    simp only [overwrite, Tree.assign]
    split
    · simp [ihb]
    · simp [iha]

theorem insertWalk_ok {t : Dict α} (h : WellFormed direction t) (key : Bytes) (v : α) (p : CritPos) :
    insertWalk key v p t = .ok (t.graft direction key v p) := by
  induction h with
  | leaf s w => simp [insertWalk, Tree.graft, newNode_eq]
  | @node q a b _ _ _ _ _ iha ihb =>
    simp only [insertWalk, Tree.graft, newNode_eq, CritPos.lt_iff]
    by_cases h₁ : p.byteIdx < q.byteIdx
    · simp [h₁]
    · by_cases h₂ : q.byteIdx = p.byteIdx ∧ q.bitIdx < p.bitIdx
      · simp [h₂]
      · have h₃ : ¬ (p.byteIdx = q.byteIdx ∧ q.bitIdx < p.bitIdx) := fun h => h₂ ⟨h.1.symm, h.2⟩
        simp only [h₁, h₂, h₃, if_false, or_self]
        split
        · simp [ihb]
        · simp [iha]

theorem unlinkLeaf_ok {t : Dict α} (h : WellFormed direction t) (key : Bytes) :
    unlinkLeaf key t = .ok (t.prune direction key) := by
  induction h with
  | leaf s w => rfl
  | node _ _ _ _ _ iha ihb =>
    simp only [unlinkLeaf, Tree.prune]
    split_ifs <;> simp [iha, ihb]

theorem clear_ok {t : Dict α} (h : WellFormed direction t) :
    clear t = .ok (t.entries.map Prod.snd) := by
  induction h with
  | leaf s w => rfl
  | node _ _ _ _ _ iha ihb => simp [clear, iha, ihb]

/-! ## The invariant and the stored map -/

namespace DictT

def entries (d : DictT α) : List (Bytes × α) := d.dict.entries

/-- The finite map the dictionary stores. -/
def toMap (d : DictT α) : Finmap (fun _ : Bytes => α) := CritBitTree.toMap d.entries

structure Inv (d : DictT α) : Prop where
  valid : Valid direction d.dict
  nulFree : ∀ k ∈ d.dict.keys, 0 ∉ k
  size_eq : d.size = d.entries.length

theorem Inv.nodup {d : DictT α} (h : d.Inv) : (d.entries.map Prod.fst).Nodup := h.valid.keys_nodup

theorem Inv.lookup_iff {d : DictT α} (h : d.Inv) {k : Bytes} {v : α} :
    d.toMap.lookup k = some v ↔ (k, v) ∈ d.entries := lookup_toMap h.nodup k v

theorem Inv.card_keys {d : DictT α} (h : d.Inv) : d.toMap.keys.card = d.size := by
  rw [toMap, card_keys_toMap h.nodup, h.size_eq]

end DictT

@[simp] theorem dictCreate_toMap : (dictCreate : DictT α).toMap = ∅ := rfl

theorem dictCreate_inv : (dictCreate : DictT α).Inv where
  valid := valid_empty
  nulFree := by simp [dictCreate]
  size_eq := rfl

theorem dictSetFreecb_inv {d : DictT α} (h : d.Inv) : (dictSetFreecb d).Inv :=
  ⟨h.valid, h.nulFree, h.size_eq⟩

@[simp] theorem dictSetFreecb_toMap (d : DictT α) : (dictSetFreecb d).toMap = d.toMap := rfl

/-- The leaf that decides a lookup, in a dictionary that is not empty. -/
theorem exists_closest_lookup {d : DictT α} (h : d.Inv) (hw : WellFormed direction d.dict) (k : Bytes) :
    ∃ s v, d.dict.closest direction k = some (s, v) ∧ (s, v) ∈ d.entries ∧
      d.toMap.lookup k = if s = k then some v else none := by
  obtain ⟨s, v, hc⟩ := hw.exists_closest k
  refine ⟨s, v, hc, closest_mem hc, ?_⟩
  split
  · rename_i he
    subst he
    exact h.lookup_iff.mpr (closest_mem hc)
  · rename_i hne
    rw [Option.eq_none_iff_forall_ne_some]
    intro w hl
    have hc' := hw.closest_of_mem (h.lookup_iff.mp hl)
    rw [hc] at hc'
    exact hne (congrArg Prod.fst (Option.some.inj hc'))

theorem emptyNode_of_wellFormed {t : Dict α} (h : WellFormed direction t) : emptyNode t = false := by
  cases h <;> rfl

theorem dictGet_spec {d : DictT α} (h : d.Inv) (k : Bytes) :
    dictGet d k = .ok (d.toMap.lookup (cStr k)) := by
  rcases h.valid with he | hw
  · simp [dictGet, he, emptyNode, DictT.toMap, DictT.entries]
  · obtain ⟨s, v, hc, -, hl⟩ := exists_closest_lookup h hw (cStr k)
    simp [dictGet, emptyNode_of_wellFormed hw, closest_ok hc, hl]

theorem dictContains_spec {d : DictT α} (h : d.Inv) (k : Bytes) :
    dictContains d k = .ok (d.toMap.lookup (cStr k)).isSome := by
  simp [dictContains, dictGet_spec h]

theorem dictSet_spec {d : DictT α} (h : d.Inv) (k : Bytes) (v : α) :
    ∃ d' freed, dictSet d k (some v) = .ok (true, d', freed) ∧ d'.Inv ∧
      d'.toMap = d.toMap.insert (cStr k) v ∧ d'.freeCb = d.freeCb ∧
      freed = if d.freeCb then (d.toMap.lookup (cStr k)).toList else [] := by
  have hk := zero_notMem_cStr k
  rcases h.valid with he | hw
  · refine ⟨{ d with dict := .leaf (cStr k) v, size := d.size + 1 }, [],
      by simp [dictSet, he, emptyNode], ⟨(WellFormed.leaf _ _).valid, ?_, ?_⟩, ?_, rfl, ?_⟩
    · simpa using hk
    · simp [DictT.entries, h.size_eq, he]
    · exact toMap_insert (l := []) (r := []) (by simp) |>.trans (by simp [DictT.toMap, DictT.entries, he])
    · simp [DictT.toMap, DictT.entries, he]
  · obtain ⟨s, w, hc, hm, hl⟩ := exists_closest_lookup h hw (cStr k)
    cases hf : firstDiff s (cStr k) with
    | none =>
      obtain rfl := firstDiff_eq_none.mp hf
      obtain ⟨l, r, he, he'⟩ := assign_entries v hc
      have hn := h.nodup
      rw [DictT.entries, he] at hn
      refine ⟨{ d with dict := d.dict.assign direction (cStr k) v }, if d.freeCb then [w] else [],
        by simp [dictSet, emptyNode_of_wellFormed hw, closest_ok hc, hf, overwrite_ok hw],
        ⟨(hw.assign _ _).valid, ?_, ?_⟩, ?_, rfl, ?_⟩
      · simpa using h.nulFree
      · rw [h.size_eq, DictT.entries, DictT.entries, he, he']
        simp
      · rw [DictT.toMap, DictT.toMap, DictT.entries, DictT.entries, he, he']
        exact toMap_assign v hn
      · simp [hl]
    | some i =>
      have hne : s ≠ cStr k := fun he => by simp [firstDiff_eq_none.mpr he] at hf
      have hp := critPos_spec (h.nulFree s (Tree.mem_keys_of_mem hm)) hk hf
      obtain ⟨p, hpos⟩ : ∃ p : CritPos, ⟨i, highBit (byteAt s i ^^^ byteAt (cStr k) i)⟩ = p := ⟨_, rfl⟩
      rw [hpos] at hp
      obtain ⟨l, r, he, he'⟩ := hw.graft_entries (cStr k) v p
      have hg := hw.graft v ⟨hc, hp.1, hp.2⟩
      refine ⟨{ d with dict := d.dict.graft direction (cStr k) v p, size := d.size + 1 }, [],
        by simp [dictSet, emptyNode_of_wellFormed hw, closest_ok hc, hf, hpos, insertWalk_ok hw],
        ⟨hg.valid, ?_, ?_⟩, ?_, rfl, by simp [hl, hne]⟩
      · intro x hx
        rcases hw.mem_keys_graft.mp hx with rfl | hx
        · exact hk
        · exact h.nulFree x hx
      · rw [h.size_eq, DictT.entries, DictT.entries, he, he']
        simp
        omega
      · have hn := hg.keys_nodup
        rw [Tree.keys, he'] at hn
        rw [DictT.toMap, DictT.toMap, DictT.entries, DictT.entries, he, he']
        exact toMap_insert hn

theorem dictDel_spec {d : DictT α} (h : d.Inv) (k : Bytes) :
    ∃ d', dictDel d k = .ok (d.toMap.lookup (cStr k), d') ∧ d'.Inv ∧
      d'.toMap = d.toMap.erase (cStr k) ∧ d'.freeCb = d.freeCb ∧
      (d.toMap.lookup (cStr k) = none → d' = d) := by
  rcases h.valid with he | hw
  · have hn : d.toMap.lookup (cStr k) = none := by simp [DictT.toMap, DictT.entries, he]
    exact ⟨d, by simp [dictDel, he, emptyNode, hn], h, (erase_absent hn).symm, rfl, fun _ => rfl⟩
  · obtain ⟨s, w, hc, hm, hl⟩ := exists_closest_lookup h hw (cStr k)
    by_cases hs : s = cStr k
    · subst hs
      obtain ⟨l, r, he, he'⟩ := prune_entries hc
      have hn := h.nodup
      rw [DictT.entries, he] at hn
      refine ⟨{ d with dict := d.dict.prune direction (cStr k), size := d.size - 1 },
        by simp [dictDel, emptyNode_of_wellFormed hw, closest_ok hc, unlinkLeaf_ok hw, hl],
        ⟨hw.prune_valid _, fun x hx => h.nulFree x (mem_keys_of_mem_prune hx), ?_⟩, ?_, rfl,
        by simp [hl]⟩
      · rw [h.size_eq, DictT.entries, DictT.entries, he, he']
        simp
      · rw [DictT.toMap, DictT.toMap, DictT.entries, DictT.entries, he, he']
        exact toMap_erase hn
    · have hn : d.toMap.lookup (cStr k) = none := by simp [hl, hs]
      exact ⟨d, by simp [dictDel, emptyNode_of_wellFormed hw, closest_ok hc, hs, hn], h,
        (erase_absent hn).symm, rfl, fun _ => rfl⟩

theorem dictClear_spec {d : DictT α} (h : d.Inv) :
    ∃ d', dictClear d = .ok (d', if d.freeCb then d.entries.map Prod.snd else []) ∧ d'.Inv ∧
      d'.toMap = ∅ ∧ d'.freeCb = d.freeCb := by
  refine ⟨{ d with dict := .empty, size := 0 }, ?_, ⟨valid_empty, by simp, rfl⟩, rfl, rfl⟩
  rcases h.valid with he | hw
  · simp [dictClear, he, emptyNode, DictT.entries]
  · simp [dictClear, emptyNode_of_wellFormed hw, clear_ok hw, DictT.entries]

/-- Writing through the pointer of a stored key changes that key's value only. -/
theorem dictModify_spec {d : DictT α} (h : d.Inv) {k : Bytes} {w : α}
    (hl : d.toMap.lookup (cStr k) = some w) (v : α) :
    ∃ d', dictModify d k v = .ok d' ∧ d'.Inv ∧ d'.toMap = d.toMap.insert (cStr k) v ∧
      d'.freeCb = d.freeCb := by
  rcases h.valid with he | hw
  · simp [DictT.toMap, DictT.entries, he] at hl
  · have hc := hw.closest_of_mem (h.lookup_iff.mp hl)
    obtain ⟨l, r, he, he'⟩ := assign_entries v hc
    have hn := h.nodup
    rw [DictT.entries, he] at hn
    refine ⟨{ d with dict := d.dict.assign direction (cStr k) v },
      by simp [dictModify, overwrite_ok hw], ⟨(hw.assign _ _).valid, by simpa using h.nulFree, ?_⟩, ?_, rfl⟩
    · rw [h.size_eq, DictT.entries, DictT.entries, he, he']
      simp
    · rw [DictT.toMap, DictT.toMap, DictT.entries, DictT.entries, he, he']
      exact toMap_assign v hn

end RhinoRox
