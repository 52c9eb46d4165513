import RhinoRox.TrieCommands

/-!
# What happens to the items of a heap that is released

The callback that `createHeapqObject` registers takes an object, and `minheap_free` gives it the
address of a slot. The reference count that is then read and written is the upper half of the
score in the slot, and the objects of the items keep their references.
-/

namespace RhinoRox

open KeyedTotal

/-- What the argument of a free callback points to. -/
inductive Pointer where
  | object (addr : ℕ)
  | slot (i : ℕ)
  deriving DecidableEq, Repr

/-- The arguments of the callback in the loop of `minheap_free`. -/
def minheapFreeArgs {α : Type} (h : Minheap α) : List Pointer := (List.range h.len).map .slot

/-- `rr_obj_free_callback` on what it may be given while a heap is freed. -/
def heapFreeCallback (heap : Minheap HqItem) (refs : Refs) : Pointer → Exec Refs
  | .object a => decrRefCountWith pure refs a
  | .slot i =>
    match heap.array.elm[i]? with
    | none => throw .outOfBounds
    | some none => throw .uninitialised
    | some (some item) => if slotRefcount item = 1 then throw .wildPointer else pure refs

/-- The items of a heap in the order of their slots. -/
def Minheap.items (heap : Minheap HqItem) : List HqItem := (heap.array.elm.take heap.len).reduceOption

/-- The objects of all items, and only they, lose a reference, and they are what the callback gets. -/
structure ItemsReleased (heap : Minheap HqItem) (a : ℕ) (refs refs' : Refs) : Prop where
  applied : minheapFreeArgs heap = heap.items.map fun i => .object i.obj.addr
  dropped : ∀ b, references refs' b = references refs b - (if b = a then 1 else 0) -
    if objSharedIntegers ≤ b then ((heap.items.map fun i => i.obj.addr).count b : ℤ) else 0

/-- The ways in which a key loses its value: DEL, also before an overwriting SET, in both modes,
and the overwriting itself. -/
inductive Removal where
  | delSync
  | delAsync
  | overwrite (val : Robj)

def Removal.run (db : Keyspace) (key : StrObj) : Removal → Exec (Bool × Keyspace)
  | .delSync => rrDbDelSync db key
  | .delAsync => rrDbDelAsync db key
  | .overwrite val => rrDbAdd db key val

/-- The loop over the slots from `k` on, which hold `items`. -/
theorem foldlM_slots {heap : Minheap HqItem} (refs : Refs) {items : List HqItem} {k : ℕ}
    (hslots : ∀ j x, items[j]? = some x → heap.array.elm[k + j]? = some (some x)) :
    ((List.range' k items.length).map .slot).foldlM (heapFreeCallback heap) refs =
      (freeHeapqObject (items.map some) >>= fun _ => pure refs) := by
  induction items generalizing k with
  | nil => rfl
  | cons i items ih =>
    have hfirst : heap.array.elm[k]? = some (some i) := hslots 0 i rfl
    have hrest := ih (k := k + 1) fun j x hj => by
      have hnext := hslots (j + 1) x hj
      rwa [show k + (j + 1) = k + 1 + j by omega] at hnext
    rw [List.length_cons, List.range'_succ, List.map_cons, List.foldlM_cons, List.map_cons, freeHeapqObject,
      heapFreeCallback, hfirst]
    by_cases hone : slotRefcount i = 1
    · simp [hone]
    · simp [hone, hrest]

theorem Minheap.Inv.take_eq {heap : Minheap HqItem} (h : heap.Inv hqComparator) :
    heap.array.elm.take heap.len = heap.items.map some ∧ heap.items.length = heap.len := by
  obtain ⟨items, htake, -⟩ := h.exists_items
  have hitems : heap.items = items := by
    rw [Minheap.items, htake, List.reduceOption, List.filterMap_map]
    exact List.filterMap_some
  have hle : heap.len ≤ heap.array.elm.length := by
    have hlen := h.array.length
    have hlen' := h.len_le
    omega
  refine ⟨by rw [hitems, htake], ?_⟩
  rw [hitems, ← List.length_map some, ← htake, List.length_take, min_eq_left hle]

/-- `minheap_free` is the loop over the slots. -/
theorem freeObject_heapq {heap : Minheap HqItem} (h : heap.Inv hqComparator) (refs : Refs) :
    freeObject refs (.heapq heap) = (minheapFreeArgs heap).foldlM (heapFreeCallback heap) refs := by
  obtain ⟨htake, hlen⟩ := h.take_eq
  have hslots : ∀ j x, heap.items[j]? = some x → heap.array.elm[0 + j]? = some (some x) := by
    intro j x hj
    have hmap : (heap.array.elm.take heap.len)[j]? = some (some x) := by
      rw [htake, List.getElem?_map, hj]
      rfl
    rw [List.getElem?_take] at hmap
    rw [Nat.zero_add]
    split at hmap
    · exact hmap
    · cases hmap
  rw [freeObject, htake, minheapFreeArgs, ← hlen, List.range_eq_range', foldlM_slots refs hslots]

variable {db : Keyspace} {others : Multiset ℕ} {key : StrObj} {a : ℕ} {heap : Minheap HqItem}

/-- The last reference to a heap is the one of its key, so that the callback is called. -/
theorem decrRefCount_heapq (h : db.Inv others) (hl : db.dict.toMap.lookup key.key = some ⟨a, .heapq heap⟩) :
    references db.refs a = 1 ∧ decrRefCount db.refs ⟨a, .heapq heap⟩ =
      ((minheapFreeArgs heap).foldlM (heapFreeCallback heap) db.refs >>= fun refs => .ok (refs.erase a)) := by
  have hheld := Keyspace.held_eq_of_lookup hl
  obtain ⟨hpriv, hnot⟩ := h.sole (.inl ⟨_, hl⟩) rfl hheld
  change objSharedIntegers ≤ a at hpriv
  have hc : Counts db.refs (a ::ₘ ((ObjVal.heapq heap).held + (db.around key.key + others))) := by
    refine h.counts.congr ?_
    rw [hheld, Robj.held, Multiset.cons_add, Multiset.cons_add, add_assoc]
  constructor
  · rw [references, hc.lookup_of_mem hpriv (Multiset.mem_cons_self _ _), Multiset.count_cons_self,
      Multiset.count_eq_zero.mpr hnot]
    rfl
  · rw [decrRefCount, ← freeObject_heapq (h.stored _ _ hl)]
    rcases hc.decrWith fun refs => freeObject refs (.heapq heap) with ⟨hshared, -⟩ | ⟨-, hmem, -⟩ | ⟨-, -, hr⟩
    · exact absurd hpriv (by omega)
    · exact absurd hmem hnot
    · exact hr

/-- Each way takes the heap out of the dictionary and releases it on the spot. -/
theorem Removal.run_eq (h : db.Inv others) (hkey : sdsEncodedObject key.enc = true)
    (hl : db.dict.toMap.lookup key.key = some ⟨a, .heapq heap⟩) (way : Removal) :
    ∃ d, way.run db key = (decrRefCount db.refs ⟨a, .heapq heap⟩ >>= fun refs =>
      pure (true, { db with dict := d, refs := refs })) := by
  obtain ⟨d, hdel, -⟩ := dictDel_spec h.dict key.enc.bytes
  change dictDel db.dict key.enc.bytes = .ok (db.dict.toMap.lookup key.key, d) at hdel
  rw [hl] at hdel
  cases way with
  | delSync => exact ⟨d, by simp [run, rrDbDelSync, StrEnc.ptr_of_sds hkey, hdel]⟩
  | delAsync =>
    have heffort : ¬ getLazyfreeEffort (.heapq heap) > lazyfreeThreshold := by
      simp [getLazyfreeEffort, lazyfreeThreshold]
    exact ⟨d, by simp [run, rrDbDelAsync, StrEnc.ptr_of_sds hkey, hdel, heffort]⟩
  | overwrite val =>
    obtain ⟨d', freed, hset, -, -, -, hfreed⟩ := dictSet_spec h.dict key.enc.bytes val
    change freed = if db.dict.freeCb then (db.dict.toMap.lookup key.key).toList else [] at hfreed
    rw [hl, h.freeCb, if_pos rfl, Option.toList_some] at hfreed
    exact ⟨d', by simp [run, rrDbAdd, StrEnc.ptr_of_sds hkey, hset, hfreed, decrRefCounts]⟩

/-- A slot that looks like a last reference is freed, and otherwise nothing but the heap goes. -/
theorem Removal.run_spec (h : db.Inv others) (hkey : sdsEncodedObject key.enc = true)
    (hl : db.dict.toMap.lookup key.key = some ⟨a, .heapq heap⟩) (way : Removal) :
    ((∃ i ∈ heap.items, slotRefcount i = 1) → way.run db key = .error .wildPointer) ∧
    ((¬ ∃ i ∈ heap.items, slotRefcount i = 1) →
      ∃ db', way.run db key = .ok (true, db') ∧ db'.refs = db.refs.erase a) := by
  obtain ⟨htake, -⟩ := Minheap.Inv.take_eq (h.stored _ _ hl)
  obtain ⟨hbad, hgood⟩ := freeHeapqObject_spec heap.items
  have hdecr := (decrRefCount_heapq h hl).2
  rw [← freeObject_heapq (h.stored _ _ hl), freeObject, htake] at hdecr
  obtain ⟨d, hrun⟩ := way.run_eq h hkey hl
  rw [hrun, hdecr]
  constructor
  · intro hw
    rw [hbad hw]
    rfl
  · intro hw
    rw [hgood hw]
    exact ⟨{ db with dict := d, refs := db.refs.erase a }, rfl, rfl⟩

theorem references_erase (refs : Refs) {a : ℕ} (ha : references refs a = 1) (b : ℕ) :
    references (refs.erase a) b = references refs b - if b = a then 1 else 0 := by
  by_cases hb : b = a
  · rw [if_pos hb, hb, ha, references, Finmap.lookup_erase]
    rfl
  · rw [if_neg hb, references, Finmap.lookup_erase_ne hb, sub_zero, references]

/-- The references are right exactly if the release completes and there was none to drop. -/
theorem Removal.dropped_iff (h : db.Inv others) (hkey : sdsEncodedObject key.enc = true)
    (hl : db.dict.toMap.lookup key.key = some ⟨a, .heapq heap⟩) (way : Removal) :
    (∃ b db', way.run db key = .ok (b, db') ∧ ∀ x, references db'.refs x = references db.refs x -
        (if x = a then 1 else 0) -
        if objSharedIntegers ≤ x then ((heap.items.map fun i => i.obj.addr).count x : ℤ) else 0) ↔
      ∀ i ∈ heap.items, slotRefcount i ≠ 1 ∧ i.obj.addr < objSharedIntegers := by
  obtain ⟨hbad, hgood⟩ := way.run_spec h hkey hl
  have hone := (decrRefCount_heapq h hl).1
  constructor
  · rintro ⟨b, db', hrun, hdropped⟩ i hi
    have hw : ¬ ∃ i ∈ heap.items, slotRefcount i = 1 := by
      intro hw
      rw [hbad hw] at hrun
      cases hrun
    refine ⟨fun hi' => hw ⟨i, hi, hi'⟩, ?_⟩
    obtain ⟨db₁, hrun₁, hrefs⟩ := hgood hw
    cases hrun.symm.trans hrun₁
    by_contra hshared
    have hcount := hdropped i.obj.addr
    rw [hrefs, references_erase db.refs hone, if_pos (show objSharedIntegers ≤ i.obj.addr by omega)] at hcount
    have hpos : 0 < (heap.items.map fun i => i.obj.addr).count i.obj.addr :=
      List.count_pos_iff.mpr (List.mem_map_of_mem hi)
    omega
  · intro hall
    obtain ⟨db', hrun, hrefs⟩ := hgood fun ⟨i, hi, hi'⟩ => (hall i hi).1 hi'
    refine ⟨true, db', hrun, fun x => ?_⟩
    have hzero : (if objSharedIntegers ≤ x then ((heap.items.map fun i => i.obj.addr).count x : ℤ) else 0) = 0 := by
      split
      · rename_i hx
        rw [Nat.cast_eq_zero, List.count_eq_zero]
        intro hmem
        obtain ⟨i, hi, rfl⟩ := List.mem_map.mp hmem
        exact absurd (hall i hi).2 (by omega)
      · rfl
    rw [hzero, sub_zero, hrefs, references_erase db.refs hone]

theorem minheapFreeArgs_eq_iff (h : heap.Inv hqComparator) :
    (minheapFreeArgs heap = heap.items.map fun i => .object i.obj.addr) ↔ heap.len = 0 := by
  obtain ⟨-, hlen⟩ := h.take_eq
  rw [← hlen, minheapFreeArgs, ← hlen]
  cases heap.items with
  | nil => simp
  | cons i items => simp [List.range_succ_eq_map]

/-- The items of a heap are released with it exactly if there are none. -/
theorem Removal.released_iff (h : db.Inv others) (hkey : sdsEncodedObject key.enc = true)
    (hl : db.dict.toMap.lookup key.key = some ⟨a, .heapq heap⟩) (way : Removal) :
    (∃ b db', way.run db key = .ok (b, db') ∧ ItemsReleased heap a db.refs db'.refs) ↔ heap.len = 0 := by
  have hinv : heap.Inv hqComparator := h.stored _ _ hl
  constructor
  · rintro ⟨b, db', -, hreleased⟩
    exact (minheapFreeArgs_eq_iff hinv).mp hreleased.applied
  · intro hempty
    have hnil : heap.items = [] := List.length_eq_zero_iff.mp (hinv.take_eq.2.trans hempty)
    obtain ⟨b, db', hrun, hdropped⟩ := (way.dropped_iff h hkey hl).mpr fun i hi => by simp [hnil] at hi
    exact ⟨b, db', hrun, (minheapFreeArgs_eq_iff hinv).mpr hempty, hdropped⟩

/-- In every state that the clients can produce and for every way in which a key can go, the items
of its heap are released exactly if there are none. -/
theorem heap_items_released_iff {G : Type} [AddCommGroup G] [LinearOrder G] {s : Server} (hs : s.Reachable G)
    (hkey : sdsEncodedObject key.enc = true) (hl : s.db.dict.toMap.lookup key.key = some ⟨a, .heapq heap⟩)
    (way : Removal) :
    (∃ b db', way.run s.db key = .ok (b, db') ∧ ItemsReleased heap a s.db.refs db'.refs) ↔ heap.len = 0 := by
  obtain ⟨leaked, hdb⟩ := hs.inv.db
  exact way.released_iff hdb hkey hl

/-- Scores that are written as the digit zero. -/
def zeroScoreEnv : ServerEnv ℤ := { bumpServerEnv with strtod := fun s => (0, s.length, false, false) }

def queueKey : StrObj := ⟨0, .raw (ascii "q")⟩

/-- The number of items under the key. -/
def queueLen (s : Server) : Option ℕ :=
  match dictGet s.db.dict queueKey.enc.bytes with
  | .ok (some ⟨_, .heapq heap⟩) => some heap.len
  | _ => none

theorem exists_queue {s : Server} (h : s.Inv) {n : ℕ} (hlen : queueLen s = some n) :
    ∃ a heap, s.db.dict.toMap.lookup queueKey.key = some ⟨a, .heapq heap⟩ ∧ heap.len = n := by
  obtain ⟨leaked, hdb⟩ := h.db
  rw [queueLen, dictGet_spec hdb.dict] at hlen
  rw [StrObj.key]
  rcases hl : s.db.dict.toMap.lookup (cStr queueKey.enc.bytes) with _ | ⟨a, val⟩
  · rw [hl] at hlen
    cases hlen
  · rw [hl] at hlen
    cases val with
    | heapq heap => exact ⟨a, heap, rfl, Option.some.inj hlen⟩
    | _ => cases hlen

/-- The only item has been popped. -/
theorem heap_items_released_iff_popped :
    ∃ (s : Server) (a : ℕ) (heap : Minheap HqItem), s.Reachable ℤ ∧
      s.db.dict.toMap.lookup queueKey.key = some ⟨a, .heapq heap⟩ ∧
      ∃ b db', Removal.delAsync.run s.db queueKey = .ok (b, db') ∧ ItemsReleased heap a s.db.refs db'.refs := by
  have hcheck : (Server.session zeroScoreEnv [[textArgument "QPUSH", textArgument "q", textArgument "0",
      textArgument "x"], [textArgument "QPOP", textArgument "q"]]).toOption.any (fun s => queueLen s = some 0) =
        true := by decide +kernel
  obtain ⟨s, hrun, hlen⟩ := Exec.exists_of_any hcheck
  have hs := Server.session_reachable zeroScoreEnv hrun
  obtain ⟨a, heap, hl, hempty⟩ := exists_queue hs.inv (of_decide_eq_true hlen)
  exact ⟨s, a, heap, hs, hl, (heap_items_released_iff hs rfl hl .delAsync).mpr hempty⟩

/-- A heap with one item, whose object keeps its reference. -/
theorem heap_item_kept :
    ∃ (s : Server) (a : ℕ) (heap : Minheap HqItem), s.Reachable ℤ ∧
      s.db.dict.toMap.lookup queueKey.key = some ⟨a, .heapq heap⟩ ∧ heap.len = 1 ∧
      ¬ ∃ b db', Removal.delSync.run s.db queueKey = .ok (b, db') ∧ ItemsReleased heap a s.db.refs db'.refs := by
  have hcheck : (Server.session zeroScoreEnv [[textArgument "QPUSH", textArgument "q", textArgument "0",
      textArgument "x"]]).toOption.any (fun s => queueLen s = some 1) = true := by decide +kernel
  obtain ⟨s, hrun, hlen⟩ := Exec.exists_of_any hcheck
  have hs := Server.session_reachable zeroScoreEnv hrun
  obtain ⟨a, heap, hl, hone⟩ := exists_queue hs.inv (of_decide_eq_true hlen)
  obtain ⟨leaked, hdb⟩ := hs.inv.db
  refine ⟨s, a, heap, hs, hl, hone, fun hreleased => ?_⟩
  have hempty := (Removal.delSync.released_iff hdb rfl hl).mp hreleased
  rw [hempty] at hone
  cases hone

end RhinoRox
