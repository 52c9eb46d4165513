import RhinoRox.Keyspace
import RhinoRox.KeyedTotal
import RhinoRox.ReferenceCounts
import RhinoRox.FtsDocuments
import RhinoRox.MinheapInvariant
import Mathlib.Tactic.Abel

/-!
# The invariant of the keyspace

Every stored object keeps the invariant of its type, and the reference counts agree with
the references that the keyspace, its collections and the queue of the background thread
hold, together with those held elsewhere. References can be lost when an object is
released, but never gained.
-/

namespace RhinoRox

open KeyedTotal

/-! ## References held by objects -/

/-- `hq_cmp` as a comparison function. -/
def hqComparator : Comparator HqItem where
  comp := hqCmp
  swap x y := by
    unfold hqCmp
    split_ifs <;> omega
  trans x y z := by
    unfold hqCmp
    split_ifs <;> omega

def FtsDoc.refs (d : FtsDoc) : Multiset ℕ := addrs [d.title, d.doc]

noncomputable def Fts.held (fts : Fts) : Multiset ℕ := total FtsDoc.refs fts.find

/-- The references that the contents of an object hold. -/
noncomputable def ObjVal.held : ObjVal → Multiset ℕ
  | .string _ => 0
  | .hash dict => mapTotal (fun o => {o.addr}) dict.toMap
  | .heapq heap => heap.toMultiset.map fun i => i.obj.addr
  | .fts f => f.held

/-- The reference to an object and those it holds. -/
noncomputable def Robj.held (o : Robj) : Multiset ℕ := o.addr ::ₘ o.val.held

/-- The invariant of the contents of an object. -/
def ObjVal.Inv : ObjVal → Prop
  | .string _ => True
  | .hash dict => dict.Inv ∧ dict.freeCb = true
  | .heapq heap => heap.Inv hqComparator
  | .fts f => f.Inv

theorem createHashObject_inv : createHashObject.Inv := ⟨dictSetFreecb_inv dictCreate_inv, rfl⟩

theorem createHeapqObject_inv : createHeapqObject.Inv := minheapCreate_inv hqComparator 8

theorem createFTSObject_inv : createFTSObject.Inv := ftsCreate_inv

/-! ## Releasing an object -/

theorem DictT.Inv.held_eq {d : DictT StrObj} (h : d.Inv) :
    (ObjVal.hash d).held = addrs (d.entries.map Prod.snd) := by
  rw [ObjVal.held, DictT.toMap, mapTotal_toMap h.nodup]
  induction d.entries with
  | nil => rfl
  | cons e l ih =>
    rw [List.map_cons, List.sum_cons, ih, List.map_cons, addrs_cons, Multiset.singleton_add]

theorem Fts.finiteDomain_find (fts : Fts) : FiniteDomain fts.find := by
  refine (finiteDomain_lookup fts.docs.toMap).subset fun t ht => ?_
  obtain ⟨d, hd⟩ := Option.isSome_iff_exists.mp ht
  obtain ⟨a, ha, -⟩ := Option.bind_eq_some_iff.mp hd
  simp [ha]

theorem Fts.held_eq_mapTotal (fts : Fts) :
    fts.held = mapTotal (fun a => part FtsDoc.refs (fts.mem.lookup a)) fts.docs.toMap := by
  refine finsum_congr fun t => ?_
  change part _ ((fts.docs.toMap.lookup t).bind _) = part _ (fts.docs.toMap.lookup t)
  cases fts.docs.toMap.lookup t <;> rfl

/-- The calls that release documents. -/
def dropLog (ds : List FtsDoc) : List RefOp := ds.flatMap fun d => [.decr d.title, .decr d.doc]

theorem Counts.dropLog {refs : Refs} {m : Multiset ℕ} {ds : List FtsDoc}
    (h : Counts refs ((ds.map FtsDoc.refs).sum + m)) :
    ∃ refs', applyRefOps refs (dropLog ds) = .ok refs' ∧ Counts refs' m := by
  induction ds generalizing refs with
  | nil => exact ⟨refs, rfl, by simpa using h⟩
  | cons d ds ih =>
    have h' : Counts refs (d.title.addr ::ₘ d.doc.addr ::ₘ ((ds.map FtsDoc.refs).sum + m)) :=
      h.congr (by simp [FtsDoc.refs])
    obtain ⟨refs₁, hr₁, h₁⟩ := h'.decr
    obtain ⟨refs₂, hr₂, h₂⟩ := h₁.decr
    obtain ⟨refs₃, hr₃, h₃⟩ := ih h₂
    rw [RhinoRox.dropLog] at hr₃
    exact ⟨refs₃, by simp [RhinoRox.dropLog, applyRefOps, hr₁, hr₂, hr₃], h₃⟩

theorem ftsDocFreeAll_log {fts : Fts} {docs : List ℕ} (hn : docs.Nodup)
    (hm : ∀ a ∈ docs, (fts.mem.lookup a).isSome) :
    ∃ fts', ftsDocFreeAll fts docs = .ok (fts', dropLog (docs.filterMap fts.mem.lookup)) := by
  induction docs generalizing fts with
  | nil => exact ⟨fts, rfl⟩
  | cons a docs ih =>
    obtain ⟨d, hd⟩ := Option.isSome_iff_exists.mp (hm a List.mem_cons_self)
    obtain ⟨ha, hn'⟩ := List.nodup_cons.mp hn
    have hkeep : ∀ b ∈ docs, (fts.mem.erase a).lookup b = fts.mem.lookup b := fun b hb =>
      Finmap.lookup_erase_ne fun he => ha (he ▸ hb)
    have hm' : ∀ b ∈ docs, ((Fts.mk fts.docs fts.index fts.len (fts.mem.erase a)).mem.lookup b).isSome := by
      intro b hb
      rw [hkeep b hb]
      exact hm b (List.mem_cons_of_mem a hb)
    obtain ⟨fts', hr⟩ := ih hn' hm'
    refine ⟨fts', ?_⟩
    rw [List.filterMap_congr hkeep] at hr
    simp [ftsDocFreeAll, ftsDocFree_ok hd, hr, hd, dropLog]

theorem Fts.Inv.nodup_addresses {fts : Fts} (h : fts.Inv) : (fts.docs.entries.map Prod.snd).Nodup := by
  have hkey : ∀ e ∈ fts.docs.entries, ∃ d, fts.mem.lookup e.2 = some d ∧ d.key = e.1 := fun e he =>
    h.mem_of_docs e.1 e.2 (h.docs.lookup_iff.mpr he)
  refine List.Nodup.map_on ?_ (List.Nodup.of_map _ h.docs.nodup)
  intro e he e' he' heq
  obtain ⟨d, hd, hk⟩ := hkey e he
  obtain ⟨d', hd', hk'⟩ := hkey e' he'
  rw [heq, hd'] at hd
  obtain rfl := Option.some.inj hd
  exact Prod.ext (hk.symm.trans hk') heq

theorem Fts.Inv.held_eq {fts : Fts} (h : fts.Inv) :
    fts.held = (((fts.docs.entries.map Prod.snd).filterMap fts.mem.lookup).map FtsDoc.refs).sum := by
  have hlive : ∀ e ∈ fts.docs.entries, ∃ d, fts.mem.lookup e.2 = some d := fun e he =>
    (h.mem_of_docs e.1 e.2 (h.docs.lookup_iff.mpr he)).imp fun _ hd => hd.1
  rw [fts.held_eq_mapTotal, DictT.toMap, mapTotal_toMap h.docs.nodup]
  generalize fts.docs.entries = l at hlive ⊢
  induction l with
  | nil => rfl
  | cons e l ih =>
    obtain ⟨d, hd⟩ := hlive e List.mem_cons_self
    rw [List.map_cons, List.sum_cons, ih fun e' he' => hlive e' (List.mem_cons_of_mem e he'), List.map_cons,
      List.filterMap_cons, hd, part_some, List.map_cons, List.sum_cons]

/-- A heap with a slot that `minheap_free` frees although it is no allocation. -/
def ObjVal.Wild : ObjVal → Prop
  | .heapq heap => ∃ i ∈ heap.toMultiset, slotRefcount i = 1
  | _ => False

def ObjVal.isHeapq : ObjVal → Bool
  | .heapq _ => true
  | _ => false

def ObjVal.isCollection : ObjVal → Bool
  | .string _ => false
  | _ => true

theorem freeHeapqObject_spec (items : List HqItem) :
    ((∃ i ∈ items, slotRefcount i = 1) → freeHeapqObject (items.map some) = .error .wildPointer) ∧
    ((¬ ∃ i ∈ items, slotRefcount i = 1) → freeHeapqObject (items.map some) = .ok ()) := by
  induction items with
  | nil => exact ⟨by simp, fun _ => rfl⟩
  | cons i items ih =>
    rw [List.map_cons, freeHeapqObject]
    by_cases hi : slotRefcount i = 1
    · rw [if_pos hi]
      exact ⟨fun _ => rfl, fun hno => absurd ⟨i, List.mem_cons_self, hi⟩ hno⟩
    · rw [if_neg hi]
      constructor
      · rintro ⟨j, hj, hone⟩
        rcases List.mem_cons.mp hj with rfl | hj
        · exact absurd hone hi
        · exact ih.1 ⟨j, hj, hone⟩
      · rintro hno
        exact ih.2 fun ⟨j, hj, hone⟩ => hno ⟨j, List.mem_cons_of_mem i hj, hone⟩

/-- The slots of a heap that are in use. -/
theorem Minheap.Inv.exists_items {α : Type} {c : Comparator α} {heap : Minheap α} (h : heap.Inv c) :
    ∃ items : List α, heap.array.elm.take heap.len = items.map some ∧ heap.toMultiset = items := by
  have hsome : ∀ x ∈ heap.array.elm.take heap.len, ∃ y, x = some y := by
    intro x hx
    obtain ⟨i, hi, rfl⟩ := List.getElem_of_mem hx
    rw [List.length_take] at hi
    have hle := h.len_le
    obtain ⟨y, hy⟩ := h.array.filled i (by omega)
    refine ⟨y, ?_⟩
    rw [List.getElem_take]
    exact Option.some.inj ((List.getElem?_eq_getElem _).symm.trans hy)
  have hmap : ∀ l : List (Option α), (∀ x ∈ l, ∃ y, x = some y) → l = l.reduceOption.map some := by
    intro l hl
    induction l with
    | nil => rfl
    | cons x l ih =>
      obtain ⟨y, rfl⟩ := hl x List.mem_cons_self
      rw [List.reduceOption_cons_of_some, List.map_cons, ← ih fun z hz => hl z (List.mem_cons_of_mem _ hz)]
  exact ⟨(heap.array.elm.take heap.len).reduceOption, hmap _ hsome, rfl⟩

/-- `fts_free` drops the title and the text of every document. -/
theorem Fts.Inv.ftsFree {fts : Fts} (h : fts.Inv) :
    ftsFree fts = .ok (dropLog ((fts.docs.entries.map Prod.snd).filterMap fts.mem.lookup)) := by
  obtain ⟨d', hr, -⟩ := dictClear_spec h.docs
  obtain ⟨fts', hf⟩ := ftsDocFreeAll_log h.nodup_addresses fun a ha => by
    obtain ⟨e, he, rfl⟩ := List.mem_map.mp ha
    obtain ⟨d, hd, -⟩ := h.mem_of_docs e.1 e.2 (h.docs.lookup_iff.mpr he)
    rw [hd]
    rfl
  simp only [RhinoRox.ftsFree, dictFree, hr, h.freeCb, if_true, Exec.ok_bind, Exec.pure_eq, hf]

/-- The release of a string, a trie or a document set drops all references of its contents;
a heap loses them, or the release follows a wild pointer. -/
theorem freeObject_spec {refs : Refs} {m : Multiset ℕ} {val : ObjVal} (hv : val.Inv)
    (h : Counts refs (val.held + m)) :
    (val.Wild → freeObject refs val = .error .wildPointer) ∧
    (¬ val.Wild → ∃ refs' leaked, freeObject refs val = .ok refs' ∧ leaked ≤ val.held ∧
      (val.isHeapq = false → leaked = 0) ∧ Counts refs' (m + leaked)) := by
  cases val with
  | string enc => exact ⟨False.elim, fun _ => ⟨refs, 0, rfl, Multiset.zero_le _, fun _ => rfl, h.congr (by simp [ObjVal.held])⟩⟩
  | hash dict =>
    obtain ⟨hd, hcb⟩ := hv
    obtain ⟨d', hr, -⟩ := dictClear_spec hd
    rw [hd.held_eq] at h
    obtain ⟨refs₁, hr₁, h₁⟩ := h.decrs
    refine ⟨False.elim, fun _ => ⟨refs₁, 0, ?_, Multiset.zero_le _, fun _ => rfl, h₁.congr (by simp)⟩⟩
    simp [freeObject, dictFree, hr, hcb, hr₁]
  | heapq heap =>
    obtain ⟨items, htake, hm⟩ := Minheap.Inv.exists_items hv
    obtain ⟨hbad, hgood⟩ := freeHeapqObject_spec items
    have hwild : (ObjVal.heapq heap).Wild ↔ ∃ i ∈ items, slotRefcount i = 1 := by
      rw [ObjVal.Wild, hm]
      rfl
    rw [hwild]
    refine ⟨fun hw => ?_, fun hw => ⟨refs, (ObjVal.heapq heap).held, ?_, le_rfl, Bool.noConfusion, h.congr (by abel)⟩⟩
    · rw [freeObject, htake, hbad hw]
      rfl
    · rw [freeObject, htake, hgood hw]
      rfl
  | fts f =>
    rw [ObjVal.held, Fts.Inv.held_eq hv] at h
    obtain ⟨refs₁, hr₁, h₁⟩ := h.dropLog
    refine ⟨False.elim, fun _ => ⟨refs₁, 0, ?_, Multiset.zero_le _, fun _ => rfl, h₁.congr (by simp)⟩⟩
    simp only [freeObject, Fts.Inv.ftsFree hv, Exec.ok_bind, hr₁]

/-- Releasing an object. A collection is referred to by one slot only, so that its contents
are released with it. -/
theorem decrRefCount_spec {refs : Refs} {m : Multiset ℕ} {o : Robj} (hv : o.val.Inv)
    (h : Counts refs (o.held + m))
    (hsole : o.val.isCollection → objSharedIntegers ≤ o.addr ∧ o.addr ∉ o.val.held + m) :
    (o.val.Wild → decrRefCount refs o = .error .wildPointer) ∧
    (¬ o.val.Wild → ∃ refs' leaked, decrRefCount refs o = .ok refs' ∧ leaked ≤ o.val.held ∧
      (o.val.isHeapq = false → leaked = 0) ∧ Counts refs' (m + leaked)) := by
  have hc : Counts refs (o.addr ::ₘ (o.val.held + m)) := h.congr (Multiset.cons_add _ _ _)
  have hstring : o.val.isCollection = false → ¬ o.val.Wild ∧ o.val.held = 0 := by
    intro hs
    cases hval : o.val with
    | string enc => exact ⟨nofun, rfl⟩
    | _ => rw [hval] at hs; cases hs
  rw [decrRefCount]
  obtain ⟨ha, hr⟩ | ⟨ha, hm, hr⟩ | ⟨-, hm, hr⟩ := hc.decrWith fun refs => freeObject refs o.val
  · have hs : o.val.isCollection = false := by
      by_contra hcoll
      have hle := (hsole (by simpa using hcoll)).1
      omega
    obtain ⟨hw, hzero⟩ := hstring hs
    rw [hr]
    refine ⟨fun hw' => absurd hw' hw, fun _ => ⟨refs, 0, rfl, Multiset.zero_le _, fun _ => rfl, ?_⟩⟩
    exact ((Counts.cons_shared ha).mp hc).congr (by rw [hzero, zero_add, add_zero])
  · have hs : o.val.isCollection = false := by
      by_contra hcoll
      exact (hsole (by simpa using hcoll)).2 hm
    obtain ⟨hw, hzero⟩ := hstring hs
    rw [hr]
    refine ⟨fun hw' => absurd hw' hw, fun _ => ⟨_, 0, rfl, Multiset.zero_le _, fun _ => rfl, ?_⟩⟩
    exact (hc.drop ha hm).congr (by rw [hzero, zero_add, add_zero])
  · obtain ⟨hbad, hgood⟩ := freeObject_spec (m := o.addr ::ₘ m) hv (hc.congr (by simp))
    rw [hr]
    refine ⟨fun hw => by rw [hbad hw]; rfl, fun hw => ?_⟩
    obtain ⟨refs₁, leaked, hfree, hle, hzero, hc₁⟩ := hgood hw
    refine ⟨refs₁.erase o.addr, leaked, by rw [hfree]; rfl, hle, hzero, ?_⟩
    refine Counts.erase (hc₁.congr (Multiset.cons_add _ _ _)) fun hmem => hm ?_
    rcases Multiset.mem_add.mp hmem with hmem | hmem
    · exact Multiset.mem_add.mpr (Or.inr hmem)
    · exact Multiset.mem_add.mpr (Or.inl (Multiset.mem_of_le hle hmem))

/-! ## The database -/

namespace Keyspace

/-- The references held by the queue of the background thread. -/
noncomputable def queueHeld (db : Keyspace) : Multiset ℕ := (db.tasks.map Robj.held).sum

noncomputable def held (db : Keyspace) : Multiset ℕ := mapTotal Robj.held db.dict.toMap + db.queueHeld

/-- The references held outside the value of a key. -/
noncomputable def around (db : Keyspace) (k : Bytes) : Multiset ℕ :=
  mapRest Robj.held db.dict.toMap k + db.queueHeld

theorem held_eq (db : Keyspace) (k : Bytes) :
    db.held = part Robj.held (db.dict.toMap.lookup k) + db.around k := by
  rw [held, around, mapTotal_eq Robj.held _ k, add_assoc]

theorem held_eq_of_lookup {db : Keyspace} {k : Bytes} {o : Robj} (hl : db.dict.toMap.lookup k = some o) :
    db.held = o.held + db.around k := by
  rw [held_eq db k, hl, part_some]

/-- The objects of the keyspace and of the queue. -/
def Holds (db : Keyspace) (o : Robj) : Prop := (∃ k, db.dict.toMap.lookup k = some o) ∨ o ∈ db.tasks

/-- The addresses of the collections. -/
def owners (db : Keyspace) : Set ℕ := {a | ∃ o, db.Holds o ∧ o.val.isCollection = true ∧ o.addr = a}

/-- No heap is stored. -/
def NoHeapq (db : Keyspace) : Prop := ∀ o, db.Holds o → o.val.isHeapq = false

/-- The invariant, with the references that are held outside of the keyspace. A collection is
referred to by one slot only. -/
structure Inv (db : Keyspace) (others : Multiset ℕ) : Prop where
  dict : db.dict.Inv
  freeCb : db.dict.freeCb = true
  stored : ∀ k o, db.dict.toMap.lookup k = some o → o.val.Inv
  queued : ∀ o ∈ db.tasks, o.val.Inv
  counts : Counts db.refs (db.held + others)
  once : ∀ a ∈ db.owners, objSharedIntegers ≤ a ∧ db.held.count a = 1
  apart : ∀ a ∈ others, a ∉ db.owners

theorem mem_queueHeld {db : Keyspace} {o : Robj} (h : o ∈ db.tasks) {a : ℕ} (ha : a ∈ o.held) :
    a ∈ db.queueHeld := by
  rw [queueHeld]
  exact Multiset.mem_of_le (List.single_le_sum (fun _ _ => Multiset.zero_le _) _ (List.mem_map_of_mem h)) ha

theorem addr_mem_held (o : Robj) : o.addr ∈ o.held := Multiset.mem_cons_self _ _

theorem Holds.mem_held {db : Keyspace} {o : Robj} (h : db.Holds o) : o.addr ∈ db.held := by
  rcases h with ⟨k, hl⟩ | h
  · exact Multiset.mem_add.mpr (.inl (mem_mapTotal.mpr ⟨k, o, hl, addr_mem_held o⟩))
  · exact Multiset.mem_add.mpr (.inr (mem_queueHeld h (addr_mem_held o)))

theorem mem_held_of_owners {db : Keyspace} {a : ℕ} (h : a ∈ db.owners) : a ∈ db.held := by
  obtain ⟨o, ho, -, rfl⟩ := h
  exact ho.mem_held

/-- An object that is stored under another key, or queued. -/
theorem mem_around {db : Keyspace} {j k : Bytes} {o : Robj} (hj : j ≠ k)
    (hl : db.dict.toMap.lookup j = some o) : o.addr ∈ db.around k := by
  rw [around, ← mapTotal_erase]
  refine Multiset.mem_add.mpr (.inl (mem_mapTotal.mpr ⟨j, o, ?_, addr_mem_held o⟩))
  rw [Finmap.lookup_erase_ne hj]
  exact hl

/-- After a change at one key. -/
theorem holds_insert {db : Keyspace} {d : DictT Robj} {refs : Refs} {k : Bytes} {val o : Robj}
    (hm : d.toMap = db.dict.toMap.insert k val) (h : Holds { db with dict := d, refs := refs } o) :
    o = val ∨ db.Holds o ∧ o.addr ∈ db.around k := by
  rcases h with ⟨j, hl⟩ | h
  · change d.toMap.lookup j = some o at hl
    by_cases hj : j = k
    · rw [hm, hj, Finmap.lookup_insert] at hl
      exact .inl (Option.some.inj hl).symm
    · rw [hm, Finmap.lookup_insert_of_ne _ hj] at hl
      exact .inr ⟨.inl ⟨j, hl⟩, mem_around hj hl⟩
  · exact .inr ⟨.inr h, Multiset.mem_add.mpr (.inr (mem_queueHeld h (addr_mem_held o)))⟩

theorem holds_erase {db : Keyspace} {d : DictT Robj} {k : Bytes} {o : Robj}
    (hm : d.toMap = db.dict.toMap.erase k) (h : Holds { db with dict := d } o) : db.Holds o := by
  rcases h with ⟨j, hl⟩ | h
  · change d.toMap.lookup j = some o at hl
    by_cases hj : j = k
    · rw [hm, hj, Finmap.lookup_erase] at hl
      cases hl
    · rw [hm, Finmap.lookup_erase_ne hj] at hl
      exact .inl ⟨j, hl⟩
  · exact .inr h

theorem owners_subset {db db' : Keyspace} (h : ∀ o, db'.Holds o → db.Holds o) : db'.owners ⊆ db.owners := by
  rintro a ⟨o, ho, hcoll, rfl⟩
  exact ⟨o, h o ho, hcoll, rfl⟩

end Keyspace

theorem rrDbCreate_inv : rrDbCreate.Inv 0 where
  dict := dictSetFreecb_inv dictCreate_inv
  freeCb := rfl
  stored := by simp [rrDbCreate]
  queued := by simp [rrDbCreate]
  counts := fun a => by simp [rrDbCreate, Keyspace.held, Keyspace.queueHeld]
  once := by
    rintro a ⟨o, ⟨k, hl⟩ | ho, -⟩
    · simp [rrDbCreate] at hl
    · cases ho
  apart := by simp

section Database
variable {db db' : Keyspace} {others : Multiset ℕ} {key : StrObj}

theorem Keyspace.Inv.congr (h : db.Inv others) {others' : Multiset ℕ} (he : others = others') :
    db.Inv others' := he ▸ h

theorem Keyspace.Inv.val_inv (h : db.Inv others) {o : Robj} (ho : db.Holds o) : o.val.Inv := by
  rcases ho with ⟨k, hl⟩ | ho
  · exact h.stored k o hl
  · exact h.queued o ho

/-- New counts for the same contents. -/
theorem Keyspace.Inv.withRefs (h : db.Inv others) {refs : Refs} {others' : Multiset ℕ}
    (hc : Counts refs (db.held + others')) (hapart : ∀ a ∈ others', a ∉ db.owners) :
    ({ db with refs := refs } : Keyspace).Inv others' :=
  ⟨h.dict, h.freeCb, h.stored, h.queued, hc, h.once, hapart⟩

theorem Keyspace.Inv.mem_held (h : db.Inv others) {k : Bytes} {o : Robj}
    (hl : db.dict.toMap.lookup k = some o) {a : ℕ} (ha : a ∈ o.held) : ∃ n, refcount db.refs a = .ok n := by
  refine h.counts.live ?_
  rw [db.held_eq k, hl, part_some]
  simp [ha]

theorem rrDbLookup_spec (h : db.Inv others) (hkey : sdsEncodedObject key.enc = true) :
    rrDbLookup db key = .ok (db.dict.toMap.lookup key.key) := by
  simp only [rrDbLookup, StrEnc.ptr_of_sds hkey, Exec.ok_bind, dictGet_spec h.dict]
  change _ = Except.ok (db.dict.toMap.lookup (cStr key.enc.bytes))
  rcases hl : db.dict.toMap.lookup (cStr key.enc.bytes) with _ | o
  · rfl
  · obtain ⟨n, hn⟩ := h.mem_held hl (a := o.addr) (by simp [Robj.held])
    simp [hn]

/-- What a stored object refers to is no collection. -/
theorem Keyspace.Inv.apart_contents (h : db.Inv others) {k : Bytes} {o : Robj}
    (hl : db.dict.toMap.lookup k = some o) {a : ℕ} (ha : a ∈ o.val.held) : a ∉ db.owners := by
  intro howner
  have hcount := (h.once a howner).2
  obtain ⟨o', ho', -, rfl⟩ := howner
  have hself : o'.addr ∈ o.addr ::ₘ db.around k := by
    rcases ho' with ⟨j, hj⟩ | ho'
    · by_cases hjk : j = k
      · rw [hjk, hl] at hj
        rw [Option.some.inj hj]
        exact Multiset.mem_cons_self _ _
      · exact Multiset.mem_cons_of_mem (Keyspace.mem_around hjk hj)
    · exact Multiset.mem_cons_of_mem
        (Multiset.mem_add.mpr (.inr (Keyspace.mem_queueHeld ho' (Keyspace.addr_mem_held o'))))
  have hheld : db.held = (o.addr ::ₘ db.around k) + o.val.held := by
    rw [Keyspace.held_eq_of_lookup hl, Robj.held, Multiset.cons_add, Multiset.cons_add, add_comm]
  rw [hheld, Multiset.count_add] at hcount
  have h₁ := Multiset.one_le_count_iff_mem.mpr hself
  have h₂ := Multiset.one_le_count_iff_mem.mpr ha
  omega

theorem stored_insert {m m' : Finmap fun _ : Bytes => Robj} {k : Bytes} {val : Robj}
    (h : ∀ k o, m.lookup k = some o → o.val.Inv) (hval : val.val.Inv) (hm : m' = m.insert k val) :
    ∀ k o, m'.lookup k = some o → o.val.Inv := by
  intro j o hl
  by_cases hj : j = k
  · rw [hj, hm, Finmap.lookup_insert] at hl
    obtain rfl := Option.some.inj hl
    exact hval
  · rw [hm, Finmap.lookup_insert_of_ne _ hj] at hl
    exact h j o hl

theorem Keyspace.held_insert {d : DictT Robj} {refs : Refs} {k : Bytes} {val : Robj}
    (hm : d.toMap = db.dict.toMap.insert k val) :
    Keyspace.held { db with dict := d, refs := refs } = val.held + db.around k := by
  rw [Keyspace.held, hm, mapTotal_insert, Keyspace.around, add_assoc]
  rfl

theorem Keyspace.held_erase {d : DictT Robj} {k : Bytes} (hm : d.toMap = db.dict.toMap.erase k) :
    Keyspace.held { db with dict := d } = db.around k := by
  rw [Keyspace.held, hm, mapTotal_erase]
  rfl

/-- A key that was free gets an object without contents: a string, or a new collection. -/
theorem Keyspace.Inv.insert (h : db.Inv others) {k : Bytes} (hfree : db.dict.toMap.lookup k = none) {o : Robj}
    (ho : o.val.Inv) (hempty : o.val.held = 0) {d : DictT Robj} (hi : d.Inv) (hcb : d.freeCb = db.dict.freeCb)
    (hm : d.toMap = db.dict.toMap.insert k o) {refs : Refs} {others' : Multiset ℕ}
    (hc : Counts refs (o.addr ::ₘ (db.held + others'))) (hnot : o.addr ∉ db.owners)
    (hnew : o.val.isCollection = true → objSharedIntegers ≤ o.addr ∧ o.addr ∉ db.held + others')
    (hapart : ∀ a ∈ others', a ∉ db.owners) :
    ({ db with dict := d, refs := refs } : Keyspace).Inv others' := by
  have hheld : Keyspace.held { db with dict := d, refs := refs } = o.addr ::ₘ db.held := by
    rw [Keyspace.held_insert hm, db.held_eq k, hfree, part_none, zero_add, Robj.held, hempty]
    simp
  have howners : ∀ a ∈ Keyspace.owners { db with dict := d, refs := refs },
      o.val.isCollection = true ∧ a = o.addr ∨ a ∈ db.owners := by
    rintro a ⟨o', ho', hcoll, rfl⟩
    rcases Keyspace.holds_insert hm ho' with rfl | ⟨hold, -⟩
    · exact .inl ⟨hcoll, rfl⟩
    · exact .inr ⟨o', hold, hcoll, rfl⟩
  refine ⟨hi, hcb.trans h.freeCb, stored_insert h.stored ho hm, h.queued, ?_, ?_, ?_⟩
  · rw [hheld, Multiset.cons_add]
    exact hc
  · intro a ha
    rw [hheld]
    rcases howners a ha with ⟨hcoll, rfl⟩ | hold
    · obtain ⟨hpriv, hfresh⟩ := hnew hcoll
      rw [Multiset.count_cons_self, Multiset.count_eq_zero.mpr fun hmem => hfresh (Multiset.mem_add.mpr (.inl hmem))]
      exact ⟨hpriv, rfl⟩
    · rw [Multiset.count_cons_of_ne fun he : a = o.addr => hnot (he ▸ hold)]
      exact h.once a hold
  · intro a ha hown
    rcases howners a hown with ⟨hcoll, rfl⟩ | hold
    · exact (hnew hcoll).2 (Multiset.mem_add.mpr (.inr ha))
    · exact hapart a ha hold

/-- Nothing but its slot refers to a collection. -/
theorem Keyspace.Inv.sole (h : db.Inv others) {o : Robj} (ho : db.Holds o) (hcoll : o.val.isCollection = true)
    {rest : Multiset ℕ} (hheld : db.held = o.held + rest) :
    objSharedIntegers ≤ o.addr ∧ o.addr ∉ o.val.held + (rest + others) := by
  have howner : o.addr ∈ db.owners := ⟨o, ho, hcoll, rfl⟩
  obtain ⟨hpriv, hone⟩ := h.once _ howner
  rw [hheld, Robj.held, Multiset.cons_add, Multiset.count_cons_self, Multiset.count_add] at hone
  refine ⟨hpriv, fun hmem => ?_⟩
  rcases Multiset.mem_add.mp hmem with hmem | hmem
  · have := Multiset.one_le_count_iff_mem.mpr hmem
    omega
  · rcases Multiset.mem_add.mp hmem with hmem | hmem
    · have := Multiset.one_le_count_iff_mem.mpr hmem
      omega
    · exact h.apart _ hmem howner

/-- An object is taken out of the keyspace or the queue and released. -/
theorem Keyspace.Inv.release (h : db.Inv others) {o : Robj} (ho : db.Holds o) (db₁ : Keyspace)
    (hdict : db₁.dict.Inv) (hcb : db₁.dict.freeCb = db.dict.freeCb) (hsub : ∀ o', db₁.Holds o' → db.Holds o')
    (hheld : db.held = o.held + db₁.held) :
    (o.val.Wild → decrRefCount db.refs o = .error .wildPointer) ∧
    (¬ o.val.Wild → ∃ refs leaked, decrRefCount db.refs o = .ok refs ∧ (o.val.isHeapq = false → leaked = 0) ∧
      ({ db₁ with refs := refs } : Keyspace).Inv (others + leaked)) := by
  have hc : Counts db.refs (o.held + (db₁.held + others)) := by
    refine h.counts.congr ?_
    rw [hheld, add_assoc]
  obtain ⟨hbad, hgood⟩ := decrRefCount_spec (h.val_inv ho) hc fun hcoll => h.sole ho hcoll hheld
  refine ⟨hbad, fun hw => ?_⟩
  obtain ⟨refs, leaked, hr, hle, hzero, hc₁⟩ := hgood hw
  -- what is left has lost references, so that its collections still have one
  have hcount : ∀ a ∈ db₁.owners, o.held.count a = 0 ∧ db₁.held.count a = 1 := by
    intro a ha
    have hone := (h.once a (Keyspace.owners_subset hsub ha)).2
    have hmem := Multiset.one_le_count_iff_mem.mpr (Keyspace.mem_held_of_owners ha)
    rw [hheld, Multiset.count_add] at hone
    omega
  refine ⟨refs, leaked, hr, hzero, hdict, hcb.trans h.freeCb, ?_, ?_, hc₁.congr (by rw [← add_assoc]; rfl), ?_, ?_⟩
  · intro k o' hl
    exact h.val_inv (hsub o' (.inl ⟨k, hl⟩))
  · intro o' ho'
    exact h.val_inv (hsub o' (.inr ho'))
  · intro a ha
    exact ⟨(h.once a (Keyspace.owners_subset hsub ha)).1, (hcount a ha).2⟩
  · intro a ha howner
    rcases Multiset.mem_add.mp ha with ha | ha
    · exact h.apart a ha (Keyspace.owners_subset hsub howner)
    · have hmem : a ∈ o.held := Multiset.mem_cons_of_mem (Multiset.mem_of_le hle ha)
      exact Multiset.count_ne_zero.mpr hmem (hcount a howner).1

/-- The value of a key is a heap that cannot be released. -/
def Keyspace.WildAt (db : Keyspace) (k : Bytes) : Prop :=
  ∃ o, db.dict.toMap.lookup k = some o ∧ o.val.Wild

theorem Keyspace.wildAt_iff {k : Bytes} {o : Robj} (hl : db.dict.toMap.lookup k = some o) :
    db.WildAt k ↔ o.val.Wild := by
  constructor
  · rintro ⟨o', hl', hw⟩
    rw [hl] at hl'
    rwa [Option.some.inj hl']
  · intro hw
    exact ⟨o, hl, hw⟩

theorem Keyspace.not_wildAt {k : Bytes} (hl : db.dict.toMap.lookup k = none) : ¬ db.WildAt k := by
  rintro ⟨o, hl', -⟩
  rw [hl] at hl'
  cases hl'

/-- A key loses its value: what is left, and the references that are lost with a heap. -/
structure Dropped (others : Multiset ℕ) (db db' : Keyspace) (k : Bytes) (leaked : Multiset ℕ) : Prop where
  inv : db'.Inv (others + leaked)
  toMap : db'.dict.toMap = db.dict.toMap.erase k
  holds : ∀ o, db'.Holds o → db.Holds o
  leaked_eq : db.NoHeapq → leaked = 0

/-- The object of a key leaves the dictionary and is released. -/
theorem Keyspace.Inv.drop (h : db.Inv others) {k : Bytes} {o : Robj} (hl : db.dict.toMap.lookup k = some o)
    {d : DictT Robj} (hi : d.Inv) (hcb : d.freeCb = db.dict.freeCb) (hm : d.toMap = db.dict.toMap.erase k) :
    (db.WildAt k → decrRefCount db.refs o = .error .wildPointer) ∧
    (¬ db.WildAt k → ∃ refs leaked, decrRefCount db.refs o = .ok refs ∧
      Dropped others db { db with dict := d, refs := refs } k leaked) := by
  have hheld : db.held = o.held + Keyspace.held { db with dict := d } := by
    rw [Keyspace.held_erase hm, Keyspace.held_eq_of_lookup hl]
  obtain ⟨hbad, hgood⟩ := h.release (.inl ⟨k, hl⟩) { db with dict := d } hi hcb
    (fun o' => Keyspace.holds_erase hm) hheld
  rw [Keyspace.wildAt_iff hl]
  refine ⟨hbad, fun hw => ?_⟩
  obtain ⟨refs, leaked, hr, hzero, h₁⟩ := hgood hw
  exact ⟨refs, leaked, hr, h₁, hm, fun o' => Keyspace.holds_erase hm, fun hno => hzero (hno o (.inl ⟨k, hl⟩))⟩

/-- Nothing happens to a key that is not there. -/
theorem Keyspace.Inv.drop_absent (h : db.Inv others) {k : Bytes} (hl : db.dict.toMap.lookup k = none)
    {d : DictT Robj} (hi : d.Inv) (hcb : d.freeCb = db.dict.freeCb) (hm : d.toMap = db.dict.toMap.erase k) :
    Dropped others db { db with dict := d } k 0 := by
  have hheld : Keyspace.held { db with dict := d } = db.held := by
    rw [Keyspace.held_erase hm, db.held_eq k, hl, part_none, zero_add]
  have hsub : ∀ o, Keyspace.Holds { db with dict := d } o → db.Holds o := fun o => Keyspace.holds_erase hm
  refine ⟨⟨hi, hcb.trans h.freeCb, fun k' o hl' => h.val_inv (hsub o (.inl ⟨k', hl'⟩)), h.queued, ?_, ?_, ?_⟩, hm, hsub,
    fun _ => rfl⟩
  · rw [hheld, add_zero]
    exact h.counts
  · intro a ha
    rw [hheld]
    exact h.once a (Keyspace.owners_subset hsub ha)
  · intro a ha howner
    rw [add_zero] at ha
    exact h.apart a ha (Keyspace.owners_subset hsub howner)

theorem rrDbDelSync_spec (h : db.Inv others) (hkey : sdsEncodedObject key.enc = true) :
    (db.WildAt key.key → rrDbDelSync db key = .error .wildPointer) ∧
    (¬ db.WildAt key.key → ∃ db' leaked, rrDbDelSync db key = .ok ((db.dict.toMap.lookup key.key).isSome, db') ∧
      Dropped others db db' key.key leaked) := by
  obtain ⟨d, hr, hi, hm, hcb, -⟩ := dictDel_spec h.dict key.enc.bytes
  change dictDel db.dict key.enc.bytes = .ok (db.dict.toMap.lookup key.key, d) at hr
  change d.toMap = db.dict.toMap.erase key.key at hm
  simp only [rrDbDelSync, StrEnc.ptr_of_sds hkey, Exec.ok_bind, hr]
  rcases hl : db.dict.toMap.lookup key.key with _ | o
  · exact ⟨fun hw => absurd hw (Keyspace.not_wildAt hl), fun _ => ⟨_, 0, rfl, h.drop_absent hl hi hcb hm⟩⟩
  · obtain ⟨hbad, hgood⟩ := h.drop hl hi hcb hm
    refine ⟨fun hw => by simp only [hbad hw]; rfl, fun hw => ?_⟩
    obtain ⟨refs, leaked, hdecr, hdrop⟩ := hgood hw
    exact ⟨_, leaked, by simp only [hdecr]; rfl, hdrop⟩

/-- Only a trie is ever queued. -/
theorem not_wild_of_effort {val : ObjVal} (h : getLazyfreeEffort val > lazyfreeThreshold) : ¬ val.Wild := by
  cases val with
  | heapq heap =>
    have hone : getLazyfreeEffort (.heapq heap) = 1 := rfl
    rw [hone] at h
    exact absurd h (by decide)
  | _ => exact id

theorem rrDbDelAsync_spec (h : db.Inv others) (hkey : sdsEncodedObject key.enc = true) :
    (db.WildAt key.key → rrDbDelAsync db key = .error .wildPointer) ∧
    (¬ db.WildAt key.key → ∃ db' leaked, rrDbDelAsync db key = .ok ((db.dict.toMap.lookup key.key).isSome, db') ∧
      Dropped others db db' key.key leaked) := by
  obtain ⟨d, hr, hi, hm, hcb, -⟩ := dictDel_spec h.dict key.enc.bytes
  change dictDel db.dict key.enc.bytes = .ok (db.dict.toMap.lookup key.key, d) at hr
  change d.toMap = db.dict.toMap.erase key.key at hm
  simp only [rrDbDelAsync, StrEnc.ptr_of_sds hkey, Exec.ok_bind, hr]
  rcases hl : db.dict.toMap.lookup key.key with _ | o
  · exact ⟨fun hw => absurd hw (Keyspace.not_wildAt hl), fun _ => ⟨_, 0, rfl, h.drop_absent hl hi hcb hm⟩⟩
  · obtain ⟨hbad, hgood⟩ := h.drop hl hi hcb hm
    simp only
    split_ifs with heffort
    · refine ⟨fun hw => ?_, fun _ => ⟨_, 0, rfl, ?_⟩⟩
      · exact absurd ((Keyspace.wildAt_iff hl).mp hw) (not_wild_of_effort heffort)
      let db₁ : Keyspace := { db with dict := d, tasks := db.tasks ++ [o] }
      have hheld : db₁.held = db.held := by
        rw [Keyspace.held_eq_of_lookup hl]
        simp only [db₁, Keyspace.held, Keyspace.queueHeld, Keyspace.around, hm, mapTotal_erase, List.map_append,
          List.sum_append, List.map_cons, List.map_nil, List.sum_cons, List.sum_nil]
        abel
      have hsub : ∀ o', db₁.Holds o' → db.Holds o' := by
        rintro o' (⟨j, hj⟩ | ho')
        · exact Keyspace.holds_erase hm (.inl ⟨j, hj⟩)
        · rcases List.mem_append.mp ho' with ho' | ho'
          · exact .inr ho'
          · obtain rfl := List.mem_singleton.mp ho'
            exact .inl ⟨_, hl⟩
      refine ⟨⟨hi, hcb.trans h.freeCb, fun k' o' hl' => h.val_inv (hsub o' (.inl ⟨k', hl'⟩)),
        fun o' ho' => h.val_inv (hsub o' (.inr ho')), ?_, ?_, ?_⟩, hm, hsub, fun _ => rfl⟩
      · change Counts db.refs (db₁.held + (others + 0))
        rw [hheld, add_zero]
        exact h.counts
      · intro a ha
        change _ ∧ db₁.held.count a = 1
        rw [hheld]
        exact h.once a (Keyspace.owners_subset hsub ha)
      · intro a ha howner
        rw [add_zero] at ha
        exact h.apart a ha (Keyspace.owners_subset hsub howner)
    · refine ⟨fun hw => by simp only [hbad hw]; rfl, fun hw => ?_⟩
      obtain ⟨refs, leaked, hdecr, hdrop⟩ := hgood hw
      exact ⟨_, leaked, by simp only [hdecr]; rfl, hdrop⟩

theorem rrDbDel_spec {G : Type} (env : ServerEnv G) (h : db.Inv others) (hkey : sdsEncodedObject key.enc = true) :
    (db.WildAt key.key → rrDbDel env db key = .error .wildPointer) ∧
    (¬ db.WildAt key.key → ∃ db' leaked, rrDbDel env db key = .ok ((db.dict.toMap.lookup key.key).isSome, db') ∧
      Dropped others db db' key.key leaked) := by
  rw [rrDbDel]
  split
  · exact rrDbDelAsync_spec h hkey
  · exact rrDbDelSync_spec h hkey

/-- The background thread releases the first object of its queue. -/
theorem lazyFree_spec (h : db.Inv others) :
    ((∃ o, db.tasks.head? = some o ∧ o.val.Wild) → lazyFree db = .error .wildPointer) ∧
    ((¬ ∃ o, db.tasks.head? = some o ∧ o.val.Wild) → ∃ db' leaked, lazyFree db = .ok db' ∧
      db'.Inv (others + leaked) ∧ (∀ o, db'.Holds o → db.Holds o) ∧ (db.NoHeapq → leaked = 0)) := by
  rw [lazyFree]
  cases htasks : db.tasks with
  | nil => exact ⟨by simp, fun _ => ⟨db, 0, rfl, h.congr (add_zero _).symm, fun _ => id, fun _ => rfl⟩⟩
  | cons o tasks =>
    have ho : db.Holds o := .inr (by rw [htasks]; exact List.mem_cons_self)
    have hsub : ∀ o', Keyspace.Holds { db with tasks := tasks } o' → db.Holds o' := by
      rintro o' (hl | ho')
      · exact .inl hl
      · exact .inr (by rw [htasks]; exact List.mem_cons_of_mem o ho')
    have hheld : db.held = o.held + Keyspace.held { db with tasks := tasks } := by
      simp only [Keyspace.held, Keyspace.queueHeld, htasks, List.map_cons, List.sum_cons]
      abel
    obtain ⟨hbad, hgood⟩ := h.release ho { db with tasks := tasks } h.dict rfl hsub hheld
    constructor
    · rintro ⟨o', he, hw⟩
      obtain rfl : o = o' := by simpa using he
      simp only [hbad hw]
      rfl
    · intro hw
      obtain ⟨refs, leaked, hr, hzero, h₁⟩ := hgood fun hwild => hw ⟨o, rfl, hwild⟩
      exact ⟨_, leaked, by simp only [hr]; rfl, h₁, hsub, fun hno => hzero (hno o ho)⟩

/-- A key gets a string as its value: what is stored now, and the references that are lost
with a heap that was there. -/
structure Stores (others : Multiset ℕ) (db db' : Keyspace) (k : Bytes) (val : StrObj) (leaked : Multiset ℕ) : Prop where
  inv : db'.Inv (others + leaked)
  toMap : db'.dict.toMap = db.dict.toMap.insert k val.toRobj
  holds : ∀ o, db'.Holds o → o = val.toRobj ∨ db.Holds o
  leaked_eq : db.NoHeapq → leaked = 0

/-- The value goes where another one was dropped. -/
theorem Dropped.insert {k : Bytes} {val : StrObj} {leaked : Multiset ℕ}
    (h : Dropped (val.addr ::ₘ others) db db' k leaked) {d : DictT Robj} (hi : d.Inv)
    (hcb : d.freeCb = db'.dict.freeCb) (hm : d.toMap = db.dict.toMap.insert k val.toRobj) :
    Stores others db { db' with dict := d } k val leaked := by
  have hmap : d.toMap = db'.dict.toMap.insert k val.toRobj := by
    rw [hm, h.toMap, insert_erase]
  have hfree : db'.dict.toMap.lookup k = none := by
    rw [h.toMap, Finmap.lookup_erase]
  have hmem : val.addr ∈ val.addr ::ₘ others + leaked := by simp
  refine ⟨?_, hm, ?_, h.leaked_eq⟩
  · have hc : Counts db'.refs (val.addr ::ₘ (db'.held + (others + leaked))) := h.inv.counts.congr (by simp)
    have hval : val.toRobj.val.Inv := trivial
    refine h.inv.insert hfree hval rfl hi hcb hmap hc (h.inv.apart _ hmem) nofun fun a ha => h.inv.apart a ?_
    simpa using Or.inr (Multiset.mem_add.mp ha)
  · intro o ho
    have ho : Keyspace.Holds { db' with dict := d, refs := db'.refs } o := ho
    rcases Keyspace.holds_insert hmap ho with rfl | ⟨ho', -⟩
    · exact .inl rfl
    · exact .inr (h.holds o ho')

/-- The caller's reference to a string goes to the keyspace. -/
theorem rrDbAdd_spec {val : StrObj} (h : db.Inv (val.addr ::ₘ others)) (hkey : sdsEncodedObject key.enc = true) :
    (db.WildAt key.key → rrDbAdd db key val.toRobj = .error .wildPointer) ∧
    (¬ db.WildAt key.key → ∃ db' leaked, rrDbAdd db key val.toRobj = .ok (true, db') ∧
      Stores others db db' key.key val leaked) := by
  obtain ⟨d, freed, hr, hi, hm, hcb, hfreed⟩ := dictSet_spec h.dict key.enc.bytes val.toRobj
  obtain ⟨d₁, -, hi₁, hm₁, hcb₁, -⟩ := dictDel_spec h.dict key.enc.bytes
  change d.toMap = db.dict.toMap.insert key.key val.toRobj at hm
  change d₁.toMap = db.dict.toMap.erase key.key at hm₁
  rw [h.freeCb, if_pos rfl] at hfreed
  change freed = (db.dict.toMap.lookup key.key).toList at hfreed
  simp only [rrDbAdd, StrEnc.ptr_of_sds hkey, Exec.ok_bind, hr, hfreed]
  rcases hl : db.dict.toMap.lookup key.key with _ | o
  · refine ⟨fun hw => absurd hw (Keyspace.not_wildAt hl), fun _ => ⟨_, 0, rfl, ?_⟩⟩
    exact (h.drop_absent hl hi₁ hcb₁ hm₁).insert hi (hcb.trans hcb₁.symm) hm
  · obtain ⟨hbad, hgood⟩ := h.drop hl hi₁ hcb₁ hm₁
    simp only [Option.toList_some, decrRefCounts]
    refine ⟨fun hw => by simp only [hbad hw]; rfl, fun hw => ?_⟩
    obtain ⟨refs, leaked, hdecr, hdrop⟩ := hgood hw
    exact ⟨_, leaked, by simp only [hdecr]; rfl, hdrop.insert hi (hcb.trans hcb₁.symm) hm⟩

/-- The value stays referenced by the caller. -/
theorem rrDbSetKey_spec {val : StrObj} (h : db.Inv (val.addr ::ₘ others)) (hkey : sdsEncodedObject key.enc = true) :
    (db.WildAt key.key → rrDbSetKey db key val.toRobj = .error .wildPointer) ∧
    (¬ db.WildAt key.key → ∃ db' leaked, rrDbSetKey db key val.toRobj = .ok (true, db') ∧
      Stores (val.addr ::ₘ others) db db' key.key val leaked) := by
  obtain ⟨hbad, hgood⟩ := rrDbAdd_spec h hkey
  refine ⟨fun hw => by rw [rrDbSetKey, hbad hw]; rfl, fun hw => ?_⟩
  obtain ⟨db₁, leaked, hadd, h₁⟩ := hgood hw
  have hmem : val.addr ∈ db₁.held + (others + leaked) := by
    rw [db₁.held_eq key.key, h₁.toMap, Finmap.lookup_insert, part_some]
    simp [Robj.held, StrObj.toRobj]
  obtain ⟨refs, hr, hc⟩ := h₁.inv.counts.incr (Or.inl hmem)
  have hapart : val.addr ∉ db₁.owners := by
    rintro ⟨o, ho, hcoll, he⟩
    rcases h₁.holds o ho with rfl | hold
    · cases hcoll
    · exact h.apart val.addr (Multiset.mem_cons_self _ _) ⟨o, hold, hcoll, he⟩
  refine ⟨{ db₁ with refs := refs }, leaked, ?_, ?_, h₁.toMap, h₁.holds, h₁.leaked_eq⟩
  · simp only [rrDbSetKey, hadd, Exec.ok_bind, if_true]
    change (incrRefCount db₁.refs val.addr >>= _) = _
    rw [hr]
    rfl
  · refine h₁.inv.withRefs (hc.congr (by simp)) fun a ha => ?_
    rw [Multiset.cons_add] at ha
    rcases Multiset.mem_cons.mp ha with rfl | ha
    · exact hapart
    · exact h₁.inv.apart a ha

/-- The object of the key afterwards is the one returned: it was there, or it is new, and
nothing had to be released for it. -/
theorem rrDbLookupOrCreate_spec {G : Type} (env : ServerEnv G) (h : db.Inv others)
    (hkey : sdsEncodedObject key.enc = true) {val : ObjVal} (hval : val.Inv) (hempty : val.held = 0) :
    ∃ o db', rrDbLookupOrCreate env db key val = .ok (o, db') ∧ db'.Inv others ∧
      db'.dict.toMap.lookup key.key = some o ∧
      (∀ k, k ≠ key.key → db'.dict.toMap.lookup k = db.dict.toMap.lookup k) ∧ db'.tasks = db.tasks ∧
      (∀ a n, refcount db.refs a = .ok n → refcount db'.refs a = .ok n) ∧
      (db.dict.toMap.lookup key.key = some o ∧ db' = db ∨ db.dict.toMap.lookup key.key = none ∧ o.val = val) := by
  simp only [rrDbLookupOrCreate, rrDbLookup_spec h hkey, Exec.ok_bind]
  rcases hl : db.dict.toMap.lookup key.key with _ | o
  · obtain ⟨hfresh, hpriv, hc⟩ := h.counts.create env
    set a := (createObject env db.refs).1
    obtain ⟨d, freed, hr, hi, hm, hcb, hfreed⟩ := dictSet_spec h.dict key.enc.bytes ⟨a, val⟩
    change d.toMap = db.dict.toMap.insert key.key ⟨a, val⟩ at hm
    change freed = if db.dict.freeCb then (db.dict.toMap.lookup key.key).toList else [] at hfreed
    rw [hl, h.freeCb, if_pos rfl, Option.toList_none] at hfreed
    subst hfreed
    have hnot : a ∉ db.owners := fun howner =>
      hfresh (Multiset.mem_add.mpr (.inl (Keyspace.mem_held_of_owners howner)))
    refine ⟨⟨a, val⟩, { db with dict := d, refs := (createObject env db.refs).2 }, ?_, ?_, ?_, ?_, rfl,
      fun b n => createObject_refcount env, ?_⟩
    · simp only [rrDbAdd, StrEnc.ptr_of_sds hkey, Exec.ok_bind, hr, decrRefCounts, Exec.pure_eq]
    · exact h.insert hl hval hempty hi hcb hm hc hnot (fun _ => ⟨hpriv, hfresh⟩) h.apart
    · rw [hm, Finmap.lookup_insert]
    · intro k hk
      rw [hm, Finmap.lookup_insert_of_ne _ hk]
    · exact Or.inr ⟨rfl, rfl⟩
  · exact ⟨o, db, rfl, h, hl, fun _ _ => rfl, rfl, fun _ _ => id, Or.inl ⟨rfl, rfl⟩⟩

/-- New contents for the collection of a key, with the counts that belong to them. -/
theorem setContents_spec (h : db.Inv others) (hkey : sdsEncodedObject key.enc = true) {o : Robj}
    (hl : db.dict.toMap.lookup key.key = some o) (hcoll : o.val.isCollection = true) (val : ObjVal) (hval : val.Inv)
    {refs : Refs} {others' : Multiset ℕ}
    (hc : Counts refs (val.held + (o.addr ::ₘ db.around key.key) + others'))
    (hapart : ∀ a ∈ val.held + others', a ∉ db.owners) :
    ∃ db', setContents { db with refs := refs } key ⟨o.addr, val⟩ = .ok db' ∧ db'.Inv others' ∧
      db'.dict.toMap = db.dict.toMap.insert key.key ⟨o.addr, val⟩ ∧ db'.refs = refs ∧ db'.tasks = db.tasks ∧
      db'.owners ⊆ db.owners := by
  obtain ⟨d, hr, hi, hm, hcb⟩ := dictModify_spec h.dict (k := key.enc.bytes) hl ⟨o.addr, val⟩
  have howner : o.addr ∈ db.owners := ⟨o, .inl ⟨_, hl⟩, hcoll, rfl⟩
  have hheld : Keyspace.held { db with dict := d, refs := refs } = val.held + (o.addr ::ₘ db.around key.key) := by
    rw [Keyspace.held_insert (k := key.key) hm, Robj.held]
    simp only [← Multiset.singleton_add]
    abel
  have howners : ∀ a ∈ Keyspace.owners { db with dict := d, refs := refs },
      a ∈ db.owners ∧ a ∈ o.addr ::ₘ db.around key.key := by
    rintro a ⟨o', ho', hcoll', rfl⟩
    rcases Keyspace.holds_insert (k := key.key) hm ho' with rfl | ⟨hold, hmem⟩
    · exact ⟨howner, Multiset.mem_cons_self _ _⟩
    · exact ⟨⟨o', hold, hcoll', rfl⟩, Multiset.mem_cons_of_mem hmem⟩
  refine ⟨{ db with dict := d, refs := refs }, ?_, ?_, hm, rfl, rfl, fun a ha => (howners a ha).1⟩
  · simp [setContents, StrEnc.ptr_of_sds hkey, hr]
  refine ⟨hi, hcb.trans h.freeCb, stored_insert h.stored hval hm, h.queued, ?_, ?_, ?_⟩
  · rw [hheld]
    exact hc
  · intro a ha
    obtain ⟨hown, hmem⟩ := howners a ha
    obtain ⟨hpriv, hone⟩ := h.once a hown
    have hpos := Multiset.one_le_count_iff_mem.mpr hmem
    have hnot : val.held.count a = 0 :=
      Multiset.count_eq_zero.mpr fun hv => hapart a (Multiset.mem_add.mpr (.inl hv)) hown
    have hsplit : db.held = o.val.held + (o.addr ::ₘ db.around key.key) := by
      rw [Keyspace.held_eq_of_lookup hl, Robj.held]
      simp only [← Multiset.singleton_add]
      abel
    rw [hsplit, Multiset.count_add] at hone
    rw [hheld, Multiset.count_add]
    exact ⟨hpriv, by omega⟩
  · intro a ha hown
    exact hapart a (Multiset.mem_add.mpr (.inr ha)) (howners a hown).1

/-- `tryObjectEncoding` of a string that the caller refers to. What replaces it is no
collection either. -/
theorem Keyspace.Inv.encode {G : Type} (env : ServerEnv G) {val : StrObj} (h : db.Inv (val.addr ::ₘ others))
    (hval : sdsEncodedObject val.enc = true) :
    ∃ val' refs, tryObjectEncoding env db.refs val = .ok (val', refs) ∧
      ({ db with refs := refs } : Keyspace).Inv (val'.addr ::ₘ others) ∧ val'.enc.bytes = val.enc.bytes ∧
      (refcount db.refs val.addr = .ok 1 → sdsEncodedObject val'.enc = !spellsInteger val.enc.bytes) := by
  have hc : Counts db.refs (val.addr ::ₘ (db.held + others)) := h.counts.congr (by simp)
  obtain ⟨val', refs, hr, hc₁, hrep, hbytes, hint⟩ := tryObjectEncoding_spec env hc hval
  have hnot : val'.addr ∉ db.owners := by
    rcases hrep with hsame | hshared | hfresh
    · rw [hsame]
      exact h.apart _ (Multiset.mem_cons_self _ _)
    · intro howner
      have hle := (h.once _ howner).1
      omega
    · intro howner
      exact hfresh (Multiset.mem_add.mpr (.inl (Keyspace.mem_held_of_owners howner)))
  refine ⟨val', refs, hr, h.withRefs (hc₁.congr (by simp)) fun a ha => ?_, hbytes, hint⟩
  rcases Multiset.mem_cons.mp ha with rfl | ha
  · exact hnot
  · exact h.apart a (Multiset.mem_cons_of_mem ha)

end Database

end RhinoRox
