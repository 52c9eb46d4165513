import RhinoRox.StoreCollections

/-!
# Queues and sets of documents

The handlers of heaps and document sets against the commands of the store. What is popped from a
heap are its first items in the order of the scores; what a search finds is ranked.
-/

namespace RhinoRox

open FiniteMaps Store

/-! ## The first items -/

section Items
variable {rank : UInt64 → ℤ} {items left : Multiset (UInt64 × Bytes)} {taken : List (UInt64 × Bytes)} {n : ℕ}

theorem Store.Taken.none (rank : UInt64 → ℤ) (items : Multiset (UInt64 × Bytes)) : Taken rank 0 items [] items :=
  ⟨by simp, by simp, .nil, by simp⟩

theorem Store.Taken.empty (rank : UInt64 → ℤ) (n : ℕ) : Taken rank n 0 [] 0 := ⟨by simp, by simp, .nil, by simp⟩

/-- A first item, and then the first of the rest. -/
theorem Store.Taken.cons {x : UInt64 × Bytes} (h : Taken rank n items taken left)
    (hx : ∀ y ∈ items, rank x.1 ≤ rank y.1) : Taken rank (n + 1) (x ::ₘ items) (x :: taken) left where
  parts := by rw [h.parts, ← Multiset.cons_coe, Multiset.cons_add]
  number := by rw [List.length_cons, h.number, Multiset.card_cons, Nat.add_min_add_right]
  ordered := by
    refine List.pairwise_cons.mpr ⟨fun y hy => hx y ?_, h.ordered⟩
    rw [h.parts]
    exact Multiset.mem_add.mpr (.inl hy)
  first y hy z hz := by
    rcases List.mem_cons.mp hy with rfl | hy
    · refine hx z ?_
      rw [h.parts]
      exact Multiset.mem_add.mpr (.inr hz)
    · exact h.first y hy z hz

end Items

/-! ## Queues -/

section Queues
variable {G : Type} {ρ : Rules G} {db : Keyspace} {others : Multiset ℕ} {key : StrObj} {new : Prop}

/-- A heap as a queue. -/
def Minheap.queue (heap : Minheap HqItem) : Multiset (UInt64 × Bytes) := heap.toMultiset.map HqItem.plain

theorem card_items {heap : Minheap HqItem} (h : heap.Inv hqComparator) : heap.queue.card = heap.len := by
  rw [Minheap.queue, Multiset.card_map, h.card_toMultiset]

theorem items_empty {heap : Minheap HqItem} (h : heap.Inv hqComparator) (hzero : heap.len = 0) : heap.queue = 0 :=
  Multiset.card_eq_zero.mp ((card_items h).trans hzero)

theorem not_below_iff (x y : HqItem) : ¬ hqComparator.Below y x ↔ doubleKey x.score ≤ doubleKey y.score := by
  rw [Comparator.not_below]
  change hqCmp x y ≤ 0 ↔ _
  rw [hqCmp]
  split_ifs with h₁ h₂ <;> omega

/-- What is popped is not above anything that is left. -/
theorem popReply_least {a : ℕ} {heap : Minheap HqItem} (val : ObjVal) (h : db.Inv others)
    (hkey : sdsEncodedObject key.enc = true) (hl : db.dict.toMap.lookup key.key = some ⟨a, .heapq heap⟩)
    (hpos : 0 < heap.len) :
    ∃ (item : HqItem) (heap' : Minheap HqItem) (db' : Keyspace), popReply db key ⟨a, val⟩ heap = .ok (some heap', db', replyAddBulkObj item.obj.enc) ∧
      db'.Inv others ∧ Updated db db' key.key ⟨a, .heapq heap'⟩ ∧ heap'.len + 1 = heap.len ∧
      heap.queue = item.plain ::ₘ heap'.queue ∧ ∀ y ∈ heap'.queue, doubleKey item.score ≤ doubleKey y.1 := by
  obtain ⟨item, heap', db', hr, h', hup, hlen, hm⟩ := (popReply_spec val h hkey hl).2 hpos
  obtain ⟨x, heap₁, hpop, -, -, hm₁, hleast, -⟩ := minheapPop_spec (h.stored _ _ hl) hpos
  -- the heap that the handler goes on with is the one that the pop returned
  obtain rfl : heap₁ = heap' := by
    have hrun := hr
    simp only [popReply, hpop, Exec.ok_bind] at hrun
    obtain ⟨db₁, -, hrun⟩ := Exec.bind_eq_ok.mp hrun
    obtain ⟨reply, -, hrun⟩ := Exec.bind_eq_ok.mp hrun
    obtain ⟨refs, -, he⟩ := Exec.bind_eq_ok.mp hrun
    exact Option.some.inj (Prod.mk.inj (Except.ok.inj he)).1
  obtain rfl : x = item := (Multiset.cons_inj_left _).mp (hm₁.symm.trans hm)
  refine ⟨x, heap₁, db', hr, h', hup, hlen, ?_, fun y hy => ?_⟩
  · rw [Minheap.queue, hm, Multiset.map_cons]
    rfl
  · obtain ⟨z, hz, rfl⟩ := Multiset.mem_map.mp hy
    exact (not_below_iff x z).mp (hleast z hz)

/-- The loop of QPOPN takes the first items one by one. -/
theorem popnLoop_taken {a n : ℕ} (val : ObjVal) {heap : Minheap HqItem} (h : db.Inv others)
    (hkey : sdsEncodedObject key.enc = true) (hl : db.dict.toMap.lookup key.key = some ⟨a, .heapq heap⟩)
    (hn : n ≤ heap.len) :
    ∃ (db' : Keyspace) (heap' : Minheap HqItem) (items : List HqItem), popnLoop key ⟨a, val⟩ n db heap =
        .ok (db', items.flatMap fun i => replyAddBulkObj i.obj.enc) ∧ db'.Inv others ∧
      Updated db db' key.key ⟨a, .heapq heap'⟩ ∧ Taken doubleKey n heap.queue (items.map HqItem.plain) heap'.queue := by
  induction n generalizing db heap with
  | zero => exact ⟨db, heap, [], rfl, h, ⟨hl, fun _ _ => rfl, rfl⟩, .none _ _⟩
  | succ n ih =>
    obtain ⟨item, heap₁, db₁, hr, h₁, hup, hlen, hitems, hleast⟩ := popReply_least val h hkey hl (by omega)
    obtain ⟨db₂, heap₂, items, hrest, h₂, hup₂, htaken⟩ := ih h₁ hup.lookup (by omega)
    refine ⟨db₂, heap₂, item :: items, ?_, h₂, hup.trans hup₂, ?_⟩
    · simp only [popnLoop, hr, Exec.ok_bind, hrest, Exec.pure_eq, List.flatMap_cons]
    · rw [hitems, List.map_cons]
      exact htaken.cons hleast

variable [AddCommGroup G] [LE G]

/-- The commands on a queue that exists do not crash. -/
theorem Handles.onQueue {c : QueueCommand} {run : Robj → Minheap HqItem → CmdRun} (ρ : Rules G) (h : db.Inv others)
    (hkey : sdsEncodedObject key.enc = true) (here : ∀ a heap, db.dict.toMap.lookup key.key = some ⟨a, .heapq heap⟩ →
      Handles (fun v r => ∃ q, v = some (.queue q) ∧ c.Acts ρ.rank heap.queue q r) new False db key.key (run ⟨a, .heapq heap⟩ heap)) :
    Handles ((KeyCommand.queue c).Acts ρ (db.store.lookup key.key)) new
      ((KeyCommand.queue c).Crashes ρ (db.store.lookup key.key)) db key.key
      (RhinoRox.onCollection ObjVal.heapq? db key run) := by
  have hacts : Handles (OnExisting .queue (c.Acts ρ.rank) (db.store.lookup key.key)) new
      (∃ q, db.store.lookup key.key = some (.queue q) ∧ False) db key.key
      (RhinoRox.onCollection ObjVal.heapq? db key run) := by
    apply Handles.onCollection queueKind h hkey
    intro a val heap hl hx
    rw [onCollection_of_lookup h hkey hl hx]
    obtain rfl := heapq?_eq hx
    exact here a heap hl
  exact hacts.imp (fun _ _ => id) (by simp [KeyCommand.Crashes])

theorem rrCmdHqlen_handles (h : db.Inv others) (hkey : sdsEncodedObject key.enc = true) :
    Handles ((KeyCommand.queue .qlen).Acts ρ (db.store.lookup key.key)) new
      ((KeyCommand.queue .qlen).Crashes ρ (db.store.lookup key.key)) db key.key (rrCmdHqlen db key) := by
  refine .onQueue ρ h hkey fun a heap hl => ?_
  refine .readHere queueKind hl rfl rfl ⟨rfl, rfl⟩ ?_ id
  change _ = (Reply.integer heap.queue.card).encode
  rw [card_items (h.stored _ _ hl)]
  exact sent_integer _

theorem rrCmdHqpeek_handles (hrank : ρ.rank = doubleKey) (h : db.Inv others) (hkey : sdsEncodedObject key.enc = true) :
    Handles ((KeyCommand.queue .qpeek).Acts ρ (db.store.lookup key.key)) new
      ((KeyCommand.queue .qpeek).Crashes ρ (db.store.lookup key.key)) db key.key (rrCmdHqpeek db key) := by
  refine .onQueue ρ h hkey fun a heap hl => ?_
  have hi : heap.Inv hqComparator := h.stored _ _ hl
  rw [hrank]
  rcases Nat.eq_zero_or_pos heap.len with hzero | hpos
  · have hmin : minheapMin heap = .ok none := by simp [minheapMin, hzero]
    refine .readHere queueKind hl rfl (by simp only [hmin, Exec.ok_bind]; rfl) ⟨rfl, [], 0, ?_, rfl⟩ sent_nullbulk id
    change Taken doubleKey 1 heap.queue [] 0
    rw [items_empty hi hzero]
    exact .empty _ 1
  · obtain ⟨item, hmin, hmem, hleast⟩ := minheapMin_spec hi hpos
    have hheld : item.obj.addr ∈ (ObjVal.heapq heap).held := Multiset.mem_map_of_mem (fun i => i.obj.addr) hmem
    obtain ⟨rest, hrest⟩ := Multiset.exists_cons_of_mem hmem
    have hitems : heap.queue = item.plain ::ₘ rest.map HqItem.plain := by rw [Minheap.queue, hrest, Multiset.map_cons]
    refine .readHere queueKind hl rfl (by simp only [hmin, Exec.ok_bind, h.bulkReply hl hheld]; rfl)
      ⟨rfl, [item.plain], rest.map HqItem.plain, ?_, rfl⟩ (sent_bulk item.obj.enc) id
    change Taken doubleKey 1 heap.queue [item.plain] _
    rw [hitems]
    refine (Taken.none _ _).cons fun y hy => ?_
    obtain ⟨z, hz, rfl⟩ := Multiset.mem_map.mp hy
    exact (not_below_iff item z).mp (hleast z (hrest ▸ Multiset.mem_cons_of_mem hz))

theorem rrCmdHqpop_handles (hrank : ρ.rank = doubleKey) (h : db.Inv others) (hkey : sdsEncodedObject key.enc = true) :
    Handles ((KeyCommand.queue .qpop).Acts ρ (db.store.lookup key.key)) new
      ((KeyCommand.queue .qpop).Crashes ρ (db.store.lookup key.key)) db key.key (rrCmdHqpop db key) := by
  refine .onQueue ρ h hkey fun a heap hl => ?_
  have hi : heap.Inv hqComparator := h.stored _ _ hl
  rw [hrank]
  rcases Nat.eq_zero_or_pos heap.len with hzero | hpos
  · obtain ⟨db', hr, -, hup⟩ := (popReply_spec (.heapq heap) h hkey hl).1 hzero
    refine .ok (by simp only [hr, Exec.ok_bind]; rfl) ⟨heap.queue, rfl, [], ?_, rfl⟩ hup.store sent_nullbulk id
    rw [items_empty hi hzero]
    exact .empty _ 1
  · obtain ⟨item, heap', db', hr, -, hup, -, hitems, hleast⟩ := popReply_least (.heapq heap) h hkey hl hpos
    refine .ok (by simp only [hr, Exec.ok_bind]; rfl) ⟨heap'.queue, rfl, [item.plain], ?_, rfl⟩ hup.store
      (sent_bulk item.obj.enc) id
    rw [hitems]
    exact (Taken.none _ _).cons hleast

theorem sent_items (items : List HqItem) :
    (items.flatMap fun i => replyAddBulkObj i.obj.enc).flatMap ReplyCall.payload =
      encodeArgs ((items.map HqItem.plain).map Prod.snd) := by
  induction items with
  | nil => rfl
  | cons i items ih =>
    rw [List.flatMap_cons, List.flatMap_append, replyAddBulkObj_payload, ih]
    rfl

/-- QPOPN with a count that is not negative. -/
theorem rrCmdHqpopn_handles (hrank : ρ.rank = doubleKey) {count : StrObj} {n : ℤ}
    (hcount : getLongFromObjectOrReply count.enc = .inl n) (hn : 0 ≤ n) (h : db.Inv others)
    (hkey : sdsEncodedObject key.enc = true) :
    Handles ((KeyCommand.queue (.qpopn n.toNat)).Acts ρ (db.store.lookup key.key)) new
      ((KeyCommand.queue (.qpopn n.toNat)).Crashes ρ (db.store.lookup key.key)) db key.key (rrCmdHqpopn db key count) := by
  have hrun : rrCmdHqpopn db key count = onCollection ObjVal.heapq? db key fun o heap =>
      popnLoop key o (min n.toNat (minheapLen heap)) db heap >>= fun r =>
        pure (r.1, replyAddMultiBulkLen (min n.toNat (minheapLen heap)) ++ r.2) := by
    simp only [rrCmdHqpopn, hcount, if_neg (not_lt.mpr hn)]
  rw [hrun]
  refine .onQueue ρ h hkey fun a heap hl => ?_
  have hi : heap.Inv hqComparator := h.stored _ _ hl
  obtain ⟨db', heap', items, hr, -, hup, htaken⟩ :=
    popnLoop_taken (.heapq heap) h hkey hl (min_le_right n.toNat heap.len)
  have hnumber : min n.toNat heap.len = (items.map HqItem.plain).length := by
    rw [htaken.number, card_items hi, min_assoc, min_self]
  rw [hrank]
  refine .ok (by simp only [minheapLen, hr, Exec.ok_bind]; rfl) ⟨heap'.queue, rfl, items.map HqItem.plain, ?_, rfl⟩
    hup.store ?_ id
  · refine ⟨htaken.parts, ?_, htaken.ordered, htaken.first⟩
    rw [← hnumber, card_items hi]
  · exact sent_array (hnumber.trans (List.length_map Prod.snd).symm) (sent_items items)

/-- QPUSH with a valid score. -/
theorem rrCmdHqpush_handles {H : Type} (env : ServerEnv H) {score val : StrObj} {x : UInt64}
    (hscore : getDoubleFromObjectOrReply env score.enc = .inl x) (h : db.Inv (val.addr ::ₘ others))
    (hkey : sdsEncodedObject key.enc = true) (hval : sdsEncodedObject val.enc = true) :
    Handles ((KeyCommand.qpush x val.text).Acts ρ (db.store.lookup key.key)) new
      ((KeyCommand.qpush x val.text).Crashes ρ (db.store.lookup key.key)) db key.key
      (outcome (rrCmdHqpush env db key score val)) := by
  rw [Keyspace.lookup_store]
  by_cases htype : ∀ o, db.dict.toMap.lookup key.key = some o → ∃ heap, o.val = .heapq heap
  · obtain ⟨a, heap, hwas, hover, hgood⟩ := rrCmdHqpush_spec env h hkey hval hscore htype
    have hi : heap.Inv hqComparator := by
      rcases hwas with hwas | ⟨-, rfl⟩
      · exact h.stored _ _ hwas
      · exact minheapCreate_inv hqComparator 8
    have hcreated : Created .queue 0 ((db.dict.toMap.lookup key.key).map fun o => o.val.value) heap.queue := by
      rcases hwas with hwas | ⟨hwas, rfl⟩
      · rw [hwas]
        exact .inr rfl
      · rw [hwas]
        exact .inl ⟨rfl, items_empty hi rfl⟩
    rcases Nat.lt_or_ge (heap.len + 1) (2 ^ 31) with hroom | hfull
    · obtain ⟨db', val', heap', hr, -, hbytes, hup, hm⟩ := hgood hroom
      have hnew : (ObjVal.heapq heap').value = .queue ((x, val.text) ::ₘ heap.queue) := by
        have htext : StrObj.text val' = val.text := hbytes
        rw [ObjVal.value, hm, Multiset.map_cons, HqItem.plain, htext]
        rfl
      have hrun : outcome (rrCmdHqpush env db key score val) = .ok (db', [.obj Shared.ok]) := by
        rw [outcome, hr]
        rfl
      refine .ok hrun ?_ hup.store sent_ok ?_
      · rw [hnew]
        rcases hcreated with ⟨hnone, hzero⟩ | hsome
        · rw [hnone, hzero]
          exact .absent
        · rw [hsome]
          exact .here _
      · rintro ⟨q, hq, hge⟩
        have hitems : q = heap.queue := by
          rcases hcreated with ⟨hnone, hzero⟩ | hsome
          · rw [hnone] at hq
            rcases hq with ⟨-, hq⟩ | hq
            · rw [hq, hzero]
            · cases hq
          · rw [hsome] at hq
            rcases hq with ⟨hq, -⟩ | hq
            · cases hq
            · exact (Value.queue.inj (Option.some.inj hq)).symm
        rw [hitems, card_items hi] at hge
        omega
    · refine .error (e := .nullPointer) (by rw [outcome, hover hfull]; rfl) ⟨heap.queue, hcreated, ?_⟩
      rw [card_items hi]
      exact hfull
  · simp only [not_forall, not_exists] at htype
    obtain ⟨o, hl, hne⟩ := htype
    have hother : ∀ q, o.val.value ≠ .queue q := by
      refine queueKind.other o.val ?_
      cases hval : o.val with
      | heapq heap => exact absurd hval (hne heap)
      | _ => rfl
    rw [hl, Option.map_some]
    refine .read (by rw [outcome, rrCmdHqpush_wrongtype env score val h hkey hscore hl hne]; rfl) ?_ sent_wrongType ?_
    · rw [Keyspace.lookup_store, hl]
      exact .wrongType hother
    · rintro ⟨q, hq | hq, -⟩
      · cases hq.1
      · exact hother q (Option.some.inj hq)

end Queues

/-! ## Sets of documents -/

section Documents
variable {G : Type} {ρ : Rules G} [AddCommGroup G] {db : Keyspace} {others : Multiset ℕ} {key title : StrObj} {new : Prop}

theorem rrCmdDlen_handles [LE G] (h : db.Inv others) (hkey : sdsEncodedObject key.enc = true) :
    Handles ((KeyCommand.documents .dlen).Acts ρ (db.store.lookup key.key)) new
      ((KeyCommand.documents .dlen).Crashes ρ (db.store.lookup key.key)) db key.key (rrCmdDlen db key) := by
  refine .onCollection documentKind h hkey fun a val fts hl hx => ?_
  rw [onCollection_of_lookup h hkey hl hx]
  obtain rfl := fts?_eq hx
  have hfts : fts.Inv := h.stored _ _ hl
  refine .readHere documentKind hl hx rfl ⟨rfl, rfl⟩ ?_ id
  rw [hfts.card_table]
  exact sent_integer _

theorem rrCmdDget_handles [LE G] (h : db.Inv others) (hkey : sdsEncodedObject key.enc = true)
    (htitle : sdsEncodedObject title.enc = true) :
    Handles ((KeyCommand.documents (.dget title.key)).Acts ρ (db.store.lookup key.key)) new
      ((KeyCommand.documents (.dget title.key)).Crashes ρ (db.store.lookup key.key)) db key.key (rrCmdDget db key title) := by
  refine .onCollection documentKind h hkey fun a val fts hl hx => ?_
  obtain rfl := fts?_eq hx
  have hfts : fts.Inv := h.stored _ _ hl
  refine .readHere documentKind hl hx (rrCmdDget_spec h hkey htitle hl) ⟨rfl, rfl⟩ ?_ id
  rw [hfts.lookup_table]
  cases fts.find title.key with
  | none => exact sent_nullbulk
  | some d => exact sent_bulk d.doc.enc

theorem rrCmdDdel_handles [LE G] {H : Type} (env : ServerEnv H) (h : db.Inv others) (hkey : sdsEncodedObject key.enc = true)
    (htitle : sdsEncodedObject title.enc = true) :
    Handles ((KeyCommand.documents (.ddel title.key)).Acts ρ (db.store.lookup key.key)) new
      ((KeyCommand.documents (.ddel title.key)).Crashes ρ (db.store.lookup key.key)) db key.key
      (rrCmdDdel env db key title) := by
  refine .onCollection documentKind h hkey fun a val fts hl hx => ?_
  obtain rfl := fts?_eq hx
  have hfts : fts.Inv := h.stored _ _ hl
  obtain ⟨db', fts', hr, h', hup, hfind⟩ := rrCmdDdel_spec env h hkey htitle hl
  refine .ok hr ⟨fts'.table, rfl, ?_, rfl⟩ hup.store ?_ id
  · exact hfts.table_update (h'.stored _ _ hup.lookup) hfind
  · rw [hfts.lookup_table, Option.isSome_map]
    exact sent_flag _

variable [LinearOrder G]

omit [AddCommGroup G] [LinearOrder G] in
theorem searchReplies_ok {a : ℕ} {fts : Fts} (h : db.Inv others)
    (hl : db.dict.toMap.lookup key.key = some ⟨a, .fts fts⟩) {found : List (DocScore G)}
    (hfound : ∀ x ∈ found, ∃ t, fts.docs.toMap.lookup t = some x.doc) :
    ∃ replies, searchReplies db fts found = .ok replies ∧
      replies.flatMap ReplyCall.payload = encodeArgs ((found.map fts.resultDoc).flatMap titleAndText) := by
  have hi : fts.Inv := h.stored _ _ hl
  induction found with
  | nil => exact ⟨[], rfl, rfl⟩
  | cons x found ih =>
    obtain ⟨t, ht⟩ := hfound x List.mem_cons_self
    obtain ⟨d, hmem, -, hfind⟩ := hi.find_of_docs ht
    have hheld : ∀ o ∈ [d.title, d.doc], o.addr ∈ (ObjVal.fts fts).held := by
      intro o ho
      rw [ObjVal.held, fts.held_eq t, hfind, KeyedTotal.part_some]
      exact Multiset.mem_add.mpr (.inl (List.mem_map_of_mem ho))
    have htitle := h.bulkReply hl (hheld d.title (by simp))
    have hdoc := h.bulkReply hl (hheld d.doc (by simp))
    obtain ⟨replies, hr, hsent⟩ := ih fun y hy => hfound y (List.mem_cons_of_mem x hy)
    refine ⟨replyAddBulkObj d.title.enc ++ replyAddBulkObj d.doc.enc ++ replies, ?_, ?_⟩
    · simp only [searchReplies, ftsDocLoad_ok hmem, Exec.ok_bind, htitle, hdoc, hr, Exec.pure_eq]
    · rw [List.flatMap_append, List.flatMap_append, replyAddBulkObj_payload, replyAddBulkObj_payload, hsent,
        List.map_cons, List.flatMap_cons, resultDoc_eq hmem, encodeArgs_append]
      simp [titleAndText, FtsDoc.plain, StrObj.text, encodeArgs]

omit [AddCommGroup G] [LinearOrder G] in
/-- The number of documents that share a term with a query. -/
theorem card_sharing (hterms : ρ.terms = termsOf) {fts : Fts} (h : fts.Inv) (q : Bytes) :
    (fts.table.keys.filter fun k => (fts.table.lookup k).any fun d => decide (SharesTerm ρ q d)).card =
      (matching fts q).card := by
  symm
  refine Finset.card_bij (fun a _ => ((fts.mem.lookup a).map FtsDoc.key).getD []) ?_ ?_ ?_
  · intro a ha
    obtain ⟨hmem, hshare⟩ := mem_matching.mp ha
    obtain ⟨d, hd⟩ := Finmap.mem_iff.mp hmem
    have hdocs := h.docs_of_mem a d hd
    rw [Fts.termsAt, hd] at hshare
    rw [hd, Option.map_some, Option.getD_some, Finset.mem_filter, Fts.keys_table, Finmap.mem_keys, Finmap.mem_iff,
      h.lookup_table, Fts.find, hdocs, Option.bind_some, hd]
    refine ⟨⟨a, rfl⟩, ?_⟩
    simp only [Option.map_some, Option.any_some, decide_eq_true_eq]
    exact (sharesTerm_iff ρ hterms q d).mpr hshare
  · intro a ha b hb he
    obtain ⟨d, hd⟩ := Finmap.mem_iff.mp (mem_matching.mp ha).1
    obtain ⟨e, he'⟩ := Finmap.mem_iff.mp (mem_matching.mp hb).1
    rw [hd, he', Option.map_some, Option.map_some, Option.getD_some, Option.getD_some] at he
    have hdocs := h.docs_of_mem a d hd
    rw [he, h.docs_of_mem b e he'] at hdocs
    exact (Option.some.inj hdocs).symm
  · intro k hk
    obtain ⟨-, hany⟩ := Finset.mem_filter.mp hk
    rw [h.lookup_table] at hany
    rcases hf : fts.find k with _ | d
    · rw [hf] at hany
      cases hany
    · obtain ⟨a, -, hd, hkey⟩ := h.find_eq_some hf
      rw [hf, Option.map_some, Option.any_some, decide_eq_true_eq, sharesTerm_iff ρ hterms] at hany
      refine ⟨a, mem_matching.mpr ⟨Finmap.mem_iff.mpr ⟨d, hd⟩, ?_⟩, ?_⟩
      · rw [Fts.termsAt, hd]
        exact hany
      · rw [hd]
        exact hkey

theorem rrCmdDsearch_handles (env : ServerEnv G) (hterms : ρ.terms = termsOf) (hbm25 : ρ.bm25 = env.bm25) {query : StrObj}
    (h : db.Inv others) (hkey : sdsEncodedObject key.enc = true) (hquery : sdsEncodedObject query.enc = true) :
    Handles ((KeyCommand.documents (.dsearch query.text)).Acts ρ (db.store.lookup key.key)) new
      ((KeyCommand.documents (.dsearch query.text)).Crashes ρ (db.store.lookup key.key)) db key.key
      (rrCmdDsearch env db key query) := by
  refine .onCollection documentKind h hkey fun a val fts hl hx => ?_
  rw [onCollection_of_lookup h hkey hl hx]
  obtain rfl := fts?_eq hx
  have hfts : fts.Inv := h.stored _ _ hl
  rw [DocumentCommand.Crashes, card_sharing hterms hfts]
  rcases Nat.lt_or_ge (matching fts query.enc.bytes).card (2 ^ 31) with hsmall | hbig
  · obtain ⟨size, it, xs, hsearch, hall, hranked⟩ := hfts.searchRanked env.bm25 env.fts hquery hsmall
    obtain ⟨replies, hr, hsent⟩ := searchReplies_ok h hl fun x hxs => by
      obtain ⟨t, d, ht, -⟩ := (hranked.mem_iff x).mp hxs
      exact ⟨t, ht⟩
    rw [← hbm25] at hranked
    refine .readHere documentKind hl hx (by simp only [hsearch, Exec.ok_bind, hall, hr]; rfl)
      ⟨rfl, _, hranked.ranking hterms hfts, rfl⟩ (sent_array ?_ hsent) (Nat.not_le.mpr hsmall)
    rw [hranked.size_eq, ← List.length_map fts.resultDoc]
    induction xs.map fts.resultDoc with
    | nil => rfl
    | cons e es ih => rw [List.flatMap_cons, List.length_append, List.length_cons, Nat.add_mul, ih, Nat.add_comm]; rfl
  · refine .error (e := .nullPointer) ?_ hbig
    rw [hfts.ftsSearch_overflow env.bm25 env.fts hquery hbig]
    rfl

/-- What DSET adds to: the set at the key, or a new one. -/
theorem rrCmdDset_source {H : Type} (env : ServerEnv H) {doc title' : StrObj} {replies : List ReplyCall} {db' : Keyspace}
    (h : db.Inv others) (hkey : sdsEncodedObject key.enc = true) (hdoc : sdsEncodedObject doc.enc = true)
    (hset : ∀ o, db.dict.toMap.lookup key.key = some o → ∃ fts, o.val = .fts fts)
    (run : rrCmdDset env db key title doc = .ok (db', title', replies)) (ht : sdsEncodedObject title'.enc = true) :
    ∃ a fts fts' added, Created .documents ∅ ((db.dict.toMap.lookup key.key).map fun o => o.val.value) fts.table ∧ fts.Inv ∧
      db'.dict.toMap.lookup key.key = some ⟨a, .fts fts'⟩ ∧ Added fts fts' title' doc added := by
  obtain ⟨⟨a, content⟩, db₁, hget, h₁, hl, -, -, -, hwas⟩ :=
    rrDbLookupOrCreate_spec env h hkey createFTSObject_inv createFTSObject_held
  obtain ⟨fts, rfl⟩ : ∃ fts, content = .fts fts := by
    rcases hwas with ⟨hwas, -⟩ | ⟨-, hnew⟩
    · exact hset _ hwas
    · exact ⟨ftsCreate, hnew⟩
  have hfts : fts.Inv := h₁.stored _ _ hl
  simp only [rrCmdDset, hget, Exec.ok_bind] at run
  obtain ⟨⟨t, refs⟩, -, run⟩ := Exec.bind_eq_ok.mp run
  obtain ⟨⟨added, fts', log⟩, hadd, run⟩ := Exec.bind_eq_ok.mp run
  obtain ⟨refs', -, run⟩ := Exec.bind_eq_ok.mp run
  obtain ⟨db₂, hput, he⟩ := Exec.bind_eq_ok.mp run
  obtain ⟨rfl, rfl, -⟩ : db₂ = db' ∧ t = title' ∧ _ := by simpa using he
  obtain ⟨added', fts₁, hadd', hadded⟩ := ftsAdd_spec hfts env.fts ht hdoc
  obtain ⟨rfl, rfl, -⟩ : added = added' ∧ fts' = fts₁ ∧ _ := by simpa using hadd.symm.trans hadd'
  obtain ⟨d, hmod, -, hm, -⟩ := dictModify_spec h₁.dict (k := key.enc.bytes) hl ⟨a, .fts fts'⟩
  refine ⟨a, fts, fts', added, ?_, hfts, ?_, hadded⟩
  · rcases hwas with ⟨hwas, -⟩ | ⟨hwas, hnew⟩
    · rw [hwas]
      exact .inr rfl
    · obtain rfl : fts = ftsCreate := ObjVal.fts.inj hnew
      rw [hwas]
      exact .inl ⟨rfl, ftsCreate_table⟩
  · simp only [setContents, StrEnc.ptr_of_sds hkey, Exec.ok_bind, hmod, Exec.pure_eq] at hput
    obtain rfl := Except.ok.inj hput
    change d.toMap.lookup key.key = _
    rw [hm]
    exact Finmap.lookup_insert _

/-- DSET on whatever the key holds. A title that spells an integer stops it, once the arguments
are known to be new. -/
theorem rrCmdDset_handles {H : Type} (env : ServerEnv H) {doc : StrObj} (h : db.Inv (title.addr ::ₘ doc.addr ::ₘ others))
    (hkey : sdsEncodedObject key.enc = true) (htitle : sdsEncodedObject title.enc = true)
    (hdoc : sdsEncodedObject doc.enc = true) (hshort : doc.enc.bytes.length < 2 ^ 31) :
    Handles ((KeyCommand.dset title.key ⟨title.text, doc.text⟩).Acts ρ (db.store.lookup key.key))
      (refcount db.refs title.addr = .ok 1)
      ((KeyCommand.dset title.key ⟨title.text, doc.text⟩).Crashes ρ (db.store.lookup key.key)) db key.key
      (outcome (rrCmdDset env db key title doc)) := by
  rw [Keyspace.lookup_store]
  by_cases htype : ∀ o, db.dict.toMap.lookup key.key = some o → ∃ fts, o.val = .fts fts
  · obtain ⟨title', hbytes, hspell, hbad, hgood⟩ := rrCmdDset_spec env h hkey htitle hdoc htype
    have hcreated : ∃ m, Created .documents ∅ ((db.dict.toMap.lookup key.key).map fun o => o.val.value) m := by
      rcases hl : db.dict.toMap.lookup key.key with _ | ⟨a, val⟩
      · exact ⟨∅, .inl ⟨rfl, rfl⟩⟩
      · obtain ⟨fts, rfl⟩ := htype _ hl
        exact ⟨fts.table, .inr rfl⟩
    cases hs : sdsEncodedObject title'.enc with
    | false =>
      obtain ⟨e, he, -⟩ := hbad hs
      have hrun : outcome (rrCmdDset env db key title doc) = .error e := by rw [outcome, he]; rfl
      refine ⟨fun r hr => ?_, fun hnew => ?_⟩
      · rw [hrun] at hr
        cases hr
      · have hint : spellsInteger title.text = true := by
          change spellsInteger title.enc.bytes = true
          have hnot := hspell hnew
          rw [hs] at hnot
          simpa using hnot.symm
        obtain ⟨m, hm⟩ := hcreated
        refine iff_of_false ?_ (not_not.mpr ⟨m, hm, hint⟩)
        rintro ⟨r, hr⟩
        rw [hrun] at hr
        cases hr
    | true =>
      obtain ⟨added, db', a, fts, fts', hr, h', hup, hadd₀⟩ := hgood hs
      obtain rfl : added = true := hadd₀.added_eq.trans (rawTerms_isSome hshort)
      obtain ⟨a₁, fts₁, fts₂, added₁, hwas, hfts, hl', hadd⟩ := rrCmdDset_source env h hkey hdoc htype hr hs
      obtain ⟨rfl, rfl⟩ : a = a₁ ∧ fts' = fts₂ := by simpa using hup.lookup.symm.trans hl'
      have hrun : outcome (rrCmdDset env db key title doc) =
          .ok (db', [.obj Shared.ok]) := by rw [outcome, hr]; rfl
      have htitle' : title'.key = title.key := congrArg cStr hbytes
      obtain rfl : added₁ = true := hadd.added_eq.trans (rawTerms_isSome hshort)
      have hnew : fts'.table = fts₁.table.insert title.key ⟨title.text, doc.text⟩ := by
        rw [hfts.table_update hadd.inv hadd.find_eq, htitle', if_pos rfl, Option.map_some, FtsDoc.plain, StrObj.text, hbytes]
        rfl
      refine ⟨fun r hr => ?_, fun hone => iff_of_true ⟨_, hrun⟩ ?_⟩
      · rw [hrun] at hr
        obtain rfl := Except.ok.inj hr
        refine ⟨some (.documents fts'.table), .ok, ?_, hup.store, sent_ok⟩
        rw [hnew]
        rcases hwas with ⟨hwas, hempty⟩ | hwas
        · rw [hwas, hempty]
          exact .absent
        · rw [hwas]
          exact .here _
      · rintro ⟨m, -, hint⟩
        have hnot := hspell hone
        rw [hs, show spellsInteger title.enc.bytes = true from hint] at hnot
        cases hnot
  · simp only [not_forall, not_exists] at htype
    obtain ⟨o, hl, hne⟩ := htype
    have hother : ∀ m, o.val.value ≠ .documents m := by
      refine documentKind.other o.val ?_
      cases hval : o.val with
      | fts f => exact absurd hval (hne f)
      | _ => rfl
    rw [hl, Option.map_some]
    refine .read (by rw [outcome, rrCmdDset_wrongtype env title doc h hkey hl hne]; rfl) ?_ sent_wrongType ?_
    · rw [Keyspace.lookup_store, hl]
      exact .wrongType hother
    · rintro ⟨m, hm | hm, -⟩
      · cases hm.1
      · exact hother m (Option.some.inj hm)

end Documents

end RhinoRox
