import RhinoRox.DocumentRequests
import RhinoRox.FtsRanking
import RhinoRox.TrieCommands

/-!
# No command touches a freed object

In a keyspace whose reference counts are right, a command can go wrong in several ways, but
never by using an object that has been freed. This includes every call of `decrRefCount`.
-/

namespace RhinoRox

open KeyedTotal

/-- The run does not use a freed object. -/
def NoFreed {α : Type} (x : Exec α) : Prop := x ≠ .error .freedMemory

namespace NoFreed
variable {α β : Type}

theorem ok {x : Exec α} {a : α} (h : x = .ok a) : NoFreed x := by
  rw [NoFreed, h]
  intro he
  cases he

theorem error {x : Exec α} {e : Fault} (h : x = .error e) (he : e ≠ .freedMemory) : NoFreed x := by
  rw [NoFreed, h]
  exact fun heq => he (Except.error.inj heq)

theorem pure (a : α) : NoFreed (Pure.pure a : Exec α) := ok rfl

theorem bind {x : Exec α} {f : α → Exec β} (h : NoFreed x) (hf : ∀ a, x = .ok a → NoFreed (f a)) :
    NoFreed (x >>= f) := by
  cases x with
  | error e => exact error rfl fun he => h (congrArg Except.error he)
  | ok a => exact hf a rfl

/-- Only a collection of the right type is touched. -/
theorem onCollection {db : Keyspace} {others : Multiset ℕ} {key : StrObj} {select : ObjVal → Option α}
    {run : Robj → α → CmdRun} (h : db.Inv others) (hkey : sdsEncodedObject key.enc = true)
    (hrun : ∀ o x, db.dict.toMap.lookup key.key = some o → select o.val = some x →
      NoFreed (onCollection select db key run)) : NoFreed (onCollection select db key run) := by
  cases hl : db.dict.toMap.lookup key.key with
  | none => exact ok (by simp only [RhinoRox.onCollection, rrDbLookup_spec h hkey, Exec.ok_bind, hl]; rfl)
  | some o =>
    cases hx : select o.val with
    | none => exact ok (by simp only [RhinoRox.onCollection, rrDbLookup_spec h hkey, Exec.ok_bind, hl, hx]; rfl)
    | some x => exact hrun o x hl hx

end NoFreed

section Handlers
variable {db : Keyspace} {others : Multiset ℕ} {key : StrObj}

/-! ## Tries -/

theorem rrCmdRget_noFreed {field : StrObj} (h : db.Inv others) (hkey : sdsEncodedObject key.enc = true)
    (hfield : sdsEncodedObject field.enc = true) : NoFreed (rrCmdRget db key field) := by
  refine .onCollection h hkey fun o trie hl hx => ?_
  obtain ⟨a, val⟩ := o
  obtain rfl := hash?_eq hx
  exact .ok (rrCmdRget_spec h hkey hfield hl)

theorem rrCmdRexists_noFreed {field : StrObj} (h : db.Inv others) (hkey : sdsEncodedObject key.enc = true)
    (hfield : sdsEncodedObject field.enc = true) : NoFreed (rrCmdRexists db key field) := by
  refine .onCollection h hkey fun o trie hl hx => ?_
  obtain ⟨a, val⟩ := o
  obtain rfl := hash?_eq hx
  exact .ok (rrCmdRexists_spec h hkey hfield hl)

theorem rrCmdRpget_noFreed {pre : StrObj} (h : db.Inv others) (hkey : sdsEncodedObject key.enc = true)
    (hpre : sdsEncodedObject pre.enc = true) : NoFreed (rrCmdRpget db key pre) := by
  refine .onCollection h hkey fun o trie hl hx => ?_
  obtain ⟨a, val⟩ := o
  obtain rfl := hash?_eq hx
  obtain ⟨hserved, hnone⟩ := rrCmdRpget_spec h hkey hpre hl
  by_cases hs : PrefixServed trie pre.enc.bytes
  · exact .ok (hserved hs)
  · exact .error (hnone hs) (by decide)

theorem rrCmdRdel_noFreed {field : StrObj} (h : db.Inv others) (hkey : sdsEncodedObject key.enc = true)
    (hfield : sdsEncodedObject field.enc = true) : NoFreed (rrCmdRdel db key field) := by
  refine .onCollection h hkey fun o trie hl hx => ?_
  obtain ⟨a, val⟩ := o
  obtain rfl := hash?_eq hx
  have hspec := rrCmdRdel_spec h hkey hfield hl
  cases hv : trie.toMap.lookup field.key with
  | none =>
    rw [hv] at hspec
    exact .error hspec (by decide)
  | some v =>
    rw [hv] at hspec
    obtain ⟨db', trie', hrun, -⟩ := hspec
    exact .ok hrun

theorem pairReplies_noFreed (flags : DictFlags) {kvs : List (Bytes × StrObj)}
    (h : ∀ kv ∈ kvs, ∃ n, refcount db.refs kv.2.addr = .ok n) : NoFreed (pairReplies db flags kvs) := by
  induction kvs with
  | nil => exact .pure _
  | cons kv kvs ih =>
    obtain ⟨n, hn⟩ := h kv List.mem_cons_self
    have hbulk : NoFreed (bulkReply db kv.2) := .bind (.ok hn) fun _ _ => .pure _
    have hpair : NoFreed (pairReply db flags kv) := by
      rw [pairReply]
      split
      · exact .bind hbulk fun _ _ => .pure _
      · exact .pure _
    have hrest : NoFreed (pairReplies db flags kvs) := ih fun kv' hkv' => h kv' (List.mem_cons_of_mem kv hkv')
    exact .bind hpair fun _ _ => .bind hrest fun _ _ => .pure _

theorem arrayLoad_noFreed {α : Type} (a : ArrayT α) (p : Option ℕ) :
    NoFreed (arrayLoad a p) ∧ ∀ x, arrayLoad a p = .ok x → some x ∈ a.elm := by
  cases p with
  | none => exact ⟨.error rfl (by decide), fun x hx => by cases hx⟩
  | some i =>
    simp only [arrayLoad]
    cases he : a.elm[i]? with
    | none => exact ⟨.error rfl (by decide), fun x hx => by cases hx⟩
    | some slot =>
      cases slot with
      | none => exact ⟨.error rfl (by decide), fun x hx => by cases hx⟩
      | some y =>
        refine ⟨.pure _, fun x hx => ?_⟩
        obtain rfl := Except.ok.inj hx
        exact List.mem_of_getElem? he

/-- The pairs read back are those that were stored. -/
theorem arrayAtAll_noFreed (kvs : List (Bytes × StrObj)) (is : List ℕ) :
    NoFreed (arrayAtAll kvs is) ∧ ∀ loaded, arrayAtAll kvs is = .ok loaded → ∀ kv ∈ loaded, kv ∈ kvs := by
  induction is with
  | nil =>
    refine ⟨.pure _, ?_⟩
    rintro loaded he
    obtain rfl := Except.ok.inj he
    simp
  | cons i is ih =>
    refine ⟨.bind (arrayLoad_noFreed _ _).1 fun _ _ => .bind ih.1 fun _ _ => .pure _, ?_⟩
    intro loaded he
    obtain ⟨kv, hkv, he⟩ := Exec.bind_eq_ok.mp he
    obtain ⟨rest, hrest, he⟩ := Exec.bind_eq_ok.mp he
    obtain rfl := Except.ok.inj he
    intro kv' hmem
    rcases List.mem_cons.mp hmem with rfl | hmem
    · simpa using (arrayLoad_noFreed _ _).2 kv' hkv
    · exact ih.2 rest hrest kv' hmem

theorem getAllReply_noFreed (flags : DictFlags) (h : db.Inv others) (hkey : sdsEncodedObject key.enc = true) :
    NoFreed (getAllReply db key flags) := by
  refine .onCollection h hkey fun o trie hl hx => ?_
  rw [onCollection_of_lookup h hkey hl hx]
  obtain ⟨a, val⟩ := o
  obtain rfl := hash?_eq hx
  have htrie : trie.Inv := (h.stored _ _ hl).1
  obtain ⟨it, hit, hall⟩ := dictIterCreate_spec htrie
  obtain ⟨hload, hmem⟩ := arrayAtAll_noFreed trie.entries (List.range trie.entries.length)
  refine .bind (.ok hit) fun it' hit' => ?_
  obtain rfl := Except.ok.inj (hit.symm.trans hit')
  refine .bind (.ok hall) fun kvs hkvs => ?_
  obtain rfl := Except.ok.inj (hall.symm.trans hkvs)
  refine .bind hload fun loaded hloaded => ?_
  refine .bind (pairReplies_noFreed flags fun kv hkv => ?_) fun _ _ => .pure _
  have hv := htrie.lookup_iff.mpr (hmem loaded hloaded kv hkv)
  exact h.mem_held hl (Multiset.mem_cons_of_mem (mem_hash_held hv))

/-! ## Heaps -/

theorem popnLoop_ok {a n : ℕ} {val : ObjVal} {heap : Minheap HqItem} (h : db.Inv others)
    (hkey : sdsEncodedObject key.enc = true) (hl : db.dict.toMap.lookup key.key = some ⟨a, .heapq heap⟩) :
    ∃ r, popnLoop key ⟨a, val⟩ n db heap = .ok r := by
  induction n generalizing db heap with
  | zero => exact ⟨_, rfl⟩
  | succ n ih =>
    obtain ⟨hempty, hsome⟩ := popReply_spec val h hkey hl
    rcases Nat.eq_zero_or_pos heap.len with hzero | hpos
    · obtain ⟨db₁, hr, -⟩ := hempty hzero
      exact ⟨_, by simp only [popnLoop, hr, Exec.ok_bind]; rfl⟩
    · obtain ⟨item, heap', db₁, hr, h₁, hup, -⟩ := hsome hpos
      obtain ⟨⟨db₂, rest⟩, hrest⟩ := ih h₁ hup.lookup
      exact ⟨_, by simp only [popnLoop, hr, Exec.ok_bind, hrest]; rfl⟩

theorem rrCmdHqpop_noFreed (h : db.Inv others) (hkey : sdsEncodedObject key.enc = true) :
    NoFreed (rrCmdHqpop db key) := by
  refine .onCollection h hkey fun o heap hl hx => ?_
  rw [onCollection_of_lookup h hkey hl hx]
  obtain ⟨a, val⟩ := o
  obtain rfl := heapq?_eq hx
  obtain ⟨hempty, hsome⟩ := popReply_spec (.heapq heap) h hkey hl
  rcases Nat.eq_zero_or_pos heap.len with hzero | hpos
  · obtain ⟨db₁, hr, -⟩ := hempty hzero
    exact .bind (.ok hr) fun _ _ => .pure _
  · obtain ⟨item, heap', db₁, hr, -⟩ := hsome hpos
    exact .bind (.ok hr) fun _ _ => .pure _

theorem rrCmdHqpopn_noFreed {count : StrObj} (h : db.Inv others) (hkey : sdsEncodedObject key.enc = true) :
    NoFreed (rrCmdHqpopn db key count) := by
  rw [rrCmdHqpopn]
  cases getLongFromObjectOrReply count.enc with
  | inr err => exact .pure _
  | inl n =>
    simp only
    split
    · exact .pure _
    refine .onCollection h hkey fun o heap hl hx => ?_
    rw [onCollection_of_lookup h hkey hl hx]
    obtain ⟨a, val⟩ := o
    obtain rfl := heapq?_eq hx
    obtain ⟨r, hr⟩ := popnLoop_ok (n := min n.toNat (minheapLen heap)) h hkey hl
    exact .bind (.ok hr) fun _ _ => .pure _

theorem rrCmdHqpeek_noFreed (h : db.Inv others) (hkey : sdsEncodedObject key.enc = true) :
    NoFreed (rrCmdHqpeek db key) := by
  refine .onCollection h hkey fun o heap hl hx => ?_
  rw [onCollection_of_lookup h hkey hl hx]
  obtain ⟨a, val⟩ := o
  obtain rfl := heapq?_eq hx
  have hi : heap.Inv hqComparator := h.stored _ _ hl
  rcases Nat.eq_zero_or_pos heap.len with hzero | hpos
  · have hmin : minheapMin heap = .ok none := by simp [minheapMin, hzero]
    exact .ok (by simp only [hmin, Exec.ok_bind]; rfl)
  · obtain ⟨item, hmin, hmem, -⟩ := minheapMin_spec hi hpos
    have hheld : item.obj.addr ∈ (ObjVal.heapq heap).held := Multiset.mem_map_of_mem (fun i => i.obj.addr) hmem
    exact .ok (by simp only [hmin, Exec.ok_bind, h.bulkReply hl hheld]; rfl)

/-! ## Document sets -/

theorem rrCmdDget_noFreed {title : StrObj} (h : db.Inv others) (hkey : sdsEncodedObject key.enc = true)
    (htitle : sdsEncodedObject title.enc = true) : NoFreed (rrCmdDget db key title) := by
  refine .onCollection h hkey fun o fts hl hx => ?_
  obtain ⟨a, val⟩ := o
  obtain rfl := fts?_eq hx
  exact .ok (rrCmdDget_spec h hkey htitle hl)

variable {G : Type} (env : ServerEnv G)

theorem rrCmdDdel_noFreed {title : StrObj} (h : db.Inv others) (hkey : sdsEncodedObject key.enc = true)
    (htitle : sdsEncodedObject title.enc = true) : NoFreed (rrCmdDdel env db key title) := by
  refine .onCollection h hkey fun o fts hl hx => ?_
  obtain ⟨a, val⟩ := o
  obtain rfl := fts?_eq hx
  obtain ⟨db', fts', hrun, -⟩ := rrCmdDdel_spec env h hkey htitle hl
  exact .ok hrun

/-- The documents of a search are stored, and so are their titles and texts. -/
theorem searchReplies_noFreed {a : ℕ} {fts : Fts} (h : db.Inv others)
    (hl : db.dict.toMap.lookup key.key = some ⟨a, .fts fts⟩) {found : List (DocScore G)}
    (hfound : ∀ x ∈ found, ∃ t, fts.docs.toMap.lookup t = some x.doc) : NoFreed (searchReplies db fts found) := by
  have hi : fts.Inv := h.stored _ _ hl
  induction found with
  | nil => exact .pure _
  | cons x found ih =>
    obtain ⟨t, ht⟩ := hfound x List.mem_cons_self
    obtain ⟨d, hmem, -, hfind⟩ := hi.find_of_docs ht
    have hheld : ∀ o ∈ [d.title, d.doc], o.addr ∈ (ObjVal.fts fts).held := by
      intro o ho
      rw [ObjVal.held, fts.held_eq t, hfind, part_some]
      exact Multiset.mem_add.mpr (.inl (List.mem_map_of_mem ho))
    have htitle := h.bulkReply hl (hheld d.title (by simp))
    have hdoc := h.bulkReply hl (hheld d.doc (by simp))
    have hrest := ih fun y hy => hfound y (List.mem_cons_of_mem x hy)
    refine .bind (.ok (ftsDocLoad_ok hmem)) fun d' hd' => ?_
    obtain rfl := Except.ok.inj ((ftsDocLoad_ok hmem).symm.trans hd')
    exact .bind (.ok htitle) fun _ _ => .bind (.ok hdoc) fun _ _ => .bind hrest fun _ _ => .pure _

theorem rrCmdDsearch_noFreed [AddCommGroup G] [LinearOrder G] {query : StrObj} (h : db.Inv others)
    (hkey : sdsEncodedObject key.enc = true) (hquery : sdsEncodedObject query.enc = true) :
    NoFreed (rrCmdDsearch env db key query) := by
  refine .onCollection h hkey fun o fts hl hx => ?_
  rw [onCollection_of_lookup h hkey hl hx]
  obtain ⟨a, val⟩ := o
  obtain rfl := fts?_eq hx
  have hi : fts.Inv := h.stored _ _ hl
  rcases Nat.lt_or_ge (matching fts query.enc.bytes).card (2 ^ 31) with hsmall | hbig
  · obtain ⟨size, it, xs, hsearch, hall, hranked⟩ := hi.searchRanked env.bm25 env.fts hquery hsmall
    have hreplies : NoFreed (searchReplies db fts xs) := searchReplies_noFreed h hl fun x hxs => by
      obtain ⟨t, d, ht, -⟩ := (hranked.mem_iff x).mp hxs
      exact ⟨t, ht⟩
    simp only [hsearch, Exec.ok_bind, hall]
    exact .bind hreplies fun _ _ => .pure _
  · exact .bind (.error (hi.ftsSearch_overflow env.bm25 env.fts hquery hbig) (by decide)) fun r hr => by
      rw [hi.ftsSearch_overflow env.bm25 env.fts hquery hbig] at hr
      cases hr

/-! ## Commands that store an argument -/

theorem rrCmdSet_noFreed {val : StrObj} (h : db.Inv (val.addr ::ₘ others)) (hkey : sdsEncodedObject key.enc = true)
    (hval : sdsEncodedObject val.enc = true) : NoFreed (rrCmdSet env db key val) := by
  obtain ⟨hbad, hgood⟩ := rrCmdSet_spec env h hkey hval
  by_cases hw : db.WildAt key.key
  · exact .error (hbad hw) (by decide)
  · obtain ⟨db', val', leaked, hrun, -⟩ := hgood hw
    exact .ok hrun

theorem rrCmdDel_noFreed (h : db.Inv others) (hkey : sdsEncodedObject key.enc = true) :
    NoFreed (rrCmdDel env db key) := by
  obtain ⟨hbad, hgood⟩ := rrCmdDel_spec env h hkey
  by_cases hw : db.WildAt key.key
  · exact .error (hbad hw) (by decide)
  · obtain ⟨db', leaked, hrun, -⟩ := hgood hw
    exact .ok hrun

theorem rrCmdRset_noFreed {field val : StrObj} (h : db.Inv (val.addr ::ₘ others))
    (hkey : sdsEncodedObject key.enc = true) (hfield : sdsEncodedObject field.enc = true)
    (hval : sdsEncodedObject val.enc = true) : NoFreed (rrCmdRset env db key field val) := by
  by_cases htype : ∀ o, db.dict.toMap.lookup key.key = some o → ∃ trie, o.val = .hash trie
  · obtain ⟨db', val', a, trie, trie', hrun, -⟩ := rrCmdRset_spec env h hkey hfield hval htype
    exact .ok hrun
  · simp only [not_forall, not_exists] at htype
    obtain ⟨o, hl, hne⟩ := htype
    exact .ok (rrCmdRset_wrongtype env field val h hkey hl hne)

theorem rrCmdHqpush_noFreed {score val : StrObj} (h : db.Inv (val.addr ::ₘ others))
    (hkey : sdsEncodedObject key.enc = true) (hval : sdsEncodedObject val.enc = true) :
    NoFreed (rrCmdHqpush env db key score val) := by
  cases hscore : getDoubleFromObjectOrReply env score.enc with
  | inr err => exact .ok (by simp only [rrCmdHqpush, hscore]; rfl)
  | inl x =>
    by_cases htype : ∀ o, db.dict.toMap.lookup key.key = some o → ∃ heap, o.val = .heapq heap
    · obtain ⟨a, heap, -, hover, hgood⟩ := rrCmdHqpush_spec env h hkey hval hscore htype
      rcases Nat.lt_or_ge (heap.len + 1) (2 ^ 31) with hroom | hfull
      · obtain ⟨db', val', heap', hrun, -⟩ := hgood hroom
        exact .ok hrun
      · exact .error (hover hfull) (by decide)
    · simp only [not_forall, not_exists] at htype
      obtain ⟨o, hl, hne⟩ := htype
      exact .ok (rrCmdHqpush_wrongtype env score val h hkey hscore hl hne)

theorem rrCmdDset_noFreed {title doc : StrObj} (h : db.Inv (title.addr ::ₘ doc.addr ::ₘ others))
    (hkey : sdsEncodedObject key.enc = true) (htitle : sdsEncodedObject title.enc = true)
    (hdoc : sdsEncodedObject doc.enc = true) : NoFreed (rrCmdDset env db key title doc) := by
  by_cases hset : ∀ o, db.dict.toMap.lookup key.key = some o → ∃ fts, o.val = .fts fts
  · obtain ⟨title', -, -, hbad, hgood⟩ := rrCmdDset_spec env h hkey htitle hdoc hset
    cases hs : sdsEncodedObject title'.enc with
    | false =>
      obtain ⟨e, hrun, hne⟩ := hbad hs
      exact .error hrun hne
    | true =>
      obtain ⟨added, db', a, fts, fts', hrun, -⟩ := hgood hs
      exact .ok hrun
  · simp only [not_forall, not_exists] at hset
    obtain ⟨o, hl, hne⟩ := hset
    exact .ok (rrCmdDset_wrongtype env title doc h hkey hl hne)

end Handlers

/-! ## Dispatch -/

section Dispatch
variable {db : Keyspace} {others : Multiset ℕ} {argv : List StrObj}

theorem argAt_noFreed {β : Type} {i : ℕ} {f : StrObj → Exec β} (h : ∀ o, argv[i]? = some o → NoFreed (f o)) :
    NoFreed (argAt argv i >>= f) := by
  rw [argAt]
  cases ho : argv[i]? with
  | none => exact .error rfl (by decide)
  | some o => exact h o ho

theorem keepArgv_noFreed {run : CmdRun} (h : NoFreed run) : NoFreed (keepArgv argv run) := .bind h fun _ _ => .pure _

theorem replaceArg_noFreed {i : ℕ} {run : Exec (Keyspace × StrObj × List ReplyCall)} (h : NoFreed run) :
    NoFreed (replaceArg argv i run) := .bind h fun _ _ => .pure _

theorem withKey_noFreed {run : StrObj → CmdRun} (h : ∀ key, argv[1]? = some key → NoFreed (run key)) :
    NoFreed (withKey argv run) := argAt_noFreed fun key hkey => keepArgv_noFreed (h key hkey)

theorem withKeyAndArg_noFreed {run : StrObj → StrObj → CmdRun}
    (h : ∀ key x, argv[1]? = some key → argv[2]? = some x → NoFreed (run key x)) :
    NoFreed (withKeyAndArg argv run) :=
  argAt_noFreed fun key hkey => argAt_noFreed fun x hx => keepArgv_noFreed (h key x hkey hx)

variable {G : Type} [AddCommGroup G] [LinearOrder G] (env : ServerEnv G)

theorem call_noFreed (cmd : RedisCommand) (h : db.Inv (addrs argv + others)) (hs : AllParsed argv) :
    NoFreed (call env cmd db argv) := by
  rw [call]
  cases cmd.proc with
  | rrCmdGet => exact withKey_noFreed fun key hkey => .ok (rrCmdGet_spec h (hs.argAt hkey))
  | rrCmdLen => exact keepArgv_noFreed (.pure _)
  | rrCmdSet =>
    exact argAt_noFreed fun key hkey => argAt_noFreed fun val hval =>
      replaceArg_noFreed (rrCmdSet_noFreed env (h.argument hval) (hs.argAt hkey) (hs.argAt hval))
  | rrCmdDel => exact withKey_noFreed fun key hkey => rrCmdDel_noFreed env h (hs.argAt hkey)
  | rrCmdExists => exact withKey_noFreed fun key hkey => .ok (rrCmdExists_spec h (hs.argAt hkey))
  | rrCmdRget => exact withKeyAndArg_noFreed fun key x hkey hx => rrCmdRget_noFreed h (hs.argAt hkey) (hs.argAt hx)
  | rrCmdRpget => exact withKeyAndArg_noFreed fun key x hkey hx => rrCmdRpget_noFreed h (hs.argAt hkey) (hs.argAt hx)
  | rrCmdRlen =>
    exact withKey_noFreed fun key hkey => .onCollection h (hs.argAt hkey) fun o x hl hx =>
      .ok (onCollection_of_lookup h (hs.argAt hkey) hl hx)
  | rrCmdRset =>
    exact argAt_noFreed fun key hkey => argAt_noFreed fun field hfield => argAt_noFreed fun val hval =>
      replaceArg_noFreed (rrCmdRset_noFreed env (h.argument hval) (hs.argAt hkey) (hs.argAt hfield) (hs.argAt hval))
  | rrCmdRdel => exact withKeyAndArg_noFreed fun key x hkey hx => rrCmdRdel_noFreed h (hs.argAt hkey) (hs.argAt hx)
  | rrCmdRkeys => exact withKey_noFreed fun key hkey => getAllReply_noFreed _ h (hs.argAt hkey)
  | rrCmdRvalues => exact withKey_noFreed fun key hkey => getAllReply_noFreed _ h (hs.argAt hkey)
  | rrCmdRgetall => exact withKey_noFreed fun key hkey => getAllReply_noFreed _ h (hs.argAt hkey)
  | rrCmdRexists => exact withKeyAndArg_noFreed fun key x hkey hx => rrCmdRexists_noFreed h (hs.argAt hkey) (hs.argAt hx)
  | rrCmdHqpush =>
    exact argAt_noFreed fun key hkey => argAt_noFreed fun score _ => argAt_noFreed fun val hval =>
      replaceArg_noFreed (rrCmdHqpush_noFreed env (h.argument hval) (hs.argAt hkey) (hs.argAt hval))
  | rrCmdHqpop => exact withKey_noFreed fun key hkey => rrCmdHqpop_noFreed h (hs.argAt hkey)
  | rrCmdHqpopn => exact withKeyAndArg_noFreed fun key x hkey _ => rrCmdHqpopn_noFreed h (hs.argAt hkey)
  | rrCmdHqpeek => exact withKey_noFreed fun key hkey => rrCmdHqpeek_noFreed h (hs.argAt hkey)
  | rrCmdHqlen =>
    exact withKey_noFreed fun key hkey => .onCollection h (hs.argAt hkey) fun o x hl hx =>
      .ok (onCollection_of_lookup h (hs.argAt hkey) hl hx)
  | rrCmdDset =>
    refine argAt_noFreed fun key hkey => argAt_noFreed fun title htitle => argAt_noFreed fun doc hdoc => ?_
    have hdb := h.argument htitle
    rw [addrs_withoutTitle hdoc, Multiset.cons_add] at hdb
    exact replaceArg_noFreed (rrCmdDset_noFreed env hdb (hs.argAt hkey) (hs.argAt htitle) (hs.argAt hdoc))
  | rrCmdDget => exact withKeyAndArg_noFreed fun key x hkey hx => rrCmdDget_noFreed h (hs.argAt hkey) (hs.argAt hx)
  | rrCmdDdel =>
    exact withKeyAndArg_noFreed fun key x hkey hx => rrCmdDdel_noFreed env h (hs.argAt hkey) (hs.argAt hx)
  | rrCmdDsearch =>
    exact withKeyAndArg_noFreed fun key x hkey hx => rrCmdDsearch_noFreed env h (hs.argAt hkey) (hs.argAt hx)
  | rrCmdDlen =>
    exact withKey_noFreed fun key hkey => .onCollection h (hs.argAt hkey) fun o x hl hx =>
      .ok (onCollection_of_lookup h (hs.argAt hkey) hl hx)
  | rrCmdType => exact withKey_noFreed fun key hkey => .ok (rrCmdType_spec h (hs.argAt hkey))
  | rrCmdAdminPing =>
    simp only [rrCmdAdminPing]
    split_ifs
    · exact .pure _
    · exact .pure _
    · exact withKey_noFreed fun _ _ => .pure _
  | rrCmdAdminEcho => exact withKey_noFreed fun _ _ => .pure _
  | rrCmdAdminShutdown => exact .error rfl (by decide)
  | rrCmdAdminInfo => exact .pure _

theorem cmdDispatch_noFreed {commands : DictT RedisCommand}
    (hcommands : ∀ name, cmdLookup commands name = .ok (commandNamed name)) (h : db.Inv (addrs argv + others))
    (hs : AllParsed argv) : NoFreed (cmdDispatch env commands db argv) := by
  refine argAt_noFreed fun name hname => ?_
  simp only [StrEnc.ptr_of_sds (hs.argAt hname), Exec.ok_bind, hcommands]
  have haddrs : addrs (argv.set 0 ⟨name.addr, lowerName name.enc⟩) = addrs argv := by
    rw [addrs_set (length_of_argAt hname), addrs_eq_cons hname]
  rw [← haddrs] at h
  cases commandNamed name.enc.bytes with
  | none => exact .pure _
  | some cmd =>
    simp only
    split
    · exact .pure _
    · exact call_noFreed env cmd h (hs.lowered hname)

end Dispatch

/-! ## The steps of the server -/

namespace Server
variable {G : Type} [AddCommGroup G] [LinearOrder G] {s : Server}

/-- No request of any client uses a freed object. -/
theorem execute_noFreed (env : ServerEnv G) (h : s.Inv) (c : ℕ) : NoFreed (s.execute env c) := by
  obtain ⟨leaked, hdb⟩ := h.db
  obtain ⟨s₁, hfree, -⟩ := freeClientArgv_spec hdb c
  rw [execute]
  cases hargv : s.argvOf c with
  | nil => exact .bind (.ok hfree) fun _ _ => .pure _
  | cons name args =>
    simp only
    split
    · exact .pure _
    have hheld : s.db.Inv (addrs (name :: args) + (mapRest addrs s.argv c + leaked)) := by
      rw [argvHeld_eq s c, hargv, add_assoc] at hdb
      exact hdb
    have hs : AllParsed (name :: args) := hargv ▸ h.argvOf c
    refine .bind (cmdDispatch_noFreed env h.commands hheld hs) fun r hr => ?_
    obtain ⟨db, argv, replies⟩ := r
    rw [← hargv] at hr
    obtain ⟨s₂, lost, hfree₂, -⟩ := dispatch_spec env h hdb hr
    exact .bind (.ok hfree₂) fun _ _ => .pure _

end Server

end RhinoRox
