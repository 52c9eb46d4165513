import RhinoRox.ReadingCommands

/-!
# A stored value is read back

SET and GET, RSET and RGET, QPUSH and QPEEK or QPOP: the value comes back byte for byte,
whatever encoding `tryObjectEncoding` has picked and however full the output buffer is. Only
SET can fail, when the heap that it replaces cannot be released.
-/

namespace RhinoRox

/-- The calls append these bytes to the output of every client that may be written to. -/
def Sends (replies : List ReplyCall) (bs : Bytes) : Prop :=
  ∀ (fd : ℤ) (ops : List ReplyOp) (cl : Client), 0 < fd →
    (runReplies ⟨some (rrClientCreate fd), []⟩ ops).client = some cl → cl.closeAfterReply = false →
    unsent (replyAll cl replies) = unsent cl ++ bs

theorem sends_payload (replies : List ReplyCall) : Sends replies (replies.flatMap ReplyCall.payload) := by
  intro fd ops cl hfd hcl hopen
  obtain ⟨hi, hfd'⟩ := runReplies_outInv (rrClientCreate_outInv fd) hcl
  have ha := (replyAll_spec hi replies).unsent
  have hpos : 0 < cl.fd := by
    rw [hfd']
    exact hfd
  rwa [hopen, accepted, if_pos ⟨hpos, by simp⟩] at ha

theorem sends_bulkObj {o : StrEnc} {v : Bytes} (h : o.bytes = v) : Sends (replyAddBulkObj o) (bulkBytes v) := by
  have hs := sends_payload (replyAddBulkObj o)
  rwa [replyAddBulkObj_payload, ← bulkBytes_eq, h] at hs

/-! ## Heaps -/

section Heap
variable {db : Keyspace} {others : Multiset ℕ} {key : StrObj} {a : ℕ} {heap : Minheap HqItem} {item : HqItem}

theorem Minheap.Inv.len_of_singleton (h : heap.Inv hqComparator) (hone : heap.toMultiset = {item}) : 0 < heap.len := by
  rw [← h.card_toMultiset, hone, Multiset.card_singleton]
  exact Nat.one_pos

/-- QPEEK on a heap with one item. -/
theorem rrCmdHqpeek_singleton (h : db.Inv others) (hkey : sdsEncodedObject key.enc = true)
    (hl : db.dict.toMap.lookup key.key = some ⟨a, .heapq heap⟩) (hone : heap.toMultiset = {item}) :
    rrCmdHqpeek db key = .ok (db, replyAddBulkObj item.obj.enc) := by
  have hi : heap.Inv hqComparator := h.stored _ _ hl
  obtain ⟨x, hmin, hx, -⟩ := minheapMin_spec hi (hi.len_of_singleton hone)
  rw [hone] at hx
  obtain rfl := Multiset.mem_singleton.mp hx
  have hmem : x.obj.addr ∈ (ObjVal.heapq heap).held := by
    rw [ObjVal.held, hone]
    simp
  have hsel : ObjVal.heapq? (.heapq heap) = some heap := rfl
  rw [rrCmdHqpeek, onCollection_of_lookup h hkey hl hsel]
  simp only [hmin, Exec.ok_bind, h.bulkReply hl hmem, Exec.pure_eq]

/-- QPOP on a heap with one item. -/
theorem rrCmdHqpop_singleton (h : db.Inv others) (hkey : sdsEncodedObject key.enc = true)
    (hl : db.dict.toMap.lookup key.key = some ⟨a, .heapq heap⟩) (hone : heap.toMultiset = {item}) :
    ∃ db', rrCmdHqpop db key = .ok (db', replyAddBulkObj item.obj.enc) := by
  have hi : heap.Inv hqComparator := h.stored _ _ hl
  obtain ⟨x, heap', db', hpop, -, -, -, hm⟩ := (popReply_spec (.heapq heap) h hkey hl).2 (hi.len_of_singleton hone)
  have hx : x ∈ heap.toMultiset := by
    rw [hm]
    exact Multiset.mem_cons_self x _
  rw [hone] at hx
  obtain rfl := Multiset.mem_singleton.mp hx
  have hsel : ObjVal.heapq? (.heapq heap) = some heap := rfl
  refine ⟨db', ?_⟩
  rw [rrCmdHqpop, onCollection_of_lookup h hkey hl hsel]
  simp only [hpop, Exec.ok_bind, Exec.pure_eq]
  rfl

end Heap

/-! ## Requests that store -/

namespace Server
variable {G : Type} [AddCommGroup G] [LinearOrder G] (env env' : ServerEnv G) {s : Server} {c r : ℕ} {key v : Argument}

/-- The value of a key. -/
def valueOf (s : Server) (key : Argument) : Option Robj := s.db.dict.toMap.lookup (cStr key.enc.bytes)

theorem set_request (h : s.Inv) (hidle : s.argvOf c = []) (key v : Argument) :
    (s.db.WildAt (cStr key.enc.bytes) → s.request env c [textArgument "SET", key, v] = .error .wildPointer) ∧
    (¬ s.db.WildAt (cStr key.enc.bytes) → ∃ s' a enc,
      s.request env c [textArgument "SET", key, v] = .ok (s', [.obj Shared.ok]) ∧ s'.Inv ∧
      s'.valueOf key = some ⟨a, .string enc⟩ ∧ enc.bytes = v.enc.bytes) := by
  obtain ⟨db, o, objs, others, hdb, hdict, henc, -, hok, herr⟩ :=
    request_command env h hidle (textArgument "SET") [key, v] ⟨"set", .rrCmdSet, 3, "wm"⟩ (by decide) rfl
  obtain ⟨k, x, rfl, hk, hx⟩ := objs_eq_two henc
  have hval : [o, k, x][2]? = some x := rfl
  obtain ⟨hbad, hgood⟩ := rrCmdSet_spec env (hdb.argument hval) (hk ▸ key.sds) (hx ▸ v.sds)
  have hkey : k.key = cStr key.enc.bytes := by rw [StrObj.key, hk]
  have hwild : db.WildAt k.key ↔ s.db.WildAt (cStr key.enc.bytes) := by
    rw [Keyspace.WildAt, Keyspace.WildAt, hdict, hkey]
  have hcall : call env ⟨"set", .rrCmdSet, 3, "wm"⟩ db [o, k, x] = replaceArg [o, k, x] 2 (rrCmdSet env db k x) := rfl
  rw [hcall] at hok herr
  rw [← hwild]
  refine ⟨fun hw => herr _ (by rw [replaceArg, hbad hw]; rfl), fun hw => ?_⟩
  obtain ⟨db', x', leaked, hrun, hstored, hbytes⟩ := hgood hw
  obtain ⟨s', hreq, h', hdict', -⟩ := hok db' [o, k, x'] _ (by rw [replaceArg, hrun]; rfl)
  refine ⟨s', x'.addr, x'.enc, hreq, h', ?_, hbytes.trans (by rw [hx])⟩
  rw [valueOf, hdict', hstored.toMap, hkey, Finmap.lookup_insert]
  rfl

theorem rset_request (h : s.Inv) (hidle : s.argvOf c = []) (key field v : Argument)
    (htype : ∀ o, s.valueOf key = some o → ∃ trie, o.val = .hash trie) :
    ∃ s' a trie x, s.request env c [textArgument "RSET", key, field, v] = .ok (s', [.obj Shared.ok]) ∧ s'.Inv ∧
      s'.valueOf key = some ⟨a, .hash trie⟩ ∧ trie.toMap.lookup (cStr field.enc.bytes) = some x ∧
      x.enc.bytes = v.enc.bytes := by
  obtain ⟨db, o, objs, others, hdb, hdict, henc, -, hok, -⟩ :=
    request_command env h hidle (textArgument "RSET") [key, field, v] ⟨"rset", .rrCmdRset, 4, "wm"⟩ (by decide) rfl
  obtain ⟨k, f, x, rfl, hk, hf, hx⟩ := objs_eq_three henc
  have hval : [o, k, f, x][3]? = some x := rfl
  have hkey : k.key = cStr key.enc.bytes := by rw [StrObj.key, hk]
  obtain ⟨db', x', a, trie, trie', hrun, -, hbytes, hup, hm, -⟩ :=
    rrCmdRset_spec env (hdb.argument hval) (hk ▸ key.sds) (hf ▸ field.sds) (hx ▸ v.sds) (by rw [hkey, hdict]; exact htype)
  have hcall : call env ⟨"rset", .rrCmdRset, 4, "wm"⟩ db [o, k, f, x] =
      replaceArg [o, k, f, x] 3 (rrCmdRset env db k f x) := rfl
  obtain ⟨s', hreq, h', hdict', -⟩ := hok db' [o, k, f, x'] _ (by rw [hcall, replaceArg, hrun]; rfl)
  refine ⟨s', a, trie', x', hreq, h', ?_, ?_, hbytes.trans (by rw [hx])⟩
  · rw [valueOf, hdict', ← hkey]
    exact hup.lookup
  · rw [hm, StrObj.key, hf, Finmap.lookup_insert]

/-- QPUSH on a key that is free or holds an empty heap. -/
theorem qpush_request (h : s.Inv) (hidle : s.argvOf c = []) (key score v : Argument) {x : UInt64}
    (hscore : getDoubleFromObjectOrReply env score.enc = .inl x)
    (htype : ∀ o, s.valueOf key = some o → ∃ heap, o.val = .heapq heap ∧ heap.len = 0) :
    ∃ s' a heap item, s.request env c [textArgument "QPUSH", key, score, v] = .ok (s', [.obj Shared.ok]) ∧ s'.Inv ∧
      s'.valueOf key = some ⟨a, .heapq heap⟩ ∧ heap.toMultiset = {item} ∧ item.obj.enc.bytes = v.enc.bytes := by
  obtain ⟨db, o, objs, others, hdb, hdict, henc, -, hok, -⟩ :=
    request_command env h hidle (textArgument "QPUSH") [key, score, v] ⟨"qpush", .rrCmdHqpush, 4, "wF"⟩ (by decide) rfl
  obtain ⟨k, f, y, rfl, hk, hf, hy⟩ := objs_eq_three henc
  have hval : [o, k, f, y][3]? = some y := rfl
  have hkey : k.key = cStr key.enc.bytes := by rw [StrObj.key, hk]
  have htype' : ∀ o, db.dict.toMap.lookup k.key = some o → ∃ heap, o.val = .heapq heap ∧ heap.len = 0 := by
    rw [hkey, hdict]
    exact htype
  obtain ⟨a, heap, hwas, -, hgood⟩ := rrCmdHqpush_spec env (hdb.argument hval) (hk ▸ key.sds) (hy ▸ v.sds) (hf ▸ hscore)
    fun o ho => (htype' o ho).imp fun _ hheap => hheap.1
  have hempty : heap.len = 0 := by
    rcases hwas with hwas | ⟨-, rfl⟩
    · obtain ⟨heap', he, hzero⟩ := htype' _ hwas
      obtain rfl : heap = heap' := by simpa using he
      exact hzero
    · rfl
  obtain ⟨db', y', heap', hrun, h₁, hbytes, hup, hm⟩ := hgood (by omega)
  have hcall : call env ⟨"qpush", .rrCmdHqpush, 4, "wF"⟩ db [o, k, f, y] =
      replaceArg [o, k, f, y] 3 (rrCmdHqpush env db k f y) := rfl
  obtain ⟨s', hreq, h', hdict', -⟩ := hok db' [o, k, f, y'] _ (by rw [hcall, replaceArg, hrun]; rfl)
  refine ⟨s', a, heap', ⟨x, y'⟩, hreq, h', ?_, ?_, hbytes.trans (by rw [hy])⟩
  · rw [valueOf, hdict', ← hkey]
    exact hup.lookup
  · rw [hm, Minheap.toMultiset, hempty]
    rfl

/-! ## Reading back -/

/-- SET and then GET. -/
def StringServed (s : Server) (c r : ℕ) (key v : Argument) : Prop :=
  ∃ s₁ s₂ replies, s.request env c [textArgument "SET", key, v] = .ok (s₁, [.obj Shared.ok]) ∧
    s₁.request env' r [textArgument "GET", key] = .ok (s₂, replies) ∧ Sends replies (bulkBytes v.enc.bytes)

/-- RSET and then RGET. -/
def FieldServed (s : Server) (c r : ℕ) (key field v : Argument) : Prop :=
  ∃ s₁ s₂ replies, s.request env c [textArgument "RSET", key, field, v] = .ok (s₁, [.obj Shared.ok]) ∧
    s₁.request env' r [textArgument "RGET", key, field] = .ok (s₂, replies) ∧ Sends replies (bulkBytes v.enc.bytes)

/-- QPUSH, and then QPEEK or QPOP. -/
def ItemServed (s : Server) (c r : ℕ) (key score v : Argument) : Prop :=
  ∃ s₁ s₂ s₃ peeked popped, s.request env c [textArgument "QPUSH", key, score, v] = .ok (s₁, [.obj Shared.ok]) ∧
    s₁.request env' r [textArgument "QPEEK", key] = .ok (s₂, peeked) ∧ Sends peeked (bulkBytes v.enc.bytes) ∧
    s₁.request env' r [textArgument "QPOP", key] = .ok (s₃, popped) ∧ Sends popped (bulkBytes v.enc.bytes)

/-- The value is read back from wherever it can be stored. -/
structure ValueServed (s : Server) (c r : ℕ) (key v : Argument) : Prop where
  string : StringServed env env' s c r key v
  field : ∀ field : Argument, (∀ o, s.valueOf key = some o → ∃ trie, o.val = .hash trie) →
    FieldServed env env' s c r key field v
  item : ∀ (score : Argument) (x : UInt64), getDoubleFromObjectOrReply env score.enc = .inl x →
    (∀ o, s.valueOf key = some o → ∃ heap, o.val = .heapq heap ∧ heap.len = 0) → ItemServed env env' s c r key score v

theorem stringServed_iff (h : s.Inv) (hc : s.argvOf c = []) (hr : s.argvOf r = []) (key v : Argument) :
    StringServed env env' s c r key v ↔ ¬ s.db.WildAt (cStr key.enc.bytes) := by
  obtain ⟨hbad, hgood⟩ := set_request env h hc key v
  constructor
  · rintro ⟨s₁, s₂, replies, hset, -⟩ hw
    rw [hbad hw] at hset
    cases hset
  · intro hw
    obtain ⟨s₁, a, enc, hset, h₁, hvalue, hbytes⟩ := hgood hw
    have hcmd : commandNamed (textArgument "SET").enc.bytes = some ⟨"set", .rrCmdSet, 3, "wm"⟩ := by decide
    have hget : commandNamed (textArgument "GET").enc.bytes = some ⟨"get", .rrCmdGet, 2, "rF"⟩ := by decide
    have hr₁ : s₁.argvOf r = [] := request_idle env h hr hc hcmd hset
    obtain ⟨s₂, hrun, -⟩ := request_keyReply env' h₁ hr₁ (textArgument "GET") key hget (by decide)
    rw [valueOf] at hvalue
    rw [hvalue] at hrun
    exact ⟨s₁, s₂, _, hset, hrun, sends_bulkObj hbytes⟩

theorem fieldServed (h : s.Inv) (hc : s.argvOf c = []) (hr : s.argvOf r = []) (key field v : Argument)
    (htype : ∀ o, s.valueOf key = some o → ∃ trie, o.val = .hash trie) : FieldServed env env' s c r key field v := by
  obtain ⟨s₁, a, trie, x, hset, h₁, hvalue, hx, hbytes⟩ := rset_request env h hc key field v htype
  have hcmd : commandNamed (textArgument "RSET").enc.bytes = some ⟨"rset", .rrCmdRset, 4, "wm"⟩ := by decide
  have hget : commandNamed (textArgument "RGET").enc.bytes = some ⟨"rget", .rrCmdRget, 3, "rF"⟩ := by decide
  have hr₁ : s₁.argvOf r = [] := request_idle env h hr hc hcmd hset
  obtain ⟨s₂, hrun, -⟩ := request_trieReply env' h₁ hr₁ (textArgument "RGET") key field hget (by decide) hvalue
  rw [hx] at hrun
  exact ⟨s₁, s₂, _, hset, hrun, sends_bulkObj hbytes⟩

theorem itemServed (h : s.Inv) (hc : s.argvOf c = []) (hr : s.argvOf r = []) (key score v : Argument) {x : UInt64}
    (hscore : getDoubleFromObjectOrReply env score.enc = .inl x)
    (htype : ∀ o, s.valueOf key = some o → ∃ heap, o.val = .heapq heap ∧ heap.len = 0) :
    ItemServed env env' s c r key score v := by
  obtain ⟨s₁, a, heap, item, hpush, h₁, hvalue, hone, hbytes⟩ := qpush_request env h hc key score v hscore htype
  have hcmd : commandNamed (textArgument "QPUSH").enc.bytes = some ⟨"qpush", .rrCmdHqpush, 4, "wF"⟩ := by decide
  have hpeek : commandNamed (textArgument "QPEEK").enc.bytes = some ⟨"qpeek", .rrCmdHqpeek, 2, "rF"⟩ := by decide
  have hpop : commandNamed (textArgument "QPOP").enc.bytes = some ⟨"qpop", .rrCmdHqpop, 2, "wF"⟩ := by decide
  have hr₁ : s₁.argvOf r = [] := request_idle env h hr hc hcmd hpush
  have hlookup : ∀ (db : Keyspace) (k : StrObj), db.dict = s₁.db.dict → k.enc = key.enc →
      db.dict.toMap.lookup k.key = some ⟨a, .heapq heap⟩ := by
    intro db k hdict hk
    rw [hdict, StrObj.key, hk]
    exact hvalue
  obtain ⟨s₂, hrun, -⟩ := request_key env' h₁ hr₁ (textArgument "QPEEK") key hpeek rfl (fun _ _ _ => rfl)
    fun db others k hdb hdict hk => rrCmdHqpeek_singleton hdb (hk ▸ key.sds) (hlookup db k hdict hk) hone
  obtain ⟨db, o, objs, others, hdb, hdict, henc, -, hok, -⟩ :=
    request_command env' h₁ hr₁ (textArgument "QPOP") [key] _ hpop rfl
  obtain ⟨k, rfl, hk⟩ := objs_eq_one henc
  obtain ⟨db', hrun'⟩ := rrCmdHqpop_singleton hdb (hk ▸ key.sds) (hlookup db k hdict hk) hone
  obtain ⟨s₃, hreq, -⟩ := hok db' [o, k] (replyAddBulkObj item.obj.enc) (by
    change keepArgv [o, k] (rrCmdHqpop db k) = _
    rw [keepArgv, hrun']
    rfl)
  exact ⟨s₁, s₂, s₃, _, _, hpush, hrun, sends_bulkObj hbytes, hreq, sends_bulkObj hbytes⟩

/-- Every value that a client can send is read back byte for byte, unless SET finds a heap
under the key that has an item whose score looks like a last reference. -/
theorem value_served_iff (hs : s.Reachable G) (hc : s.argvOf c = []) (hr : s.argvOf r = []) (key v : Argument)
    (hkey : 0 ∉ key.enc.bytes) :
    ValueServed env env' s c r key v ↔
      ¬ ∃ a heap, s.db.dict.toMap.lookup key.enc.bytes = some ⟨a, .heapq heap⟩ ∧
        ∃ i ∈ heap.toMultiset, slotRefcount i = 1 := by
  have hwild : s.db.WildAt (cStr key.enc.bytes) ↔ ∃ a heap,
      s.db.dict.toMap.lookup key.enc.bytes = some ⟨a, .heapq heap⟩ ∧ ∃ i ∈ heap.toMultiset, slotRefcount i = 1 := by
    rw [cStr_of_notMem hkey]
    constructor
    · rintro ⟨⟨a, val⟩, hl, hw⟩
      cases val with
      | heapq heap => exact ⟨a, heap, hl, hw⟩
      | _ => exact hw.elim
    · rintro ⟨a, heap, hl, hw⟩
      exact ⟨_, hl, hw⟩
  rw [← hwild]
  constructor
  · intro hserved
    exact (stringServed_iff env env' hs.inv hc hr key v).mp hserved.string
  · intro hw
    exact ⟨(stringServed_iff env env' hs.inv hc hr key v).mpr hw,
      fun field => fieldServed env env' hs.inv hc hr key field v,
      fun score _ => itemServed env env' hs.inv hc hr key score v⟩

/-- A value that looks like a number on a new server. -/
theorem value_served_minus_zero :
    ∃ s : Server, s.Reachable ℤ ∧ ValueServed bumpServerEnv bumpServerEnv s 0 0 (textArgument "k") (textArgument "-0") := by
  obtain ⟨⟨d, db, argv⟩, hinit, rfl, rfl⟩ := exists_rrServerInit
  have hs : Server.Reachable ℤ ⟨d, rrDbCreate, ∅⟩ := .init hinit
  refine ⟨_, hs, (value_served_iff bumpServerEnv bumpServerEnv hs rfl rfl (textArgument "k") (textArgument "-0")
    (by decide)).mpr ?_⟩
  rintro ⟨a, heap, hl, -⟩
  simp [rrDbCreate] at hl

/-- `strtod` on a number whose `double` has the upper half 1. -/
def subnormalEnv : ServerEnv ℤ :=
  { bumpServerEnv with
    strtod := fun s => if s = ascii "3e-314" then (6072067599, 6, true, false) else (0, 0, false, false) }

/-- SET on a key with a heap that has an item of the score 3e-314. -/
theorem set_over_subnormal :
    ∃ s : Server, s.Reachable ℤ ∧ s.argvOf 0 = [] ∧
      ¬ StringServed subnormalEnv subnormalEnv s 0 0 (textArgument "k") (textArgument "v") := by
  have hcheck : (session subnormalEnv [[textArgument "QPUSH", textArgument "k", textArgument "3e-314",
      textArgument "x"]]).toOption.any (fun s => (s.argvOf 0).isEmpty && (s.request subnormalEnv 0
        [textArgument "SET", textArgument "k", textArgument "v"]).toOption.isNone) = true := by decide +kernel
  obtain ⟨s, hsession, hs⟩ := Exec.exists_of_any hcheck
  obtain ⟨hidle, hfault⟩ := Bool.and_eq_true_iff.mp hs
  refine ⟨s, session_reachable subnormalEnv hsession, List.isEmpty_iff.mp hidle, ?_⟩
  rintro ⟨s₁, s₂, replies, hset, -⟩
  rw [hset] at hfault
  cases hfault

end Server

/-- A new server after RSET k a 1. -/
def oneFieldSession : Exec Server :=
  Server.session bumpServerEnv [[textArgument "RSET", textArgument "k", textArgument "a", textArgument "1"]]

end RhinoRox
