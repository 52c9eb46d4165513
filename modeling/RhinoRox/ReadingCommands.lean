import RhinoRox.ReplyValues
import RhinoRox.RequestExecution

/-!
# What the reading commands reply

The replies of GET, EXISTS and TYPE are a function of the value of the key, those of RGET and
REXISTS of the value of the field, and the reply of QPEEK of the heap. The objects that are
sent are live, so these commands always return.
-/

namespace RhinoRox

/-! ## Handlers -/

section Handlers
variable {db : Keyspace} {others : Multiset ℕ} {key field : StrObj}

/-- An object in a stored collection can be sent. -/
theorem Keyspace.Inv.bulkReply (h : db.Inv others) {k : Bytes} {o : Robj} (hl : db.dict.toMap.lookup k = some o)
    {x : StrObj} (hx : x.addr ∈ o.val.held) : bulkReply db x = .ok (replyAddBulkObj x.enc) := by
  obtain ⟨n, hn⟩ := h.mem_held hl (Multiset.mem_cons_of_mem hx)
  rw [RhinoRox.bulkReply, hn]
  rfl

def getReply : Option Robj → List ReplyCall
  | none => [.obj Shared.nullbulk]
  | some ⟨_, .string enc⟩ => replyAddBulkObj enc
  | some _ => [.obj Shared.wrongtypeerr]

theorem rrCmdGet_spec (h : db.Inv others) (hkey : sdsEncodedObject key.enc = true) :
    rrCmdGet db key = .ok (db, getReply (db.dict.toMap.lookup key.key)) := by
  simp only [rrCmdGet, rrDbLookup_spec h hkey, Exec.ok_bind]
  cases db.dict.toMap.lookup key.key with
  | none => rfl
  | some o =>
    obtain ⟨a, val⟩ := o
    cases val <;> rfl

theorem rrCmdExists_spec (h : db.Inv others) (hkey : sdsEncodedObject key.enc = true) :
    rrCmdExists db key =
      .ok (db, [.obj (if (db.dict.toMap.lookup key.key).isSome then Shared.cone else Shared.czero)]) := by
  have hcontains : dictContains db.dict key.enc.bytes = .ok (db.dict.toMap.lookup key.key).isSome :=
    dictContains_spec h.dict _
  simp only [rrCmdExists, StrEnc.ptr_of_sds hkey, Exec.ok_bind, hcontains, Exec.pure_eq]

def typeName : Option ObjType → String
  | none => "none"
  | some .string => "string"
  | some .hash => "trie"
  | some .heapq => "heapq"
  | some .fts => "fts"

def typeReply (o : Option Robj) : List ReplyCall := replyAddStatus (ascii (typeName (o.map fun o => o.val.type)))

theorem rrCmdType_spec (h : db.Inv others) (hkey : sdsEncodedObject key.enc = true) :
    rrCmdType db key = .ok (db, typeReply (db.dict.toMap.lookup key.key)) := by
  simp only [rrCmdType, rrDbLookup_spec h hkey, Exec.ok_bind]
  cases db.dict.toMap.lookup key.key with
  | none => rfl
  | some o =>
    obtain ⟨a, val⟩ := o
    cases val <;> rfl

def fieldReply : Option StrObj → List ReplyCall
  | none => [.obj Shared.nullbulk]
  | some v => replyAddBulkObj v.enc

theorem rrCmdRget_spec (h : db.Inv others) (hkey : sdsEncodedObject key.enc = true)
    (hfield : sdsEncodedObject field.enc = true) {a : ℕ} {trie : DictT StrObj}
    (hl : db.dict.toMap.lookup key.key = some ⟨a, .hash trie⟩) :
    rrCmdRget db key field = .ok (db, fieldReply (trie.toMap.lookup field.key)) := by
  have htrie : trie.Inv := (h.stored _ _ hl).1
  have hsel : ObjVal.hash? (.hash trie) = some trie := rfl
  have hget : dictGet trie field.enc.bytes = .ok (trie.toMap.lookup field.key) := dictGet_spec htrie _
  rw [rrCmdRget, onCollection_of_lookup h hkey hl hsel]
  simp only [StrEnc.ptr_of_sds hfield, Exec.ok_bind, hget]
  cases hv : trie.toMap.lookup field.key with
  | none => rfl
  | some v =>
    simp only [h.bulkReply hl (mem_hash_held hv), Exec.ok_bind]
    rfl

theorem rrCmdRexists_spec (h : db.Inv others) (hkey : sdsEncodedObject key.enc = true)
    (hfield : sdsEncodedObject field.enc = true) {a : ℕ} {trie : DictT StrObj}
    (hl : db.dict.toMap.lookup key.key = some ⟨a, .hash trie⟩) :
    rrCmdRexists db key field =
      .ok (db, [.obj (if (trie.toMap.lookup field.key).isSome then Shared.cone else Shared.czero)]) := by
  have htrie : trie.Inv := (h.stored _ _ hl).1
  have hsel : ObjVal.hash? (.hash trie) = some trie := rfl
  have hcontains : dictContains trie field.enc.bytes = .ok (trie.toMap.lookup field.key).isSome :=
    dictContains_spec htrie _
  rw [rrCmdRexists, onCollection_of_lookup h hkey hl hsel]
  simp only [StrEnc.ptr_of_sds hfield, Exec.ok_bind, hcontains, Exec.pure_eq]

end Handlers

/-! ## Requests -/

namespace Server
variable {G : Type} [AddCommGroup G] [LinearOrder G] (env : ServerEnv G) {s : Server} {c : ℕ} {cmd : RedisCommand}

/-- A request with a key that only reads. -/
theorem request_key (h : s.Inv) (hidle : s.argvOf c = []) (name key : Argument)
    (hcmd : commandNamed name.enc.bytes = some cmd) (harity : cmd.arity = 2) {run : Keyspace → StrObj → CmdRun}
    {replies : List ReplyCall} (hcall : ∀ db o k, call env cmd db [o, k] = keepArgv [o, k] (run db k))
    (hrun : ∀ db others k, db.Inv others → db.dict = s.db.dict → k.enc = key.enc → run db k = .ok (db, replies)) :
    ∃ s', s.request env c [name, key] = .ok (s', replies) ∧ s'.Inv ∧ s'.db.dict = s.db.dict ∧ s'.argvOf c = [] := by
  obtain ⟨db, o, objs, others, hdb, hdict, henc, -, hok, -⟩ := request_command env h hidle name [key] cmd hcmd harity
  obtain ⟨k, rfl, hk⟩ := objs_eq_one henc
  obtain ⟨s', hreq, h', hdict', hidle'⟩ := hok db [o, k] replies (by
    rw [hcall, keepArgv, hrun db _ k hdb hdict hk]
    rfl)
  exact ⟨s', hreq, h', hdict'.trans hdict, hidle'⟩

/-- A request with a key and an argument that only reads. -/
theorem request_keyAndArg (h : s.Inv) (hidle : s.argvOf c = []) (name key arg : Argument)
    (hcmd : commandNamed name.enc.bytes = some cmd) (harity : cmd.arity = 3)
    {run : Keyspace → StrObj → StrObj → CmdRun} {replies : List ReplyCall}
    (hcall : ∀ db o k x, call env cmd db [o, k, x] = keepArgv [o, k, x] (run db k x))
    (hrun : ∀ db others k x, db.Inv others → db.dict = s.db.dict → k.enc = key.enc → x.enc = arg.enc →
      run db k x = .ok (db, replies)) :
    ∃ s', s.request env c [name, key, arg] = .ok (s', replies) ∧ s'.Inv ∧ s'.db.dict = s.db.dict ∧
      s'.argvOf c = [] := by
  obtain ⟨db, o, objs, others, hdb, hdict, henc, -, hok, -⟩ :=
    request_command env h hidle name [key, arg] cmd hcmd harity
  obtain ⟨k, x, rfl, hk, hx⟩ := objs_eq_two henc
  obtain ⟨s', hreq, h', hdict', hidle'⟩ := hok db [o, k, x] replies (by
    rw [hcall, keepArgv, hrun db _ k x hdb hdict hk hx]
    rfl)
  exact ⟨s', hreq, h', hdict'.trans hdict, hidle'⟩

/-- The handlers whose reply is a function of the value of a key. -/
def keyReaders : List Proc := [.rrCmdGet, .rrCmdExists, .rrCmdType]

def keyReply (proc : Proc) (o : Option Robj) : List ReplyCall :=
  match proc with
  | .rrCmdGet => getReply o
  | .rrCmdExists => [.obj (if o.isSome then Shared.cone else Shared.czero)]
  | _ => typeReply o

theorem request_keyReply (h : s.Inv) (hidle : s.argvOf c = []) (name key : Argument)
    (hcmd : commandNamed name.enc.bytes = some cmd) (hproc : cmd.proc ∈ keyReaders) :
    ∃ s', s.request env c [name, key] =
        .ok (s', keyReply cmd.proc (s.db.dict.toMap.lookup (cStr key.enc.bytes))) ∧
      s'.Inv ∧ s'.db.dict = s.db.dict ∧ s'.argvOf c = [] := by
  have htable : ∀ c ∈ redisCommandTable, c.proc ∈ keyReaders → c.arity = 2 := by decide
  have harity := htable cmd (commandNamed_eq_some hcmd).1 hproc
  have hlookup : ∀ (db : Keyspace) (k : StrObj), db.dict = s.db.dict → k.enc = key.enc →
      db.dict.toMap.lookup k.key = s.db.dict.toMap.lookup (cStr key.enc.bytes) := by
    intro db k hdict hk
    rw [hdict, StrObj.key, hk]
  obtain ⟨cname, proc, arity, sflags⟩ := cmd
  simp only [keyReaders, List.mem_cons, List.not_mem_nil, or_false] at hproc
  obtain rfl | rfl | rfl := hproc
  · refine request_key env h hidle name key hcmd harity (fun _ _ _ => rfl) fun db others k hdb hdict hk => ?_
    rw [rrCmdGet_spec hdb (hk ▸ key.sds), hlookup db k hdict hk]
    rfl
  · refine request_key env h hidle name key hcmd harity (fun _ _ _ => rfl) fun db others k hdb hdict hk => ?_
    rw [rrCmdExists_spec hdb (hk ▸ key.sds), hlookup db k hdict hk]
    rfl
  · refine request_key env h hidle name key hcmd harity (fun _ _ _ => rfl) fun db others k hdb hdict hk => ?_
    rw [rrCmdType_spec hdb (hk ▸ key.sds), hlookup db k hdict hk]
    rfl

/-- The handlers whose reply is a function of the value of a field. -/
def fieldReaders : List Proc := [.rrCmdRget, .rrCmdRexists]

def trieReply (proc : Proc) (v : Option StrObj) : List ReplyCall :=
  match proc with
  | .rrCmdRget => fieldReply v
  | _ => [.obj (if v.isSome then Shared.cone else Shared.czero)]

theorem request_trieReply (h : s.Inv) (hidle : s.argvOf c = []) (name key field : Argument)
    (hcmd : commandNamed name.enc.bytes = some cmd) (hproc : cmd.proc ∈ fieldReaders) {a : ℕ} {trie : DictT StrObj}
    (hl : s.db.dict.toMap.lookup (cStr key.enc.bytes) = some ⟨a, .hash trie⟩) :
    ∃ s', s.request env c [name, key, field] =
        .ok (s', trieReply cmd.proc (trie.toMap.lookup (cStr field.enc.bytes))) ∧
      s'.Inv ∧ s'.db.dict = s.db.dict ∧ s'.argvOf c = [] := by
  have htable : ∀ c ∈ redisCommandTable, c.proc ∈ fieldReaders → c.arity = 3 := by decide
  have harity := htable cmd (commandNamed_eq_some hcmd).1 hproc
  have hlookup : ∀ (db : Keyspace) (k : StrObj), db.dict = s.db.dict → k.enc = key.enc →
      db.dict.toMap.lookup k.key = some ⟨a, .hash trie⟩ := by
    intro db k hdict hk
    rw [hdict, StrObj.key, hk, hl]
  obtain ⟨cname, proc, arity, sflags⟩ := cmd
  simp only [fieldReaders, List.mem_cons, List.not_mem_nil, or_false] at hproc
  obtain rfl | rfl := hproc
  · refine request_keyAndArg env h hidle name key field hcmd harity (fun _ _ _ _ => rfl)
      fun db others k x hdb hdict hk hx => ?_
    rw [rrCmdRget_spec hdb (hk ▸ key.sds) (hx ▸ field.sds) (hlookup db k hdict hk), StrObj.key, hx]
    rfl
  · refine request_keyAndArg env h hidle name key field hcmd harity (fun _ _ _ _ => rfl)
      fun db others k x hdb hdict hk hx => ?_
    rw [rrCmdRexists_spec hdb (hk ▸ key.sds) (hx ▸ field.sds) (hlookup db k hdict hk), StrObj.key, hx]
    rfl

end Server

end RhinoRox
