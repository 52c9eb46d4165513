import RhinoRox.Keyspace

/-!
# The commands

The handlers of `rr_db.c`, `rr_cmd_trie.c`, `rr_cmd_heapq.c`, `rr_cmd_fts.c` and
`rr_cmd_admin.c`, and their dispatch. A handler returns the keyspace, the replies it adds
and, where it replaces an argument, the object it puts into `argv`.
-/

namespace RhinoRox

variable {G : Type} (env : ServerEnv G)

abbrev CmdRun := Exec (Keyspace × List ReplyCall)

/-! ## `rr_db.c` -/

def rrCmdGet (db : Keyspace) (key : StrObj) : CmdRun := do
  let o ← rrDbLookup db key
  match o with
  | none => pure (db, [.obj Shared.nullbulk])
  | some o =>
    match o.val with
    | .string enc => pure (db, replyAddBulkObj enc)
    | _ => pure (db, [.obj Shared.wrongtypeerr])

/-- With lazy freeing, SET first deletes the key. -/
def lazyDel (db : Keyspace) (key : StrObj) : Exec Keyspace :=
  if env.lazyfreeServerDel then do
    let (_, db) ← rrDbDel env db key
    pure db
  else pure db

def rrCmdSet (db : Keyspace) (key val : StrObj) : Exec (Keyspace × StrObj × List ReplyCall) := do
  let db ← lazyDel env db key
  let (val, refs) ← tryObjectEncoding env db.refs val
  let (stored, db) ← rrDbSetKey { db with refs := refs } key val.toRobj
  pure (db, val, [.obj (if stored then Shared.ok else Shared.err)])

def rrCmdLen (db : Keyspace) : CmdRun := pure (db, replyAddLonglong (dictLength db.dict))

def rrCmdExists (db : Keyspace) (key : StrObj) : CmdRun := do
  let k ← key.enc.ptr
  let present ← dictContains db.dict k
  pure (db, [.obj (if present then Shared.cone else Shared.czero)])

def rrCmdDel (db : Keyspace) (key : StrObj) : CmdRun := do
  let (deleted, db) ← rrDbDel env db key
  pure (db, [.obj (if deleted then Shared.cone else Shared.czero)])

def rrCmdType (db : Keyspace) (key : StrObj) : CmdRun := do
  let o ← rrDbLookup db key
  let type := match o.map fun o => o.val.type with
    | none => "none"
    | some .string => "string"
    | some .hash => "trie"
    | some .heapq => "heapq"
    | some .fts => "fts"
  pure (db, replyAddStatus (ascii type))

/-- `rr_db_lookup_or_reply` with the null bulk, followed by `checkType`. -/
def onCollection {β : Type} (select : ObjVal → Option β) (db : Keyspace) (key : StrObj)
    (run : Robj → β → CmdRun) : CmdRun := do
  let o ← rrDbLookup db key
  match o with
  | none => pure (db, replyAddBulkObj Shared.nullbulk)
  | some o =>
    match select o.val with
    | none => pure (db, [.obj Shared.wrongtypeerr])
    | some x => run o x

def ObjVal.hash? : ObjVal → Option (DictT StrObj)
  | .hash dict => some dict
  | _ => none

def ObjVal.heapq? : ObjVal → Option (Minheap HqItem)
  | .heapq heap => some heap
  | _ => none

def ObjVal.fts? : ObjVal → Option Fts
  | .fts f => some f
  | _ => none

/-- `reply_add_bulk_obj` of an object that a collection refers to. -/
def bulkReply (db : Keyspace) (o : StrObj) : Exec (List ReplyCall) := do
  let _ ← refcount db.refs o.addr
  pure (replyAddBulkObj o.enc)

/-! ## `rr_cmd_trie.c` -/

def rrCmdRget (db : Keyspace) (key field : StrObj) : CmdRun :=
  onCollection ObjVal.hash? db key fun _ trie => do
    let f ← field.enc.ptr
    let o ← dictGet trie f
    match o with
    | none => pure (db, [.obj Shared.nullbulk])
    | some o => do
      let reply ← bulkReply db o
      pure (db, reply)

def rrCmdRexists (db : Keyspace) (key field : StrObj) : CmdRun :=
  onCollection ObjVal.hash? db key fun _ trie => do
    let f ← field.enc.ptr
    let present ← dictContains trie f
    pure (db, [.obj (if present then Shared.cone else Shared.czero)])

def rrCmdRlen (db : Keyspace) (key : StrObj) : CmdRun :=
  onCollection ObjVal.hash? db key fun _ trie => pure (db, replyAddLonglong (dictLength trie))

def rrCmdRset (db : Keyspace) (key field val : StrObj) : Exec (Keyspace × StrObj × List ReplyCall) := do
  let (o, db) ← rrDbLookupOrCreate env db key createHashObject
  match o.val with
  | .hash trie => do
    let (val, refs) ← tryObjectEncoding env db.refs val
    let f ← field.enc.ptr
    let (stored, trie, freed) ← dictSet trie f (some val)
    let refs ← decrStrings refs freed
    let db ← setContents { db with refs := refs } key ⟨o.addr, .hash trie⟩
    if stored then do
      let refs ← incrRefCount db.refs val.addr
      pure ({ db with refs := refs }, val, [.obj Shared.ok])
    else pure (db, val, [.obj Shared.err])
  | _ => pure (db, val, [.obj Shared.wrongtypeerr])

/-- `DICT_KEY` and `DICT_VAL`. -/
structure DictFlags where
  key : Bool
  val : Bool
  deriving DecidableEq, Repr

def DictFlags.multiplier (flags : DictFlags) : ℕ := flags.key.toNat + flags.val.toNat

/-- The replies for one pair. -/
def pairReply (db : Keyspace) (flags : DictFlags) (kv : Bytes × StrObj) : Exec (List ReplyCall) := do
  let keyReply := if flags.key then replyAddBulkCstr (some kv.1) else []
  if flags.val then do
    let valReply ← bulkReply db kv.2
    pure (keyReply ++ valReply)
  else pure keyReply

def pairReplies (db : Keyspace) (flags : DictFlags) : List (Bytes × StrObj) → Exec (List ReplyCall)
  | [] => pure []
  | kv :: kvs => do
    let reply ← pairReply db flags kv
    let rest ← pairReplies db flags kvs
    pure (reply ++ rest)

/-- `get_prefix`; the pairs are read back with `ARRAY_AT`. -/
def getPrefixReply (db : Keyspace) (key pre : StrObj) (flags : DictFlags) : CmdRun :=
  onCollection ObjVal.hash? db key fun _ trie => do
    let p ← pre.enc.ptr
    let it ← dictGetPrefix trie p
    let kvs ← dictIterAll it
    let replies ← pairReplies db flags kvs
    pure (db, replyAddMultiBulkLen (kvs.length * flags.multiplier) ++ replies)

def rrCmdRpget (db : Keyspace) (key pre : StrObj) : CmdRun := getPrefixReply db key pre ⟨true, true⟩

/-- The pairs read back from the array with `array_at`. -/
def arrayAtAll (kvs : List (Bytes × StrObj)) : List ℕ → Exec (List (Bytes × StrObj))
  | [] => pure []
  | i :: is => do
    let a : ArrayT (Bytes × StrObj) := ⟨kvs.length, 0, kvs.map some⟩
    let kv ← arrayLoad a (arrayAt a i)
    let rest ← arrayAtAll kvs is
    pure (kv :: rest)

/-- `get_all`. -/
def getAllReply (db : Keyspace) (key : StrObj) (flags : DictFlags) : CmdRun :=
  onCollection ObjVal.hash? db key fun _ trie => do
    let it ← dictIterCreate trie
    let kvs ← dictIterAll it
    let loaded ← arrayAtAll kvs (List.range kvs.length)
    let replies ← pairReplies db flags loaded
    pure (db, replyAddMultiBulkLen (kvs.length * flags.multiplier) ++ replies)

def rrCmdRkeys (db : Keyspace) (key : StrObj) : CmdRun := getAllReply db key ⟨true, false⟩

def rrCmdRvalues (db : Keyspace) (key : StrObj) : CmdRun := getAllReply db key ⟨false, true⟩

def rrCmdRgetall (db : Keyspace) (key : StrObj) : CmdRun := getAllReply db key ⟨true, true⟩

/-- `rr_obj_free_callback` of what `dict_del` returned, which is `NULL` for a missing field. -/
def rrObjFreeCallback (refs : Refs) : Option StrObj → Exec Refs
  | none => throw .nullPointer
  | some o => decrString refs o

def rrCmdRdel (db : Keyspace) (key field : StrObj) : CmdRun :=
  onCollection ObjVal.hash? db key fun o trie => do
    let f ← field.enc.ptr
    let (del, trie) ← dictDel trie f
    let db ← setContents db key ⟨o.addr, .hash trie⟩
    let reply := if del.isNone then Shared.czero else Shared.cone
    let refs ← rrObjFreeCallback db.refs del
    pure ({ db with refs := refs }, [.obj reply])

/-! ## `rr_cmd_heapq.c` -/

def rrCmdHqpush (db : Keyspace) (key score val : StrObj) : Exec (Keyspace × StrObj × List ReplyCall) :=
  match getDoubleFromObjectOrReply env score.enc with
  | .inr err => pure (db, val, err)
  | .inl score => do
    let (o, db) ← rrDbLookupOrCreate env db key createHeapqObject
    match o.val with
    | .heapq heap => do
      let (val, refs) ← tryObjectEncoding env db.refs val
      let heap ← minheapPush heap ⟨score, val⟩
      let db ← setContents { db with refs := refs } key ⟨o.addr, .heapq heap⟩
      let refs ← incrRefCount db.refs val.addr
      pure ({ db with refs := refs }, val, [.obj Shared.ok])
    | _ => pure (db, val, [.obj Shared.wrongtypeerr])

/-- Pop one item, reply with its object and drop the reference. -/
def popReply (db : Keyspace) (key : StrObj) (o : Robj) (heap : Minheap HqItem) :
    Exec (Option (Minheap HqItem) × Keyspace × List ReplyCall) := do
  let (item, heap) ← minheapPop heap
  let db ← setContents db key ⟨o.addr, .heapq heap⟩
  match item with
  | none => pure (none, db, [])
  | some item => do
    let reply ← bulkReply db item.obj
    let refs ← decrString db.refs item.obj
    pure (some heap, { db with refs := refs }, reply)

def rrCmdHqpop (db : Keyspace) (key : StrObj) : CmdRun :=
  onCollection ObjVal.heapq? db key fun o heap => do
    let (popped, db, reply) ← popReply db key o heap
    pure (db, if popped.isNone then [.obj Shared.nullbulk] else reply)

def rrCmdHqpeek (db : Keyspace) (key : StrObj) : CmdRun :=
  onCollection ObjVal.heapq? db key fun _ heap => do
    let item ← minheapMin heap
    match item with
    | none => pure (db, [.obj Shared.nullbulk])
    | some item => do
      let reply ← bulkReply db item.obj
      pure (db, reply)

def rrCmdHqlen (db : Keyspace) (key : StrObj) : CmdRun :=
  onCollection ObjVal.heapq? db key fun _ heap => pure (db, replyAddLonglong (minheapLen heap))

/-- The loop of `rr_cmd_hqpopn`. -/
def popnLoop (key : StrObj) (o : Robj) : ℕ → Keyspace → Minheap HqItem → CmdRun
  | 0, db, _ => pure (db, [])
  | n + 1, db, heap => do
    let (popped, db, reply) ← popReply db key o heap
    match popped with
    | none => pure (db, [])
    | some heap => do
      let (db, rest) ← popnLoop key o n db heap
      pure (db, reply ++ rest)

def rrCmdHqpopn (db : Keyspace) (key count : StrObj) : CmdRun :=
  match getLongFromObjectOrReply count.enc with
  | .inr err => pure (db, err)
  | .inl n =>
    if n < 0 then pure (db, replyAddErr (ascii "invalid non-negtive integer"))
    else
      onCollection ObjVal.heapq? db key fun o heap => do
        let n := min n.toNat (minheapLen heap)
        let (db, replies) ← popnLoop key o n db heap
        pure (db, replyAddMultiBulkLen n ++ replies)

/-! ## `rr_cmd_fts.c` -/

def rrCmdDset (db : Keyspace) (key title doc : StrObj) : Exec (Keyspace × StrObj × List ReplyCall) := do
  let (o, db) ← rrDbLookupOrCreate env db key createFTSObject
  match o.val with
  | .fts fts => do
    let (title, refs) ← tryObjectEncoding env db.refs title
    let (added, fts, log) ← ftsAdd env.fts fts title doc
    let refs ← applyRefOps refs log
    let db ← setContents { db with refs := refs } key ⟨o.addr, .fts fts⟩
    pure (db, title, [.obj (if added then Shared.ok else Shared.err)])
  | _ => pure (db, title, [.obj Shared.wrongtypeerr])

def rrCmdDget (db : Keyspace) (key title : StrObj) : CmdRun :=
  onCollection ObjVal.fts? db key fun _ fts => do
    let doc ← ftsGet fts title
    match doc with
    | none => pure (db, [.obj Shared.nullbulk])
    | some doc => do
      let d ← ftsDocLoad fts doc
      let reply ← bulkReply db d.doc
      pure (db, reply)

/-- The loop of `rr_cmd_dsearch`. -/
def searchReplies (db : Keyspace) (fts : Fts) : List (DocScore G) → Exec (List ReplyCall)
  | [] => pure []
  | fds :: rest => do
    let d ← ftsDocLoad fts fds.doc
    let title ← bulkReply db d.title
    let doc ← bulkReply db d.doc
    let replies ← searchReplies db fts rest
    pure (title ++ doc ++ replies)

def rrCmdDsearch [AddCommGroup G] [LinearOrder G] (db : Keyspace) (key query : StrObj) : CmdRun :=
  onCollection ObjVal.fts? db key fun _ fts => do
    let (size, it) ← ftsSearch env.bm25 fts env.fts query
    let found ← ftsIterAll it
    let replies ← searchReplies db fts found
    pure (db, replyAddMultiBulkLen (size * 2) ++ replies)

def rrCmdDlen (db : Keyspace) (key : StrObj) : CmdRun :=
  onCollection ObjVal.fts? db key fun _ fts => pure (db, replyAddLonglong (ftsSize fts))

def rrCmdDdel (db : Keyspace) (key title : StrObj) : CmdRun :=
  onCollection ObjVal.fts? db key fun o fts => do
    let (deleted, fts, log) ← ftsDel env.fts fts title
    let refs ← applyRefOps db.refs log
    let db ← setContents { db with refs := refs } key ⟨o.addr, .fts fts⟩
    pure (db, [.obj (if deleted then Shared.cone else Shared.czero)])

end RhinoRox
