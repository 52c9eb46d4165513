import RhinoRox.FtsRanking
import RhinoRox.ReplyValues
import RhinoRox.ServerInvariant

/-!
# Every command sends one value

A command that returns has sent one complete value of the protocol. The counts in the headers
of arrays are computed before the elements: from the length of an iteration, the length of a
heap and the number of the documents found.
-/

namespace RhinoRox

/-! ## Calls that send values -/

/-- The calls send one value. -/
def OneValue (calls : List ReplyCall) : Prop := RespValue (calls.flatMap ReplyCall.payload)

/-- The calls send `n` values. -/
def Values (n : ℕ) (calls : List ReplyCall) : Prop :=
  ∃ vs : List Bytes, vs.length = n ∧ (∀ v ∈ vs, RespValue v) ∧ calls.flatMap ReplyCall.payload = vs.flatten

namespace Values
variable {m n : ℕ} {calls calls' : List ReplyCall}

theorem nil : Values 0 [] := ⟨[], rfl, by simp, rfl⟩

theorem one (h : OneValue calls) : Values 1 calls := by
  refine ⟨[calls.flatMap ReplyCall.payload], rfl, ?_, by simp⟩
  intro v hv
  rw [List.mem_singleton.mp hv]
  exact h

theorem append (h : Values m calls) (h' : Values n calls') : Values (m + n) (calls ++ calls') := by
  obtain ⟨vs, rfl, hvs, he⟩ := h
  obtain ⟨ws, rfl, hws, he'⟩ := h'
  refine ⟨vs ++ ws, List.length_append, ?_, by rw [List.flatMap_append, he, he', List.flatten_append]⟩
  intro v hv
  rcases List.mem_append.mp hv with hv | hv
  · exact hvs v hv
  · exact hws v hv

/-- A header with the number of the values that follow it. -/
theorem array (h : Values n calls) : OneValue (replyAddMultiBulkLen n ++ calls) := by
  obtain ⟨vs, rfl, hvs, he⟩ := h
  rw [OneValue, List.flatMap_append, replyAddMultiBulkLen_payload, he]
  exact .array hvs

end Values

namespace OneValue

theorem bulkObj (o : StrEnc) : OneValue (replyAddBulkObj o) := by
  rw [OneValue, replyAddBulkObj_payload]
  exact .bulk _

theorem bulkCstr (s : Bytes) : OneValue (replyAddBulkCstr (some s)) := by
  rw [OneValue, replyAddBulkCstr, replyAddBulkCbuf_payload]
  exact .bulk _

theorem bulkSds (s : Bytes) : OneValue (replyAddBulkSds s) := by
  have hpayload : (replyAddBulkSds s).flatMap ReplyCall.payload = bulkBytes s := by
    simp [replyAddBulkSds, ReplyCall.payload, bulkBytes, Shared.crlf]
  rw [OneValue, hpayload, bulkBytes_eq]
  exact .bulk _

theorem longlong (n : ℤ) : OneValue (replyAddLonglong n) := by
  rw [OneValue, replyAddLonglong, replyAddLonglongWithPrefix_payload]
  exact .integer n

theorem errLen {s : Bytes} (h : OneLine s) : OneValue (replyAddErrLen s) := by
  have hpayload : (replyAddErrLen s).flatMap ReplyCall.payload = 45 :: (ascii "ERR " ++ s ++ [13, 10]) := by
    simp [replyAddErrLen, ReplyCall.payload, ascii_crlf, show ascii "-ERR " = 45 :: ascii "ERR " by decide]
  have hhead : OneLine (ascii "ERR ") := by decide
  rw [OneValue, hpayload]
  exact .error ⟨by simp [hhead.1, h.1], by simp [hhead.2, h.2]⟩

theorem errFormat (s : Bytes) : OneValue (replyAddErrFormat s) := errLen (oneLine_map s)

theorem statusLen {s : Bytes} (h : OneLine s) : OneValue (replyAddStatusLen s) := by
  have hpayload : (replyAddStatusLen s).flatMap ReplyCall.payload = 43 :: (s ++ [13, 10]) := by
    simp [replyAddStatusLen, ReplyCall.payload, ascii_crlf, show ascii "+" = [43] by decide]
  rw [OneValue, hpayload]
  exact .status h

theorem ok : OneValue [.obj Shared.ok] := RespValue.status (s := ascii "OK") (by decide)

theorem err : OneValue [.obj Shared.err] := RespValue.error (s := ascii "ERR") (by decide)

theorem pong : OneValue [.obj Shared.pong] := RespValue.status (s := ascii "PONG") (by decide)

theorem czero : OneValue [.obj Shared.czero] := by
  have htext : [ReplyCall.obj Shared.czero].flatMap ReplyCall.payload = 58 :: (integerText 0 ++ [13, 10]) := by
    decide +kernel
  rw [OneValue, htext]
  exact .integer 0

theorem cone : OneValue [.obj Shared.cone] := by
  have htext : [ReplyCall.obj Shared.cone].flatMap ReplyCall.payload = 58 :: (integerText 1 ++ [13, 10]) := by
    decide +kernel
  rw [OneValue, htext]
  exact .integer 1

theorem nullbulk : OneValue [.obj Shared.nullbulk] := RespValue.null

theorem wrongtypeerr : OneValue [.obj Shared.wrongtypeerr] :=
  RespValue.error (s := ascii "WRONGTYPE Operation against a key holding the wrong kind of value") (by decide)

theorem flag (b : Bool) : OneValue [.obj (if b then Shared.cone else Shared.czero)] := by
  cases b with
  | true => exact cone
  | false => exact czero

theorem stored (b : Bool) : OneValue [.obj (if b then Shared.ok else Shared.err)] := by
  cases b with
  | true => exact ok
  | false => exact err

end OneValue

/-! ## The handlers -/

/-- If the command returns, it has sent one value. -/
def Answers (run : CmdRun) : Prop := ∀ r, run = .ok r → OneValue r.2

namespace Answers
variable {db : Keyspace}

theorem pure {replies : List ReplyCall} (h : OneValue replies) : Answers (Pure.pure (db, replies)) := by
  intro r hr
  obtain rfl := Except.ok.inj hr
  exact h

theorem bind {β : Type} {x : Exec β} {f : β → CmdRun} (h : ∀ b, x = .ok b → Answers (f b)) : Answers (x >>= f) := by
  intro r hr
  obtain ⟨b, hx, hb⟩ := Exec.bind_eq_ok.mp hr
  exact h b hx r hb

theorem onCollection {β : Type} {select : ObjVal → Option β} {key : StrObj} {run : Robj → β → CmdRun}
    (h : ∀ o x, rrDbLookup db key = .ok (some o) → select o.val = some x → Answers (run o x)) :
    Answers (onCollection select db key run) := by
  refine bind fun o ho => ?_
  cases o with
  | none => exact pure (.bulkObj _)
  | some o =>
    simp only
    cases hx : select o.val with
    | none => exact pure .wrongtypeerr
    | some x => exact h o x ho hx

end Answers

theorem bulkReply_oneValue {db : Keyspace} {o : StrObj} {reply : List ReplyCall} (h : bulkReply db o = .ok reply) :
    OneValue reply := by
  obtain ⟨n, -, he⟩ := Exec.bind_eq_ok.mp h
  obtain rfl := Except.ok.inj he
  exact .bulkObj o.enc

section Reading
variable (db : Keyspace) (key x : StrObj)

theorem rrCmdGet_answers : Answers (rrCmdGet db key) := by
  refine .bind fun o _ => ?_
  cases o with
  | none => exact .pure .nullbulk
  | some o =>
    simp only
    cases o.val with
    | string enc => exact .pure (.bulkObj enc)
    | hash trie => exact .pure .wrongtypeerr
    | heapq heap => exact .pure .wrongtypeerr
    | fts f => exact .pure .wrongtypeerr

theorem rrCmdExists_answers : Answers (rrCmdExists db key) := .bind fun _ _ => .bind fun _ _ => .pure (.flag _)

theorem rrCmdDel_answers {G : Type} (env : ServerEnv G) : Answers (rrCmdDel env db key) :=
  .bind fun _ _ => .pure (.flag _)

theorem rrCmdType_answers : Answers (rrCmdType db key) := by
  refine .bind fun o _ => .pure (.statusLen ?_)
  cases o with
  | none => decide
  | some o =>
    simp only [Option.map_some]
    cases o.val.type <;> decide

theorem rrCmdRget_answers : Answers (rrCmdRget db key x) := by
  refine .onCollection fun _ _ _ _ => .bind fun _ _ => .bind fun o _ => ?_
  cases o with
  | none => exact .pure .nullbulk
  | some o => exact .bind fun _ h => .pure (bulkReply_oneValue h)

theorem rrCmdRexists_answers : Answers (rrCmdRexists db key x) :=
  .onCollection fun _ _ _ _ => .bind fun _ _ => .bind fun _ _ => .pure (.flag _)

theorem rrCmdRdel_answers : Answers (rrCmdRdel db key x) := by
  refine .onCollection fun o trie _ _ => .bind fun _ _ => .bind fun r _ => ?_
  refine .bind fun _ _ => .bind fun _ _ => .pure ?_
  cases r.1 with
  | none => exact .czero
  | some v => exact .cone

theorem rrCmdHqpeek_answers : Answers (rrCmdHqpeek db key) := by
  refine .onCollection fun _ _ _ _ => .bind fun item _ => ?_
  cases item with
  | none => exact .pure .nullbulk
  | some item => exact .bind fun _ h => .pure (bulkReply_oneValue h)

theorem rrCmdDget_answers : Answers (rrCmdDget db key x) := by
  refine .onCollection fun _ _ _ _ => .bind fun doc _ => ?_
  cases doc with
  | none => exact .pure .nullbulk
  | some doc => exact .bind fun _ _ => .bind fun _ h => .pure (bulkReply_oneValue h)

theorem rrCmdDdel_answers {G : Type} (env : ServerEnv G) : Answers (rrCmdDdel env db key x) :=
  .onCollection fun _ _ _ _ => .bind fun _ _ => .bind fun _ _ => .bind fun _ _ => .pure (.flag _)

/-! ## Arrays of pairs -/

theorem pairReply_values (flags : DictFlags) (kv : Bytes × StrObj) {reply : List ReplyCall}
    (run : pairReply db flags kv = .ok reply) : Values flags.multiplier reply := by
  have hkey : Values flags.key.toNat (if flags.key then replyAddBulkCstr (some kv.1) else []) := by
    cases flags.key with
    | true => exact .one (.bulkCstr kv.1)
    | false => exact .nil
  rw [pairReply] at run
  cases hval : flags.val with
  | true =>
    rw [hval, if_pos rfl] at run
    obtain ⟨valReply, hrun, he⟩ := Exec.bind_eq_ok.mp run
    obtain rfl := Except.ok.inj he
    rw [DictFlags.multiplier, hval]
    exact hkey.append (.one (bulkReply_oneValue hrun))
  | false =>
    rw [hval, if_neg (by simp)] at run
    obtain rfl := Except.ok.inj run
    rw [DictFlags.multiplier, hval]
    exact hkey

theorem pairReplies_values (flags : DictFlags) (kvs : List (Bytes × StrObj)) {replies : List ReplyCall}
    (run : pairReplies db flags kvs = .ok replies) : Values (kvs.length * flags.multiplier) replies := by
  induction kvs generalizing replies with
  | nil =>
    obtain rfl := Except.ok.inj run
    rw [List.length_nil, zero_mul]
    exact .nil
  | cons kv kvs ih =>
    obtain ⟨reply, hreply, run⟩ := Exec.bind_eq_ok.mp run
    obtain ⟨rest, hrest, he⟩ := Exec.bind_eq_ok.mp run
    obtain rfl := Except.ok.inj he
    rw [List.length_cons, add_mul, one_mul, add_comm]
    exact (pairReply_values db flags kv hreply).append (ih hrest)

theorem getPrefixReply_answers (flags : DictFlags) : Answers (getPrefixReply db key x flags) :=
  .onCollection fun _ _ _ _ => .bind fun _ _ => .bind fun _ _ => .bind fun kvs _ => .bind fun _ h =>
    .pure (pairReplies_values db flags kvs h).array

theorem arrayAtAll_length (kvs : List (Bytes × StrObj)) (is : List ℕ) {loaded : List (Bytes × StrObj)}
    (run : arrayAtAll kvs is = .ok loaded) : loaded.length = is.length := by
  induction is generalizing loaded with
  | nil =>
    obtain rfl := Except.ok.inj run
    rfl
  | cons i is ih =>
    obtain ⟨kv, -, run⟩ := Exec.bind_eq_ok.mp run
    obtain ⟨rest, hrest, he⟩ := Exec.bind_eq_ok.mp run
    obtain rfl := Except.ok.inj he
    rw [List.length_cons, List.length_cons, ih hrest]

theorem getAllReply_answers (flags : DictFlags) : Answers (getAllReply db key flags) := by
  refine .onCollection fun _ _ _ _ => .bind fun _ _ => .bind fun kvs _ => .bind fun loaded hl => ?_
  refine .bind fun replies h => .pure ?_
  have hlen : loaded.length = kvs.length := by rw [arrayAtAll_length kvs _ hl, List.length_range]
  rw [← hlen]
  exact (pairReplies_values db flags loaded h).array

end Reading

/-! ## Heaps -/

section Heaps
variable {db db' : Keyspace} {others : Multiset ℕ} {key : StrObj}

theorem rrCmdHqpop_answers (h : db.Inv others) (hkey : sdsEncodedObject key.enc = true) :
    Answers (rrCmdHqpop db key) := by
  refine .onCollection fun o heap ho hx => .bind fun ⟨popped, db₁, reply⟩ hrun => .pure ?_
  rw [rrDbLookup_spec h hkey] at ho
  obtain ⟨a, val⟩ := o
  obtain rfl := heapq?_eq hx
  obtain ⟨hempty, hsome⟩ := popReply_spec (.heapq heap) h hkey (Except.ok.inj ho)
  rcases Nat.eq_zero_or_pos heap.len with hzero | hpos
  · obtain ⟨db₂, hr, -⟩ := hempty hzero
    rw [hr] at hrun
    obtain ⟨rfl, -, -⟩ : none = popped ∧ _ ∧ _ := by simpa using hrun
    exact .nullbulk
  · obtain ⟨item, heap', db₂, hr, -⟩ := hsome hpos
    rw [hr] at hrun
    obtain ⟨rfl, -, rfl⟩ : some heap' = popped ∧ _ ∧ _ = reply := by simpa using hrun
    exact .bulkObj _

/-- The loop sends one value for each turn, since the heap does not run empty before. -/
theorem popnLoop_values {a n : ℕ} {val : ObjVal} {heap : Minheap HqItem} {replies : List ReplyCall}
    (h : db.Inv others) (hkey : sdsEncodedObject key.enc = true)
    (hl : db.dict.toMap.lookup key.key = some ⟨a, .heapq heap⟩) (hn : n ≤ heap.len)
    (run : popnLoop key ⟨a, val⟩ n db heap = .ok (db', replies)) : Values n replies := by
  induction n generalizing db db' heap replies with
  | zero =>
    obtain ⟨-, rfl⟩ : _ ∧ [] = replies := by simpa [popnLoop] using run
    exact .nil
  | succ n ih =>
    obtain ⟨⟨popped, db₁, reply⟩, hrun, hrest⟩ := Exec.bind_eq_ok.mp run
    obtain ⟨item, heap', db₃, hr, h₁, hup, hlen, -⟩ := (popReply_spec val h hkey hl).2 (by omega)
    rw [hr] at hrun
    obtain ⟨rfl, rfl, rfl⟩ : some heap' = popped ∧ db₃ = db₁ ∧ _ = reply := by simpa using hrun
    obtain ⟨⟨db₂, rest⟩, hrun₂, he⟩ := Exec.bind_eq_ok.mp hrest
    obtain ⟨-, rfl⟩ : _ ∧ _ ++ rest = replies := by simpa using he
    rw [add_comm]
    exact (Values.one (.bulkObj _)).append (ih h₁ hup.lookup (by omega) hrun₂)

theorem rrCmdHqpopn_answers {count : StrObj} (h : db.Inv others) (hkey : sdsEncodedObject key.enc = true) :
    Answers (rrCmdHqpopn db key count) := by
  rw [rrCmdHqpopn]
  cases hcount : getLongFromObjectOrReply count.enc with
  | inr err =>
    cases hn : getLongLongFromObject count.enc with
    | some n => simp [getLongFromObjectOrReply, hn] at hcount
    | none =>
      rw [getLongFromObjectOrReply, hn] at hcount
      obtain rfl := Sum.inr.inj hcount
      exact .pure (.errLen (by decide))
  | inl n =>
    simp only
    split_ifs
    · exact .pure (.errLen (by decide))
    refine .onCollection fun o heap ho hx => .bind fun r hrun => ?_
    obtain ⟨a, val⟩ := o
    obtain ⟨db₁, replies⟩ := r
    rw [rrDbLookup_spec h hkey] at ho
    obtain rfl := heapq?_eq hx
    exact .pure (popnLoop_values h hkey (Except.ok.inj ho) (Nat.min_le_right _ _) hrun).array

end Heaps

/-! ## Search -/

section Search
variable {G : Type} {db : Keyspace} {others : Multiset ℕ} {key query : StrObj}

theorem searchReplies_values {fts : Fts} {found : List (DocScore G)} {replies : List ReplyCall}
    (run : searchReplies db fts found = .ok replies) : Values (found.length * 2) replies := by
  induction found generalizing replies with
  | nil =>
    obtain rfl := Except.ok.inj run
    exact .nil
  | cons fds found ih =>
    obtain ⟨d, -, run⟩ := Exec.bind_eq_ok.mp run
    obtain ⟨title, htitle, run⟩ := Exec.bind_eq_ok.mp run
    obtain ⟨doc, hdoc, run⟩ := Exec.bind_eq_ok.mp run
    obtain ⟨rest, hrest, he⟩ := Exec.bind_eq_ok.mp run
    obtain rfl := Except.ok.inj he
    rw [List.length_cons, add_mul, add_comm]
    exact ((Values.one (bulkReply_oneValue htitle)).append (.one (bulkReply_oneValue hdoc))).append (ih hrest)

variable [AddCommGroup G] [LinearOrder G] (env : ServerEnv G)

/-- The size that the search announces is the number of the documents that it returns. -/
theorem ftsSearch_size {fts : Fts} (h : fts.Inv) (hq : sdsEncodedObject query.enc = true) {size : ℕ}
    {it : Minheap (DocScore G)} {found : List (DocScore G)} (hs : ftsSearch env.bm25 fts env.fts query = .ok (size, it))
    (hf : ftsIterAll it = .ok found) : size = found.length := by
  rcases Nat.lt_or_ge (matching fts query.enc.bytes).card (2 ^ 31) with hsmall | hbig
  · obtain ⟨size', it', xs, hs', hf', hr⟩ := h.searchRanked env.bm25 env.fts hq hsmall
    obtain ⟨rfl, rfl⟩ : size = size' ∧ it = it' := by simpa using hs.symm.trans hs'
    obtain rfl := Except.ok.inj (hf.symm.trans hf')
    exact hr.size_eq
  · rw [h.ftsSearch_overflow env.bm25 env.fts hq hbig] at hs
    cases hs

theorem rrCmdDsearch_answers (h : db.Inv others) (hkey : sdsEncodedObject key.enc = true)
    (hq : sdsEncodedObject query.enc = true) : Answers (rrCmdDsearch env db key query) := by
  refine .onCollection fun o fts ho hx => .bind fun ⟨size, it⟩ hs => .bind fun found hf => .bind fun replies hr => .pure ?_
  rw [rrDbLookup_spec h hkey] at ho
  have hi : fts.Inv := by
    have hval := h.stored _ o (Except.ok.inj ho)
    rwa [fts?_eq hx] at hval
  rw [ftsSearch_size env hi hq hs hf]
  exact (searchReplies_values hr).array

end Search

/-! ## Commands that re-encode an argument -/

/-- If the command returns, it has sent one value; the object that it puts into `argv` does not
matter. -/
def StoreAnswers (run : Exec (Keyspace × StrObj × List ReplyCall)) : Prop := ∀ r, run = .ok r → OneValue r.2.2

namespace StoreAnswers
variable {db : Keyspace} {val : StrObj}

theorem pure {replies : List ReplyCall} (h : OneValue replies) : StoreAnswers (Pure.pure (db, val, replies)) := by
  intro r hr
  obtain rfl := Except.ok.inj hr
  exact h

theorem bind {β : Type} {x : Exec β} {f : β → Exec (Keyspace × StrObj × List ReplyCall)}
    (h : ∀ b, StoreAnswers (f b)) : StoreAnswers (x >>= f) := by
  intro r hr
  obtain ⟨b, -, hb⟩ := Exec.bind_eq_ok.mp hr
  exact h b r hb

end StoreAnswers

section Storing
variable {G : Type} (env : ServerEnv G) (db : Keyspace) (key x y : StrObj)

theorem rrCmdSet_answers : StoreAnswers (rrCmdSet env db key x) :=
  .bind fun _ => .bind fun _ => .bind fun _ => .pure (.stored _)

theorem rrCmdRset_answers : StoreAnswers (rrCmdRset env db key x y) := by
  refine .bind fun ⟨o, db₁⟩ => ?_
  simp only
  cases o.val with
  | hash trie =>
    refine .bind fun _ => .bind fun _ => .bind fun r => .bind fun _ => .bind fun _ => ?_
    split
    · exact .bind fun _ => .pure .ok
    · exact .pure .err
  | string enc => exact .pure .wrongtypeerr
  | heapq heap => exact .pure .wrongtypeerr
  | fts f => exact .pure .wrongtypeerr

theorem rrCmdHqpush_answers : StoreAnswers (rrCmdHqpush env db key x y) := by
  rw [rrCmdHqpush]
  cases hscore : getDoubleFromObjectOrReply env x.enc with
  | inr err =>
    cases hx : getDoubleFromObject env x.enc with
    | some v => simp [getDoubleFromObjectOrReply, hx] at hscore
    | none =>
      rw [getDoubleFromObjectOrReply, hx] at hscore
      obtain rfl := Sum.inr.inj hscore
      exact .pure (.errLen (by decide))
  | inl score =>
    refine .bind fun r => ?_
    obtain ⟨o, db₁⟩ := r
    simp only
    cases o.val with
    | heapq heap => exact .bind fun _ => .bind fun _ => .bind fun _ => .bind fun _ => .pure .ok
    | string enc => exact .pure .wrongtypeerr
    | hash trie => exact .pure .wrongtypeerr
    | fts f => exact .pure .wrongtypeerr

theorem rrCmdDset_answers : StoreAnswers (rrCmdDset env db key x y) := by
  refine .bind fun ⟨o, db₁⟩ => ?_
  simp only
  cases o.val with
  | fts f => exact .bind fun _ => .bind fun _ => .bind fun _ => .bind fun _ => .pure (.stored _)
  | string enc => exact .pure .wrongtypeerr
  | hash trie => exact .pure .wrongtypeerr
  | heapq heap => exact .pure .wrongtypeerr

end Storing

/-! ## Dispatch -/

/-- If the dispatch returns, one value was sent. -/
def CallAnswers (run : CallRun) : Prop := ∀ r, run = .ok r → OneValue r.2.2

namespace CallAnswers
variable {db : Keyspace} {argv : List StrObj}

theorem pure {replies : List ReplyCall} (h : OneValue replies) : CallAnswers (Pure.pure (db, argv, replies)) := by
  intro r hr
  obtain rfl := Except.ok.inj hr
  exact h

theorem keepArgv {run : CmdRun} (h : Answers run) : CallAnswers (keepArgv argv run) := by
  intro r hr
  obtain ⟨r₁, hrun, he⟩ := Exec.bind_eq_ok.mp hr
  obtain rfl := Except.ok.inj he
  exact h r₁ hrun

theorem withArg {i : ℕ} {f : StrObj → CallRun} (h : ∀ o, argv[i]? = some o → CallAnswers (f o)) :
    CallAnswers (argAt argv i >>= f) := by
  intro r hr
  obtain ⟨o, ho, hf⟩ := Exec.bind_eq_ok.mp hr
  exact h o (argAt_eq_ok ho) r hf

theorem withKey {run : StrObj → CmdRun} (h : ∀ key, argv[1]? = some key → Answers (run key)) :
    CallAnswers (withKey argv run) := .withArg fun key hkey => .keepArgv (h key hkey)

theorem withKeyAndArg {run : StrObj → StrObj → CmdRun}
    (h : ∀ key x, argv[1]? = some key → argv[2]? = some x → Answers (run key x)) :
    CallAnswers (withKeyAndArg argv run) :=
  .withArg fun key hkey => .withArg fun x hx => .keepArgv (h key x hkey hx)

theorem replaceArg {i : ℕ} {run : Exec (Keyspace × StrObj × List ReplyCall)} (h : StoreAnswers run) :
    CallAnswers (replaceArg argv i run) := by
  intro r hr
  obtain ⟨r₁, hrun, he⟩ := Exec.bind_eq_ok.mp hr
  obtain rfl := Except.ok.inj he
  exact h r₁ hrun

end CallAnswers

section Dispatch
variable {G : Type} [AddCommGroup G] [LinearOrder G] (env : ServerEnv G) {db : Keyspace} {argv : List StrObj}
  {others : Multiset ℕ}

theorem call_answers (cmd : RedisCommand) (h : db.Inv others) (hs : AllParsed argv) :
    CallAnswers (call env cmd db argv) := by
  rw [call]
  cases cmd.proc with
  | rrCmdGet => exact .withKey fun key _ => rrCmdGet_answers db key
  | rrCmdLen => exact .keepArgv (.pure (.longlong _))
  | rrCmdSet => exact .withArg fun key _ => .withArg fun val _ => .replaceArg (rrCmdSet_answers env db key val)
  | rrCmdDel => exact .withKey fun key _ => rrCmdDel_answers db key env
  | rrCmdExists => exact .withKey fun key _ => rrCmdExists_answers db key
  | rrCmdRget => exact .withKeyAndArg fun key x _ _ => rrCmdRget_answers db key x
  | rrCmdRpget => exact .withKeyAndArg fun key x _ _ => getPrefixReply_answers db key x _
  | rrCmdRlen => exact .withKey fun key _ => .onCollection fun _ _ _ _ => .pure (.longlong _)
  | rrCmdRset =>
    exact .withArg fun key _ => .withArg fun field _ => .withArg fun val _ =>
      .replaceArg (rrCmdRset_answers env db key field val)
  | rrCmdRdel => exact .withKeyAndArg fun key x _ _ => rrCmdRdel_answers db key x
  | rrCmdRkeys => exact .withKey fun key _ => getAllReply_answers db key _
  | rrCmdRvalues => exact .withKey fun key _ => getAllReply_answers db key _
  | rrCmdRgetall => exact .withKey fun key _ => getAllReply_answers db key _
  | rrCmdRexists => exact .withKeyAndArg fun key x _ _ => rrCmdRexists_answers db key x
  | rrCmdHqpush =>
    exact .withArg fun key _ => .withArg fun score _ => .withArg fun val _ =>
      .replaceArg (rrCmdHqpush_answers env db key score val)
  | rrCmdHqpop => exact .withKey fun key hkey => rrCmdHqpop_answers h (hs.argAt hkey)
  | rrCmdHqpopn => exact .withKeyAndArg fun key x hkey _ => rrCmdHqpopn_answers h (hs.argAt hkey)
  | rrCmdHqpeek => exact .withKey fun key _ => rrCmdHqpeek_answers db key
  | rrCmdHqlen => exact .withKey fun key _ => .onCollection fun _ _ _ _ => .pure (.longlong _)
  | rrCmdDset =>
    exact .withArg fun key _ => .withArg fun title _ => .withArg fun doc _ =>
      .replaceArg (rrCmdDset_answers env db key title doc)
  | rrCmdDget => exact .withKeyAndArg fun key x _ _ => rrCmdDget_answers db key x
  | rrCmdDdel => exact .withKeyAndArg fun key x _ _ => rrCmdDdel_answers db key x env
  | rrCmdDsearch =>
    exact .withKeyAndArg fun key x hkey hx => rrCmdDsearch_answers env h (hs.argAt hkey) (hs.argAt hx)
  | rrCmdDlen => exact .withKey fun key _ => .onCollection fun _ _ _ _ => .pure (.longlong _)
  | rrCmdType => exact .withKey fun key _ => rrCmdType_answers db key
  | rrCmdAdminPing =>
    simp only [rrCmdAdminPing]
    split_ifs
    · exact .pure (.errFormat _)
    · exact .pure .pong
    · exact .withKey fun o _ => .pure (.bulkObj o.enc)
  | rrCmdAdminEcho => exact .withKey fun o _ => .pure (.bulkObj o.enc)
  | rrCmdAdminShutdown =>
    intro r hr
    cases hr
  | rrCmdAdminInfo => exact .pure (.bulkSds env.info)

theorem cmdDispatch_answers (commands : DictT RedisCommand) (h : db.Inv others) (hs : AllParsed argv) :
    CallAnswers (cmdDispatch env commands db argv) := by
  intro r hr
  obtain ⟨name, hname, hr⟩ := Exec.bind_eq_ok.mp hr
  obtain ⟨n, -, hr⟩ := Exec.bind_eq_ok.mp hr
  obtain ⟨cmd, -, hr⟩ := Exec.bind_eq_ok.mp hr
  cases cmd with
  | none => exact CallAnswers.pure (.errFormat _) r hr
  | some cmd =>
    simp only at hr
    split at hr
    · exact CallAnswers.pure (.errFormat _) r hr
    · exact call_answers env cmd h (hs.lowered (argAt_eq_ok hname)) r hr

end Dispatch

end RhinoRox
