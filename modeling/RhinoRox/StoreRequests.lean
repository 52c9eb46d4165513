import RhinoRox.StoreQueues

/-!
# Requests and the store

How the command table reads the arguments of a request, and every entry of the table against the
request that it stands for.
-/

namespace RhinoRox

open Store

variable {G : Type} (env : ServerEnv G)

/-! ## Reading a request -/

def errorText (s : Bytes) : Bytes := ascii "ERR " ++ s

/-- Line ends in the text of a formatted error are replaced. -/
def oneLine (s : Bytes) : Bytes := s.map fun b => if b = 13 ∨ b = 10 then 32 else b

def wrongArityError (cmd : RedisCommand) : Request :=
  .refused (errorText (oneLine (ascii "wrong number of arguments for '" ++ ascii cmd.name ++ ascii "' command")))

def readPush (k score v : Bytes) : Request :=
  match getDoubleFromObject env (.raw score) with
  | none => .refused (errorText (ascii "value is not a valid float"))
  | some x => .key k (.qpush x v)

def readPopn (k count : Bytes) : Request :=
  match getLongLongFromObject (.raw count) with
  | none => .refused (errorText (ascii "value is not an integer or out of range"))
  | some n =>
    if n < 0 then .refused (errorText (ascii "invalid non-negtive integer")) else .key k (.queue (.qpopn n.toNat))

/-- The request of a command with the right number of arguments. Keys, fields and prefixes end at
their first NUL. -/
def readCall (cmd : RedisCommand) (args : List Bytes) : Request :=
  match cmd.proc, args with
  | .rrCmdGet, [k] => .key (cStr k) .get
  | .rrCmdLen, [] => .len
  | .rrCmdSet, [k, v] => .key (cStr k) (.set v)
  | .rrCmdDel, [k] => .key (cStr k) .del
  | .rrCmdExists, [k] => .key (cStr k) .exists
  | .rrCmdRget, [k, f] => .key (cStr k) (.trie (.rget (cStr f)))
  | .rrCmdRpget, [k, p] => .key (cStr k) (.trie (.rpget (cStr p)))
  | .rrCmdRlen, [k] => .key (cStr k) (.trie .rlen)
  | .rrCmdRset, [k, f, v] => .key (cStr k) (.rset (cStr f) v)
  | .rrCmdRdel, [k, f] => .key (cStr k) (.trie (.rdel (cStr f)))
  | .rrCmdRkeys, [k] => .key (cStr k) (.trie .rkeys)
  | .rrCmdRvalues, [k] => .key (cStr k) (.trie .rvalues)
  | .rrCmdRgetall, [k] => .key (cStr k) (.trie .rgetall)
  | .rrCmdRexists, [k, f] => .key (cStr k) (.trie (.rexists (cStr f)))
  | .rrCmdHqpush, [k, x, v] => readPush env (cStr k) x v
  | .rrCmdHqpop, [k] => .key (cStr k) (.queue .qpop)
  | .rrCmdHqpopn, [k, n] => readPopn (cStr k) n
  | .rrCmdHqpeek, [k] => .key (cStr k) (.queue .qpeek)
  | .rrCmdHqlen, [k] => .key (cStr k) (.queue .qlen)
  | .rrCmdDset, [k, t, d] => .key (cStr k) (.dset (cStr t) ⟨t, d⟩)
  | .rrCmdDget, [k, t] => .key (cStr k) (.documents (.dget (cStr t)))
  | .rrCmdDdel, [k, t] => .key (cStr k) (.documents (.ddel (cStr t)))
  | .rrCmdDsearch, [k, q] => .key (cStr k) (.documents (.dsearch q))
  | .rrCmdDlen, [k] => .key (cStr k) (.documents .dlen)
  | .rrCmdType, [k] => .key (cStr k) .type
  | .rrCmdAdminPing, [] => .ping
  | .rrCmdAdminPing, [s] => .echo s
  | .rrCmdAdminPing, _ => wrongArityError cmd
  | .rrCmdAdminEcho, [s] => .echo s
  | .rrCmdAdminShutdown, _ => .shutdown
  | .rrCmdAdminInfo, _ => .echo env.info
  | _, _ => .nothing

def WrongArity (cmd : RedisCommand) (argc : ℕ) : Prop := (cmd.arity > 0 ∧ cmd.arity ≠ argc) ∨ (argc : ℤ) < -cmd.arity

instance (cmd : RedisCommand) (argc : ℕ) : Decidable (WrongArity cmd argc) := inferInstanceAs (Decidable (_ ∨ _))

def readRequest : List Bytes → Request
  | [] => .nothing
  | name :: args =>
    if strcaseEq name (ascii "quit") then .quit
    else
      match commandNamed name with
      | none => .refused (errorText (oneLine (ascii "unknown command '" ++ cStr (sdstolower name) ++ ascii "'")))
      | some cmd => if WrongArity cmd (args.length + 1) then wrongArityError cmd else readCall env cmd args

/-- The rules of the store that the server serves. -/
def ServerEnv.rules : Rules G := ⟨termsOf, env.bm25, doubleKey, readRequest env⟩

/-! ## Runs of commands -/

/-- Where a request does not return. -/
def Store.Request.Crashes (ρ : Rules G) : Request → State → Prop
  | .shutdown, _ => True
  | .key k c, σ => c.Crashes ρ (σ.lookup k)
  | _, _ => False

/-- A run answers a request, and it returns unless the request crashes. -/
structure Executes [AddCommGroup G] [LE G] (ρ : Rules G) (req : Request) (new : Prop) (db : Keyspace) (run : CmdRun) :
    Prop where
  answers : ∀ r, run = .ok r →
    ∃ a, Responds ρ db.store req r.1.store a ∧ r.2.flatMap ReplyCall.payload = (a.map Reply.encode).getD []
  completes : new → ((∃ r, run = .ok r) ↔ ¬ req.Crashes ρ db.store)

section Executes
variable [AddCommGroup G] [LE G] {ρ : Rules G} {new : Prop} {db : Keyspace} {run : CmdRun}

theorem Handles.executes {k : Bytes} {c : KeyCommand}
    (h : Handles (c.Acts ρ (db.store.lookup k)) new (c.Crashes ρ (db.store.lookup k)) db k run) :
    Executes ρ (.key k c) new db run := by
  refine ⟨fun r hr => ?_, h.completes⟩
  obtain ⟨v, a, ha, hstore, hsent⟩ := h.served r hr
  refine ⟨some a, ?_, hsent⟩
  rw [hstore]
  exact .key _ k ha

theorem Executes.imp {req : Request} {new' : Prop} (h : Executes ρ req new db run) (hnew : new' → new) :
    Executes ρ req new' db run := ⟨h.answers, fun hn => h.completes (hnew hn)⟩

/-- A request that changes nothing and always returns. -/
theorem Executes.same {req : Request} {replies : List ReplyCall} {a : Reply} (hr : run = .ok (db, replies))
    (ha : Responds ρ db.store req db.store (some a)) (hsent : replies.flatMap ReplyCall.payload = a.encode)
    (hc : ¬ req.Crashes ρ db.store) : Executes ρ req new db run := by
  refine ⟨fun r h => ?_, fun _ => iff_of_true ⟨_, hr⟩ hc⟩
  rw [hr] at h
  obtain rfl := Except.ok.inj h
  exact ⟨some a, ha, hsent⟩

/-- A refused request. -/
theorem Executes.refused {s : Bytes} (hr : run = .ok (db, replyAddErrLen s)) :
    Executes ρ (.refused (errorText s)) new db run := by
  refine .same hr (.refused _ _) ?_ id
  simp [replyAddErrLen, ReplyCall.payload, Reply.encode, errorText, ascii_crlf, show ascii "-ERR " = 45 :: ascii "ERR " by decide]

theorem outcome_keepArgv (argv : List StrObj) (run : CmdRun) : outcome (keepArgv argv run) = run := by
  cases run <;> rfl

theorem outcome_replaceArg (argv : List StrObj) (i : ℕ) (run : Exec (Keyspace × StrObj × List ReplyCall)) :
    outcome (replaceArg argv i run) = outcome run := by
  cases run <;> rfl

end Executes

/-! ## The command table -/

section Calls
variable [AddCommGroup G] [LinearOrder G] {db : Keyspace} {others : Multiset ℕ} {name : StrObj} {args : List StrObj}

/-- QPUSH, with the score read from the argument. -/
theorem hqpush_executes {key score val : StrObj} (h : db.Inv (val.addr ::ₘ others)) (hkey : sdsEncodedObject key.enc = true)
    (hscore : sdsEncodedObject score.enc = true) (hval : sdsEncodedObject val.enc = true) {new : Prop} :
    Executes env.rules (readPush env key.key score.text val.text) new db (outcome (rrCmdHqpush env db key score val)) := by
  have hread : getDoubleFromObject env score.enc = getDoubleFromObject env (.raw score.text) := by
    rw [StrObj.text]
    cases henc : score.enc with
    | int n => rw [henc] at hscore; cases hscore
    | _ => rfl
  rw [readPush, ← hread]
  cases hx : getDoubleFromObject env score.enc with
  | none =>
    refine .refused ?_
    simp only [rrCmdHqpush, getDoubleFromObjectOrReply, hx]
    rfl
  | some x =>
    refine (rrCmdHqpush_handles env ?_ h hkey hval).executes
    rw [getDoubleFromObjectOrReply, hx]

/-- QPOPN, with the count read from the argument. -/
theorem hqpopn_executes {key count : StrObj} (h : db.Inv others) (hkey : sdsEncodedObject key.enc = true)
    (hcount : sdsEncodedObject count.enc = true) {new : Prop} :
    Executes env.rules (readPopn key.key count.text) new db (rrCmdHqpopn db key count) := by
  have hread : getLongLongFromObject count.enc = getLongLongFromObject (.raw count.text) := by
    rw [StrObj.text]
    cases henc : count.enc with
    | int n => rw [henc] at hcount; cases hcount
    | _ => rfl
  rw [readPopn, ← hread]
  cases hn : getLongLongFromObject count.enc with
  | none =>
    refine .refused ?_
    simp only [rrCmdHqpopn, getLongFromObjectOrReply, hn]
    rfl
  | some n =>
    simp only
    split
    · rename_i hneg
      refine .refused ?_
      simp only [rrCmdHqpopn, getLongFromObjectOrReply, hn, if_pos hneg]
      rfl
    · rename_i hpos
      refine (rrCmdHqpopn_handles rfl ?_ (not_lt.mp hpos) h hkey).executes
      rw [getLongFromObjectOrReply, hn]

theorem WrongArity.length_eq {cmd : RedisCommand} {n : ℕ} (h : ¬ WrongArity cmd (args.length + 1))
    (harity : cmd.arity = (n + 1 : ℕ)) : args.length = n := by
  rw [WrongArity, not_or] at h
  omega

theorem sent_pong : [ReplyCall.obj Shared.pong].flatMap ReplyCall.payload = (Reply.status (ascii "PONG")).encode := by
  decide

/-- PING with any number of arguments. -/
theorem adminPing_executes {cmd : RedisCommand} (hcmd : cmd.proc = .rrCmdAdminPing) {new : Prop} :
    Executes env.rules (readCall env cmd (args.map StrObj.text)) new db (outcome (rrCmdAdminPing cmd db (name :: args))) := by
  obtain ⟨cname, proc, arity, sflags⟩ := cmd
  obtain rfl : proc = .rrCmdAdminPing := hcmd
  cases args with
  | nil => exact .same rfl (.ping _) sent_pong id
  | cons x args =>
    cases args with
    | nil => exact .same rfl (.echo _ _) (sent_bulk x.enc) id
    | cons y args =>
      refine .refused (s := oneLine _) ?_
      rw [rrCmdAdminPing, if_pos (by simp)]
      rfl

/-- Every entry of the command table executes the request that it stands for. -/
theorem call_executes {cmd : RedisCommand} (hcmd : cmd ∈ redisCommandTable) (h : db.Inv (addrs (name :: args) + others))
    (hs : AllParsed (name :: args)) (harity : ¬ WrongArity cmd (args.length + 1)) :
    Executes env.rules (readCall env cmd (args.map StrObj.text)) (∀ o ∈ args, refcount db.refs o.addr = .ok 1) db
      (outcome (call env cmd db (name :: args))) := by
  have hsds : ∀ o ∈ args, sdsEncodedObject o.enc = true := fun o ho => (hs o (List.mem_cons_of_mem name ho)).1
  have keep : ∀ {req new argv run}, Executes env.rules req new db run →
      Executes env.rules req new db (outcome (keepArgv argv run)) := fun hrun => by
    rw [outcome_keepArgv]
    exact hrun
  have replace : ∀ {req new argv i run}, Executes env.rules req new db (outcome run) →
      Executes env.rules req new db (outcome (replaceArg argv i run)) := fun hrun => by
    rw [outcome_replaceArg]
    exact hrun
  simp only [redisCommandTable, List.mem_cons, List.not_mem_nil, or_false] at hcmd
  rcases hcmd with rfl | rfl | rfl | rfl | rfl | rfl | rfl | rfl | rfl | rfl | rfl | rfl | rfl | rfl | rfl | rfl | rfl |
    rfl | rfl | rfl | rfl | rfl | rfl | rfl | rfl | rfl | rfl | rfl | rfl
  -- GET, LEN, SET, DEL and EXISTS
  · obtain ⟨k, rfl⟩ := List.length_eq_one_iff.mp (WrongArity.length_eq harity rfl)
    exact keep (rrCmdGet_handles h (hsds k (by simp))).executes
  · obtain rfl := List.length_eq_zero_iff.mp (WrongArity.length_eq harity rfl)
    refine .same rfl (.len _) ?_ id
    rw [Keyspace.store, FiniteMaps.keys_mapValues, h.dict.card_keys]
    exact sent_integer _
  · obtain ⟨k, v, rfl⟩ := List.length_eq_two.mp (WrongArity.length_eq harity rfl)
    exact replace (rrCmdSet_handles env (h.argument (i := 2) rfl) (hsds k (by simp)) (hsds v (by simp))).executes
  · obtain ⟨k, rfl⟩ := List.length_eq_one_iff.mp (WrongArity.length_eq harity rfl)
    exact keep (rrCmdDel_handles env h (hsds k (by simp))).executes
  · obtain ⟨k, rfl⟩ := List.length_eq_one_iff.mp (WrongArity.length_eq harity rfl)
    exact keep (rrCmdExists_handles h (hsds k (by simp))).executes
  -- tries
  · obtain ⟨k, f, rfl⟩ := List.length_eq_two.mp (WrongArity.length_eq harity rfl)
    exact keep (rrCmdRget_handles h (hsds k (by simp)) (hsds f (by simp))).executes
  · obtain ⟨k, p, rfl⟩ := List.length_eq_two.mp (WrongArity.length_eq harity rfl)
    exact keep (rrCmdRpget_handles h (hsds k (by simp)) (hsds p (by simp))).executes
  · obtain ⟨k, rfl⟩ := List.length_eq_one_iff.mp (WrongArity.length_eq harity rfl)
    exact keep (rrCmdRlen_handles h (hsds k (by simp))).executes
  · obtain ⟨k, f, v, rfl⟩ := List.length_eq_three.mp (WrongArity.length_eq harity rfl)
    exact replace (rrCmdRset_handles env (h.argument (i := 3) rfl) (hsds k (by simp)) (hsds f (by simp))
      (hsds v (by simp))).executes
  · obtain ⟨k, f, rfl⟩ := List.length_eq_two.mp (WrongArity.length_eq harity rfl)
    exact keep (rrCmdRdel_handles h (hsds k (by simp)) (hsds f (by simp))).executes
  · obtain ⟨k, rfl⟩ := List.length_eq_one_iff.mp (WrongArity.length_eq harity rfl)
    exact keep (rrCmdRkeys_handles h (hsds k (by simp))).executes
  · obtain ⟨k, rfl⟩ := List.length_eq_one_iff.mp (WrongArity.length_eq harity rfl)
    exact keep (rrCmdRvalues_handles h (hsds k (by simp))).executes
  · obtain ⟨k, rfl⟩ := List.length_eq_one_iff.mp (WrongArity.length_eq harity rfl)
    exact keep (rrCmdRgetall_handles h (hsds k (by simp))).executes
  · obtain ⟨k, f, rfl⟩ := List.length_eq_two.mp (WrongArity.length_eq harity rfl)
    exact keep (rrCmdRexists_handles h (hsds k (by simp)) (hsds f (by simp))).executes
  -- heaps
  · obtain ⟨k, x, v, rfl⟩ := List.length_eq_three.mp (WrongArity.length_eq harity rfl)
    exact replace (hqpush_executes env (h.argument (i := 3) rfl) (hsds k (by simp)) (hsds x (by simp)) (hsds v (by simp)))
  · obtain ⟨k, rfl⟩ := List.length_eq_one_iff.mp (WrongArity.length_eq harity rfl)
    exact keep (rrCmdHqpop_handles rfl h (hsds k (by simp))).executes
  · obtain ⟨k, n, rfl⟩ := List.length_eq_two.mp (WrongArity.length_eq harity rfl)
    exact keep (hqpopn_executes env h (hsds k (by simp)) (hsds n (by simp)))
  · obtain ⟨k, rfl⟩ := List.length_eq_one_iff.mp (WrongArity.length_eq harity rfl)
    exact keep (rrCmdHqpeek_handles rfl h (hsds k (by simp))).executes
  · obtain ⟨k, rfl⟩ := List.length_eq_one_iff.mp (WrongArity.length_eq harity rfl)
    exact keep (rrCmdHqlen_handles h (hsds k (by simp))).executes
  -- sets of documents
  · obtain ⟨k, t, d, rfl⟩ := List.length_eq_three.mp (WrongArity.length_eq harity rfl)
    have hargs : db.Inv (t.addr ::ₘ d.addr ::ₘ (addrs [name, k] + others)) := by
      have hinv := h.argument (i := 2) rfl
      rw [addrs_withoutTitle rfl, Multiset.cons_add] at hinv
      exact hinv
    have hset := (rrCmdDset_handles (ρ := env.rules) env hargs (hsds k (by simp)) (hsds t (by simp)) (hsds d (by simp))
      (hs.short (i := 3) rfl)).executes
    exact replace (hset.imp fun hone => hone t (by simp))
  · obtain ⟨k, t, rfl⟩ := List.length_eq_two.mp (WrongArity.length_eq harity rfl)
    exact keep (rrCmdDget_handles h (hsds k (by simp)) (hsds t (by simp))).executes
  · obtain ⟨k, t, rfl⟩ := List.length_eq_two.mp (WrongArity.length_eq harity rfl)
    exact keep (rrCmdDdel_handles env h (hsds k (by simp)) (hsds t (by simp))).executes
  · obtain ⟨k, q, rfl⟩ := List.length_eq_two.mp (WrongArity.length_eq harity rfl)
    exact keep (rrCmdDsearch_handles env rfl rfl h (hsds k (by simp)) (hsds q (by simp))).executes
  · obtain ⟨k, rfl⟩ := List.length_eq_one_iff.mp (WrongArity.length_eq harity rfl)
    exact keep (rrCmdDlen_handles h (hsds k (by simp))).executes
  -- TYPE and the administrative commands
  · obtain ⟨k, rfl⟩ := List.length_eq_one_iff.mp (WrongArity.length_eq harity rfl)
    exact keep (rrCmdType_handles h (hsds k (by simp))).executes
  · exact adminPing_executes env rfl
  · obtain ⟨x, rfl⟩ := List.length_eq_one_iff.mp (WrongArity.length_eq harity rfl)
    exact keep (.same rfl (.echo _ _) (sent_bulk x.enc) id)
  · have hrun : outcome (call env ⟨"shutdown", .rrCmdAdminShutdown, -1, "arlt"⟩ db (name :: args)) = .error .exit := rfl
    rw [hrun]
    refine ⟨fun r hr => ?_, fun _ => iff_of_false ?_ (not_not.mpr trivial)⟩
    · cases hr
    · rintro ⟨r, hr⟩
      cases hr
  · refine .same rfl (.echo _ _) ?_ id
    have hinfo : (replyAddBulkSds env.info).flatMap ReplyCall.payload = bulkBytes env.info := by
      simp [replyAddBulkSds, ReplyCall.payload, bulkBytes, Shared.crlf]
    exact hinfo.trans (bulkBytes_eq env.info)

end Calls

end RhinoRox
