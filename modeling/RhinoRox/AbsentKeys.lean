import RhinoRox.ReadingCommands

/-!
# Commands on a key that is not there

`rr_db_lookup_or_reply` sends the object it is given with `reply_add_bulk_obj`. The handlers
give it the shared null bulk, which is a complete reply already, and the client is sent a
string whose contents are `$-1`. GET sends the object as it is.
-/

namespace RhinoRox

/-! ## The sixteen commands -/

/-- The handlers that look a collection up without creating it. -/
def collectionProcs : List Proc :=
  [.rrCmdRget, .rrCmdRexists, .rrCmdRlen, .rrCmdRpget, .rrCmdRkeys, .rrCmdRvalues, .rrCmdRgetall, .rrCmdRdel,
    .rrCmdHqpop, .rrCmdHqpeek, .rrCmdHqlen, .rrCmdHqpopn, .rrCmdDget, .rrCmdDsearch, .rrCmdDlen, .rrCmdDdel]

/-- The count of QPOPN is a number and not negative; other commands accept every argument. -/
def ValidCount (proc : Proc) (args : List StrEnc) : Prop :=
  proc = .rrCmdHqpopn → ∀ x ∈ args, ∃ n : ℤ, getLongFromObjectOrReply x = .inl n ∧ 0 ≤ n

section Absent
variable {db : Keyspace} {others : Multiset ℕ} {key : StrObj}

theorem keepArgv_absent {β : Type} {select : ObjVal → Option β} {run : Robj → β → CmdRun} (h : db.Inv others)
    (hkey : sdsEncodedObject key.enc = true) (habsent : db.dict.toMap.lookup key.key = none) (argv : List StrObj) :
    keepArgv argv (onCollection select db key run) = .ok (db, argv, replyAddBulkObj Shared.nullbulk) := by
  simp [keepArgv, onCollection, rrDbLookup_spec h hkey, habsent]

variable {G : Type} [AddCommGroup G] [LinearOrder G] (env : ServerEnv G)

theorem call_absent {cmd : RedisCommand} (hcmd : cmd ∈ redisCommandTable) (hproc : cmd.proc ∈ collectionProcs)
    (h : db.Inv others) (hkey : sdsEncodedObject key.enc = true) (habsent : db.dict.toMap.lookup key.key = none)
    (o : StrObj) (xs : List StrObj) (harity : cmd.arity = (xs.length + 2 : ℕ))
    (hcount : ValidCount cmd.proc (xs.map StrObj.enc)) :
    call env cmd db (o :: key :: xs) = .ok (db, o :: key :: xs, replyAddBulkObj Shared.nullbulk) := by
  have hone : cmd.arity = 2 → xs = [] := by
    intro h2
    exact List.length_eq_zero_iff.mp (by omega)
  have htwo : cmd.arity = 3 → ∃ x, xs = [x] := by
    intro h3
    exact List.length_eq_one_iff.mp (by omega)
  have hcases : ∀ c ∈ redisCommandTable, c.proc ∈ collectionProcs → c.arity = 2 ∨ c.arity = 3 := by decide
  rw [call]
  rcases hcases cmd hcmd hproc with h2 | h3
  · obtain rfl := hone h2
    have honly : ∀ c ∈ redisCommandTable, c.proc ∈ collectionProcs → c.arity = 2 →
        c.proc ∈ [Proc.rrCmdRlen, .rrCmdRkeys, .rrCmdRvalues, .rrCmdRgetall, .rrCmdHqpop, .rrCmdHqpeek, .rrCmdHqlen,
          .rrCmdDlen] := by decide
    have hp := honly cmd hcmd hproc h2
    cases hc : cmd.proc <;> rw [hc] at hp <;> first | exact keepArgv_absent h hkey habsent _ | exact absurd hp (by decide)
  · obtain ⟨x, rfl⟩ := htwo h3
    have honly : ∀ c ∈ redisCommandTable, c.proc ∈ collectionProcs → c.arity = 3 →
        c.proc ∈ [Proc.rrCmdRget, .rrCmdRexists, .rrCmdRpget, .rrCmdRdel, .rrCmdHqpopn, .rrCmdDget, .rrCmdDsearch,
          .rrCmdDdel] := by decide
    have hp := honly cmd hcmd hproc h3
    cases hc : cmd.proc with
    | rrCmdHqpopn =>
      obtain ⟨n, hn, hpos⟩ := hcount hc x.enc (by simp)
      change keepArgv _ (rrCmdHqpopn db key x) = _
      rw [rrCmdHqpopn, hn]
      simp only [if_neg (not_lt.mpr hpos)]
      exact keepArgv_absent h hkey habsent _
    | _ => rw [hc] at hp; first | exact keepArgv_absent h hkey habsent _ | exact absurd hp (by decide)

end Absent

namespace Server
variable {G : Type} [AddCommGroup G] [LinearOrder G] (env : ServerEnv G) {s : Server} {c : ℕ}

/-- The request completes with the null bulk and leaves the keyspace as it was. -/
def RepliesNull (s : Server) (c : ℕ) (req : List Argument) : Prop :=
  ∃ s' replies, s.request env c req = .ok (s', replies) ∧ s'.db.dict = s.db.dict ∧
    replies.flatMap ReplyCall.payload = ascii "$-1\r\n"

/-- The null bulk is sent as the contents of a string. -/
theorem request_absent (h : s.Inv) (hidle : s.argvOf c = []) (name key : Argument) (args : List Argument)
    {cmd : RedisCommand} (hcmd : commandNamed name.enc.bytes = some cmd) (hproc : cmd.proc ∈ collectionProcs)
    (harity : cmd.arity = (args.length + 2 : ℕ)) (hcount : ValidCount cmd.proc (args.map Argument.enc))
    (habsent : s.db.dict.toMap.lookup (cStr key.enc.bytes) = none) :
    ∃ s', s.request env c (name :: key :: args) = .ok (s', replyAddBulkObj Shared.nullbulk) ∧
      s'.db.dict = s.db.dict := by
  obtain ⟨db, o, objs, others, hdb, hdict, henc, -, hok, -⟩ :=
    request_command env h hidle name (key :: args) cmd hcmd harity
  obtain ⟨k, objs, rfl, hk, henc⟩ := List.map_eq_cons_iff.mp henc
  have hlen : objs.length = args.length := by simpa using congrArg List.length henc
  have hnone : db.dict.toMap.lookup k.key = none := by
    rw [hdict]
    change s.db.dict.toMap.lookup (cStr k.enc.bytes) = none
    rw [hk]
    exact habsent
  have hcall := call_absent env (commandNamed_eq_some hcmd).1 hproc hdb (hk ▸ key.sds) hnone o objs
    (by rw [hlen]; exact harity) (by rw [henc]; exact hcount)
  obtain ⟨s', hrun, -, hdict', -⟩ := hok _ _ _ hcall
  exact ⟨s', hrun, hdict'.trans hdict⟩

theorem not_repliesNull_of_bulk {s' : Server} {req : List Argument}
    (hrun : s.request env c req = .ok (s', replyAddBulkObj Shared.nullbulk)) : ¬ RepliesNull env s c req := by
  rintro ⟨s₁, replies, hrun', -, hnull⟩
  rw [hrun] at hrun'
  obtain ⟨-, rfl⟩ := Prod.mk.inj (Except.ok.inj hrun')
  exact absurd hnull (by decide +kernel)

/-- GET sends the object itself. -/
theorem get_absent (h : s.Inv) (hidle : s.argvOf c = []) (key : Argument)
    (habsent : s.db.dict.toMap.lookup (cStr key.enc.bytes) = none) :
    RepliesNull env s c [textArgument "GET", key] := by
  have hcmd : commandNamed (textArgument "GET").enc.bytes = some ⟨"get", .rrCmdGet, 2, "rF"⟩ := by decide
  obtain ⟨s', hrun, -, hdict, -⟩ := request_keyReply env h hidle (textArgument "GET") key hcmd (by decide)
  rw [habsent] at hrun
  exact ⟨s', _, hrun, hdict, rfl⟩

/-- On an absent key none of the sixteen commands replies with the null bulk. Each leaves the
keyspace as it was and sends a string of five bytes. -/
theorem absent_key_never_null (hs : s.Reachable G) (hidle : s.argvOf c = []) (name key : Argument)
    (args : List Argument) {cmd : RedisCommand} (hcmd : commandNamed name.enc.bytes = some cmd)
    (hproc : cmd.proc ∈ collectionProcs) (harity : cmd.arity = (args.length + 2 : ℕ))
    (hcount : ValidCount cmd.proc (args.map Argument.enc))
    (habsent : s.db.dict.toMap.lookup (cStr key.enc.bytes) = none) :
    ¬ RepliesNull env s c (name :: key :: args) ∧ RepliesNull env s c [textArgument "GET", key] ∧
      ∃ s' replies, s.request env c (name :: key :: args) = .ok (s', replies) ∧ s'.db.dict = s.db.dict ∧
        replies.flatMap ReplyCall.payload = ascii "$5\r\n$-1\r\n\r\n" := by
  obtain ⟨s', hrun, hdict⟩ := request_absent env hs.inv hidle name key args hcmd hproc harity hcount habsent
  exact ⟨not_repliesNull_of_bulk env hrun, get_absent env hs.inv hidle key habsent, s', _, hrun, hdict,
    by decide +kernel⟩

/-- QPOPN with the count 3 on a new server. -/
theorem absent_key_never_null_qpopn :
    ∃ s, s.Reachable ℤ ∧ ¬ RepliesNull bumpServerEnv s 0 [textArgument "QPOPN", textArgument "k", textArgument "3"] := by
  obtain ⟨⟨d, db, argv⟩, hinit, rfl, rfl⟩ := exists_rrServerInit
  have hs : Server.Reachable ℤ ⟨d, rrDbCreate, ∅⟩ := .init hinit
  have hcmd : commandNamed (textArgument "QPOPN").enc.bytes = some ⟨"qpopn", .rrCmdHqpopn, 3, "wm"⟩ := by decide
  refine ⟨_, hs, (absent_key_never_null bumpServerEnv hs rfl (textArgument "QPOPN") (textArgument "k")
    [textArgument "3"] hcmd (by decide) rfl ?_ rfl).1⟩
  rintro - x hx
  rw [List.mem_singleton.mp hx]
  exact ⟨3, by decide, by decide⟩

theorem absent_key_rlen :
    ∃ s, s.Reachable ℤ ∧ s.argvOf 0 = [] ∧ s.db.dict.toMap.lookup (cStr (textArgument "k").enc.bytes) = none ∧
      ¬ RepliesNull bumpServerEnv s 0 [textArgument "RLEN", textArgument "k"] := by
  obtain ⟨⟨d, db, argv⟩, hinit, rfl, rfl⟩ := exists_rrServerInit
  have hs : Server.Reachable ℤ ⟨d, rrDbCreate, ∅⟩ := .init hinit
  have hcmd : commandNamed (textArgument "RLEN").enc.bytes = some ⟨"rlen", .rrCmdRlen, 2, "rF"⟩ := by decide
  obtain ⟨s', hrun, -⟩ := request_absent bumpServerEnv hs.inv rfl (textArgument "RLEN") (textArgument "k") []
    hcmd (by decide) rfl (by simp [ValidCount]) rfl
  exact ⟨_, hs, rfl, rfl, not_repliesNull_of_bulk bumpServerEnv hrun⟩

end Server

end RhinoRox
