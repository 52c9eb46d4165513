import RhinoRox.CollectionContents
import RhinoRox.ReleaseLogs
import RhinoRox.ServedRuns

/-!
# Lazy freeing makes no difference

Two servers that run the same requests, one with `lazyfree_server_del` and one without, give
the same replies and store the same contents, whenever their background threads take their
turns. Their allocators may differ as well.
-/

namespace RhinoRox

/-! ## Dispatch -/

/-- What two servers have to have in common: the number conversions and the scores. -/
structure ServerEnv.SameRules {G : Type} (env env' : ServerEnv G) : Prop where
  strtod : env.strtod = env'.strtod
  ofLong : env.ofLong = env'.ofLong
  bm25 : env.bm25 = env'.bm25

/-- The server with `lazyfree_server_del` switched on or off. -/
def ServerEnv.withLazyfree {G : Type} (env : ServerEnv G) (lazy : Bool) : ServerEnv G :=
  { env with lazyfreeServerDel := lazy }

theorem ServerEnv.SameRules.symm {G : Type} {env env' : ServerEnv G} (h : env.SameRules env') : env'.SameRules env :=
  ⟨h.strtod.symm, h.ofLong.symm, h.bm25.symm⟩

/-- Two argument vectors with the same texts, of new objects. -/
structure SameArgv (db db' : Keyspace) (argv argv' : List StrObj) : Prop where
  encs : argv.map StrObj.enc = argv'.map StrObj.enc
  parsed : AllParsed argv
  one : ∀ o ∈ argv, refcount db.refs o.addr = .ok 1
  one' : ∀ o ∈ argv', refcount db'.refs o.addr = .ok 1

section Dispatch
variable {db db' : Keyspace} {others others' : Multiset ℕ} {argv argv' : List StrObj}

theorem SameArgv.length_eq (ha : SameArgv db db' argv argv') : argv.length = argv'.length := by
  have hlen := congrArg List.length ha.encs
  rwa [List.length_map, List.length_map] at hlen

theorem argAt_alike {β γ : Type} {R : β → γ → Prop} (ha : SameArgv db db' argv argv') {i : ℕ} {f : StrObj → Exec β}
    {g : StrObj → Exec γ}
    (hf : ∀ o o', argv[i]? = some o → argv'[i]? = some o' → SameArg o o' → refcount db.refs o.addr = .ok 1 →
      refcount db'.refs o'.addr = .ok 1 → Alike R (f o) (g o')) :
    Alike R (argAt argv i >>= f) (argAt argv' i >>= g) := by
  have hi := congrArg (fun l => l[i]?) ha.encs
  simp only [List.getElem?_map] at hi
  rw [argAt, argAt]
  obtain ⟨ho, ho'⟩ | ⟨o, o', ho, ho', henc⟩ := option_map_cases hi
  · rw [ho, ho']
    exact .error rfl rfl
  · rw [ho, ho']
    exact hf o o' ho ho' ⟨ha.parsed.argAt ho, henc⟩ (ha.one o (List.mem_of_getElem? ho))
      (ha.one' o' (List.mem_of_getElem? ho'))

theorem keepArgv_alike {run run' : CmdRun} (h : Alike SameResult run run') :
    Alike SameCall (keepArgv argv run) (keepArgv argv' run') := by
  refine .bind h ?_
  rintro ⟨db₁, replies⟩ ⟨db₁', replies'⟩ - - ⟨hcontents, hreplies⟩
  exact .pure ⟨hcontents, hreplies⟩

theorem replaceArg_alike {i : ℕ} {run run' : Exec (Keyspace × StrObj × List ReplyCall)} (h : Alike SameCall run run') :
    Alike SameCall (replaceArg argv i run) (replaceArg argv' i run') := by
  refine .bind h ?_
  rintro ⟨db₁, o, replies⟩ ⟨db₁', o', replies'⟩ - - ⟨hcontents, hreplies⟩
  exact .pure ⟨hcontents, hreplies⟩

theorem withKey_alike {run run' : StrObj → CmdRun} (ha : SameArgv db db' argv argv')
    (h : ∀ key key', SameArg key key' → Alike SameResult (run key) (run' key')) :
    Alike SameCall (withKey argv run) (withKey argv' run') :=
  argAt_alike ha fun key key' _ _ hk _ _ => keepArgv_alike (h key key' hk)

theorem withKeyAndArg_alike {run run' : StrObj → StrObj → CmdRun} (ha : SameArgv db db' argv argv')
    (h : ∀ key key' x x', SameArg key key' → SameArg x x' → Alike SameResult (run key x) (run' key' x')) :
    Alike SameCall (withKeyAndArg argv run) (withKeyAndArg argv' run') :=
  argAt_alike ha fun key key' _ _ hk _ _ => argAt_alike ha fun x x' _ _ hx _ _ =>
    keepArgv_alike (h key key' x x' hk hx)

variable {G : Type} [AddCommGroup G] [LinearOrder G] {env env' : ServerEnv G} (hrules : env.SameRules env')
include hrules

theorem call_alike {cmd : RedisCommand} (hinfo : cmd.proc ≠ .rrCmdAdminInfo)
    (h : SameKeyspaces (addrs argv + others) (addrs argv' + others') db db') (ha : SameArgv db db' argv argv') :
    Alike SameCall (call env cmd db argv) (call env' cmd db' argv') := by
  rw [call, call]
  cases hproc : cmd.proc with
  | rrCmdGet => exact withKey_alike ha fun key key' hk => rrCmdGet_alike h hk
  | rrCmdLen => exact keepArgv_alike (rrCmdLen_alike h)
  | rrCmdSet =>
    refine argAt_alike ha fun key key' _ _ hk _ _ => argAt_alike ha fun val val' hval hval' hv hone hone' => ?_
    exact replaceArg_alike (rrCmdSet_alike env env' ⟨h.inv.argument hval, h.inv'.argument hval', h.contents⟩ hk hv
      hone hone')
  | rrCmdDel => exact withKey_alike ha fun key key' hk => rrCmdDel_alike env env' h hk
  | rrCmdExists => exact withKey_alike ha fun key key' hk => rrCmdExists_alike h hk
  | rrCmdRget => exact withKeyAndArg_alike ha fun key key' x x' hk hx => rrCmdRget_alike h hk hx
  | rrCmdRpget => exact withKeyAndArg_alike ha fun key key' x x' hk hx => getPrefixReply_alike h hk hx _
  | rrCmdRlen => exact withKey_alike ha fun key key' hk => rrCmdRlen_alike h hk
  | rrCmdRset =>
    exact argAt_alike ha fun key key' _ _ hk _ _ => argAt_alike ha fun field field' _ _ hf _ _ =>
      argAt_alike ha fun val val' _ _ hv hone hone' =>
        replaceArg_alike (rrCmdRset_alike env env' h hk hf hv hone hone')
  | rrCmdRdel => exact withKeyAndArg_alike ha fun key key' x x' hk hx => rrCmdRdel_alike h hk hx
  | rrCmdRkeys => exact withKey_alike ha fun key key' hk => getAllReply_alike h hk _
  | rrCmdRvalues => exact withKey_alike ha fun key key' hk => getAllReply_alike h hk _
  | rrCmdRgetall => exact withKey_alike ha fun key key' hk => getAllReply_alike h hk _
  | rrCmdRexists => exact withKeyAndArg_alike ha fun key key' x x' hk hx => rrCmdRexists_alike h hk hx
  | rrCmdHqpush =>
    exact argAt_alike ha fun key key' _ _ hk _ _ => argAt_alike ha fun score score' _ _ hs _ _ =>
      argAt_alike ha fun val val' _ _ hv hone hone' =>
        replaceArg_alike (rrCmdHqpush_alike hrules.strtod hrules.ofLong h hk hs hv hone hone')
  | rrCmdHqpop => exact withKey_alike ha fun key key' hk => rrCmdHqpop_alike h hk
  | rrCmdHqpopn => exact withKeyAndArg_alike ha fun key key' x x' hk hx => rrCmdHqpopn_alike h hk hx
  | rrCmdHqpeek => exact withKey_alike ha fun key key' hk => rrCmdHqpeek_alike h hk
  | rrCmdHqlen => exact withKey_alike ha fun key key' hk => rrCmdHqlen_alike h hk
  | rrCmdDset =>
    exact argAt_alike ha fun key key' _ _ hk _ _ => argAt_alike ha fun title title' _ _ ht hone hone' =>
      argAt_alike ha fun doc doc' _ _ hd _ _ => replaceArg_alike (rrCmdDset_alike env env' h hk ht hd hone hone')
  | rrCmdDget => exact withKeyAndArg_alike ha fun key key' x x' hk hx => rrCmdDget_alike h hk hx
  | rrCmdDdel => exact withKeyAndArg_alike ha fun key key' x x' hk hx => rrCmdDdel_alike env env' h hk hx
  | rrCmdDsearch => exact withKeyAndArg_alike ha fun key key' x x' hk hx => rrCmdDsearch_alike hrules.bm25 h hk hx
  | rrCmdDlen => exact withKey_alike ha fun key key' hk => rrCmdDlen_alike h hk
  | rrCmdType => exact withKey_alike ha fun key key' hk => rrCmdType_alike h hk
  | rrCmdAdminPing =>
    simp only [rrCmdAdminPing, ha.length_eq]
    split_ifs
    · exact .pure ⟨h.contents, rfl⟩
    · exact .pure ⟨h.contents, rfl⟩
    · exact withKey_alike ha fun o o' ho => .pure ⟨h.contents, by rw [ho.enc]⟩
  | rrCmdAdminEcho => exact withKey_alike ha fun o o' ho => .pure ⟨h.contents, by rw [ho.enc]⟩
  | rrCmdAdminShutdown => exact .error rfl rfl
  | rrCmdAdminInfo => exact absurd hproc hinfo

omit hrules in
/-- The name of the command is lowered in both vectors. -/
theorem SameArgv.lowered (ha : SameArgv db db' argv argv') {name name' : StrObj} (hname : argv[0]? = some name)
    (hname' : argv'[0]? = some name') (henc : name.enc = name'.enc) :
    SameArgv db db' (argv.set 0 ⟨name.addr, lowerName name.enc⟩) (argv'.set 0 ⟨name'.addr, lowerName name'.enc⟩) := by
  refine ⟨?_, ha.parsed.lowered hname, fun o ho => ?_, fun o ho => ?_⟩
  · rw [List.map_set, List.map_set, ha.encs, henc]
  · rcases List.mem_or_eq_of_mem_set ho with ho | rfl
    · exact ha.one o ho
    · exact ha.one name (List.mem_of_getElem? hname)
  · rcases List.mem_or_eq_of_mem_set ho with ho | rfl
    · exact ha.one' o ho
    · exact ha.one' name' (List.mem_of_getElem? hname')

/-- The request asks for the statistics of the server. -/
def asksInfo (argv : List StrEnc) : Bool :=
  (argv[0]?.bind fun name => commandNamed name.bytes).any fun cmd => decide (cmd.proc = .rrCmdAdminInfo)

theorem cmdDispatch_alike {commands commands' : DictT RedisCommand}
    (hcommands : ∀ name, cmdLookup commands name = .ok (commandNamed name))
    (hcommands' : ∀ name, cmdLookup commands' name = .ok (commandNamed name))
    (hinfo : asksInfo (argv.map StrObj.enc) = false)
    (h : SameKeyspaces (addrs argv + others) (addrs argv' + others') db db') (ha : SameArgv db db' argv argv') :
    Alike SameCall (cmdDispatch env commands db argv) (cmdDispatch env' commands' db' argv') := by
  refine argAt_alike ha fun name name' hname hname' hn _ _ => ?_
  simp only [hn.ptr, hn.ptr', Exec.ok_bind, hcommands, hcommands']
  have haddrs {argv : List StrObj} {name : StrObj} (hname : argv[0]? = some name) :
      addrs (argv.set 0 ⟨name.addr, lowerName name.enc⟩) = addrs argv := by
    rw [addrs_set (length_of_argAt hname), addrs_eq_cons hname]
  rw [← haddrs hname, ← haddrs hname'] at h
  have ha' := ha.lowered hname hname' hn.enc
  cases hcmd : commandNamed name.enc.bytes with
  | none => exact .pure ⟨h.contents, rfl⟩
  | some cmd =>
    simp only [ha'.length_eq]
    split
    · exact .pure ⟨h.contents, rfl⟩
    · refine call_alike hrules (fun hproc => ?_) h ha'
      simp [asksInfo, hname, hcmd, hproc] at hinfo

end Dispatch

/-! ## Requests -/

namespace Server

/-- Two servers with the same contents whose clients have sent the same. -/
structure Same (s s' : Server) : Prop where
  inv : s.Inv
  inv' : s'.Inv
  contents : s.db.contents = s'.db.contents
  argv : ∀ c, (s.argvOf c).map StrObj.enc = (s'.argvOf c).map StrObj.enc

variable {s s' : Server} {c : ℕ}

theorem Same.refl (h : s.Inv) : Same s s := ⟨h, h, rfl, fun _ => rfl⟩

theorem Same.idle (h : Same s s') (hidle : s.argvOf c = []) : s'.argvOf c = [] := by
  have hargv := h.argv c
  rw [hidle] at hargv
  exact List.map_eq_nil_iff.mp hargv.symm

/-- What two servers have in common after a step. -/
def SameAfter (r r' : Server × List ReplyCall) : Prop :=
  (r.1.db.contents = r'.1.db.contents ∧ ∀ c, (r.1.argvOf c).map StrObj.enc = (r'.1.argvOf c).map StrObj.enc) ∧
    r.2 = r'.2

theorem freeClientArgv_alike (hcontents : s.db.contents = s'.db.contents)
    (hargv : ∀ d, d ≠ c → (s.argvOf d).map StrObj.enc = (s'.argvOf d).map StrObj.enc) (replies : List ReplyCall) :
    Alike SameAfter (s.freeClientArgv c >>= fun s => Pure.pure (s, replies))
      (s'.freeClientArgv c >>= fun s => Pure.pure (s, replies)) := by
  have hfree : Alike (fun t t' : Server => t.db.contents = t'.db.contents ∧
      ∀ d, (t.argvOf d).map StrObj.enc = (t'.argvOf d).map StrObj.enc) (s.freeClientArgv c) (s'.freeClientArgv c) := by
    refine .bind_total (decrStrings_total _ _) (decrStrings_total _ _) fun refs refs' => .pure ⟨hcontents, ?_⟩
    intro d
    by_cases hd : d = c
    · rw [hd, argvOf, argvOf, Finmap.lookup_erase, Finmap.lookup_erase]
    · rw [argvOf, argvOf, Finmap.lookup_erase_ne hd, Finmap.lookup_erase_ne hd]
      exact hargv d hd
  exact .bind hfree fun t t' _ _ ht => .pure ⟨ht, rfl⟩

variable {G : Type} [AddCommGroup G] [LinearOrder G] {env env' : ServerEnv G} (hrules : env.SameRules env')
include hrules

theorem execute_alike (h : Same s s') (hinfo : asksInfo ((s.argvOf c).map StrObj.enc) = false)
    (hone : ∀ o ∈ s.argvOf c, refcount s.db.refs o.addr = .ok 1)
    (hone' : ∀ o ∈ s'.argvOf c, refcount s'.db.refs o.addr = .ok 1) :
    Alike SameAfter (s.execute env c) (s'.execute env' c) := by
  have hencs := h.argv c
  have hparsed := h.inv.argvOf c
  obtain ⟨leaked, hdb⟩ := h.inv.db
  obtain ⟨leaked', hdb'⟩ := h.inv'.db
  rw [argvHeld_eq s c, add_assoc] at hdb
  rw [argvHeld_eq s' c, add_assoc] at hdb'
  rw [execute, execute]
  cases hargv : s.argvOf c with
  | nil =>
    rw [h.idle hargv]
    exact freeClientArgv_alike h.contents (fun d _ => h.argv d) _
  | cons name args =>
    rw [hargv] at hencs hparsed hinfo hone hdb
    obtain ⟨name', args', hargv', hname, hargs⟩ := List.map_eq_cons_iff.mp hencs.symm
    rw [hargv'] at hone' hdb'
    have ha : SameArgv s.db s'.db (name :: args) (name' :: args') := by
      refine ⟨?_, hparsed, hone, hone'⟩
      rw [List.map_cons, List.map_cons, hname, hargs]
    simp only [hargv', hname]
    split
    · exact .pure ⟨⟨h.contents, h.argv⟩, rfl⟩
    · refine .bind (cmdDispatch_alike hrules h.inv.commands h.inv'.commands hinfo ⟨hdb, hdb', h.contents⟩ ha) ?_
      rintro ⟨db, argv, replies⟩ ⟨db', argv', replies'⟩ - - ⟨hcontents, hreplies⟩
      obtain rfl : replies = replies' := hreplies
      refine freeClientArgv_alike hcontents (fun d hd => ?_) _
      have hd' := h.argv d
      rw [argvOf, argvOf] at hd' ⊢
      rwa [Finmap.lookup_insert_of_ne _ hd, Finmap.lookup_insert_of_ne _ hd]

/-- A request of an idle client other than INFO: both servers reply the same and go on alike,
or both stop with the same fault. -/
theorem Same.request (h : Same s s') (hidle : s.argvOf c = []) {args : List Argument}
    (hinfo : asksInfo (args.map Argument.enc) = false) :
    (∃ s₁ s₁' replies, s.request env c args = .ok (s₁, replies) ∧ s'.request env' c args = .ok (s₁', replies) ∧
      Same s₁ s₁') ∨
    ∃ e, s.request env c args = .error e ∧ s'.request env' c args = .error e := by
  have hidle' := h.idle hidle
  obtain ⟨s₂, objs, hpush, h₂, hdict, hargv, henc, hone⟩ := pushArguments_spec env h.inv args (c := c) (by simp [hidle])
  obtain ⟨s₂', objs', hpush', h₂', hdict', hargv', henc', hone'⟩ :=
    pushArguments_spec env' h.inv' args (c := c) (by simp [hidle'])
  rw [hidle, List.nil_append] at hargv
  rw [hidle', List.nil_append] at hargv'
  have hsame : Same s₂ s₂' := by
    refine ⟨h₂, h₂', ?_, fun d => ?_⟩
    · funext k
      rw [Keyspace.contents, Keyspace.contents, hdict, hdict']
      exact congrFun h.contents k
    · by_cases hd : d = c
      · rw [hd, hargv, hargv', henc, henc']
      · rw [← hpush, ← hpush', argvOf_pushArguments env s args hd, argvOf_pushArguments env' s' args hd]
        exact h.argv d
  rw [Server.request, Server.request, hpush, hpush']
  rw [← henc, ← hargv] at hinfo
  obtain ⟨⟨s₁, replies⟩, ⟨s₁', replies'⟩, hr, hr', ⟨hcontents, hargvs⟩, hreplies⟩ | herr :=
    execute_alike hrules hsame hinfo hone hone' (execute_noFreed env h₂ c) (execute_noFreed env' h₂' c)
  · obtain rfl : replies = replies' := hreplies
    exact .inl ⟨s₁, s₁', replies, hr, hr', execute_inv env h₂ hr, execute_inv env' h₂' hr', hcontents, hargvs⟩
  · exact .inr herr

omit hrules

/-- A turn of the background thread changes no contents. -/
theorem background_same {s₁ : Server} (run : s.background = .ok s₁) :
    s₁.db.contents = s.db.contents ∧ s₁.argv = s.argv := by
  obtain ⟨db, hfree, run⟩ := Exec.bind_eq_ok.mp run
  obtain rfl := Except.ok.inj run
  refine ⟨?_, rfl⟩
  rw [lazyFree] at hfree
  cases htasks : s.db.tasks with
  | nil =>
    rw [htasks] at hfree
    obtain rfl := Except.ok.inj hfree
    rfl
  | cons o tasks =>
    rw [htasks] at hfree
    obtain ⟨refs, -, hfree⟩ := Exec.bind_eq_ok.mp hfree
    obtain rfl := Except.ok.inj hfree
    rfl

theorem Same.background {s₁ : Server} (h : Same s s') (run : s.background = .ok s₁) : Same s₁ s' := by
  obtain ⟨hcontents, hargv⟩ := background_same run
  refine ⟨background_inv h.inv run, h.inv', hcontents.trans h.contents, fun c => ?_⟩
  rw [argvOf, hargv]
  exact h.argv c

theorem Same.symm (h : Same s s') : Same s' s := ⟨h.inv', h.inv, h.contents.symm, fun c => (h.argv c).symm⟩

end Server

/-! ## Whole runs -/

/-- What a request shows: its replies, the object it takes out of the keyspace with DEL or SET,
and the releases it makes. -/
structure Outcome where
  replies : List ReplyCall
  removed : Option Robj
  released : List Release

namespace Server
variable {G : Type} [AddCommGroup G] [LinearOrder G] {s s' s₁ s₁' : Server} {r : ℕ × List Argument} {o o' : Outcome}

/-- The server completes a request of an idle client. -/
structure Completes (env : ServerEnv G) (s : Server) (r : ℕ × List Argument) (s₁ : Server) (o : Outcome) : Prop where
  idle : s.argvOf r.1 = []
  run : s.request env r.1 r.2 = .ok (s₁, o.replies)
  removed : o.removed = removedBy s.db (r.2.map Argument.enc)
  released : (s.requestLogged env r.1 r.2).map Prod.snd = .ok o.released

/-- A run completes requests in their order, with turns of the background thread anywhere. -/
abbrev Completed (env : ServerEnv G) : Server → List (ℕ × List Argument) → Server → List Outcome → Prop :=
  ServedRuns.Serves (fun s s₁ => s.background = .ok s₁) (Completes env)

/-- The run with the log of a request that completes. -/
theorem requestLogged_of_run {env : ServerEnv G} {replies : List ReplyCall}
    (run : s.request env r.1 r.2 = .ok (s₁, replies)) :
    ∃ log, s.requestLogged env r.1 r.2 = .ok ((s₁, replies), log) := by
  rw [← requestLogged_fst] at run
  cases hlogged : s.requestLogged env r.1 r.2 with
  | error e =>
    rw [hlogged] at run
    cases run
  | ok res =>
    rw [hlogged] at run
    obtain ⟨res, log⟩ := res
    obtain rfl := Except.ok.inj run
    exact ⟨log, rfl⟩

theorem Completes.of_run {env : ServerEnv G} {replies : List ReplyCall} (hidle : s.argvOf r.1 = [])
    (run : s.request env r.1 r.2 = .ok (s₁, replies)) : ∃ o, Completes env s r s₁ o := by
  obtain ⟨log, hlogged⟩ := requestLogged_of_run run
  refine ⟨⟨replies, _, log⟩, hidle, run, rfl, ?_⟩
  rw [hlogged]
  rfl

theorem Completes.releases {env : ServerEnv G} (h : s.Inv) (hstep : Completes env s r s₁ o) :
    s₁.Inv ∧ o.released.map Release.object = o.removed.toList := by
  obtain ⟨log, hlogged⟩ := requestLogged_of_run hstep.run
  have hlog : log = o.released := by
    have hreleased := hstep.released
    rw [hlogged] at hreleased
    exact Except.ok.inj hreleased
  obtain ⟨s₂, objs, hpush, h₂, -⟩ := pushArguments_spec env h r.2 (c := r.1) (by simp [hstep.idle])
  have hrun : s₂.execute env r.1 = .ok (s₁, o.replies) := by
    rw [← hpush]
    exact hstep.run
  refine ⟨execute_inv env h₂ hrun, ?_⟩
  rw [← hlog, hstep.removed]
  exact requestLogged_releases env h hstep.idle hlogged

section Modes
variable {env env' : ServerEnv G} (hrules : env.SameRules env')
include hrules

/-- The other server runs a request that one has completed. -/
theorem Completes.same (h : Same s s') (hinfo : asksInfo (r.2.map Argument.enc) = false)
    (hstep : Completes env s r s₁ o) : ∃ s₁', s'.request env' r.1 r.2 = .ok (s₁', o.replies) ∧ Same s₁ s₁' := by
  obtain ⟨s₂, s₂', replies, hr, hr', h₂⟩ | ⟨e, hr, -⟩ := h.request hrules hstep.idle hinfo
  · obtain ⟨rfl, rfl⟩ := Prod.mk.inj (Except.ok.inj (hr.symm.trans hstep.run))
    exact ⟨s₂', hr', h₂⟩
  · rw [hstep.run] at hr
    cases hr

theorem Completes.follows (h : Same s s') (hinfo : asksInfo (r.2.map Argument.enc) = false)
    (hstep : Completes env s r s₁ o) : ∃ s₁' o', Completes env' s' r s₁' o' ∧ Same s₁ s₁' := by
  obtain ⟨s₁', hrun', h₁⟩ := hstep.same hrules h hinfo
  obtain ⟨o', hstep'⟩ := Completes.of_run (h.idle hstep.idle) hrun'
  exact ⟨s₁', o', hstep', h₁⟩

theorem Completes.agree (h : Same s s') (hinfo : asksInfo (r.2.map Argument.enc) = false)
    (hstep : Completes env s r s₁ o) (hstep' : Completes env' s' r s₁' o') :
    Same s₁ s₁' ∧ o.replies = o'.replies := by
  obtain ⟨s₂', hrun', h₁⟩ := hstep.same hrules h hinfo
  obtain ⟨rfl, hreplies⟩ := Prod.mk.inj (Except.ok.inj (hrun'.symm.trans hstep'.run))
  exact ⟨h₁, hreplies⟩

theorem Completed.exists_run {reqs : List (ℕ × List Argument)} (hinfo : ∀ r ∈ reqs, asksInfo (r.2.map Argument.enc) = false)
    {s s₁ : Server} {os : List Outcome} (h : s.Inv) (run : Completed env s reqs s₁ os) :
    ∃ s₁' os', Completed env' s reqs s₁' os' :=
  ServedRuns.Serves.exists_run (fun _ _ _ h step => h.background step)
    (fun _ _ _ _ _ hr h step => step.follows hrules h hr) run hinfo (Same.refl h)

end Modes

theorem Completed.releases {env : ServerEnv G} {reqs : List (ℕ × List Argument)} {os : List Outcome} (h : s.Inv)
    (run : Completed env s reqs s₁ os) : ∀ o ∈ os, o.released.map Release.object = o.removed.toList :=
  ServedRuns.Serves.outcomes (fun _ _ h step => background_inv h step) (fun _ _ _ _ h step => step.releases h) run h

/-- Lazy freeing on or off: the same requests complete, with the same replies and the same
contents, and every object that DEL or SET takes out of the keyspace is released once. -/
theorem lazyfree_modes_agree (hs : s.Reachable G) {env env' : ServerEnv G} (hrules : env.SameRules env')
    (reqs : List (ℕ × List Argument)) (hinfo : ∀ r ∈ reqs, asksInfo (r.2.map Argument.enc) = false) :
    ((∃ s₁ os, Completed (env.withLazyfree true) s reqs s₁ os) ↔
      ∃ s₁ os, Completed (env'.withLazyfree false) s reqs s₁ os) ∧
    (∀ s₁ os s₁' os', Completed (env.withLazyfree true) s reqs s₁ os →
      Completed (env'.withLazyfree false) s reqs s₁' os' →
        os.map Outcome.replies = os'.map Outcome.replies ∧ s₁.db.contents = s₁'.db.contents) ∧
    ∀ lazy s₁ os, Completed (env.withLazyfree lazy) s reqs s₁ os →
      ∀ o ∈ os, o.released.map Release.object = o.removed.toList := by
  have h := hs.inv
  have hrules : (env.withLazyfree true).SameRules (env'.withLazyfree false) :=
    ⟨hrules.strtod, hrules.ofLong, hrules.bm25⟩
  refine ⟨⟨?_, ?_⟩, ?_, ?_⟩
  · rintro ⟨s₁, os, run⟩
    exact Completed.exists_run hrules hinfo h run
  · rintro ⟨s₁, os, run⟩
    exact Completed.exists_run hrules.symm hinfo h run
  · intro s₁ os s₁' os' run run'
    obtain ⟨hsame, hreplies⟩ := ServedRuns.Serves.agree (R := Same) (fun _ _ _ h step => h.background step)
      (fun _ _ _ h step => (h.symm.background step).symm) (fun _ _ _ _ _ _ _ hr h step step' => step.agree hrules h hr step')
      run hinfo run' (Same.refl h)
    exact ⟨hreplies, hsame.contents⟩
  · intro lazy s₁ os run
    exact Completed.releases h run

/-- A stored string is overwritten. -/
theorem lazyfree_modes_agree_overwrite :
    ∃ s s₁ os s₁' os', s.Reachable ℤ ∧
      Completed (bumpServerEnv.withLazyfree true) s
        [(0, [textArgument "SET", textArgument "a", textArgument "y"])] s₁ os ∧
      Completed (bumpServerEnv.withLazyfree false) s
        [(0, [textArgument "SET", textArgument "a", textArgument "y"])] s₁' os' ∧
      os.map Outcome.replies = os'.map Outcome.replies ∧ s₁.db.contents = s₁'.db.contents ∧
      ∀ o ∈ os, o.released.map Release.object = o.removed.toList := by
  have hcheck : (do
      let s ← session (bumpServerEnv.withLazyfree false) [[textArgument "SET", textArgument "a", textArgument "x"]]
      let r ← s.request (bumpServerEnv.withLazyfree false) 0
        [textArgument "SET", textArgument "a", textArgument "y"]
      pure (s, r.1) : Exec (Server × Server)).toOption.any (fun r => (r.1.argvOf 0).isEmpty) = true := by
    decide +kernel
  obtain ⟨r, hrun, hidle⟩ := Exec.exists_of_any hcheck
  obtain ⟨s, hsession, hrun⟩ := Exec.bind_eq_ok.mp hrun
  obtain ⟨⟨s₁, replies⟩, hset, hrun⟩ := Exec.bind_eq_ok.mp hrun
  obtain rfl := Except.ok.inj hrun
  have hs := session_reachable _ hsession
  obtain ⟨o, hset⟩ := Completes.of_run (r := (0, _)) (List.isEmpty_iff.mp hidle) hset
  have hoff : Completed (bumpServerEnv.withLazyfree false) s [(0, _)] s₁ [o] := .serve hset (.done s₁)
  obtain ⟨hiff, hagree, hreleased⟩ := lazyfree_modes_agree hs
    (⟨rfl, rfl, rfl⟩ : bumpServerEnv.SameRules bumpServerEnv)
    [(0, [textArgument "SET", textArgument "a", textArgument "y"])] (by decide)
  obtain ⟨s₂, os, hon⟩ := hiff.mpr ⟨_, _, hoff⟩
  obtain ⟨hreplies, hcontents⟩ := hagree _ _ _ _ hon hoff
  exact ⟨s, s₂, os, s₁, [o], hs, hon, hoff, hreplies, hcontents, hreleased true _ _ hon⟩

end Server

end RhinoRox
