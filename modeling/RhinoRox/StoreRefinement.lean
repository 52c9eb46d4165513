import RhinoRox.LabelledRuns
import RhinoRox.StoreRequests

/-!
# The server refines a store

Every run of the server, with arguments, requests, disconnects and the background thread in any
order, is a run of a service over a store with the same answers. Allocation, encodings, reference
counts, lazy freeing and the order in the heaps cannot be seen. The requests that do not return are
exactly those that crash on the store.
-/

namespace RhinoRox

open Store LabelledRuns

namespace Server
variable {G : Type} {s s' : Server} {c : ℕ} {replies : List ReplyCall}

/-- What a server stands for. -/
def service (s : Server) : Service := ⟨s.db.store, fun c => (s.argvOf c).map StrObj.text⟩

theorem service_pending (s : Server) (c : ℕ) : s.service.pending c = (s.argvOf c).map StrObj.text := rfl

theorem pending_of_argv {argv : Finmap fun _ : ℕ => List StrObj} (hargv : s'.argv = argv) (c : ℕ) :
    s'.service.pending c = ((argv.lookup c).getD []).map StrObj.text := by
  rw [service_pending, argvOf, hargv]

/-- The arguments of one client are freed. -/
theorem pending_erase (hargv : s'.argv = s.argv.erase c) :
    s'.service.pending = Function.update s.service.pending c [] := by
  funext r
  rw [pending_of_argv hargv]
  by_cases hr : r = c
  · rw [hr, Finmap.lookup_erase, Function.update_self]
    rfl
  · rw [Finmap.lookup_erase_ne hr, Function.update_of_ne hr, pending_of_argv rfl]

theorem service_erase (hstore : s'.db.store = s.db.store) (hargv : s'.argv = s.argv.erase c) :
    s'.service = ⟨s.db.store, Function.update s.service.pending c []⟩ := by
  rw [← hstore, ← pending_erase hargv]
  rfl

theorem service_pushArgument (env : ServerEnv G) (s : Server) (c : ℕ) (arg : Argument) :
    (s.pushArgument env c arg).service =
      ⟨s.service.store, Function.update s.service.pending c (s.service.pending c ++ [arg.enc.bytes])⟩ := by
  have hpending : (s.pushArgument env c arg).service.pending =
      Function.update s.service.pending c (s.service.pending c ++ [arg.enc.bytes]) := by
    funext r
    by_cases hr : r = c
    · rw [hr, Function.update_self]
      change ((s.pushArgument env c arg).argvOf c).map StrObj.text = _
      rw [argvOf_pushArgument, List.map_append]
      rfl
    · rw [Function.update_of_ne hr]
      change ((s.pushArgument env c arg).argvOf r).map StrObj.text = _
      rw [argvOf, pushArgument, Finmap.lookup_insert_of_ne _ hr]
      rfl
  rw [← hpending]
  rfl

variable [AddCommGroup G] [LinearOrder G] (env : ServerEnv G)

/-- The command of a request answers what the arguments are read as. -/
theorem cmdDispatch_executes (h : s.Inv) {name : StrObj} {args : List StrObj} (hargv : s.argvOf c = name :: args)
    (hquit : strcaseEq name.enc.bytes (ascii "quit") = false) :
    Executes env.rules (readRequest env (s.service.pending c)) (∀ o ∈ args, refcount s.db.refs o.addr = .ok 1) s.db
      (outcome (cmdDispatch env s.commands s.db (name :: args))) := by
  have hs : AllParsed (name :: args) := hargv ▸ h.argvOf c
  have hpending : s.service.pending c = name.text :: args.map StrObj.text := by
    rw [service_pending, hargv, List.map_cons]
  have hname : argAt (name :: args) 0 = .ok name := rfl
  have hname₀ : (name :: args)[0]? = some name := rfl
  have hptr := StrEnc.ptr_of_sds (hs name List.mem_cons_self).1
  cases hcmd : commandNamed name.enc.bytes with
  | none =>
    have hread : readRequest env (s.service.pending c) =
        .refused (errorText (oneLine (ascii "unknown command '" ++ cStr (sdstolower name.enc.bytes) ++ ascii "'"))) := by
      simp only [hpending, readRequest, StrObj.text, hquit, hcmd, Bool.false_eq_true, if_false]
    have hrun : cmdDispatch env s.commands s.db (name :: args) = .ok (s.db, ⟨name.addr, lowerName name.enc⟩ :: args,
        replyAddErrFormat (ascii "unknown command '" ++ cStr (sdstolower name.enc.bytes) ++ ascii "'")) := by
      simp only [cmdDispatch, hname, Exec.ok_bind, hptr, h.commands, List.set_cons_zero, hcmd]
      rfl
    rw [hread, hrun]
    exact .refused (s := oneLine _) rfl
  | some cmd =>
    have hread : readRequest env (s.service.pending c) =
        if WrongArity cmd (args.length + 1) then wrongArityError cmd else readCall env cmd (args.map StrObj.text) := by
      simp only [hpending, readRequest, StrObj.text, hquit, hcmd, Bool.false_eq_true, if_false, List.length_map]
    have hrun : cmdDispatch env s.commands s.db (name :: args) = if WrongArity cmd (args.length + 1)
        then .ok (s.db, ⟨name.addr, lowerName name.enc⟩ :: args, wrongArity cmd)
        else call env cmd s.db (⟨name.addr, lowerName name.enc⟩ :: args) := by
      simp only [cmdDispatch, hname, Exec.ok_bind, hptr, h.commands, List.set_cons_zero, List.length_cons, hcmd]
      rfl
    rw [hread, hrun]
    split
    · exact .refused (s := oneLine _) rfl
    · rename_i harity
      obtain ⟨leaked, hdb⟩ := h.db
      rw [argvHeld_eq s c, hargv, add_assoc] at hdb
      exact call_executes env (commandNamed_eq_some hcmd).1 hdb (hs.lowered hname₀) harity

/-- What executing a request shows: nothing but the answer of QUIT, or an answer of the store. -/
theorem execute_answers (h : s.Inv) (run : s.execute env c = .ok (s', replies)) :
    readRequest env (s.service.pending c) = .quit ∧ s' = s ∧ replies.flatMap ReplyCall.payload = Reply.ok.encode ∨
    ∃ a, Responds env.rules s.db.store (readRequest env (s.service.pending c)) s'.db.store a ∧
      replies.flatMap ReplyCall.payload = (a.map Reply.encode).getD [] ∧ s'.argv = s.argv.erase c := by
  obtain ⟨leaked, hdb⟩ := h.db
  cases hargv : s.argvOf c with
  | nil =>
    obtain ⟨s₁, hr, -, -, hdict, -, hargv'⟩ := freeClientArgv_spec hdb c
    simp only [execute, hargv, hr, Exec.ok_bind, Exec.pure_eq] at run
    obtain ⟨rfl, rfl⟩ := Prod.mk.inj (Except.ok.inj run)
    refine .inr ⟨none, ?_, rfl, hargv'⟩
    rw [service_pending, hargv, Keyspace.store_congr hdict]
    exact .nothing _
  | cons name args =>
    cases hquit : strcaseEq name.enc.bytes (ascii "quit") with
    | true =>
      simp only [execute, hargv, hquit, if_true, Exec.pure_eq] at run
      obtain ⟨rfl, rfl⟩ := Prod.mk.inj (Except.ok.inj run)
      refine .inl ⟨?_, rfl, sent_ok⟩
      rw [service_pending, hargv, List.map_cons, readRequest, StrObj.text, if_pos hquit]
    | false =>
      simp only [execute, hargv, hquit, Bool.false_eq_true, if_false] at run
      obtain ⟨⟨db, argv, r⟩, hcall, run⟩ := Exec.bind_eq_ok.mp run
      obtain ⟨s₁, hfree, he⟩ := Exec.bind_eq_ok.mp run
      obtain ⟨rfl, rfl⟩ := Prod.mk.inj (Except.ok.inj he)
      have hdispatch : outcome (cmdDispatch env s.commands s.db (name :: args)) = .ok (db, r) := by rw [outcome, hcall]; rfl
      obtain ⟨a, ha, hsent⟩ := (cmdDispatch_executes env h hargv hquit).answers _ hdispatch
      rw [← hargv] at hcall
      obtain ⟨s₂, lost, hr, -, -, -, -, hdict, -, hargv'⟩ := dispatch_spec env h hdb hcall
      rw [hr] at hfree
      obtain rfl := Except.ok.inj hfree
      refine .inr ⟨a, ?_, hsent, hargv'⟩
      rw [Keyspace.store_congr hdict]
      exact ha

/-- Executing new arguments returns unless the request crashes. -/
theorem execute_completes (h : s.Inv) (hnew : ∀ o ∈ s.argvOf c, refcount s.db.refs o.addr = .ok 1) :
    (∃ r, s.execute env c = .ok r) ↔ ¬ (readRequest env (s.service.pending c)).Crashes env.rules s.db.store := by
  obtain ⟨leaked, hdb⟩ := h.db
  cases hargv : s.argvOf c with
  | nil =>
    obtain ⟨s₁, hr, -⟩ := freeClientArgv_spec hdb c
    have hread : readRequest env (s.service.pending c) = .nothing := by
      rw [service_pending, hargv]
      rfl
    rw [hread]
    exact iff_of_true ⟨(s₁, []), by simp only [execute, hargv, hr, Exec.ok_bind, Exec.pure_eq]⟩ id
  | cons name args =>
    cases hquit : strcaseEq name.enc.bytes (ascii "quit") with
    | true =>
      have hread : readRequest env (s.service.pending c) = .quit := by
        rw [service_pending, hargv, List.map_cons, readRequest, StrObj.text, if_pos hquit]
      rw [hread]
      exact iff_of_true ⟨(s, [.obj Shared.ok]), by simp only [execute, hargv, hquit, if_true, Exec.pure_eq]⟩ id
    | false =>
      rw [hargv] at hnew
      rw [← (cmdDispatch_executes env h hargv hquit).completes fun o ho => hnew o (List.mem_cons_of_mem name ho)]
      simp only [execute, hargv, hquit, Bool.false_eq_true, if_false]
      constructor
      · rintro ⟨r, hr⟩
        obtain ⟨⟨db, argv, replies⟩, hcall, -⟩ := Exec.bind_eq_ok.mp hr
        exact ⟨(db, replies), by rw [outcome, hcall]; rfl⟩
      · rintro ⟨r, hr⟩
        cases hcall : cmdDispatch env s.commands s.db (name :: args) with
        | error e =>
          rw [outcome, hcall] at hr
          cases hr
        | ok r =>
          obtain ⟨db, argv, replies⟩ := r
          rw [← hargv] at hcall
          obtain ⟨s₂, lost, hfree, -⟩ := dispatch_spec env h hdb hcall
          exact ⟨(s₂, replies), by simp only [Exec.ok_bind, hfree, Exec.pure_eq]⟩

/-! ## Runs -/

/-- The steps of a server with what can be seen of them. -/
inductive Serves : Server → Observation G → Server → Prop where
  | argument (s : Server) (env : ServerEnv G) (c : ℕ) (arg : Argument) :
      Serves s (.argument c arg.enc.bytes) (s.pushArgument env c arg)
  | executed {s s' : Server} (env : ServerEnv G) (c : ℕ) {replies : List ReplyCall}
      (run : s.execute env c = .ok (s', replies)) :
      Serves s (.executed env.rules c (replies.flatMap ReplyCall.payload)) s'
  | disconnected {s s' : Server} (c : ℕ) (run : s.freeClientArgv c = .ok s') : Serves s (.disconnected c) s'
  | background {s s' : Server} (run : s.background = .ok s') : Serves s .background s'

variable {e : Observation G}

theorem Serves.inv (h : Serves s e s') (hs : s.Inv) : s'.Inv := by
  cases h with
  | argument env c arg => exact pushArgument_inv env hs c arg
  | executed env c run => exact execute_inv env hs run
  | disconnected c run => exact freeClientArgv_inv hs run
  | background run => exact background_inv hs run

/-- One step of the server is one step of the service. -/
theorem Serves.step (h : Serves s e s') (hs : s.Inv) : Service.Step s.service e s'.service := by
  cases h with
  | argument env c arg =>
    rw [service_pushArgument]
    exact .argument _ c arg.enc.bytes
  | executed env c run =>
    obtain ⟨hread, rfl, hsent⟩ | ⟨a, ha, hsent, hargv⟩ := execute_answers env hs run
    · rw [hsent]
      exact .quit _ env.rules c hread
    · have hservice : s'.service = ⟨s'.db.store, Function.update s.service.pending c []⟩ := by
        rw [← pending_erase hargv]
        rfl
      rw [hsent, hservice]
      exact .executed s.service env.rules c ha
  | disconnected c run =>
    obtain ⟨leaked, hdb⟩ := hs.db
    obtain ⟨s₁, hr, -, -, hdict, -, hargv⟩ := freeClientArgv_spec hdb c
    rw [hr] at run
    obtain rfl := Except.ok.inj run
    rw [service_erase (Keyspace.store_congr hdict) hargv]
    exact .disconnected _ c
  | background run =>
    obtain ⟨db, hfree, he⟩ := Exec.bind_eq_ok.mp run
    obtain rfl := Except.ok.inj he
    have hdict : db.dict = s.db.dict := by
      rw [lazyFree] at hfree
      split at hfree
      · rw [← Except.ok.inj hfree]
      · obtain ⟨refs, -, he⟩ := Exec.bind_eq_ok.mp hfree
        rw [← Except.ok.inj he]
    have hservice : service { s with db := db } = s.service := by
      have hstore : db.store = s.db.store := Keyspace.store_congr hdict
      rw [service, service, ← hstore]
      rfl
    rw [hservice]
    exact .background _

theorem serves_simulation :
    Simulation (Serves (G := G)) Service.Step fun s t => s.Inv ∧ s.service = t := by
  rintro s e s₁ t ⟨hs, rfl⟩ hstep
  exact ⟨s₁.service, hstep.step hs, hstep.inv hs, rfl⟩

theorem service_init (init : rrServerInit = .ok s) : s.service = Service.init := by
  obtain ⟨s₀, hr, hdb, hargv⟩ := exists_rrServerInit
  rw [hr] at init
  obtain rfl := Except.ok.inj init
  have hpending : s₀.service.pending = fun _ => [] := by
    funext c
    rw [pending_of_argv hargv]
    rfl
  rw [Service.init, ← hpending, service, hdb]
  rfl

/-- Every run of the server is a run of the service with the same answers. -/
theorem server_refines_store {s₀ : Server} (init : rrServerInit = .ok s₀) {es : List (Observation G)}
    (run : Run Serves s₀ es s) : Run Service.Step Service.init es s.service := by
  obtain ⟨t, hrun, -, rfl⟩ := run.simulate serves_simulation ⟨rrServerInit_inv init, rfl⟩
  rw [service_init init] at hrun
  exact hrun

/-- LEN on a new server. -/
theorem server_refines_store_len :
    ∃ s, Run (Service.Step (G := ℤ)) Service.init
      [.argument 0 (ascii "len"), .executed bumpServerEnv.rules 0 (ascii ":0\r\n")] s := by
  obtain ⟨⟨d, db, argv⟩, hinit, rfl, rfl⟩ := exists_rrServerInit
  have hs₁ := (Server.Reachable.init (G := ℤ) hinit).argument bumpServerEnv 0 (textArgument "len")
  have hargv := argvOf_pushArgument bumpServerEnv ⟨d, rrDbCreate, ∅⟩ 0 (textArgument "len")
  have hcmd : commandNamed (textArgument "len").enc.bytes = some ⟨"len", .rrCmdLen, 1, "rF"⟩ := by decide
  obtain ⟨hok, -⟩ := execute_command bumpServerEnv hs₁.inv hargv hcmd rfl
  obtain ⟨s', hrun, -⟩ := hok _ _ _ rfl
  have hpayload : (replyAddLonglong (dictLength rrDbCreate.dict)).flatMap ReplyCall.payload = ascii ":0\r\n" := by
    decide +kernel
  have hstep : Serves _ (.executed _ 0 ((replyAddLonglong (dictLength rrDbCreate.dict)).flatMap ReplyCall.payload)) s' :=
    .executed bumpServerEnv 0 hrun
  rw [hpayload] at hstep
  have hfirst := Serves.argument ⟨d, rrDbCreate, ∅⟩ bumpServerEnv 0 (textArgument "len")
  exact ⟨_, server_refines_store hinit (.cons hfirst (.one hstep))⟩

/-- The states of the server are those of its runs. -/
theorem reachable_iff_run : Reachable G s ↔ ∃ s₀ es, rrServerInit = .ok s₀ ∧ Run (Serves (G := G)) s₀ es s := by
  constructor
  · intro h
    induction h with
    | init run => exact ⟨_, [], run, .nil _⟩
    | argument _ env c arg ih =>
      obtain ⟨s₀, es, hinit, hrun⟩ := ih
      exact ⟨s₀, _, hinit, hrun.append (.one (.argument _ env c arg))⟩
    | execute _ env c run ih =>
      obtain ⟨s₀, es, hinit, hrun⟩ := ih
      exact ⟨s₀, _, hinit, hrun.append (.one (.executed env c run))⟩
    | disconnect _ c run ih =>
      obtain ⟨s₀, es, hinit, hrun⟩ := ih
      exact ⟨s₀, _, hinit, hrun.append (.one (.disconnected c run))⟩
    | background _ run ih =>
      obtain ⟨s₀, es, hinit, hrun⟩ := ih
      exact ⟨s₀, _, hinit, hrun.append (.one (.background run))⟩
  · rintro ⟨s₀, es, hinit, hrun⟩
    have hinv : ∀ s e s₁, Reachable G s → Serves (G := G) s e s₁ → Reachable G s₁ := ?_
    · exact hrun.invariant hinv (.init hinit)
    intro s e s₁ hs hstep
    cases hstep with
    | argument env c arg => exact .argument hs env c arg
    | executed env c run => exact .execute hs env c run
    | disconnected c run => exact .disconnect hs c run
    | background run => exact .background hs run

/-- A request of a client without arguments returns exactly if it does not crash on the store. -/
theorem request_completes_iff (hs : s.Reachable G) (hidle : s.argvOf c = []) (args : List Argument) :
    (∃ r, s.request env c args = .ok r) ↔
      ¬ (readRequest env (args.map fun a => a.enc.bytes)).Crashes env.rules s.db.store := by
  obtain ⟨s₁, objs, hpush, h₁, hdict, hargv, henc, hone⟩ :=
    pushArguments_spec env hs.inv args (c := c) (by simp [hidle])
  have hpending : s₁.service.pending c = args.map fun a => a.enc.bytes := by
    have hbytes := congrArg (List.map StrEnc.bytes) henc
    rw [List.map_map, List.map_map] at hbytes
    rw [service_pending, hargv, hidle, List.nil_append]
    exact hbytes
  rw [request, hpush, execute_completes env h₁ hone, hpending, Keyspace.store_congr hdict]

/-- LEN returns on a new server. -/
theorem request_completes_len :
    ∃ (s : Server) (r : Server × List ReplyCall), s.Reachable ℤ ∧ s.request bumpServerEnv 0 [textArgument "LEN"] = .ok r := by
  obtain ⟨⟨d, db, argv⟩, hinit, rfl, rfl⟩ := exists_rrServerInit
  have hs : Server.Reachable ℤ ⟨d, rrDbCreate, ∅⟩ := .init hinit
  have hread : readRequest bumpServerEnv ([textArgument "LEN"].map fun a => a.enc.bytes) = .len := by rfl
  obtain ⟨r, hr⟩ := (request_completes_iff bumpServerEnv hs rfl [textArgument "LEN"]).mpr (by rw [hread]; exact id)
  exact ⟨_, r, hs, hr⟩

end Server

end RhinoRox
