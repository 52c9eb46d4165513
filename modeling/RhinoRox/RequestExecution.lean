import RhinoRox.ServerInvariant

/-!
# Whole requests

The parser creates the argument objects one by one, the command runs on them, and the client
is reset. Between two requests the client holds no argument.
-/

namespace RhinoRox

open KeyedTotal

/-! ## Names of commands -/

theorem commandNamed_eq_some {name : Bytes} {cmd : RedisCommand} (h : commandNamed name = some cmd) :
    cmd ∈ redisCommandTable ∧ cStr (ascii cmd.name) = cStr (sdstolower name) := by
  refine ⟨List.mem_reverse.mp (List.mem_of_find?_eq_some h), ?_⟩
  simpa using List.find?_some h

/-- QUIT is not in the table. -/
theorem not_quit_of_commandNamed {name : Bytes} {cmd : RedisCommand} (h : commandNamed name = some cmd) :
    strcaseEq name (ascii "quit") = false := by
  obtain ⟨hmem, hname⟩ := commandNamed_eq_some h
  have hne : ∀ c ∈ redisCommandTable, cStr (ascii c.name) ≠ sdstolower (cStr (ascii "quit")) := by decide
  rw [strcaseEq, decide_eq_false_iff_not, ← cStr_sdstolower, ← hname]
  exact hne cmd hmem

namespace Server
variable {s : Server} {c : ℕ} {G : Type}

theorem argvOf_pushArgument (env : ServerEnv G) (s : Server) (c : ℕ) (arg : Argument) :
    (s.pushArgument env c arg).argvOf c = s.argvOf c ++ [⟨(createObject env s.db.refs).1, arg.enc⟩] := by
  rw [argvOf, pushArgument, Finmap.lookup_insert]
  rfl

theorem argvOf_pushArguments (env : ServerEnv G) (s : Server) (args : List Argument) {r : ℕ} (hr : r ≠ c) :
    (args.foldl (fun s arg => s.pushArgument env c arg) s).argvOf r = s.argvOf r := by
  induction args generalizing s with
  | nil => rfl
  | cons arg args ih =>
    rw [List.foldl_cons, ih]
    rw [argvOf, pushArgument, Finmap.lookup_insert_of_ne _ hr]
    rfl

/-! The objects that the parser makes of a request with one, two or three arguments. -/

theorem objs_eq_one {objs : List StrObj} {a : Argument} (h : objs.map StrObj.enc = [a].map Argument.enc) :
    ∃ x, objs = [x] ∧ x.enc = a.enc := by
  obtain ⟨x, objs, rfl, hx, h⟩ := List.map_eq_cons_iff.mp h
  obtain rfl := List.map_eq_nil_iff.mp h
  exact ⟨x, rfl, hx⟩

theorem objs_eq_two {objs : List StrObj} {a b : Argument} (h : objs.map StrObj.enc = [a, b].map Argument.enc) :
    ∃ x y, objs = [x, y] ∧ x.enc = a.enc ∧ y.enc = b.enc := by
  obtain ⟨x, objs, rfl, hx, h⟩ := List.map_eq_cons_iff.mp h
  obtain ⟨y, rfl, hy⟩ := objs_eq_one h
  exact ⟨x, y, rfl, hx, hy⟩

theorem objs_eq_three {objs : List StrObj} {a b d : Argument}
    (h : objs.map StrObj.enc = [a, b, d].map Argument.enc) :
    ∃ x y z, objs = [x, y, z] ∧ x.enc = a.enc ∧ y.enc = b.enc ∧ z.enc = d.enc := by
  obtain ⟨x, objs, rfl, hx, h⟩ := List.map_eq_cons_iff.mp h
  obtain ⟨y, z, rfl, hy, hz⟩ := objs_eq_two h
  exact ⟨x, y, z, rfl, hx, hy, hz⟩

/-- The new arguments have one reference each. -/
theorem pushArguments_spec (env : ServerEnv G) (h : s.Inv) (args : List Argument)
    (hone : ∀ o ∈ s.argvOf c, refcount s.db.refs o.addr = .ok 1) :
    ∃ s₁ objs, args.foldl (fun s arg => s.pushArgument env c arg) s = s₁ ∧ s₁.Inv ∧ s₁.db.dict = s.db.dict ∧
      s₁.argvOf c = s.argvOf c ++ objs ∧ objs.map StrObj.enc = args.map Argument.enc ∧
      ∀ o ∈ s₁.argvOf c, refcount s₁.db.refs o.addr = .ok 1 := by
  induction args generalizing s with
  | nil => exact ⟨s, [], rfl, h, rfl, by simp, rfl, hone⟩
  | cons arg args ih =>
    obtain ⟨leaked, hdb⟩ := h.db
    obtain ⟨hnot, hprivate, hc⟩ := hdb.counts.create env
    have hnew := hc.refcount_eq hprivate (Multiset.mem_cons_self _ _)
    rw [Multiset.count_cons_self, Multiset.count_eq_zero.mpr hnot] at hnew
    obtain ⟨s₁, objs, hr, h₁, hdict, hargv, henc, hone₁⟩ := ih (pushArgument_inv env h c arg) fun o ho => by
      rw [argvOf_pushArgument, List.mem_append, List.mem_singleton] at ho
      rcases ho with ho | rfl
      · exact createObject_refcount env (hone o ho)
      · exact hnew
    refine ⟨s₁, ⟨(createObject env s.db.refs).1, arg.enc⟩ :: objs, hr, h₁, hdict, ?_, ?_, hone₁⟩
    · rw [hargv, argvOf_pushArgument, List.append_assoc]
      rfl
    · rw [List.map_cons, henc, List.map_cons]

variable [AddCommGroup G] [LinearOrder G]

/-- A command of the table runs on the arguments of the client, which are freed afterwards. -/
theorem execute_command (env : ServerEnv G) (h : s.Inv) {name : StrObj} {args : List StrObj} {cmd : RedisCommand}
    (hargv : s.argvOf c = name :: args) (hcmd : commandNamed name.enc.bytes = some cmd) (harity : cmd.arity = (args.length + 1 : ℕ)) :
    (∀ db argv replies, call env cmd s.db (⟨name.addr, lowerName name.enc⟩ :: args) = .ok (db, argv, replies) →
      ∃ s', s.execute env c = .ok (s', replies) ∧ s'.Inv ∧ s'.db.dict = db.dict ∧ s'.argvOf c = []) ∧
    (∀ e, call env cmd s.db (⟨name.addr, lowerName name.enc⟩ :: args) = .error e →
      s.execute env c = .error e) := by
  have hs : AllParsed (name :: args) := hargv ▸ h.argvOf c
  have hdispatch : cmdDispatch env s.commands s.db (name :: args) =
      call env cmd s.db (⟨name.addr, lowerName name.enc⟩ :: args) := by
    have hname : argAt (name :: args) 0 = .ok name := rfl
    have hptr := StrEnc.ptr_of_sds (hs name List.mem_cons_self).1
    have hlen : ¬ ((cmd.arity > 0 ∧ cmd.arity ≠ (args.length + 1 : ℕ)) ∨ ((args.length + 1 : ℕ) : ℤ) < -cmd.arity) := by
      omega
    simp only [cmdDispatch, hname, Exec.ok_bind, hptr, h.commands, hcmd, List.set_cons_zero,
      List.length_cons]
    exact if_neg hlen
  have hexec : s.execute env c = (call env cmd s.db (⟨name.addr, lowerName name.enc⟩ :: args) >>= fun r =>
      freeClientArgv { s with db := r.1, argv := s.argv.insert c r.2.1 } c >>= fun s => .ok (s, r.2.2)) := by
    rw [execute, hargv]
    simp only [not_quit_of_commandNamed hcmd, Bool.false_eq_true, if_false, hdispatch]
    rfl
  refine ⟨fun db argv replies hcall => ?_, fun e hcall => ?_⟩
  · obtain ⟨leaked, hdb⟩ := h.db
    rw [← hdispatch, ← hargv] at hcall
    obtain ⟨s₁, lost, hfree, -, -, -, -, hdict, -, hargv'⟩ := dispatch_spec env h hdb hcall
    have hrun : s.execute env c = .ok (s₁, replies) := by
      rw [hexec, ← hdispatch, ← hargv, hcall, Exec.ok_bind]
      simp only [hfree]
      rfl
    refine ⟨s₁, hrun, execute_inv env h hrun, hdict, ?_⟩
    rw [argvOf, hargv', Finmap.lookup_erase]
    rfl
  · rw [hexec, hcall]
    rfl

/-- A request changes no other key than the one it names. -/
theorem request_frame (env : ServerEnv G) (h : s.Inv) (hidle : s.argvOf c = []) {name key : Argument}
    {args : List Argument} {s' : Server} {replies : List ReplyCall}
    (run : s.request env c (name :: key :: args) = .ok (s', replies)) {j : Bytes} (hj : j ≠ cStr key.enc.bytes) :
    s'.db.dict.toMap.lookup j = s.db.dict.toMap.lookup j := by
  obtain ⟨s₁, objs, hpush, h₁, hdict, hargv, henc, -⟩ := pushArguments_spec env h (name :: key :: args) (c := c)
    (by simp [hidle])
  rw [request, hpush] at run
  obtain ⟨leaked, hdb⟩ := h₁.db
  obtain ⟨lost, -, -, hchange, -⟩ := execute_spec env h₁ hdb run
  obtain ⟨o, objs, rfl, -, henc⟩ := List.map_eq_cons_iff.mp henc
  obtain ⟨k, objs, rfl, hk, -⟩ := List.map_eq_cons_iff.mp henc
  have hkey : argKey (s₁.argvOf c) = cStr key.enc.bytes := by
    rw [hargv, hidle, ← hk]
    rfl
  rw [hkey] at hchange
  cases hchange with
  | same hdict' htasks => rw [hdict', hdict]
  | written writes frame accepted heapFree => rw [frame j hj, hdict]

/-- A client without arguments has none after a request of any client, except for QUIT. -/
theorem request_idle (env : ServerEnv G) (h : s.Inv) {r : ℕ} (hr : s.argvOf r = []) (hidle : s.argvOf c = [])
    {name : Argument} {args : List Argument} {cmd : RedisCommand} (hcmd : commandNamed name.enc.bytes = some cmd)
    {s' : Server} {replies : List ReplyCall} (run : s.request env c (name :: args) = .ok (s', replies)) :
    s'.argvOf r = [] := by
  obtain ⟨s₁, objs, hpush, h₁, hdict, hargv, henc, -⟩ := pushArguments_spec env h (name :: args) (c := c)
    (by simp [hidle])
  rw [request, hpush] at run
  obtain ⟨leaked, hdb⟩ := h₁.db
  obtain ⟨lost, -, -, -, -, hargv'⟩ := execute_spec env h₁ hdb run
  obtain ⟨o, objs, rfl, ho, -⟩ := List.map_eq_cons_iff.mp henc
  rcases hargv' with hargv' | ⟨-, n, hn, hquit⟩
  · rw [argvOf, hargv']
    by_cases hrc : r = c
    · rw [hrc, Finmap.lookup_erase]
      rfl
    · rw [Finmap.lookup_erase_ne hrc, ← hpush]
      exact (argvOf_pushArguments env s (name :: args) hrc).trans hr
  · rw [hargv, hidle] at hn
    obtain rfl : o = n := by simpa using hn
    rw [ho, not_quit_of_commandNamed hcmd] at hquit
    cases hquit

/-- A request of an idle client: the command of the table runs on new argument objects, and
the client is idle again afterwards. -/
theorem request_command (env : ServerEnv G) (h : s.Inv) (hidle : s.argvOf c = []) (name : Argument)
    (args : List Argument) (cmd : RedisCommand) (hcmd : commandNamed name.enc.bytes = some cmd)
    (harity : cmd.arity = (args.length + 1 : ℕ)) :
    ∃ (db₁ : Keyspace) (o : StrObj) (objs : List StrObj) (others : Multiset ℕ),
      db₁.Inv (addrs (o :: objs) + others) ∧ db₁.dict = s.db.dict ∧ objs.map StrObj.enc = args.map Argument.enc ∧
      (∀ o ∈ objs, refcount db₁.refs o.addr = .ok 1) ∧
      (∀ db argv replies, call env cmd db₁ (o :: objs) = .ok (db, argv, replies) →
        ∃ s', s.request env c (name :: args) = .ok (s', replies) ∧ s'.Inv ∧ s'.db.dict = db.dict ∧
          s'.argvOf c = []) ∧
      ∀ e, call env cmd db₁ (o :: objs) = .error e → s.request env c (name :: args) = .error e := by
  obtain ⟨s₁, objs, hpush, h₁, hdict, hargv, henc, hone⟩ := pushArguments_spec env h (name :: args) (c := c)
    (by simp [hidle])
  rw [hidle, List.nil_append] at hargv
  obtain ⟨o, objs', rfl⟩ : ∃ o objs', objs = o :: objs' := by
    cases objs with
    | nil => cases henc
    | cons o objs' => exact ⟨o, objs', rfl⟩
  obtain ⟨hname, hargs⟩ := List.cons.inj henc
  have hlen : objs'.length = args.length := by simpa using congrArg List.length hargs
  rw [← hname] at hcmd
  obtain ⟨hok, herr⟩ := execute_command env h₁ hargv hcmd (by rw [hlen]; exact harity)
  have hreq : s.request env c (name :: args) = s₁.execute env c := by rw [request, hpush]
  obtain ⟨leaked, hdb⟩ := h₁.db
  rw [argvHeld_eq s₁ c, hargv, add_assoc] at hdb
  rw [hreq]
  refine ⟨s₁.db, ⟨o.addr, lowerName o.enc⟩, objs', _, hdb, hdict, hargs, ?_, hok, herr⟩
  intro x hx
  exact hone x (hargv ▸ List.mem_cons_of_mem o hx)

/-- The same for a request that is known to complete. -/
theorem request_inversion (env : ServerEnv G) (h : s.Inv) (hidle : s.argvOf c = []) (name : Argument)
    (args : List Argument) (cmd : RedisCommand) (hcmd : commandNamed name.enc.bytes = some cmd)
    (harity : cmd.arity = (args.length + 1 : ℕ)) {s' : Server} {replies : List ReplyCall}
    (run : s.request env c (name :: args) = .ok (s', replies)) :
    ∃ (db₁ db : Keyspace) (o : StrObj) (objs argv : List StrObj) (others : Multiset ℕ),
      db₁.Inv (addrs (o :: objs) + others) ∧ db₁.dict = s.db.dict ∧ objs.map StrObj.enc = args.map Argument.enc ∧
      call env cmd db₁ (o :: objs) = .ok (db, argv, replies) ∧ s'.db.dict = db.dict := by
  obtain ⟨db₁, o, objs, others, hdb, hdict, henc, -, hok, herr⟩ := request_command env h hidle name args cmd hcmd harity
  cases hcall : call env cmd db₁ (o :: objs) with
  | error e =>
    rw [herr e hcall] at run
    cases run
  | ok r =>
    obtain ⟨db, argv, r⟩ := r
    obtain ⟨s₁, hrun, -, hdict', -⟩ := hok db argv r hcall
    rw [hrun] at run
    obtain ⟨rfl, rfl⟩ := Prod.mk.inj (Except.ok.inj run)
    exact ⟨db₁, db, o, objs, argv, others, hdb, hdict, henc, hcall, hdict'⟩

end Server

end RhinoRox
