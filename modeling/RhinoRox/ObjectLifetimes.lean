import RhinoRox.FreedMemory

/-!
# The lifetime of objects

In runs without heaps no reference is ever lost: between two steps the count of an object is
the number of slots that refer to it, and an object without a slot has been freed. A heap is
released without its items, which is why QPUSH is left out.
-/

namespace RhinoRox.Server

open KeyedTotal

variable {G : Type} [AddCommGroup G] [LinearOrder G] {s s' : Server} {c : ℕ}

/-- The number of slots that refer to an object: values of keys and of fields, titles and texts
of documents, objects queued for the background thread and arguments of clients. -/
noncomputable def slots (s : Server) (a : ℕ) : ℕ := (s.db.held + s.argvHeld).count a

/-- The states that any clients can produce without QPUSH. -/
inductive Heapless (G : Type) [AddCommGroup G] [LinearOrder G] : Server → Prop where
  | init {s : Server} (run : rrServerInit = .ok s) : Heapless G s
  | argument {s : Server} (h : Heapless G s) (env : ServerEnv G) (c : ℕ) (arg : Argument) :
      Heapless G (s.pushArgument env c arg)
  | execute {s s' : Server} {replies : List ReplyCall} (h : Heapless G s) (env : ServerEnv G) (c : ℕ)
      (hproc : requestProc (s.argvOf c) ≠ some .rrCmdHqpush) (run : s.execute env c = .ok (s', replies)) :
      Heapless G s'
  | disconnect {s s' : Server} (h : Heapless G s) (c : ℕ) (run : s.freeClientArgv c = .ok s') : Heapless G s'
  | background {s s' : Server} (h : Heapless G s) (run : s.background = .ok s') : Heapless G s'

theorem Heapless.reachable (h : Heapless G s) : Reachable G s := by
  induction h with
  | init run => exact .init run
  | argument _ env c arg ih => exact .argument ih env c arg
  | execute _ env c _ run ih => exact .execute ih env c run
  | disconnect _ c run ih => exact .disconnect ih c run
  | background _ run ih => exact .background ih run

theorem Heapless.pushArguments (h : Heapless G s) (env : ServerEnv G) (args : List Argument) :
    Heapless G (args.foldl (fun s arg => s.pushArgument env c arg) s) := by
  induction args generalizing s with
  | nil => exact h
  | cons arg args ih => exact ih (.argument h env c arg)

theorem Heapless.request (h : Heapless G s) (env : ServerEnv G) (hidle : s.argvOf c = []) {name : Argument}
    {args : List Argument} (hname : (commandNamed name.enc.bytes).map RedisCommand.proc ≠ some .rrCmdHqpush)
    {replies : List ReplyCall} (run : s.request env c (name :: args) = .ok (s', replies)) : Heapless G s' := by
  obtain ⟨s₁, objs, hpush, -, -, hargv, henc, -⟩ := pushArguments_spec env h.reachable.inv (name :: args) (c := c)
    (by simp [hidle])
  obtain ⟨o, objs, rfl, ho, -⟩ := List.map_eq_cons_iff.mp henc
  refine .execute (h.pushArguments env (name :: args)) env c ?_ run
  rw [hpush, hargv, hidle, requestProc]
  simpa [ho] using hname

/-- No heap is stored and no reference has been lost. -/
structure Exact (s : Server) : Prop where
  db : s.db.Inv s.argvHeld
  noHeapq : s.db.NoHeapq

theorem noHeapq_congr {db db' : Keyspace} (h : db.NoHeapq) (hdict : db'.dict = db.dict)
    (htasks : db'.tasks = db.tasks) : db'.NoHeapq := by
  intro o ho
  refine h o ?_
  rw [Keyspace.Holds, hdict, htasks] at ho
  exact ho

theorem Exact.leaked (h : s.Exact) : s.db.Inv (s.argvHeld + 0) := h.db.congr (add_zero _).symm

theorem rrServerInit_exact (run : rrServerInit = .ok s) : s.Exact := by
  obtain ⟨⟨commands, db, argv⟩, hr, rfl, rfl⟩ := exists_rrServerInit
  rw [hr] at run
  obtain rfl := Except.ok.inj run
  refine ⟨rrDbCreate_inv.congr ?_, ?_⟩
  · exact (mapTotal_empty addrs).symm
  · rintro o (⟨k, hl⟩ | ho)
    · simp [rrDbCreate] at hl
    · cases ho

omit [AddCommGroup G] [LinearOrder G] in
theorem pushArgument_exact (env : ServerEnv G) (h : s.Exact) (c : ℕ) (arg : Argument) :
    (s.pushArgument env c arg).Exact :=
  ⟨(pushArgument_db env h.leaked c arg).congr (add_zero _), h.noHeapq⟩

theorem freeClientArgv_exact (h : s.Exact) (run : s.freeClientArgv c = .ok s') : s'.Exact := by
  obtain ⟨s₁, hr, h₁, -, hdict, htasks, -⟩ := freeClientArgv_spec h.leaked c
  rw [hr] at run
  obtain rfl := Except.ok.inj run
  exact ⟨h₁.congr (add_zero _), noHeapq_congr h.noHeapq hdict htasks⟩

theorem execute_exact (env : ServerEnv G) (hinv : s.Inv) (h : s.Exact)
    (hproc : requestProc (s.argvOf c) ≠ some .rrCmdHqpush) {replies : List ReplyCall}
    (run : s.execute env c = .ok (s', replies)) : s'.Exact := by
  obtain ⟨lost, h₁, hlost, hchange, -⟩ := execute_spec env hinv h.leaked run
  obtain rfl := hlost h.noHeapq
  refine ⟨h₁.congr (by simp), ?_⟩
  cases hchange with
  | same hdict htasks => exact noHeapq_congr h.noHeapq hdict htasks
  | written _ _ _ heapFree => exact heapFree hproc h.noHeapq

theorem background_exact (h : s.Exact) (run : s.background = .ok s') : s'.Exact := by
  obtain ⟨lost, h₁, hlost, -⟩ := background_spec h.leaked run
  obtain ⟨rfl, hno⟩ := hlost h.noHeapq
  exact ⟨h₁.congr (by simp), hno⟩

theorem Heapless.exact (h : Heapless G s) : s.Exact := by
  induction h with
  | init run => exact rrServerInit_exact run
  | argument _ env c arg ih => exact pushArgument_exact env ih c arg
  | execute hs env c hproc run ih => exact execute_exact env hs.reachable.inv ih hproc run
  | disconnect _ c run ih => exact freeClientArgv_exact ih run
  | background _ run ih => exact background_exact ih run

theorem Exact.lookup_refs (h : s.Exact) {a : ℕ} (ha : objSharedIntegers ≤ a) :
    s.db.refs.lookup a = if s.slots a = 0 then none else some (s.slots a : ℤ) := by
  have hnot : ¬ a < objSharedIntegers := by omega
  rw [h.db.counts a, ← slots]
  simp only [hnot, false_or]

theorem Exact.background (h : s.Exact) : ∃ s', s.background = .ok s' := by
  obtain ⟨-, hgood⟩ := lazyFree_spec h.db
  have hw : ¬ ∃ o, s.db.tasks.head? = some o ∧ o.val.Wild := by
    rintro ⟨⟨a, val⟩, ho, hw⟩
    have hno := h.noHeapq _ (.inr (List.mem_of_head? ho))
    cases val with
    | heapq heap => cases hno
    | _ => exact hw.elim
  obtain ⟨db, lost, hr, -⟩ := hgood hw
  exact ⟨_, by rw [Server.background, hr]; rfl⟩

/-- Whatever the clients do and whoever frees, between two steps the count of an object is the
number of slots that refer to it, an object is freed as soon as there is none, the shared
integers keep their count, and no further step uses a freed object. -/
theorem refcount_eq_slots (h : Heapless G s) :
    (∀ a, objSharedIntegers ≤ a → s.db.refs.lookup a = if s.slots a = 0 then none else some (s.slots a : ℤ)) ∧
    (∀ a, a < objSharedIntegers → s.db.refs.lookup a = none ∧ refcount s.db.refs a = .ok (2 ^ 31 - 1)) ∧
    (∀ (env : ServerEnv G) (c : ℕ), NoFreed (s.execute env c)) ∧
    (∀ c, ∃ s', s.freeClientArgv c = .ok s') ∧ ∃ s', s.background = .ok s' := by
  have hexact := h.exact
  refine ⟨fun a ha => hexact.lookup_refs ha, fun a ha => ⟨?_, refcount_shared s.db.refs ha⟩, ?_, fun c => ?_,
    hexact.background⟩
  · rw [hexact.db.counts a, if_pos (.inl ha)]
  · intro env c
    exact execute_noFreed env h.reachable.inv c
  · obtain ⟨s', hr, -⟩ := freeClientArgv_spec hexact.leaked c
    exact ⟨s', hr⟩

/-- After a SET the value is referred to by its key, and nothing refers to the other arguments. -/
theorem refcount_eq_slots_set : ∃ s : Server, Heapless ℤ s ∧ s.slots 10001 = 0 ∧ s.slots 10002 = 1 := by
  have hcheck : (rrServerInit >>= fun s => s.request bumpServerEnv 0 [textArgument "SET", textArgument "k",
      textArgument "v"]).toOption.any (fun r => decide (r.1.db.refs.lookup 10001 = none) &&
        decide (r.1.db.refs.lookup 10002 = some 1)) = true := by decide +kernel
  obtain ⟨⟨s, replies⟩, hrun, hrefs⟩ := Exec.exists_of_any hcheck
  obtain ⟨s₀, hinit, hset⟩ := Exec.bind_eq_ok.mp hrun
  obtain ⟨hkey, hval⟩ := Bool.and_eq_true_iff.mp hrefs
  have h : Heapless ℤ s := by
    obtain ⟨s₁, hinit₁, -, hargv⟩ := exists_rrServerInit
    obtain rfl := Except.ok.inj (hinit.symm.trans hinit₁)
    exact Heapless.request (.init hinit) bumpServerEnv (by rw [argvOf, hargv]; rfl) (by decide) hset
  refine ⟨s, h, ?_, ?_⟩
  · have hslots := (refcount_eq_slots h).1 10001 (by decide)
    rw [of_decide_eq_true hkey] at hslots
    split at hslots
    · assumption
    · cases hslots
  · have hslots := (refcount_eq_slots h).1 10002 (by decide)
    rw [of_decide_eq_true hval] at hslots
    split at hslots
    · cases hslots
    · exact_mod_cast (Option.some.inj hslots).symm

end RhinoRox.Server
