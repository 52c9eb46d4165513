import RhinoRox.ReadingCommands

/-!
# Different keys, different values

The parser delivers keys with a length, but the dictionary sees a key up to its first NUL.
Requests on keys that differ there do not disturb each other, nor do requests on fields that
differ there; two keys that differ only after a NUL are one key.
-/

namespace RhinoRox.Server

variable {G : Type} [AddCommGroup G] [LinearOrder G] (env : ServerEnv G) {s s' : Server} {c r : ℕ}

/-- The request completes with these replies. -/
def Replies (s : Server) (c : ℕ) (req : List Argument) (replies : List ReplyCall) : Prop :=
  ∃ s', s.request env c req = .ok (s', replies)

/-- The request stores or removes a field of a trie. -/
def WritesField (cmd : RedisCommand) (args : List Argument) (field : Argument) : Prop :=
  cmd.proc = .rrCmdRset ∧ (∃ val, args = [field, val]) ∨ cmd.proc = .rrCmdRdel ∧ args = [field]

/-- What RSET and RDEL leave of the other fields of a trie. -/
theorem request_fieldFrame (h : s.Inv) (hidle : s.argvOf c = []) {name key field : Argument} {args : List Argument}
    {cmd : RedisCommand} (hcmd : commandNamed name.enc.bytes = some cmd) (hfield : WritesField cmd args field)
    {replies : List ReplyCall} (run : s.request env c (name :: key :: args) = .ok (s', replies))
    {a : ℕ} {trie : DictT StrObj} (hl : s.db.dict.toMap.lookup (cStr key.enc.bytes) = some ⟨a, .hash trie⟩) :
    ∃ trie', s'.db.dict.toMap.lookup (cStr key.enc.bytes) = some ⟨a, .hash trie'⟩ ∧
      ∀ f, f ≠ cStr field.enc.bytes → trie'.toMap.lookup f = trie.toMap.lookup f := by
  have harities : ∀ c ∈ redisCommandTable, (c.proc = .rrCmdRset → c.arity = 4) ∧ (c.proc = .rrCmdRdel → c.arity = 3) := by
    decide
  obtain ⟨harity, harity'⟩ := harities cmd (commandNamed_eq_some hcmd).1
  rcases hfield with ⟨hproc, val, rfl⟩ | ⟨hproc, rfl⟩
  · obtain ⟨db₁, db, o, objs, argv, others, hdb, hdict, henc, hcall, hdict'⟩ :=
      request_inversion env h hidle name [key, field, val] cmd hcmd (harity hproc) run
    obtain ⟨k, f, v, rfl, hk, hf, hv⟩ := objs_eq_three henc
    have hval : [o, k, f, v][3]? = some v := rfl
    have hl₁ : db₁.dict.toMap.lookup k.key = some ⟨a, .hash trie⟩ := by rw [StrObj.key, hk, hdict, hl]
    obtain ⟨db₂, v', a', trie₁, trie', hrun, -, -, hup, hm, hwas⟩ :=
      rrCmdRset_spec env (hdb.argument hval) (hk ▸ key.sds) (hf ▸ field.sds) (hv ▸ val.sds) fun o ho => by
        rw [hl₁] at ho
        obtain rfl := Option.some.inj ho
        exact ⟨trie, rfl⟩
    rw [call, hproc] at hcall
    change replaceArg [o, k, f, v] 3 (rrCmdRset env db₁ k f v) = _ at hcall
    rw [replaceArg, hrun] at hcall
    obtain ⟨rfl, -⟩ := Prod.mk.inj (Except.ok.inj hcall)
    rw [hl₁] at hwas
    obtain ⟨rfl, rfl⟩ : a = a' ∧ trie = trie₁ := by simpa using hwas
    refine ⟨trie', ?_, fun j hj => ?_⟩
    · rw [hdict', ← hk]
      exact hup.lookup
    · rw [hm, StrObj.key, hf, Finmap.lookup_insert_of_ne _ hj]
  · obtain ⟨db₁, db, o, objs, argv, others, hdb, hdict, henc, hcall, hdict'⟩ :=
      request_inversion env h hidle name [key, field] cmd hcmd (harity' hproc) run
    obtain ⟨k, f, rfl, hk, hf⟩ := objs_eq_two henc
    have hl₁ : db₁.dict.toMap.lookup k.key = some ⟨a, .hash trie⟩ := by rw [StrObj.key, hk, hdict, hl]
    have hspec := rrCmdRdel_spec hdb (hk ▸ key.sds) (hf ▸ field.sds) hl₁
    rw [call, hproc] at hcall
    change keepArgv [o, k, f] (rrCmdRdel db₁ k f) = _ at hcall
    cases hv : trie.toMap.lookup f.key with
    | none =>
      rw [hv] at hspec
      rw [keepArgv, hspec] at hcall
      cases hcall
    | some v =>
      rw [hv] at hspec
      obtain ⟨db₂, trie', hrun, -, hm, hm', -⟩ := hspec
      rw [keepArgv, hrun] at hcall
      obtain ⟨rfl, -⟩ := Prod.mk.inj (Except.ok.inj hcall)
      refine ⟨trie', ?_, fun j hj => ?_⟩
      · rw [hdict', hm', StrObj.key, hk, Finmap.lookup_insert]
      · rw [hm, StrObj.key, hf, Finmap.lookup_erase_ne hj]

/-- A request that completes leaves the replies of GET, EXISTS and TYPE on every key alone that
differs from its own key before the first NUL, and a request on a field those of RGET and
REXISTS on every field that differs from it there. -/
theorem distinct_keys_isolated (hs : s.Reachable G) (hc : s.argvOf c = []) (hr : s.argvOf r = [])
    {name key : Argument} {args : List Argument} {cmd : RedisCommand}
    (hcmd : commandNamed name.enc.bytes = some cmd) {replies : List ReplyCall}
    (run : s.request env c (name :: key :: args) = .ok (s', replies)) :
    (∀ (reader key' : Argument) (cmd' : RedisCommand), commandNamed reader.enc.bytes = some cmd' →
      cmd'.proc ∈ keyReaders → cStr key'.enc.bytes ≠ cStr key.enc.bytes →
      ∀ env' : ServerEnv G, ∃ rs, Replies env' s r [reader, key'] rs ∧ Replies env' s' r [reader, key'] rs) ∧
    ∀ (a : ℕ) (trie : DictT StrObj) (field : Argument),
      s.db.dict.toMap.lookup (cStr key.enc.bytes) = some ⟨a, .hash trie⟩ → WritesField cmd args field →
      ∀ (reader field' : Argument) (cmd' : RedisCommand), commandNamed reader.enc.bytes = some cmd' →
        cmd'.proc ∈ fieldReaders → cStr field'.enc.bytes ≠ cStr field.enc.bytes →
        ∀ env' : ServerEnv G,
          ∃ rs, Replies env' s r [reader, key, field'] rs ∧ Replies env' s' r [reader, key, field'] rs := by
  have h' : s'.Inv := (hs.request env run).inv
  have hr' : s'.argvOf r = [] := request_idle env hs.inv hr hc hcmd run
  constructor
  · intro reader key' cmd' hreader hproc hne env'
    obtain ⟨s₁, hrun, -⟩ := request_keyReply env' hs.inv hr reader key' hreader hproc
    obtain ⟨s₂, hrun', -⟩ := request_keyReply env' h' hr' reader key' hreader hproc
    rw [request_frame env hs.inv hc run hne] at hrun'
    exact ⟨_, ⟨s₁, hrun⟩, ⟨s₂, hrun'⟩⟩
  · intro a trie field hl hfield reader field' cmd' hreader hproc hne env'
    obtain ⟨trie', hl', hframe⟩ := request_fieldFrame env hs.inv hc hcmd hfield run hl
    obtain ⟨s₁, hrun, -⟩ := request_trieReply env' hs.inv hr reader key field' hreader hproc hl
    obtain ⟨s₂, hrun', -⟩ := request_trieReply env' h' hr' reader key field' hreader hproc hl'
    rw [hframe _ hne] at hrun'
    exact ⟨_, ⟨s₁, hrun⟩, ⟨s₂, hrun'⟩⟩

/-- SET of one key and GET of another. -/
theorem distinct_keys_isolated_set :
    ∃ s s' replies rs, s.Reachable ℤ ∧
      s.request bumpServerEnv 0 [textArgument "SET", textArgument "b", textArgument "2"] = .ok (s', replies) ∧
      Replies bumpServerEnv s 0 [textArgument "GET", textArgument "a"] rs ∧
      Replies bumpServerEnv s' 0 [textArgument "GET", textArgument "a"] rs := by
  have hcheck : (show Exec (Server × Server × List ReplyCall) from do
      let s ← session bumpServerEnv [[textArgument "SET", textArgument "a", textArgument "1"]]
      let r ← s.request bumpServerEnv 0 [textArgument "SET", textArgument "b", textArgument "2"]
      pure (s, r)).toOption.any (fun r => (r.1.argvOf 0).isEmpty) = true := by decide +kernel
  obtain ⟨⟨s, s', replies⟩, hrun, hidle⟩ := Exec.exists_of_any hcheck
  obtain ⟨s₁, hsession, hrun⟩ := Exec.bind_eq_ok.mp hrun
  obtain ⟨r, hset, he⟩ := Exec.bind_eq_ok.mp hrun
  obtain ⟨rfl, rfl⟩ := Prod.mk.inj (Except.ok.inj he)
  have hidle : s₁.argvOf 0 = [] := List.isEmpty_iff.mp hidle
  have hs := session_reachable bumpServerEnv hsession
  have hcmd : commandNamed (textArgument "SET").enc.bytes = some ⟨"set", .rrCmdSet, 3, "wm"⟩ := by decide
  have hget : commandNamed (textArgument "GET").enc.bytes = some ⟨"get", .rrCmdGet, 2, "rF"⟩ := by decide
  obtain ⟨rs, hbefore, hafter⟩ := (distinct_keys_isolated bumpServerEnv hs hidle hidle hcmd hset).1
    (textArgument "GET") (textArgument "a") _ hget (by decide) (by decide) bumpServerEnv
  exact ⟨s₁, s', replies, rs, hs, hset, hbefore, hafter⟩

/-- A key of three bytes with a NUL in the middle. -/
def nulArgument (b : UInt8) : Argument :=
  ⟨.embstr [97, 0, b], rfl, show 3 ≤ protoQueryMaxLen by decide⟩

/-- SET of `a\0b` makes EXISTS find `a\0c`. -/
theorem nul_keys_collide :
    (nulArgument 98).enc.bytes ≠ (nulArgument 99).enc.bytes ∧
    ∃ s s' replies, s.Reachable ℤ ∧
      s.request bumpServerEnv 0 [textArgument "SET", nulArgument 98, textArgument "v"] = .ok (s', replies) ∧
      Replies bumpServerEnv s 0 [textArgument "EXISTS", nulArgument 99] [.obj Shared.czero] ∧
      Replies bumpServerEnv s' 0 [textArgument "EXISTS", nulArgument 99] [.obj Shared.cone] := by
  have hcheck : (show Exec (List ReplyCall × List ReplyCall) from do
      let s ← session bumpServerEnv []
      let set ← s.request bumpServerEnv 0 [textArgument "SET", nulArgument 98, textArgument "v"]
      let before ← s.request bumpServerEnv 0 [textArgument "EXISTS", nulArgument 99]
      let after ← set.1.request bumpServerEnv 0 [textArgument "EXISTS", nulArgument 99]
      pure (before.2, after.2)).toOption.any
        (fun r => decide (r = ([.obj Shared.czero], [.obj Shared.cone]))) = true := by decide +kernel
  obtain ⟨rs, hrun, hrs⟩ := Exec.exists_of_any hcheck
  obtain ⟨s, hsession, hrun⟩ := Exec.bind_eq_ok.mp hrun
  obtain ⟨⟨s', replies⟩, hset, hrun⟩ := Exec.bind_eq_ok.mp hrun
  obtain ⟨⟨s₁, before⟩, hbefore, hrun⟩ := Exec.bind_eq_ok.mp hrun
  obtain ⟨⟨s₂, after⟩, hafter, he⟩ := Exec.bind_eq_ok.mp hrun
  obtain rfl := Except.ok.inj he
  obtain ⟨rfl, rfl⟩ := Prod.mk.inj (of_decide_eq_true hrs)
  exact ⟨by decide, s, s', replies, session_reachable bumpServerEnv hsession, hset, ⟨s₁, hbefore⟩, ⟨s₂, hafter⟩⟩

end RhinoRox.Server
