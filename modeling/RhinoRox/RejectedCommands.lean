import RhinoRox.ServerInvariant

/-!
# Commands that must not change the keyspace

A request that is answered with an error, and a command with the flag `r`, leave the table of
the keyspace and the queue of the background thread as they were.
-/

namespace RhinoRox

/-- The command of a request has the flag `r`. -/
def ReadFlag (argv : List StrObj) : Prop :=
  ∃ name cmd, argv[0]? = some name ∧ commandNamed name.enc.bytes = some cmd ∧ 'r' ∈ cmd.sflags.toList

/-- No handler that changes the keyspace belongs to a command with the flag `r`. -/
theorem ReadFlag.not_writes {argv : List StrObj} (h : ReadFlag argv) :
    (requestProc argv).any Proc.writes = false := by
  obtain ⟨name, cmd, hname, hcmd, hflag⟩ := h
  have htable : ∀ c ∈ redisCommandTable, 'r' ∈ c.sflags.toList → c.proc.writes = false := by decide
  have hmem : cmd ∈ redisCommandTable := List.mem_reverse.mp (List.mem_of_find?_eq_some hcmd)
  rw [requestProc, hname, Option.bind_some, hcmd]
  exact htable cmd hmem hflag

namespace Server
variable {G : Type} [AddCommGroup G] [LinearOrder G] {s s' : Server} {c : ℕ} {replies : List ReplyCall}

/-- Whatever a client has sent, a request that completes with an error, or that only reads,
leaves every key and every collection as it was. -/
theorem rejected_unchanged (h : Reachable G s) (env : ServerEnv G) (run : s.execute env c = .ok (s', replies))
    (hrejected : SendsError replies ∨ ReadFlag (s.argvOf c)) :
    s'.db.dict = s.db.dict ∧ s'.db.tasks = s.db.tasks := by
  obtain ⟨leaked, hdb⟩ := h.inv.db
  obtain ⟨lost, -, -, hchange, -⟩ := execute_spec env h.inv hdb run
  cases hchange with
  | same hdict htasks => exact ⟨hdict, htasks⟩
  | written hwrites _ haccepted _ =>
    rcases hrejected with herr | hread
    · exact absurd herr haccepted
    · rw [hread.not_writes] at hwrites
      cases hwrites

/-- RSET on a key that holds a string. -/
theorem rejected_unchanged_rset :
    ∃ s s' replies, Reachable ℤ s ∧ s.execute bumpServerEnv 0 = .ok (s', replies) ∧ SendsError replies ∧
      s'.db.dict = s.db.dict ∧ s'.db.tasks = s.db.tasks := by
  let rset := [textArgument "RSET", textArgument "k", textArgument "f", textArgument "v"]
  have hrun : (session bumpServerEnv [[textArgument "SET", textArgument "k", textArgument "v"]] >>= fun s =>
      s.request bumpServerEnv 0 rset).toOption.any
        (fun r => decide (SendsError r.2)) = true := by decide +kernel
  obtain ⟨⟨s', replies⟩, hrun, herr⟩ := Exec.exists_of_any hrun
  obtain ⟨s₀, hsession, hexec⟩ := Exec.bind_eq_ok.mp hrun
  have hs : Reachable ℤ (rset.foldl (fun s arg => s.pushArgument bumpServerEnv 0 arg) s₀) :=
    (session_reachable bumpServerEnv hsession).pushArguments bumpServerEnv rset
  have herr : SendsError replies := of_decide_eq_true herr
  exact ⟨_, s', replies, hs, hexec, herr, rejected_unchanged hs bumpServerEnv hexec (.inl herr)⟩

end Server

end RhinoRox
