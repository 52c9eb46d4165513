import RhinoRox.CommandReplies
import RhinoRox.RequestExecution
import RhinoRox.InlineRequests

/-!
# The replies on one connection

The requests of a client are answered by one value each, in order. Since a stream of values
can be cut in only one way, the client finds the answer to its n-th request as the n-th value.
-/

namespace RhinoRox

namespace Server
variable {G : Type} [AddCommGroup G] [LinearOrder G] {s s' : Server} {c : ℕ} {replies : List ReplyCall}

/-- A request that is executed is answered by one value. -/
theorem execute_oneValue (env : ServerEnv G) (h : s.Inv) (hargs : s.argvOf c ≠ [])
    (run : s.execute env c = .ok (s', replies)) : OneValue replies := by
  rw [execute] at run
  split at run
  · rename_i hnil
    exact absurd hnil hargs
  rename_i name args hargv
  split at run
  · obtain ⟨-, rfl⟩ := Prod.mk.inj (Except.ok.inj run)
    exact .ok
  obtain ⟨r, hcall, run⟩ := Exec.bind_eq_ok.mp run
  obtain ⟨s₁, -, he⟩ := Exec.bind_eq_ok.mp run
  obtain ⟨-, rfl⟩ := Prod.mk.inj (Except.ok.inj he)
  obtain ⟨leaked, hdb⟩ := h.db
  exact cmdDispatch_answers env s.commands hdb (hargv ▸ h.argvOf c) r hcall

/-- What a client that may be written to is sent. -/
theorem execute_appended (env : ServerEnv G) (h : s.Inv) (hargs : s.argvOf c ≠ [])
    (run : s.execute env c = .ok (s', replies)) {cl : Client} (hcl : cl.OutInv) (hfd : 0 < cl.fd)
    (hopen : cl.closeAfterReply = false) :
    RespValue (replies.flatMap ReplyCall.payload) ∧
      Appended (replies.flatMap ReplyCall.payload) cl (replyAll cl replies) := by
  refine ⟨execute_oneValue env h hargs run, ?_⟩
  have ha := replyAll_spec hcl replies
  rwa [hopen, accepted, if_pos ⟨hfd, by simp⟩] at ha

/-- The connection of a client, with what each of its requests has been answered. Between two
requests the server can have become any other reachable one: arguments are read, other clients
are served. After QUIT the client is closing. -/
inductive Conversation (G : Type) [AddCommGroup G] [LinearOrder G] (c : ℕ) (fd : ℤ) :
    Server → Connection → List Bytes → Prop where
  | connect {s : Server} (h : s.Reachable G) : Conversation G c fd s ⟨some (rrClientCreate fd), []⟩ []
  | elsewhere {s s' : Server} {k : Connection} {vs : List Bytes} (h : Conversation G c fd s k vs)
      (h' : s'.Reachable G) : Conversation G c fd s' k vs
  | write {s : Server} {k : Connection} {vs : List Bytes} (h : Conversation G c fd s k vs)
      (handlerInstalled : Bool) (outs : List WriteOutcome) :
      Conversation G c fd s (ReplyOp.run k (.write handlerInstalled outs)) vs
  | execute {s s' : Server} {cl : Client} {sent : Bytes} {vs : List Bytes} {replies : List ReplyCall}
      (h : Conversation G c fd s ⟨some cl, sent⟩ vs) (hopen : cl.closeAfterReply = false)
      (hargs : s.argvOf c ≠ []) (env : ServerEnv G) (run : s.execute env c = .ok (s', replies)) :
      Conversation G c fd s'
        ⟨some { replyAll cl replies with
          closeAfterReply := isQuit ((s.argvOf c).map fun o => o.enc.bytes) }, sent⟩
        (vs ++ [replies.flatMap ReplyCall.payload])

namespace Conversation
variable {fd : ℤ} {k : Connection} {vs : List Bytes}

theorem reachable (h : Conversation G c fd s k vs) : s.Reachable G := by
  induction h with
  | connect h => exact h
  | elsewhere _ h' => exact h'
  | write _ _ _ ih => exact ih
  | execute _ _ _ env run ih => exact .execute ih env c run

/-- What the client has been sent, and what is queued for it, are the answers in order. -/
structure Stream (fd : ℤ) (k : Connection) (vs : List Bytes) : Prop where
  values : ∀ v ∈ vs, RespValue v
  sent : k.sent <+: vs.flatten
  client : ∀ cl, k.client = some cl → cl.OutInv ∧ cl.fd = fd ∧ k.sent ++ unsent cl = vs.flatten

theorem stream (h : Conversation G c fd s k vs) (hfd : 0 < fd) : Stream fd k vs := by
  induction h with
  | connect h =>
    refine ⟨by simp, List.prefix_refl _, fun cl hcl => ?_⟩
    obtain rfl := Option.some.inj hcl
    exact ⟨rrClientCreate_outInv fd, rfl, rfl⟩
  | elsewhere _ _ ih => exact ih
  | @write s k vs _ handlerInstalled outs ih =>
    obtain ⟨client, sent⟩ := k
    cases client with
    | none => exact ih
    | some cl =>
      obtain ⟨hi, hfd', hall⟩ := ih.client cl rfl
      rcases replyWriteToClient_spec hi handlerInstalled outs with ⟨cl', hc, hd⟩ | ⟨hc, hpre, -⟩
      · have hall' : sent ++ (replyWriteToClient cl handlerInstalled outs).sent ++ unsent cl' = vs.flatten := by
          rw [List.append_assoc, hd.unsent]
          exact hall
        refine ⟨ih.values, ⟨unsent cl', hall'⟩, fun cl₁ hcl => ?_⟩
        obtain rfl : cl' = cl₁ := Option.some.inj (hc.symm.trans hcl)
        exact ⟨hd.inv, hd.fd.trans hfd', hall'⟩
      · refine ⟨ih.values, ?_, fun cl₁ hcl => ?_⟩
        · rw [← hall]
          exact List.prefix_append_right_inj sent |>.mpr hpre
        · cases hc.symm.trans hcl
  | @execute s s' cl sent vs replies h hopen hargs env run ih =>
    obtain ⟨hi, hfd', hall⟩ := ih.client cl rfl
    obtain ⟨hvalue, ha⟩ := execute_appended env h.reachable.inv hargs run hi (hfd'.symm ▸ hfd) hopen
    have hall' : sent ++ unsent (replyAll cl replies) = (vs ++ [replies.flatMap ReplyCall.payload]).flatten := by
      rw [ha.unsent, ← List.append_assoc, List.flatten_concat]
      exact congrArg (· ++ _) hall
    refine ⟨?_, ⟨_, hall'⟩, fun cl₁ hcl => ?_⟩
    · intro v hv
      rcases List.mem_append.mp hv with hv | hv
      · exact ih.values v hv
      · rw [List.mem_singleton.mp hv]
        exact hvalue
    · obtain rfl := Option.some.inj hcl
      exact ⟨⟨ha.inv.buf_le, ha.inv.replied, ha.inv.sent⟩, ha.fd.trans hfd', hall'⟩

end Conversation

/-- A request that completes appends one value to the output of the client, whatever state its
buffers are in, and the values on a connection are the answers to its requests in order. -/
theorem replies_are_values (G : Type) [AddCommGroup G] [LinearOrder G] (c : ℕ) (fd : ℤ) (hfd : 0 < fd) :
    (∀ (s s' : Server) (env : ServerEnv G) (replies : List ReplyCall) (ops : List ReplyOp) (cl : Client),
      s.Reachable G → s.argvOf c ≠ [] → s.execute env c = .ok (s', replies) →
      (runReplies ⟨some (rrClientCreate fd), []⟩ ops).client = some cl → cl.closeAfterReply = false →
      ∃ v, RespValue v ∧ unsent (replyAll cl replies) = unsent cl ++ v) ∧
    ∀ (s : Server) (k : Connection) (vs : List Bytes), Conversation G c fd s k vs →
      (∀ v ∈ vs, RespValue v) ∧ k.sent <+: vs.flatten ∧
      (∀ cl, k.client = some cl → k.sent ++ unsent cl = vs.flatten) ∧
      ∀ ws, (∀ w ∈ ws, RespValue w) → ws.flatten = vs.flatten → ws = vs := by
  constructor
  · intro s s' env replies ops cl hs hargs run hcl hopen
    obtain ⟨hi, hfd'⟩ := runReplies_outInv (rrClientCreate_outInv fd) hcl
    obtain ⟨hvalue, ha⟩ := execute_appended env hs.inv hargs run hi (by rw [hfd']; exact hfd) hopen
    exact ⟨_, hvalue, ha.unsent⟩
  · intro s k vs h
    have hstream := h.stream hfd
    refine ⟨hstream.values, hstream.sent, fun cl hcl => (hstream.client cl hcl).2.2, ?_⟩
    intro ws hws he
    exact RespValue.flatten_unique hws hstream.values he

/-- LEN on a new server: the first client is sent `:0`. -/
theorem replies_are_values_len :
    ∃ s k, Conversation ℤ 0 5 s k [ascii ":0\r\n"] ∧ RespValue (ascii ":0\r\n") := by
  obtain ⟨⟨d, db, argv⟩, hinit, rfl, rfl⟩ := exists_rrServerInit
  have hs : Server.Reachable ℤ ⟨d, rrDbCreate, ∅⟩ := .init hinit
  have hs₁ := hs.argument bumpServerEnv 0 (textArgument "len")
  have hargv := argvOf_pushArgument bumpServerEnv ⟨d, rrDbCreate, ∅⟩ 0 (textArgument "len")
  have hcmd : commandNamed (textArgument "len").enc.bytes = some ⟨"len", .rrCmdLen, 1, "rF"⟩ := by decide
  obtain ⟨hok, -⟩ := execute_command bumpServerEnv hs₁.inv hargv hcmd rfl
  obtain ⟨s', hrun, -⟩ := hok _ _ _ rfl
  have hpayload : (replyAddLonglong (dictLength rrDbCreate.dict)).flatMap ReplyCall.payload = ascii ":0\r\n" := by
    decide +kernel
  have hnew : Conversation ℤ 0 5 _ _ _ := .connect hs₁
  have hconv := hnew.execute rfl (by rw [hargv]; simp) bumpServerEnv hrun
  change Conversation ℤ 0 5 _ _ [(replyAddLonglong (dictLength rrDbCreate.dict)).flatMap ReplyCall.payload] at hconv
  rw [hpayload] at hconv
  exact ⟨_, _, hconv, ((replies_are_values ℤ 0 5 (by decide)).2 _ _ _ hconv).1 _ (by simp)⟩

end Server

end RhinoRox
