import RhinoRox.ProtocolErrors

/-!
# What reads and writes do to the scheduling of a client

Queueing output sets the flag for pending writes when nothing was pending before. A write
takes from the output and has the write event removed when nothing is left.
-/

namespace RhinoRox

/-- `c'` is `c` after more output was queued: the flag is set when nothing was pending. -/
structure Queued (c c' : Client) : Prop where
  fd : c'.fd = c.fd
  pending : clientHasPendingReplies c = true → clientHasPendingReplies c' = true
  flag : c.pendingWrite = true → c'.pendingWrite = true
  scheduled : clientHasPendingReplies c' = true → clientHasPendingReplies c = true ∨ c'.pendingWrite = true
  first : c'.pendingWrite = true → c.pendingWrite = true ∨ clientHasPendingReplies c = false

namespace Queued
variable {c c' c'' : Client}

theorem refl (c : Client) : Queued c c := ⟨rfl, id, id, .inl, .inl⟩

theorem trans (h : Queued c c') (h' : Queued c' c'') : Queued c c'' := by
  refine ⟨h'.fd.trans h.fd, fun hp => h'.pending (h.pending hp), fun hf => h'.flag (h.flag hf), fun hp => ?_,
    fun hf => ?_⟩
  · rcases h'.scheduled hp with hp | hf
    · exact (h.scheduled hp).imp_right h'.flag
    · exact .inr hf
  · rcases h'.first hf with hf | hp
    · exact h.first hf
    · refine .inr ?_
      cases hc : clientHasPendingReplies c with
      | false => rfl
      | true => rw [h.pending hc] at hp; exact hp

/-- Only the fields of the output side matter. -/
theorem of_same (hfd : c'.fd = c.fd) (hbuf : c'.buf = c.buf) (hreply : c'.reply = c.reply)
    (hflag : c'.pendingWrite = c.pendingWrite) : Queued c c' := by
  have hp : clientHasPendingReplies c' = clientHasPendingReplies c := by
    rw [clientHasPendingReplies, clientHasPendingReplies, hbuf, hreply]
  exact ⟨hfd, fun h => hp.trans h, fun h => hflag.trans h, fun h => .inl (hp.symm.trans h),
    fun h => .inl (hflag.symm.trans h)⟩

theorem of_sameOutput (h : SameOutput c c') : Queued c c' := by
  have hw : c'.withInput c = c.withInput c := h c
  exact of_same (congrArg Client.fd hw : (c'.withInput c).fd = (c.withInput c).fd)
    (congrArg Client.buf hw : (c'.withInput c).buf = (c.withInput c).buf)
    (congrArg Client.reply hw : (c'.withInput c).reply = (c.withInput c).reply)
    (congrArg Client.pendingWrite hw : (c'.withInput c).pendingWrite = (c.withInput c).pendingWrite)

end Queued

/-- The buffer and the list only grow. -/
theorem replyAddSdsEncoded_grows (c : Client) (s : Bytes) :
    (replyAddSdsEncoded c s).fd = c.fd ∧ (replyAddSdsEncoded c s).pendingWrite = c.pendingWrite ∧
      (clientHasPendingReplies c = true → clientHasPendingReplies (replyAddSdsEncoded c s) = true) := by
  have hlist : (addReplyToList c s).fd = c.fd ∧ (addReplyToList c s).pendingWrite = c.pendingWrite ∧
      (clientHasPendingReplies c = true → clientHasPendingReplies (addReplyToList c s) = true) := by
    unfold addReplyToList
    dsimp only
    split_ifs <;> simp [clientHasPendingReplies, listAddNodeTail, listCatLast]
  unfold replyAddSdsEncoded addReplyToBuffer
  dsimp only
  split_ifs
  · exact ⟨rfl, rfl, id⟩
  · exact hlist
  · exact hlist
  · refine ⟨rfl, rfl, ?_⟩
    simp only [clientHasPendingReplies, Bool.or_eq_true, Bool.not_eq_true', List.isEmpty_eq_false_iff]
    exact Or.imp_left fun hb => by simp [hb]

theorem ReplyCall.run_queued (c : Client) (call : ReplyCall) : Queued c (call.run c) := by
  rw [ReplyCall.run_eq]
  unfold prepareClientToWrite
  by_cases hfd : c.fd ≤ 0
  · rw [if_pos hfd]
    exact .refl c
  rw [if_neg hfd]
  by_cases hfirst : (!clientHasPendingReplies c && !c.pendingWrite) = true
  · rw [if_pos hfirst]
    obtain ⟨h₁, h₂, h₃⟩ := replyAddSdsEncoded_grows { c with pendingWrite := true } call.payload
    have hnone : clientHasPendingReplies c = false := by simp_all
    exact ⟨h₁, fun hp => h₃ hp, fun _ => h₂, fun _ => .inr h₂, fun _ => .inr hnone⟩
  · rw [if_neg hfirst]
    obtain ⟨h₁, h₂, h₃⟩ := replyAddSdsEncoded_grows c call.payload
    refine ⟨h₁, h₃, fun hf => h₂.trans hf, fun _ => ?_, fun hf => .inl (h₂.symm.trans hf)⟩
    rw [h₂]
    cases hp : clientHasPendingReplies c with
    | true => exact .inl rfl
    | false => simp_all

theorem replyAll_queued (c : Client) (calls : List ReplyCall) : Queued c (replyAll c calls) := by
  induction calls generalizing c with
  | nil => exact .refl c
  | cons call calls ih => exact (call.run_queued c).trans (ih (call.run c))

theorem processInput_queued {c c' : Client} {st : Status} (h : processInput c = .ok (st, c')) : Queued c c' := by
  rcases processInput_exits h with hs | ⟨-, c₁, text, pos, hs, -, rfl⟩ | ⟨-, -, rfl⟩
  · exact .of_sameOutput hs
  · exact ((Queued.of_sameOutput hs).trans (replyAll_queued c₁ _)).trans (.of_same rfl rfl rfl rfl)
  · exact replyAll_queued c _

theorem setReqType_queued (c : Client) : Queued c (setReqType c) := by
  unfold setReqType
  split <;> exact .of_same rfl rfl rfl rfl

section Read
variable {σ : Type} (exec : σ → List StrEnc → σ × List ReplyCall)

theorem executeRequest_queued (proc : CmdProc σ) (s : σ) (c : Client) : Queued c (executeRequest proc s c).2 := by
  unfold executeRequest
  split_ifs
  · exact .of_same rfl rfl rfl rfl
  · refine (replyAll_queued c (proc s c.argv).calls).trans ?_
    dsimp only
    split_ifs <;> exact .of_same rfl rfl rfl rfl

theorem processUserInput_queued (proc : CmdProc σ) {fuel : ℕ} {s s' : σ} {c c' : Client}
    (h : processUserInput proc fuel s c = .ok (s', c')) : Queued c c' := by
  induction fuel generalizing s c with
  | zero => cases h
  | succ fuel ih =>
    obtain ⟨step, hstep, h⟩ := Exec.bind_eq_ok.mp h
    unfold userStep at hstep
    split_ifs at hstep
    · cases hstep
      cases h
      exact .refl _
    · cases hstep
      cases h
      exact .refl _
    · obtain ⟨⟨st, c₁⟩, hparse, hstep⟩ := Exec.bind_eq_ok.mp hstep
      have hq := (setReqType_queued c).trans (processInput_queued hparse)
      dsimp only at hstep
      split_ifs at hstep
      · cases hstep
        cases h
        exact hq
      · cases hstep
        exact (hq.trans (executeRequest_queued proc s c₁)).trans (ih h)

theorem handleReadFromClient_queued (proc : CmdProc σ) {s s' : σ} {c c' : Client} {out : ReadOutcome}
    (h : handleReadFromClient proc s c out = .ok (some (s', c'))) : Queued c c' := by
  cases out with
  | again =>
    cases h
    exact .refl c
  | fail => cases h
  | data bs =>
    rw [handleReadFromClient] at h
    split_ifs at h
    · cases h
    · cases h
    · obtain ⟨⟨s₁, c₁⟩, hrun, h⟩ := Exec.bind_eq_ok.mp h
      cases h
      have hrecv : Queued c (received c bs) := .of_same rfl rfl rfl rfl
      exact hrecv.trans (processUserInput_queued proc hrun)

end Read

/-- A write takes from the output; the event is removed exactly when nothing is left. -/
structure Written (handlerInstalled : Bool) (outs : List WriteOutcome) (c c' : Client) : Prop where
  input : SameInput c c'
  fd : c'.fd = c.fd
  flag : c'.pendingWrite = c.pendingWrite
  pending : clientHasPendingReplies c' = true → clientHasPendingReplies c = true
  eventDel : (replyWriteToClient c handlerInstalled outs).eventDel =
    (handlerInstalled && !clientHasPendingReplies c')

theorem replyWriteLoop_scheduling (c : Client) (tot : ℕ) (outs : List WriteOutcome) :
    (replyWriteLoop c tot outs).1.fd = c.fd ∧ (replyWriteLoop c tot outs).1.pendingWrite = c.pendingWrite ∧
      (clientHasPendingReplies (replyWriteLoop c tot outs).1 = true → clientHasPendingReplies c = true) := by
  have hsome : ∀ (c : Client) (n : ℕ), (sentSome c n).fd = c.fd ∧ (sentSome c n).pendingWrite = c.pendingWrite := by
    intro c n
    unfold sentSome
    dsimp only
    split_ifs <;> exact ⟨rfl, rfl⟩
  fun_induction RhinoRox.replyWriteLoop c tot outs with
  | case1 c => exact ⟨rfl, rfl, id⟩
  | case2 c tot outs hp he ih => exact ⟨ih.1, ih.2.1, fun _ => by simpa using hp⟩
  | case3 c => exact ⟨rfl, rfl, id⟩
  | case4 c => exact ⟨rfl, rfl, id⟩
  | case5 c => exact ⟨rfl, rfl, id⟩
  | case6 c => exact ⟨rfl, rfl, id⟩
  | case7 c tot hp he n under outs nw => exact ⟨(hsome c nw).1, (hsome c nw).2, fun _ => by simpa using hp⟩
  | case8 c tot hp he n under outs nw h0 hmax c₁ bs₁ failed hl ih =>
    rw [hl] at ih
    exact ⟨ih.1.trans (hsome c nw).1, ih.2.1.trans (hsome c nw).2, fun _ => by simpa using hp⟩

theorem replyWriteToClient_written {c c' : Client} {handlerInstalled : Bool} {outs : List WriteOutcome}
    (h : (replyWriteToClient c handlerInstalled outs).client = some c') : Written handlerInstalled outs c c' := by
  have hin := SameInput.replyWriteToClient h
  obtain ⟨hfd, hflag, hpend⟩ := replyWriteLoop_scheduling c 0 outs
  obtain ⟨c₁, sent, failed, hr⟩ : ∃ c₁ sent failed, replyWriteLoop c 0 outs = (c₁, sent, failed) := ⟨_, _, _, rfl⟩
  rw [hr] at hfd hflag hpend
  dsimp only at hfd hflag hpend
  unfold replyWriteToClient at h
  rw [hr] at h
  dsimp only at h
  have hdel : (replyWriteToClient c handlerInstalled outs).eventDel =
      (!failed && (handlerInstalled && !clientHasPendingReplies c₁)) := by
    unfold replyWriteToClient
    rw [hr]
    dsimp only
    cases failed <;> cases clientHasPendingReplies c₁ <;> simp
    split_ifs <;> rfl
  split_ifs at h with hfail hp hclose
  · obtain rfl := Option.some.inj h
    refine ⟨hin, hfd, hflag, hpend, ?_⟩
    rw [hdel]
    simp_all [clientHasPendingReplies]
  · obtain rfl := Option.some.inj h
    refine ⟨hin, hfd, hflag, hpend, ?_⟩
    rw [hdel]
    simp_all

end RhinoRox
