import RhinoRox.EventLoopRuns

/-!
# Turns of the event loop

`el_main` does the work before polling, dispatches what one poll reports, and then runs the timers. A
poll reports a descriptor as readable once. In this order a freed client stays in no list of work,
unless a write event was refused.
-/

namespace RhinoRox

namespace Loop
variable {σ : Type} {l l' : Loop σ} {id : ℕ} {c c' : Conn} {fds : List ℤ} {fd : ℤ}

/-! ## What leaves the lists of work alone -/

theorem elEventDel_lists (l : Loop σ) (fd : ℤ) (mask : EvMask) :
    (l.elEventDel fd mask).clientsToClose = l.clientsToClose ∧
      (l.elEventDel fd mask).clientsWithPendingWrites = l.clientsWithPendingWrites ∧
      (l.elEventDel fd mask).heap = l.heap := by
  unfold elEventDel
  split_ifs
  · exact ⟨rfl, rfl, rfl⟩
  · exact ⟨rfl, rfl, rfl⟩

theorem unlinkClient_lists (h : l.unlinkClient id fd = .ok l') :
    l'.clientsToClose = l.clientsToClose ∧ l'.clientsWithPendingWrites = l.clientsWithPendingWrites ∧
      l'.heap = l.heap := by
  unfold unlinkClient at h
  split_ifs at h
  · obtain rfl := Except.ok.inj h
    obtain ⟨hclose, hpending, hheap⟩ := elEventDel_lists (elEventDel { l with clients := l.clients.erase id } fd .read) fd .write
    obtain ⟨hclose', hpending', hheap'⟩ := elEventDel_lists { l with clients := l.clients.erase id } fd .read
    exact ⟨hclose.trans hclose', hpending.trans hpending', hheap.trans hheap'⟩
  · obtain rfl := Except.ok.inj h
    exact ⟨rfl, rfl, rfl⟩

theorem rrClientFree_lists (h : l.rrClientFree id = .ok l') :
    l'.clientsToClose = l.clientsToClose ∧ l'.clientsWithPendingWrites = l.clientsWithPendingWrites ∧
      l'.heap = Function.update l.heap id none := by
  obtain ⟨c, -, h⟩ := Exec.bind_eq_ok.mp h
  obtain ⟨l₁, hunlink, h⟩ := Exec.bind_eq_ok.mp h
  obtain ⟨hclose, hpending, hheap⟩ := unlinkClient_lists hunlink
  obtain rfl := Except.ok.inj h
  exact ⟨hclose, hpending, by rw [← hheap]⟩

theorem replyWriteCallback_lists {outs : List WriteOutcome} (h : l.replyWriteCallback id outs = .ok l') :
    l'.clientsToClose = l.clientsToClose ∧ l'.clientsWithPendingWrites = l.clientsWithPendingWrites := by
  obtain ⟨c, -, h⟩ := Exec.bind_eq_ok.mp h
  have hdel : ∀ l₁, l₁ = (if (replyWriteToClient c.client true outs).eventDel then l.elEventDel c.client.fd .write else l) →
      l₁.clientsToClose = l.clientsToClose ∧ l₁.clientsWithPendingWrites = l.clientsWithPendingWrites := by
    rintro l₁ rfl
    obtain ⟨hclose, hpending, -⟩ := elEventDel_lists l c.client.fd .write
    split_ifs
    · exact ⟨hclose, hpending⟩
    · exact ⟨rfl, rfl⟩
  obtain ⟨hclose, hpending⟩ := hdel _ rfl
  cases hclient : (replyWriteToClient c.client true outs).client with
  | none =>
    simp only [hclient] at h
    obtain ⟨hclose', hpending', -⟩ := rrClientFree_lists h
    exact ⟨hclose'.trans hclose, hpending'.trans hpending⟩
  | some client =>
    simp only [hclient] at h
    obtain rfl := Except.ok.inj h
    exact ⟨hclose, hpending⟩

theorem handleRead_close {exec : σ → List StrEnc → σ × List ReplyCall} {out : ReadOutcome}
    (h : l.handleRead exec id out = .ok l') : l'.clientsToClose = l.clientsToClose := by
  obtain ⟨c, -, h⟩ := Exec.bind_eq_ok.mp h
  obtain ⟨r, -, h⟩ := Exec.bind_eq_ok.mp h
  cases r with
  | none => exact (rrClientFree_lists h).1
  | some r =>
    obtain rfl := Except.ok.inj h
    dsimp only
    split_ifs
    · rfl
    · rfl

/-- A new client is in no list of work, and the others stay as they are. -/
theorem addClient_lists {epoll : Bool} (h : l.addClient fd epoll = .ok l') :
    l'.clientsToClose = l.clientsToClose ∧ l'.clientsWithPendingWrites = l.clientsWithPendingWrites ∧
      ∀ id < l.next, ∀ c, l'.heap id = some c → l.heap id = some c := by
  have hother : ∀ id < l.next, ∀ c new, Function.update l.heap l.next new id = some c → l.heap id = some c := by
    intro id hlt c new hc
    rwa [Function.update_of_ne hlt.ne] at hc
  unfold addClient at h
  split_ifs at h
  · obtain rfl := Except.ok.inj h
    exact ⟨rfl, rfl, fun _ _ _ hc => hc⟩
  · unfold elEventAdd at h
    dsimp only at h
    split_ifs at h
    · obtain rfl := Except.ok.inj h
      exact ⟨rfl, rfl, fun _ _ _ hc => hc⟩
    · obtain rfl := Except.ok.inj h
      exact ⟨rfl, rfl, fun _ _ _ hc => hc⟩
    · dsimp only at h
      split_ifs at h
      · obtain ⟨hclose, hpending, hheap⟩ := rrClientFree_lists h
        refine ⟨hclose, hpending, fun id hlt c hc => ?_⟩
        rw [hheap, Function.update_of_ne hlt.ne] at hc
        exact hother id hlt c _ hc
      · obtain rfl := Except.ok.inj h
        exact ⟨rfl, rfl, fun id hlt c hc => hother id hlt c _ hc⟩

/-- A write event that is not refused leaves nothing to close. -/
theorem writePending_close (h : l.Inv) (hc : l.heap id = some c) {outs : List WriteOutcome}
    (hrun : l.writePending id outs true = .ok l') : l'.clientsToClose = l.clientsToClose := by
  obtain ⟨c₁, hload, hrun⟩ := Exec.bind_eq_ok.mp hrun
  obtain rfl : c = c₁ := by
    simp only [load, hc, Exec.pure_eq] at hload
    exact Except.ok.inj hload
  cases hr : (replyWriteToClient { c.client with pendingWrite := false } false outs).client with
  | none =>
    simp only [hr] at hrun
    exact (rrClientFree_lists hrun).1
  | some client =>
    have hfd : client.fd = c.client.fd := (replyWriteToClient_written hr).fd
    have hlt : ¬ client.fd ≥ l.size := by
      have hsize := (h.conn id c hc).fd.2
      omega
    simp only [hr] at hrun
    split_ifs at hrun
    · unfold elEventAdd at hrun
      simp only [store, hlt, if_false, Bool.not_true, Bool.false_eq_true] at hrun
      obtain rfl := Except.ok.inj hrun
      rfl
    · obtain rfl := Except.ok.inj hrun
      rfl

/-- Nothing is queued for closing, and writes are pending for descriptors that this poll reported only. -/
structure Polled (l : Loop σ) (fds : List ℤ) : Prop where
  close : l.clientsToClose = []
  pending : ∀ id c, l.heap id = some c → id ∈ l.clientsWithPendingWrites → c.client.fd ∈ fds

theorem Polled.frees (h : l.Polled fds) (hf : Frees l l' id c) : l'.Polled fds where
  close := by
    rcases hf.close with hclose | hclose
    · rw [hclose, h.close]
    · rw [hclose, h.close, List.erase_nil]
  pending j d hj hmem := by
    have hne : j ≠ id := by
      rintro rfl
      rw [hf.heap, Function.update_self] at hj
      cases hj
    rw [hf.heap, Function.update_of_ne hne] at hj
    exact h.pending j d hj ((mem_of_erase hf.pending hne).mp hmem)

theorem Polled.touches (h : l.Polled fds) (ht : Touches l l' id c c') (hclose : l'.clientsToClose = l.clientsToClose)
    (hself : id ∈ l'.clientsWithPendingWrites → c.client.fd ∈ fds) : l'.Polled fds where
  close := hclose.trans h.close
  pending j d hj hmem := by
    by_cases hne : j = id
    · subst hne
      rw [ht.heap, Function.update_self] at hj
      obtain rfl := Option.some.inj hj
      rw [ht.fd]
      exact hself hmem
    · rw [ht.heap, Function.update_of_ne hne] at hj
      exact h.pending j d hj ((ht.pending j hne).mp hmem)

theorem Polled.mono {fds' : List ℤ} (h : l.Polled fds) (hsub : ∀ fd ∈ fds, fd ∈ fds') : l.Polled fds' :=
  ⟨h.close, fun id c hc hmem => hsub _ (h.pending id c hc hmem)⟩

/-! ## One poll -/

section Polls
variable (exec : σ → List StrEnc → σ × List ReplyCall)

theorem Polled.accept (h : l.Inv) (hp : l.Polled fds) {epoll : Bool} (hrun : l.addClient fd epoll = .ok l') :
    l'.Polled fds := by
  obtain ⟨hclose, hpending, hkept⟩ := addClient_lists hrun
  refine ⟨hclose.trans hp.close, fun id c hc hmem => ?_⟩
  rw [hpending] at hmem
  exact hp.pending id c (hkept id (h.pending_lt id hmem) c hc) hmem

/-- The write callback leaves the lists as they are. -/
theorem Polled.write (h : l.Inv) (hp : l.Polled fds) {rfired writable : Bool} {out : ReadOutcome} {outs : List WriteOutcome}
    (hrun : (if (l.events fd).write && writable then
        if !rfired || (l.events fd).writeCb ≠ (l.events fd).readCb then
          l.callback exec (l.events fd).writeCb (l.events fd).ud out outs else pure l
      else pure l : Exec (Loop σ)) = .ok l') : l'.Polled fds := by
  by_cases hw : ((l.events fd).write && writable) = true
  · obtain ⟨hwrite, -⟩ := Bool.and_eq_true_iff.mp hw
    obtain ⟨id, c, hc, rfl⟩ := h.events fd (.inr hwrite)
    have hinv := h.conn id c hc
    obtain ⟨-, hrcb, hud⟩ := hinv.reading
    rw [if_pos hw, (hinv.writing hwrite).1, hrcb, hud, if_pos (by simp)] at hrun
    obtain ⟨hclose, hpending⟩ := replyWriteCallback_lists hrun
    rcases replyWriteCallback_spec h hc hwrite outs with ⟨l₁, hrun₁, hf, -⟩ | ⟨l₁, c₁, hrun₁, ht, -⟩
    · obtain rfl := Except.ok.inj (hrun₁.symm.trans hrun)
      exact hp.frees hf
    · obtain rfl := Except.ok.inj (hrun₁.symm.trans hrun)
      exact hp.touches ht hclose fun hmem => hp.pending id c hc (hpending ▸ hmem)
  · rw [if_neg hw] at hrun
    obtain rfl := Except.ok.inj hrun
    exact hp

/-- What a reported descriptor does. Its client may get a pending write if it is read. -/
theorem Polled.fired (h : l.Inv) (hp : l.Polled fds) {readable writable : Bool} {out : ReadOutcome}
    {outs : List WriteOutcome} (hrun : l.fired exec fd readable writable out outs = .ok l') (hread : readable = true → fd ∈ fds) : l'.Polled fds := by
  by_cases hr : ((l.events fd).read && readable) = true
  · obtain ⟨hreads, hreadable⟩ := Bool.and_eq_true_iff.mp hr
    obtain ⟨id, c, hc, rfl⟩ := h.events fd (.inl hreads)
    have hinv := h.conn id c hc
    obtain ⟨-, hrcb, hud⟩ := hinv.reading
    have hcall : l.callback exec (l.events c.client.fd).readCb (l.events c.client.fd).ud out outs = l.handleRead exec id out := by
      rw [hrcb, hud]
      rfl
    simp only [Loop.fired, hr, if_true, hcall] at hrun
    obtain ⟨l₁, hrun₁, hrun⟩ := Exec.bind_eq_ok.mp hrun
    rcases handleRead_spec exec h hc out with ⟨-, l₂, hrun₂, hf, -⟩ | ⟨-, l₂, c₂, hrun₂, ht, hnew⟩
    · obtain rfl := Except.ok.inj (hrun₂.symm.trans hrun₁)
      exact (hp.frees hf).write exec (hf.inv h) hrun
    · obtain rfl := Except.ok.inj (hrun₂.symm.trans hrun₁)
      exact (hp.touches ht (handleRead_close hrun₂) fun _ => hread hreadable).write exec (ht.inv h hnew) hrun
  · simp only [Loop.fired, hr, Bool.false_eq_true, if_false, Exec.pure_eq, Exec.ok_bind] at hrun
    exact hp.write exec h hrun

/-- The client whose descriptor is read has no entry in the lists of work. -/
theorem Polled.meets (h : l.Inv) (hp : l.Polled fds) (readable writable : Bool) (out : ReadOutcome)
    (outs : List WriteOutcome) (hnew : readable = true → fd ∉ fds) : l.Meets (.event fd readable writable out outs) := by
  intro id c hread hreadable hud hc hends
  obtain ⟨j, d, hj, hfd⟩ := h.events fd (.inl hread)
  have hinv := h.conn j d hj
  have hid : j = id := by
    have hud' := hinv.reading.2.2
    rw [hfd, hud] at hud'
    exact (Option.some.inj hud').symm
  subst hid
  obtain rfl : d = c := Option.some.inj (hj.symm.trans hc)
  constructor
  · refine Bool.eq_false_iff.mpr fun hflag => hnew hreadable ?_
    rw [← hfd]
    exact hp.pending j d hj (hinv.flagged.mp hflag)
  · refine Bool.eq_false_iff.mpr fun hasap => ?_
    have hmem := hinv.closing.mp hasap
    rw [hp.close] at hmem
    cases hmem

end Polls

/-! ## Turns -/

/-- What `el_loop_poll` finds: a connection on a listening socket, or a descriptor of a client. -/
inductive Reported where
  | accept (fd : ℤ) (epoll : Bool)
  | event (fd : ℤ) (readable writable : Bool) (out : ReadOutcome) (outs : List WriteOutcome)

def Reported.op : Reported → Op
  | .accept fd epoll => .accept fd epoll
  | .event fd readable writable out outs => .event fd readable writable out outs

/-- The descriptor that is reported as readable. -/
def Reported.readFd : Reported → Option ℤ
  | .accept _ _ => none
  | .event fd readable _ _ _ => if readable then some fd else none

/-- One turn of `el_main`: the outcomes of the writes and of `epoll_ctl` before polling, what the poll
reports, where each descriptor is readable once, and whether the timer of `server_cron` is due. -/
structure Turn where
  outs : ℕ → List WriteOutcome
  epoll : ℕ → Bool
  reported : List Reported
  once : (reported.filterMap Reported.readFd).Nodup
  cron : Bool

def Turn.ops (t : Turn) : List Op :=
  .beforePolling t.outs t.epoll :: (t.reported.map Reported.op ++ if t.cron then [.cron] else [])

/-- `el_main`. -/
def elMain (turns : List Turn) : List Op := turns.flatMap Turn.ops

section Turns
variable (exec : σ → List StrEnc → σ × List ReplyCall)

/-- What holds between two turns. -/
structure Rested (l : Loop σ) : Prop where
  inv : l.Inv
  live : l.ListsLive
  close : l.clientsToClose = []

theorem StepsMeet.step (h : l.Inv) (hl : l.ListsLive) {op : Op} {ops : List Op} (hop : l.Meets op)
    (hrest : ∀ l', l.step exec op = .ok l' → l'.Inv → l'.ListsLive → l'.StepsMeet exec ops) :
    l.StepsMeet exec (op :: ops) := by
  refine ⟨hop, fun l' hstep => ?_⟩
  rcases step_spec exec h op with ⟨-, hdead⟩ | ⟨l₁, hstep₁, h₁, hlive⟩
  · exact absurd hl hdead
  · obtain rfl := Except.ok.inj (hstep₁.symm.trans hstep)
    exact hrest l₁ hstep h₁ (hlive hl hop)

/-- A write before polling takes its client out of the list. -/
theorem writePending_turn (h : l.Inv) (hl : l.ListsLive) {ids : List ℕ} (hids : l.clientsWithPendingWrites = id :: ids)
    (outs : List WriteOutcome) (epoll : Bool) :
    ∃ c l', l.heap id = some c ∧ l.writePending id outs epoll = .ok l' ∧ l'.Inv ∧ l'.ListsLive ∧
      l'.clientsWithPendingWrites = ids := by
  have hmem : id ∈ l.clientsWithPendingWrites := by
    rw [hids]
    exact List.mem_cons_self
  obtain ⟨c, hc⟩ := Option.isSome_iff_exists.mp (hl.1 id hmem)
  obtain ⟨l', hrun, hp, hcase⟩ := writePending_spec h hc hmem outs epoll
  have hout : id ∉ l'.clientsWithPendingWrites := by
    rw [hp]
    exact h.pending_nodup.not_mem_erase
  rw [hids, List.erase_cons_head] at hp
  rcases hcase with ⟨hf, hclose⟩ | ⟨c', ht, hnew⟩
  · exact ⟨c, l', hc, hrun, hf.inv h, (hf.listsLive_iff hl).mpr ⟨hout, hclose⟩, hp⟩
  · exact ⟨c, l', hc, hrun, ht.inv h hnew, ht.listsLive hl, hp⟩

theorem pendingWrites_polled (hl : l.Rested) {outs : ℕ → List WriteOutcome} {epoll : ℕ → Bool}
    (hepoll : ∀ id, epoll id = true) {ids : List ℕ} (hids : l.clientsWithPendingWrites = ids)
    (hrun : ids.foldlM (fun l id => l.writePending id (outs id) (epoll id)) l = .ok l') : l'.Polled [] := by
  induction ids generalizing l with
  | nil =>
    obtain rfl := Except.ok.inj hrun
    exact ⟨hl.close, fun id c _ hmem => absurd (hids ▸ hmem) List.not_mem_nil⟩
  | cons id ids ih =>
    obtain ⟨c, l₁, hc, hrun₁, h₁, hl₁, hids₁⟩ := writePending_turn hl.inv hl.live hids (outs id) (epoll id)
    have hclose : l₁.clientsToClose = l.clientsToClose := writePending_close hl.inv hc (hepoll id ▸ hrun₁)
    rw [List.foldlM_cons, hrun₁, Exec.ok_bind] at hrun
    exact ih ⟨h₁, hl₁, hclose.trans hl.close⟩ hids₁ hrun

/-- The events of one poll, of which each reads another descriptor. -/
theorem reported_meet (h : l.Inv) (hl : l.ListsLive) (hp : l.Polled fds) {rs : List Reported}
    (honce : (rs.filterMap Reported.readFd).Nodup) (hnew : ∀ fd ∈ rs.filterMap Reported.readFd, fd ∉ fds) {ops : List Op}
    (hrest : ∀ l' : Loop σ, l'.Rested → l'.StepsMeet exec ops) : l.StepsMeet exec (rs.map Reported.op ++ ops) := by
  induction rs generalizing l fds with
  | nil => exact hrest l ⟨h, hl, hp.close⟩
  | cons r rs ih =>
    cases r with
    | accept fd epoll =>
      exact StepsMeet.step exec h hl trivial fun l' hstep h' hl' => ih h' hl' (hp.accept h hstep) honce hnew
    | event fd readable writable out outs =>
      have hfresh : readable = true → fd ∉ fds := by
        rintro rfl
        exact hnew fd List.mem_cons_self
      refine StepsMeet.step exec h hl (hp.meets h readable writable out outs hfresh) fun l' hstep h' hl' => ?_
      cases readable with
      | false => exact ih h' hl' (hp.fired exec h hstep (by intro hf; cases hf)) honce hnew
      | true =>
        obtain ⟨hout, honce'⟩ := List.nodup_cons.mp honce
        have hp' := (hp.mono fun _ => List.mem_cons_of_mem fd).fired exec h hstep fun _ => List.mem_cons_self
        refine ih h' hl' hp' honce' fun fd' hmem => ?_
        rw [List.mem_cons, not_or]
        exact ⟨fun he => hout (he ▸ hmem), hnew fd' (List.mem_cons_of_mem fd hmem)⟩

theorem Turn.meet (hl : l.Rested) (t : Turn) (hepoll : ∀ id, t.epoll id = true) {ops : List Op}
    (hrest : ∀ l' : Loop σ, l'.Rested → l'.StepsMeet exec ops) : l.StepsMeet exec (t.ops ++ ops) := by
  rw [Turn.ops, List.cons_append, List.append_assoc]
  refine StepsMeet.step exec hl.inv hl.live trivial fun l₁ hstep h₁ hl₁ => ?_
  have hp : l₁.Polled [] := pendingWrites_polled hl hepoll rfl hstep
  refine reported_meet exec h₁ hl₁ hp t.once (fun _ _ => List.not_mem_nil) fun l₂ h₂ => ?_
  cases t.cron with
  | false => exact hrest l₂ h₂
  | true =>
    refine StepsMeet.step exec h₂.inv h₂.live trivial fun l₃ hstep₃ h₃ hl₃ => hrest l₃ ⟨h₃, hl₃, ?_⟩
    simp only [Loop.step, handleAsyncFreed, h₂.close, List.foldlM_nil] at hstep₃
    obtain rfl := Except.ok.inj hstep₃
    exact h₂.close

theorem elMain_meet (hl : l.Rested) {turns : List Turn} (hepoll : ∀ t ∈ turns, ∀ id, t.epoll id = true) :
    l.StepsMeet exec (elMain turns) := by
  induction turns generalizing l with
  | nil => exact trivial
  | cons t turns ih =>
    have hrest : ∀ l' : Loop σ, l'.Rested → l'.StepsMeet exec (elMain turns) := fun l' hl' =>
      ih hl' fun t' ht' => hepoll t' (List.mem_cons_of_mem t ht')
    exact t.meet exec hl (hepoll t List.mem_cons_self) hrest

/-- In the order of `el_main`, as long as no write event is refused, no step touches a freed client and
the lists of clients hold live clients only, whatever the clients do. -/
theorem el_main_lists_exact (size maxClients : ℕ) (s : σ) {turns : List Turn}
    (hepoll : ∀ t ∈ turns, ∀ id, t.epoll id = true) :
    (start size maxClients s).Always exec ListsExact (elMain turns) := by
  have hrested : (start size maxClients s).Rested := ⟨start_inv size maxClients s, start_listsLive size maxClients s, rfl⟩
  exact (always_listsExact_iff exec hrested.inv hrested.live _).mpr (elMain_meet exec hrested hepoll)

end Turns

/-- A client that sends a request, of which the reply stays unsent, and then goes away. -/
def unsentReply : List Turn :=
  [⟨fun _ => [], fun _ => true, [.accept 5 true], by decide, false⟩,
    ⟨fun _ => [], fun _ => true, [.event 5 true false (.data (ascii "PING\r\n")) []], by decide, false⟩,
    ⟨fun _ => [.again], fun _ => true, [.event 5 true true (.data []) []], by decide, true⟩]

theorem el_main_lists_exact_unsent : (start 1024 100 ()).Always pongHandler ListsExact (elMain unsentReply) :=
  el_main_lists_exact pongHandler 1024 100 () (by
    intro t ht id
    simp only [unsentReply, List.mem_cons, List.not_mem_nil, or_false] at ht
    obtain rfl | rfl | rfl := ht
    · rfl
    · rfl
    · rfl)

end Loop

end RhinoRox
