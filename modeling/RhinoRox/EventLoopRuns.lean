import RhinoRox.EventLoopInvariant

/-!
# Runs of the event loop

Over any order of steps and any outcomes of the system calls: which entries of the lists of
clients stay valid, and that no reply is left without something scheduled to send it.
-/

namespace RhinoRox

namespace Loop
variable {σ : Type} {l l' : Loop σ} {id : ℕ} {c : Conn}

/-- Going through a list of work, one client at a time: the execution ends at an entry whose
client was freed, or the list is empty afterwards. -/
theorem foldlM_spec {turn : Loop σ → ℕ → Exec (Loop σ)} (list : Loop σ → List ℕ)
    (hturn : ∀ l id ids, l.Inv → list l = id :: ids → (turn l id = .error .freedMemory ∧ ¬ l.ListsLive) ∨
      ∃ l', turn l id = .ok l' ∧ l'.Inv ∧ list l' = ids ∧ (l.ListsLive → l'.ListsLive))
    {ids : List ℕ} (h : l.Inv) (hids : list l = ids) :
    (ids.foldlM turn l = .error .freedMemory ∧ ¬ l.ListsLive) ∨
      ∃ l', ids.foldlM turn l = .ok l' ∧ l'.Inv ∧ list l' = [] ∧ (l.ListsLive → l'.ListsLive) := by
  induction ids generalizing l with
  | nil => exact .inr ⟨l, rfl, h, hids, id⟩
  | cons id ids ih =>
    rw [List.foldlM_cons]
    rcases hturn l id ids h hids with ⟨hr, hdead⟩ | ⟨l₁, hr, h₁, hids₁, hlive₁⟩
    · exact .inl ⟨by rw [hr]; rfl, hdead⟩
    · rw [hr, Exec.ok_bind]
      rcases ih h₁ hids₁ with ⟨hr', hdead⟩ | ⟨l', hr', h', hids', hlive'⟩
      · exact .inl ⟨hr', fun hl => hdead (hlive₁ hl)⟩
      · exact .inr ⟨l', hr', h', hids', fun hl => hlive' (hlive₁ hl)⟩

theorem handlePendingWrites_spec (h : l.Inv) (outs : ℕ → List WriteOutcome) (epoll : ℕ → Bool) :
    (l.handlePendingWrites outs epoll = .error .freedMemory ∧ ¬ l.ListsLive) ∨
      ∃ l', l.handlePendingWrites outs epoll = .ok l' ∧ l'.Inv ∧ l'.clientsWithPendingWrites = [] ∧
        (l.ListsLive → l'.ListsLive) := by
  refine foldlM_spec clientsWithPendingWrites ?_ h rfl
  intro l id ids h hids
  have hmem : id ∈ l.clientsWithPendingWrites := by
    rw [hids]
    exact List.mem_cons_self
  cases hc : l.heap id with
  | none =>
    refine .inl ⟨by simp [writePending, load, hc], fun hl => ?_⟩
    have hlive := hl.1 id hmem
    rw [hc] at hlive
    cases hlive
  | some c =>
    obtain ⟨l', hrun, hp, hcase⟩ := writePending_spec h hc hmem (outs id) (epoll id)
    have hrest : l'.clientsWithPendingWrites = ids := by
      rw [hp, hids]
      simp
    have hout : id ∉ l'.clientsWithPendingWrites := by
      rw [hp]
      exact h.pending_nodup.not_mem_erase
    refine .inr ⟨l', hrun, ?_⟩
    rcases hcase with ⟨hf, hclose⟩ | ⟨c', ht, hnew⟩
    · exact ⟨hf.inv h, hrest, fun hl => (hf.listsLive_iff hl).mpr ⟨hout, hclose⟩⟩
    · exact ⟨ht.inv h hnew, hrest, ht.listsLive⟩

theorem handleAsyncFreed_spec (h : l.Inv) :
    (l.handleAsyncFreed = .error .freedMemory ∧ ¬ l.ListsLive) ∨
      ∃ l', l.handleAsyncFreed = .ok l' ∧ l'.Inv ∧ l'.clientsToClose = [] ∧ (l.ListsLive → l'.ListsLive) := by
  refine foldlM_spec clientsToClose ?_ h rfl
  intro l id ids h hids
  have hmem : id ∈ l.clientsToClose := by
    rw [hids]
    exact List.mem_cons_self
  cases hc : l.heap id with
  | none =>
    refine .inl ⟨by simp [freeAsync, load, hc], fun hl => ?_⟩
    have hlive := hl.2 id hmem
    rw [hc] at hlive
    cases hlive
  | some c =>
    obtain ⟨l', hrun, hf, hcl, hout⟩ := freeAsync_spec h hc hmem
    have hrest : l'.clientsToClose = ids := by
      rw [hcl, hids]
      simp
    refine .inr ⟨l', hrun, hf.inv h, hrest, fun hl => (hf.listsLive_iff hl).mpr ⟨hout, ?_⟩⟩
    rw [hcl]
    exact h.close_nodup.not_mem_erase

/-- The part of the dispatch that looks at the write bit. -/
theorem fired_write_spec (exec : σ → List StrEnc → σ × List ReplyCall) (h : l.Inv) (fd : ℤ) (rfired writable : Bool)
    (out : ReadOutcome) (outs : List WriteOutcome) :
    ∃ l', (if (l.events fd).write && writable then
        if !rfired || (l.events fd).writeCb ≠ (l.events fd).readCb then
          l.callback exec (l.events fd).writeCb (l.events fd).ud out outs else pure l
      else pure l : Exec (Loop σ)) = .ok l' ∧ l'.Inv ∧ (l.ListsLive → l'.ListsLive) := by
  by_cases hw : ((l.events fd).write && writable) = true
  · obtain ⟨hwrite, -⟩ : (l.events fd).write = true ∧ writable = true := by simpa using hw
    obtain ⟨id, c, hc, rfl⟩ := h.events fd (.inr hwrite)
    have hinv := h.conn id c hc
    obtain ⟨-, hrcb, hud⟩ := hinv.reading
    have hwcb := (hinv.writing hwrite).1
    rw [if_pos hw, hwcb, hrcb, hud, if_pos (by simp)]
    rcases replyWriteCallback_spec h hc hwrite outs with ⟨l', hrun, hf, hout⟩ | ⟨l', c', hrun, ht, hnew⟩
    · exact ⟨l', hrun, hf.inv h, fun hl => (hf.listsLive_iff hl).mpr hout⟩
    · exact ⟨l', hrun, ht.inv h hnew, ht.listsLive⟩
  · rw [if_neg hw]
    exact ⟨l, rfl, h, id⟩

section Runs
variable (exec : σ → List StrEnc → σ × List ReplyCall)

/-- A read that ends a connection finds neither flag set. -/
def Meets (l : Loop σ) : Op → Prop
  | .event fd readable _ out _ => ∀ id c, (l.events fd).read = true → readable = true →
      (l.events fd).ud = some id → l.heap id = some c → readEnds c.client out = true →
        c.client.pendingWrite = false ∧ c.closeAsap = false
  | _ => True

/-- After a read that ended the connection nothing is left to dispatch. -/
theorem fired_ends (h : l.Inv) (hc : l.heap id = some c) {fd : ℤ} (hfd : c.client.fd = fd) (writable : Bool)
    {out : ReadOutcome} (outs : List WriteOutcome) (hends : readEnds c.client out = true) :
    ∃ l', l.fired exec fd true writable out outs = .ok l' ∧ Frees l l' id c ∧
      l'.clientsWithPendingWrites = l.clientsWithPendingWrites ∧ l'.clientsToClose = l.clientsToClose := by
  subst hfd
  obtain ⟨hread, hrcb, hud⟩ := (h.conn id c hc).reading
  rcases handleRead_spec exec h hc out with ⟨-, l', hrun, hf, hp, hcl⟩ | ⟨hno, -⟩
  · refine ⟨l', ?_, hf, hp, hcl⟩
    have hcall : l.callback exec (l.events c.client.fd).readCb (l.events c.client.fd).ud out outs = .ok l' := by
      rw [hrcb, hud]
      exact hrun
    simp only [fired, hread, Bool.true_and, if_true, hcall, Exec.ok_bind, hf.silent.2, Bool.false_and,
      Bool.false_eq_true, if_false, Exec.pure_eq]
  · rw [hends] at hno
    cases hno

theorem fired_spec (h : l.Inv) (fd : ℤ) (readable writable : Bool) (out : ReadOutcome) (outs : List WriteOutcome) :
    ∃ l', l.fired exec fd readable writable out outs = .ok l' ∧ l'.Inv ∧
      (l.ListsLive → l.Meets (.event fd readable writable out outs) → l'.ListsLive) := by
  by_cases hr : ((l.events fd).read && readable) = true
  · obtain ⟨hread, rfl⟩ : (l.events fd).read = true ∧ readable = true := by simpa using hr
    obtain ⟨id, c, hc, rfl⟩ := h.events fd (.inl hread)
    have hinv := h.conn id c hc
    obtain ⟨-, hrcb, hud⟩ := hinv.reading
    rcases handleRead_spec exec h hc out with ⟨hends, -⟩ | ⟨-, l₁, c₁, hrun, ht, hnew⟩
    · obtain ⟨l', hrun, hf, hp, hcl⟩ := fired_ends exec h hc rfl writable outs hends
      refine ⟨l', hrun, hf.inv h, fun hl hmeets => (hf.listsLive_iff hl).mpr ?_⟩
      obtain ⟨hflag, hasap⟩ := hmeets id c hread rfl hud hc hends
      rw [hp, hcl, ← hinv.flagged, ← hinv.closing, hflag, hasap]
      simp
    · obtain ⟨l', hw, h', hlive⟩ := fired_write_spec exec (ht.inv h hnew) c.client.fd true writable out outs
      refine ⟨l', ?_, h', fun hl _ => hlive (ht.listsLive hl)⟩
      have hcall : l.callback exec (l.events c.client.fd).readCb (l.events c.client.fd).ud out outs = .ok l₁ := by
        rw [hrcb, hud]
        exact hrun
      rw [← hw]
      simp only [fired, hread, Bool.true_and, if_true, hcall, Exec.ok_bind]
  · obtain ⟨l', hw, h', hlive⟩ := fired_write_spec exec h fd ((l.events fd).read && readable) writable out outs
    refine ⟨l', ?_, h', fun hl _ => hlive hl⟩
    rw [← hw]
    simp only [fired, hr, Bool.false_eq_true, if_false, Exec.pure_eq, Exec.ok_bind]

/-- Every step keeps the invariant, or touches a freed client that a list still holds. -/
theorem step_spec (h : l.Inv) (op : Op) :
    (l.step exec op = .error .freedMemory ∧ ¬ l.ListsLive) ∨
      ∃ l', l.step exec op = .ok l' ∧ l'.Inv ∧ (l.ListsLive → l.Meets op → l'.ListsLive) := by
  cases op with
  | accept fd epoll =>
    obtain ⟨l', hrun, h', hlive⟩ := addClient_spec h fd epoll
    exact .inr ⟨l', hrun, h', fun hl _ => hlive hl⟩
  | event fd readable writable out outs => exact .inr (fired_spec exec h fd readable writable out outs)
  | beforePolling outs epoll =>
    rcases handlePendingWrites_spec h outs epoll with hdead | ⟨l', hrun, h', -, hlive⟩
    · exact .inl hdead
    · exact .inr ⟨l', hrun, h', fun hl _ => hlive hl⟩
  | cron =>
    rcases handleAsyncFreed_spec h with hdead | ⟨l', hrun, h', -, hlive⟩
    · exact .inl hdead
    · exact .inr ⟨l', hrun, h', fun hl _ => hlive hl⟩

/-- A step that does not meet the condition leaves an entry for a freed client. -/
theorem not_listsLive_of_not_meets (h : l.Inv) (hl : l.ListsLive) {op : Op} (hop : ¬ l.Meets op)
    (hstep : l.step exec op = .ok l') : ¬ l'.ListsLive := by
  cases op with
  | accept fd epoll => exact absurd trivial hop
  | beforePolling outs epoll => exact absurd trivial hop
  | cron => exact absurd trivial hop
  | event fd readable writable out outs =>
    simp only [Meets, not_forall] at hop
    obtain ⟨id, c, hread, rfl, hud, hc, hends, hflags⟩ := hop
    obtain ⟨j, d, hj, hd⟩ := h.events fd (.inl hread)
    obtain rfl : j = id := by
      have hud' := (h.conn j d hj).reading.2.2
      rw [hd, hud] at hud'
      exact (Option.some.inj hud').symm
    obtain rfl : d = c := Option.some.inj (hj.symm.trans hc)
    have hinv := h.conn j d hj
    obtain ⟨l₁, hrun, hf, hp, hcl⟩ := fired_ends exec h hc hd writable outs hends
    obtain rfl : l₁ = l' := Except.ok.inj (hrun.symm.trans hstep)
    rw [hf.listsLive_iff hl, hp, hcl, ← hinv.flagged, ← hinv.closing]
    simpa using hflags

/-- The condition at every step of a run. -/
def StepsMeet (l : Loop σ) : List Op → Prop
  | [] => True
  | op :: ops => l.Meets op ∧ ∀ l', l.step exec op = .ok l' → StepsMeet l' ops

/-- Every step of a run completes, and the property holds in every state. -/
def Always (P : Loop σ → Prop) (l : Loop σ) : List Op → Prop
  | [] => P l
  | op :: ops => P l ∧ ∃ l', l.step exec op = .ok l' ∧ Always P l' ops

/-- The three lists hold clients that are not freed, each at most once. -/
structure ListsExact (l : Loop σ) : Prop where
  clients : ∀ id ∈ l.clients, (l.heap id).isSome
  pending : ∀ id ∈ l.clientsWithPendingWrites, (l.heap id).isSome
  close : ∀ id ∈ l.clientsToClose, (l.heap id).isSome
  clients_nodup : l.clients.Nodup
  pending_nodup : l.clientsWithPendingWrites.Nodup
  close_nodup : l.clientsToClose.Nodup

theorem Inv.listsExact (h : l.Inv) (hl : l.ListsLive) : l.ListsExact :=
  ⟨h.clients_live, hl.1, hl.2, h.clients_nodup, h.pending_nodup, h.close_nodup⟩

theorem always_listsExact_iff (h : l.Inv) (hl : l.ListsLive) (ops : List Op) :
    l.Always exec ListsExact ops ↔ l.StepsMeet exec ops := by
  induction ops generalizing l with
  | nil => exact ⟨fun _ => trivial, fun _ => h.listsExact hl⟩
  | cons op ops ih =>
    rcases step_spec exec h op with ⟨-, hdead⟩ | ⟨l₁, hstep, h₁, hlive⟩
    · exact absurd hl hdead
    constructor
    · rintro ⟨-, l', hstep', hrest⟩
      obtain rfl : l₁ = l' := Except.ok.inj (hstep.symm.trans hstep')
      have hl₁ : l₁.ListsLive := by
        cases ops with
        | nil => exact ⟨hrest.pending, hrest.close⟩
        | cons op' ops => exact ⟨hrest.1.pending, hrest.1.close⟩
      refine ⟨by_contra fun hop => not_listsLive_of_not_meets exec h hl hop hstep hl₁, fun l' hl' => ?_⟩
      obtain rfl : l₁ = l' := Except.ok.inj (hstep.symm.trans hl')
      exact (ih h₁ hl₁).mp hrest
    · rintro ⟨hop, hrest⟩
      exact ⟨h.listsExact hl, l₁, hstep, (ih h₁ (hlive hl hop)).mpr (hrest l₁ hstep)⟩

/-- In a run of the loop in any order of steps, no freed client is touched and the lists hold
only live clients, exactly when no read ends a connection whose client is in one of the lists
of work. -/
theorem client_lists_exact_iff (size maxClients : ℕ) (s : σ) (ops : List Op) :
    (start size maxClients s).Always exec ListsExact ops ↔ (start size maxClients s).StepsMeet exec ops :=
  always_listsExact_iff exec (start_inv size maxClients s) (start_listsLive size maxClients s) ops

theorem run_inv (h : l.Inv) (ops : List Op) :
    l.run exec ops = .error .freedMemory ∨ ∃ l', l.run exec ops = .ok l' ∧ l'.Inv := by
  induction ops generalizing l with
  | nil => exact .inr ⟨l, rfl, h⟩
  | cons op ops ih =>
    rw [run]
    rcases step_spec exec h op with ⟨hstep, -⟩ | ⟨l₁, hstep, h₁, -⟩
    · exact .inl (by rw [hstep]; rfl)
    · rw [hstep, Exec.ok_bind]
      exact ih h₁

/-- A client is in the list of pending writes exactly when its flag is set. -/
def FlagsListed (l : Loop σ) : Prop :=
  ∀ id c, l.heap id = some c → (c.client.pendingWrite = true ↔ id ∈ l.clientsWithPendingWrites)

/-- A client with replies to send has the write callback registered, or is going to be closed. -/
def RepliesScheduled (l : Loop σ) : Prop :=
  ∀ id c, l.heap id = some c → clientHasPendingReplies c.client = true →
    ((l.events c.client.fd).write = true ∧ (l.events c.client.fd).writeCb = some .replyWriteCallback ∧
      (l.events c.client.fd).ud = some id) ∨
    (c.closeAsap = true ∧ id ∈ l.clientsToClose)

/-- In a run of the loop, up to the first touch of a freed client, the flags and the list of
pending writes agree, and when the loop polls something is scheduled for every client with
replies to send. -/
theorem replies_always_scheduled (size maxClients : ℕ) (s : σ) (ops : List Op) :
    (start size maxClients s).run exec ops = .error .freedMemory ∨
    ∃ l, (start size maxClients s).run exec ops = .ok l ∧ l.FlagsListed ∧
      ∀ outs epoll, l.step exec (.beforePolling outs epoll) = .error .freedMemory ∨
        ∃ l', l.step exec (.beforePolling outs epoll) = .ok l' ∧ l'.RepliesScheduled := by
  rcases run_inv exec (start_inv size maxClients s) ops with hdead | ⟨l, hrun, h⟩
  · exact .inl hdead
  refine .inr ⟨l, hrun, fun id c hc => (h.conn id c hc).flagged, fun outs epoll => ?_⟩
  rcases handlePendingWrites_spec h outs epoll with ⟨hdead, -⟩ | ⟨l', hstep, h', hempty, -⟩
  · exact .inl hdead
  refine .inr ⟨l', hstep, fun id c hc hp => ?_⟩
  have hinv := h'.conn id c hc
  rcases hinv.scheduled hp with hflag | hwrite | hasap
  · have hmem := hinv.flagged.mp hflag
    rw [hempty] at hmem
    cases hmem
  · exact .inl ⟨hwrite, (hinv.writing hwrite).1, hinv.reading.2.2⟩
  · exact .inr ⟨hasap, hinv.closing.mp hasap⟩

theorem Always.run {P : Loop σ → Prop} {ops : List Op} (h : l.Always exec P ops) :
    ∃ l', l.run exec ops = .ok l' ∧ P l' := by
  induction ops generalizing l with
  | nil => exact ⟨l, rfl, h⟩
  | cons op ops ih =>
    obtain ⟨-, l₁, hstep, hrest⟩ := h
    obtain ⟨l', hrun, hP⟩ := ih hrest
    exact ⟨l', by rw [Loop.run, hstep, Exec.ok_bind, hrun], hP⟩

end Runs

/-- A command without state that replies with PONG. -/
def pongHandler (s : Unit) (_ : List StrEnc) : Unit × List ReplyCall := (s, [.obj Shared.pong])

/-- A reply that cannot be sent at once, a failed `epoll_ctl` and then the end of the stream. -/
def lostClient : List Op :=
  [.accept 5 true, .event 5 true false (.data (ascii "PING\r\n")) [], .beforePolling (fun _ => [.again]) (fun _ => false),
    .event 5 true false (.data []) []]

/-- The list of clients to close keeps the freed client, and `server_cron` touches it. -/
theorem client_lists_lost_client :
    ¬ (start 1024 100 ()).Always pongHandler ListsExact lostClient ∧
      (start 1024 100 ()).run pongHandler (lostClient ++ [.cron]) = .error .freedMemory := by
  constructor
  · intro h
    obtain ⟨l, hrun, hexact⟩ := Always.run pongHandler h
    have hlost : (match (start 1024 100 ()).run pongHandler lostClient with
        | .ok l => l.clientsToClose.all fun id => (l.heap id).isSome
        | .error _ => true) = false := by decide +kernel
    rw [hrun] at hlost
    have hall : (l.clientsToClose.all fun id => (l.heap id).isSome) = true := by
      rw [List.all_eq_true]
      exact hexact.close
    cases hall.symm.trans hlost
  · have hfault : (match (start 1024 100 ()).run pongHandler (lostClient ++ [.cron]) with
        | .ok _ => false
        | .error e => e = .freedMemory) = true := by decide +kernel
    cases hrun : (start 1024 100 ()).run pongHandler (lostClient ++ [.cron]) with
    | ok l =>
      rw [hrun] at hfault
      cases hfault
    | error e =>
      rw [hrun] at hfault
      rw [of_decide_eq_true hfault]

end Loop

end RhinoRox
