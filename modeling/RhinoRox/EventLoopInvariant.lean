import RhinoRox.EventLoop
import RhinoRox.ClientScheduling

/-!
# The invariant of the event loop

Every live client with replies to send is in the list of pending writes, has the write
callback registered or waits to be closed. A client is freed by `rr_client_free` alone, which
takes it out of `server.clients` only: an entry of the other two lists outlives its client when
a read ends it while its flag for one of them is set.
-/

namespace RhinoRox

/-- What holds of a live client at address `id`. -/
structure ConnInv {σ : Type} (l : Loop σ) (id : ℕ) (c : Conn) : Prop where
  lt : id < l.next
  listed : id ∈ l.clients
  fd : 0 ≤ c.client.fd ∧ c.client.fd < l.size
  idle : c.client.IdleInv
  reading : (l.events c.client.fd).read = true ∧ (l.events c.client.fd).readCb = some .handleReadFromClient ∧
    (l.events c.client.fd).ud = some id
  writing : (l.events c.client.fd).write = true → (l.events c.client.fd).writeCb = some .replyWriteCallback ∧
    clientHasPendingReplies c.client = true ∧ c.client.pendingWrite = false ∧ c.closeAsap = false
  flagged : c.client.pendingWrite = true ↔ id ∈ l.clientsWithPendingWrites
  closing : c.closeAsap = true ↔ id ∈ l.clientsToClose
  waiting : c.closeAsap = true → clientHasPendingReplies c.client = true ∧ c.client.pendingWrite = false
  scheduled : clientHasPendingReplies c.client = true →
    c.client.pendingWrite = true ∨ (l.events c.client.fd).write = true ∨ c.closeAsap = true

theorem ConnInv.of_other {σ : Type} {l l' : Loop σ} {id : ℕ} {c : Conn} (h : ConnInv l id c) (hnext : l.next ≤ l'.next) (hlisted : id ∈ l'.clients)
    (hsize : l'.size = l.size) (hevents : l'.events c.client.fd = l.events c.client.fd)
    (hpending : id ∈ l'.clientsWithPendingWrites ↔ id ∈ l.clientsWithPendingWrites)
    (hclose : id ∈ l'.clientsToClose ↔ id ∈ l.clientsToClose) : ConnInv l' id c := by
  refine ⟨h.lt.trans_le hnext, hlisted, by rw [hsize]; exact h.fd, h.idle, ?_, ?_, h.flagged.trans hpending.symm,
    h.closing.trans hclose.symm, h.waiting, ?_⟩
  · rw [hevents]
    exact h.reading
  · rw [hevents]
    exact h.writing
  · rw [hevents]
    exact h.scheduled

namespace Loop
variable {σ : Type}

/-- The invariant of the loop. It says nothing about entries of the two lists of work whose
client was freed. -/
structure Inv (l : Loop σ) : Prop where
  conn : ∀ id c, l.heap id = some c → ConnInv l id c
  fds : ∀ i j c d, l.heap i = some c → l.heap j = some d → c.client.fd = d.client.fd → i = j
  clients_live : ∀ id ∈ l.clients, (l.heap id).isSome
  clients_nodup : l.clients.Nodup
  pending_nodup : l.clientsWithPendingWrites.Nodup
  close_nodup : l.clientsToClose.Nodup
  pending_lt : ∀ id ∈ l.clientsWithPendingWrites, id < l.next
  close_lt : ∀ id ∈ l.clientsToClose, id < l.next
  events : ∀ fd, (l.events fd).read = true ∨ (l.events fd).write = true → ∃ id c, l.heap id = some c ∧ c.client.fd = fd

/-- No entry of the lists of work refers to a freed client. -/
def ListsLive (l : Loop σ) : Prop :=
  (∀ id ∈ l.clientsWithPendingWrites, (l.heap id).isSome) ∧ ∀ id ∈ l.clientsToClose, (l.heap id).isSome

theorem start_inv (size maxClients : ℕ) (s : σ) : (start size maxClients s).Inv := by
  constructor <;> simp [start]

theorem start_listsLive (size maxClients : ℕ) (s : σ) : (start size maxClients s).ListsLive := by
  constructor <;> simp [start]

variable {l l' : Loop σ} {id : ℕ} {c c' : Conn}

/-- A step that changes one client, its events and its places in the lists of work. -/
structure Touches (l l' : Loop σ) (id : ℕ) (c c' : Conn) : Prop where
  old : l.heap id = some c
  heap : l'.heap = Function.update l.heap id (some c')
  fd : c'.client.fd = c.client.fd
  clients : l'.clients = l.clients
  next : l'.next = l.next
  size : l'.size = l.size
  events : ∀ fd, fd ≠ c.client.fd → l'.events fd = l.events fd
  pending : ∀ j, j ≠ id → (j ∈ l'.clientsWithPendingWrites ↔ j ∈ l.clientsWithPendingWrites)
  close : ∀ j, j ≠ id → (j ∈ l'.clientsToClose ↔ j ∈ l.clientsToClose)
  pending_nodup : l'.clientsWithPendingWrites.Nodup
  close_nodup : l'.clientsToClose.Nodup

theorem Touches.inv (ht : Touches l l' id c c') (h : l.Inv) (hnew : ConnInv l' id c') : l'.Inv := by
  have hlook : ∀ j d, l'.heap j = some d → j ≠ id → l.heap j = some d := by
    intro j d hj hne
    rwa [ht.heap, Function.update_of_ne hne] at hj
  have hself : ∀ d, l'.heap id = some d → d = c' := by
    intro d hd
    rw [ht.heap, Function.update_self] at hd
    exact (Option.some.inj hd).symm
  have hother : ∀ j d, l.heap j = some d → j ≠ id → d.client.fd ≠ c.client.fd := by
    intro j d hj hne he
    exact hne (h.fds j id d c hj ht.old he)
  have hlive : ∀ j, (l.heap j).isSome → (l'.heap j).isSome := by
    intro j hj
    rw [ht.heap]
    by_cases hne : j = id
    · rw [hne, Function.update_self]
      rfl
    · rwa [Function.update_of_ne hne]
  refine ⟨?_, ?_, ?_, by rw [ht.clients]; exact h.clients_nodup, ht.pending_nodup, ht.close_nodup, ?_, ?_, ?_⟩
  · intro j d hj
    by_cases hne : j = id
    · subst hne
      rw [hself d hj]
      exact hnew
    · have hj' := hlook j d hj hne
      exact (h.conn j d hj').of_other (by rw [ht.next]) (by rw [ht.clients]; exact (h.conn j d hj').listed) ht.size
        (ht.events _ (hother j d hj' hne)) (ht.pending j hne) (ht.close j hne)
  · intro i j d e hi hj he
    by_cases hi' : i = id
    · by_cases hj' : j = id
      · rw [hi', hj']
      · subst hi'
        rw [hself d hi, ht.fd] at he
        exact absurd he.symm (hother j e (hlook j e hj hj') hj')
    · by_cases hj' : j = id
      · subst hj'
        rw [hself e hj, ht.fd] at he
        exact absurd he (hother i d (hlook i d hi hi') hi')
      · exact h.fds i j d e (hlook i d hi hi') (hlook j e hj hj') he
  · rw [ht.clients]
    exact fun j hj => hlive j (h.clients_live j hj)
  · intro j hj
    by_cases hne : j = id
    · rw [hne]
      exact hnew.lt
    · rw [ht.next]
      exact h.pending_lt j ((ht.pending j hne).mp hj)
  · intro j hj
    by_cases hne : j = id
    · rw [hne]
      exact hnew.lt
    · rw [ht.next]
      exact h.close_lt j ((ht.close j hne).mp hj)
  · intro fd hfd
    by_cases hne : fd = c.client.fd
    · exact ⟨id, c', by rw [ht.heap, Function.update_self], ht.fd.trans hne.symm⟩
    · rw [ht.events fd hne] at hfd
      obtain ⟨j, d, hj, hd⟩ := h.events fd hfd
      have hji : j ≠ id := by
        rintro rfl
        rw [ht.old] at hj
        obtain rfl := Option.some.inj hj
        exact hne hd.symm
      exact ⟨j, d, by rw [ht.heap, Function.update_of_ne hji, hj], hd⟩

theorem Touches.listsLive (ht : Touches l l' id c c') (h : l.ListsLive) : l'.ListsLive := by
  have hlive : ∀ j, j = id ∨ (l.heap j).isSome → (l'.heap j).isSome := by
    intro j hj
    rw [ht.heap]
    by_cases hne : j = id
    · rw [hne, Function.update_self]
      rfl
    · rw [Function.update_of_ne hne]
      exact hj.resolve_left hne
  constructor
  · intro j hj
    refine hlive j ?_
    by_cases hne : j = id
    · exact .inl hne
    · exact .inr (h.1 j ((ht.pending j hne).mp hj))
  · intro j hj
    refine hlive j ?_
    by_cases hne : j = id
    · exact .inl hne
    · exact .inr (h.2 j ((ht.close j hne).mp hj))

/-- A step that frees one client. -/
structure Frees (l l' : Loop σ) (id : ℕ) (c : Conn) : Prop where
  old : l.heap id = some c
  heap : l'.heap = Function.update l.heap id none
  clients : l'.clients = l.clients.erase id
  next : l'.next = l.next
  size : l'.size = l.size
  events : ∀ fd, fd ≠ c.client.fd → l'.events fd = l.events fd
  silent : (l'.events c.client.fd).read = false ∧ (l'.events c.client.fd).write = false
  pending : l'.clientsWithPendingWrites = l.clientsWithPendingWrites ∨
    l'.clientsWithPendingWrites = l.clientsWithPendingWrites.erase id
  close : l'.clientsToClose = l.clientsToClose ∨ l'.clientsToClose = l.clientsToClose.erase id

/-- Taking an entry out, or not, changes nothing for the other entries. -/
theorem mem_of_erase {xs ys : List ℕ} {id j : ℕ} (h : ys = xs ∨ ys = xs.erase id) (hne : j ≠ id) :
    j ∈ ys ↔ j ∈ xs := by
  rcases h with rfl | rfl
  · exact Iff.rfl
  · exact List.mem_erase_of_ne hne

theorem mem_of_mem_erase {xs ys : List ℕ} {id j : ℕ} (h : ys = xs ∨ ys = xs.erase id) (hj : j ∈ ys) : j ∈ xs := by
  rcases h with rfl | rfl
  · exact hj
  · exact List.mem_of_mem_erase hj

theorem nodup_of_erase {xs ys : List ℕ} {id : ℕ} (h : ys = xs ∨ ys = xs.erase id) (hx : xs.Nodup) : ys.Nodup := by
  rcases h with rfl | rfl
  · exact hx
  · exact hx.erase id

theorem Frees.inv (hf : Frees l l' id c) (h : l.Inv) : l'.Inv := by
  have hlook : ∀ j d, l'.heap j = some d → j ≠ id ∧ l.heap j = some d := by
    intro j d hj
    rw [hf.heap] at hj
    by_cases hne : j = id
    · rw [hne, Function.update_self] at hj
      cases hj
    · rw [Function.update_of_ne hne] at hj
      exact ⟨hne, hj⟩
  have hother : ∀ j d, l.heap j = some d → j ≠ id → d.client.fd ≠ c.client.fd := by
    intro j d hj hne he
    exact hne (h.fds j id d c hj hf.old he)
  refine ⟨?_, ?_, ?_, ?_, nodup_of_erase hf.pending h.pending_nodup, nodup_of_erase hf.close h.close_nodup, ?_, ?_, ?_⟩
  · intro j d hj
    obtain ⟨hne, hj'⟩ := hlook j d hj
    have hinv := h.conn j d hj'
    refine hinv.of_other (by rw [hf.next]) ?_ hf.size (hf.events _ (hother j d hj' hne)) (mem_of_erase hf.pending hne)
      (mem_of_erase hf.close hne)
    rw [hf.clients]
    exact (List.mem_erase_of_ne hne).mpr hinv.listed
  · intro i j d e hi hj he
    exact h.fds i j d e (hlook i d hi).2 (hlook j e hj).2 he
  · intro j hj
    rw [hf.clients] at hj
    have hne : j ≠ id := fun he => by
      rw [he] at hj
      exact h.clients_nodup.not_mem_erase hj
    rw [hf.heap, Function.update_of_ne hne]
    exact h.clients_live j (List.mem_of_mem_erase hj)
  · rw [hf.clients]
    exact h.clients_nodup.erase id
  · intro j hj
    rw [hf.next]
    exact h.pending_lt j (mem_of_mem_erase hf.pending hj)
  · intro j hj
    rw [hf.next]
    exact h.close_lt j (mem_of_mem_erase hf.close hj)
  · intro fd hfd
    by_cases hne : fd = c.client.fd
    · rw [hne, hf.silent.1, hf.silent.2] at hfd
      simp at hfd
    · rw [hf.events fd hne] at hfd
      obtain ⟨j, d, hj, hd⟩ := h.events fd hfd
      have hji : j ≠ id := by
        rintro rfl
        rw [hf.old] at hj
        obtain rfl := Option.some.inj hj
        exact hne hd.symm
      exact ⟨j, d, by rw [hf.heap, Function.update_of_ne hji, hj], hd⟩

/-- The lists stay live exactly when they do not hold the freed client any more. -/
theorem Frees.listsLive_iff (hf : Frees l l' id c) (h : l.ListsLive) :
    l'.ListsLive ↔ id ∉ l'.clientsWithPendingWrites ∧ id ∉ l'.clientsToClose := by
  have hdead : ¬ (l'.heap id).isSome := by
    rw [hf.heap, Function.update_self]
    simp
  have hlive : ∀ j, j ≠ id → (l.heap j).isSome → (l'.heap j).isSome := by
    intro j hne hj
    rwa [hf.heap, Function.update_of_ne hne]
  constructor
  · exact fun hl => ⟨fun hm => hdead (hl.1 id hm), fun hm => hdead (hl.2 id hm)⟩
  · rintro ⟨h₁, h₂⟩
    refine ⟨fun j hj => ?_, fun j hj => ?_⟩
    · exact hlive j (fun he => h₁ (he ▸ hj)) (h.1 j (mem_of_mem_erase hf.pending hj))
    · exact hlive j (fun he => h₂ (he ▸ hj)) (h.2 j (mem_of_mem_erase hf.close hj))

/-- What `rr_client_free` leaves of a client that the server still lists. -/
def freed (l : Loop σ) (id : ℕ) (fd : ℤ) : Loop σ :=
  { l with
    clients := l.clients.erase id
    events := Function.update l.events fd { l.events fd with read := false, write := false }
    heap := Function.update l.heap id none }

theorem rrClientFree_eq (hheap : l.heap id = some c) (hlisted : id ∈ l.clients)
    (hfd : 0 ≤ c.client.fd ∧ c.client.fd < l.size) : l.rrClientFree id = .ok (l.freed id c.client.fd) := by
  have h₁ : c.client.fd ≠ -1 := by omega
  have h₂ : ¬ c.client.fd ≥ l.size := by omega
  simp only [rrClientFree, load, hheap, Exec.pure_eq, Exec.ok_bind, unlinkClient, h₁, ne_eq, not_false_eq_true,
    if_true, hlisted, elEventDel, setEvent, h₂, if_false, Event.del, Function.update_self, Function.update_idem,
    freed]

/-! ## The steps -/

theorem frees_rrClientFree (h : l.Inv) (hheap : l.heap id = some c) :
    ∃ l', l.rrClientFree id = .ok l' ∧ Frees l l' id c ∧
      l'.clientsWithPendingWrites = l.clientsWithPendingWrites ∧ l'.clientsToClose = l.clientsToClose := by
  have hinv := h.conn id c hheap
  refine ⟨_, rrClientFree_eq hheap hinv.listed hinv.fd, ⟨hheap, rfl, rfl, rfl, rfl, ?_, ?_, .inl rfl, .inl rfl⟩, rfl, rfl⟩
  · exact fun fd hne => Function.update_of_ne hne _ _
  · simp [freed]

section Read
variable (exec : σ → List StrEnc → σ × List ReplyCall)

/-- Whether a read ends the connection. -/
def readEnds (c : Client) : ReadOutcome → Bool
  | .again => false
  | .fail => true
  | .data bs => bs.length = 0 || (received c bs).query.length > protoQueryMaxLen

theorem handleReadFromClient_ends (s : σ) {client : Client} (h : client.IdleInv) (out : ReadOutcome) :
    (readEnds client out = true ∧ handleReadFromClient (cmdProcess exec) s client out = .ok none) ∨
    (readEnds client out = false ∧ ∃ s' client', handleReadFromClient (cmdProcess exec) s client out =
        .ok (some (s', client')) ∧ client'.IdleInv ∧ Queued client client') := by
  obtain ⟨r, hr, hidle⟩ := handleReadFromClient_spec exec s h out
  have hends : readEnds client out = true ↔ r = none := by
    cases out with
    | again =>
      cases hr
      simp [readEnds]
    | fail =>
      cases hr
      simp [readEnds]
    | data bs =>
      rw [handleReadFromClient] at hr
      simp only [readEnds, Bool.or_eq_true, decide_eq_true_eq]
      split_ifs at hr with h0 hl
      · cases hr
        simp [h0]
      · cases hr
        simp [hl]
      · obtain ⟨p, -, hp⟩ := Exec.bind_eq_ok.mp hr
        cases hp
        simp [h0, hl]
  cases r with
  | none => exact .inl ⟨hends.mpr rfl, hr⟩
  | some p =>
    obtain ⟨s', client'⟩ := p
    refine .inr ⟨?_, s', client', hr, hidle s' client' rfl, handleReadFromClient_queued _ hr⟩
    cases he : readEnds client out with
    | false => rfl
    | true => cases hends.mp he

/-- The read callback frees its client or puts it into the list of pending writes. -/
theorem handleRead_spec (h : l.Inv) (hheap : l.heap id = some c) (out : ReadOutcome) :
    (readEnds c.client out = true ∧ ∃ l', l.handleRead exec id out = .ok l' ∧ Frees l l' id c ∧
      l'.clientsWithPendingWrites = l.clientsWithPendingWrites ∧ l'.clientsToClose = l.clientsToClose) ∨
    (readEnds c.client out = false ∧ ∃ l' c', l.handleRead exec id out = .ok l' ∧ Touches l l' id c c' ∧
      ConnInv l' id c') := by
  have hinv := h.conn id c hheap
  rcases handleReadFromClient_ends exec l.state hinv.idle out with
    ⟨hends, hr⟩ | ⟨hends, s', client', hr, hidle, hq⟩
  · obtain ⟨l', hfree, hf, hp, hcl⟩ := frees_rrClientFree h hheap
    refine .inl ⟨hends, l', ?_, hf, hp, hcl⟩
    simp only [handleRead, load, hheap, Exec.pure_eq, Exec.ok_bind, hr]
    exact hfree
  · have hnotin : c.client.pendingWrite = false → id ∉ l.clientsWithPendingWrites := by
      intro hflag hm
      rw [hinv.flagged.mpr hm] at hflag
      cases hflag
    -- the flag does not appear on a client that has output pending
    have hkeep : clientHasPendingReplies c.client = true → c.client.pendingWrite = false → client'.pendingWrite = false := by
      intro hp hflag
      cases hflag' : client'.pendingWrite with
      | false => rfl
      | true =>
        rcases hq.first hflag' with hf | hn
        · rw [hf] at hflag
          cases hflag
        · rw [hn] at hp
          cases hp
    refine .inr ⟨hends, { l with
        heap := Function.update l.heap id (some { c with client := client' })
        state := s'
        clientsWithPendingWrites := if client'.pendingWrite && !c.client.pendingWrite then
          id :: l.clientsWithPendingWrites else l.clientsWithPendingWrites },
      { c with client := client' }, ?_, ?_, ?_⟩
    · simp only [handleRead, load, hheap, Exec.pure_eq, Exec.ok_bind, hr, store]
      split_ifs <;> rfl
    · refine ⟨hheap, rfl, hq.fd, rfl, rfl, rfl, fun _ _ => rfl, ?_, fun _ _ => Iff.rfl, ?_, h.close_nodup⟩
      · intro j hne
        dsimp only
        split_ifs <;> simp [hne]
      · dsimp only
        split_ifs with hadd
        · exact List.nodup_cons.mpr ⟨hnotin (by simp_all), h.pending_nodup⟩
        · exact h.pending_nodup
    · refine ⟨hinv.lt, hinv.listed, by rw [hq.fd]; exact hinv.fd, hidle, ?_, ?_, ?_, hinv.closing, ?_, ?_⟩
      · rw [hq.fd]
        exact hinv.reading
      · rw [hq.fd]
        intro hw
        obtain ⟨hcb, hp, hflag, hasap⟩ := hinv.writing hw
        exact ⟨hcb, hq.pending hp, hkeep hp hflag, hasap⟩
      · dsimp only
        cases hflag : c.client.pendingWrite with
        | true => simp [hq.flag hflag, hinv.flagged.mp hflag]
        | false => cases hflag' : client'.pendingWrite <;> simp [hnotin hflag]
      · intro hasap
        obtain ⟨hp, hflag⟩ := hinv.waiting hasap
        exact ⟨hq.pending hp, hkeep hp hflag⟩
      · rw [hq.fd]
        intro hp
        rcases hq.scheduled hp with hp | hf
        · rcases hinv.scheduled hp with hf | hw
          · exact .inl (hq.flag hf)
          · exact .inr hw
        · exact .inl hf

end Read

/-- The write callback is called for a client that has output pending, and frees it or takes
the event away once nothing is left. -/
theorem replyWriteCallback_spec (h : l.Inv) (hheap : l.heap id = some c)
    (hwrite : (l.events c.client.fd).write = true) (outs : List WriteOutcome) :
    (∃ l', l.replyWriteCallback id outs = .ok l' ∧ Frees l l' id c ∧
      id ∉ l'.clientsWithPendingWrites ∧ id ∉ l'.clientsToClose) ∨
    ∃ l' c', l.replyWriteCallback id outs = .ok l' ∧ Touches l l' id c c' ∧ ConnInv l' id c' := by
  have hinv := h.conn id c hheap
  obtain ⟨hcb, hpending, hflag, hasap⟩ := hinv.writing hwrite
  have hnotin : id ∉ l.clientsWithPendingWrites := by
    rw [← hinv.flagged, hflag]
    simp
  have hnotclose : id ∉ l.clientsToClose := by
    rw [← hinv.closing, hasap]
    simp
  have hsize : ¬ c.client.fd ≥ l.size := by
    have := hinv.fd.2
    omega
  cases hr : (replyWriteToClient c.client true outs).client with
  | none =>
    have hfd := hinv.fd
    refine .inl ?_
    by_cases hdel : (replyWriteToClient c.client true outs).eventDel = true
    · have hrun : l.replyWriteCallback id outs = .ok ((l.elEventDel c.client.fd .write).freed id c.client.fd) := by
        simp only [replyWriteCallback, load, hheap, Exec.pure_eq, Exec.ok_bind, hr, hdel, if_true]
        refine rrClientFree_eq ?_ ?_ ?_
        all_goals simp [elEventDel, setEvent, hsize, hheap, hinv.listed, hfd]
      refine ⟨_, hrun, ⟨hheap, ?_, ?_, ?_, ?_, ?_, ?_, .inl ?_, .inl ?_⟩, ?_, ?_⟩
      all_goals simp [freed, elEventDel, setEvent, hsize, hnotin, hnotclose]
      intro fd hne
      simp [Function.update_of_ne hne]
    · obtain ⟨l', hfree, hf, hp, hcl⟩ := frees_rrClientFree h hheap
      refine ⟨l', ?_, hf, by rw [hp]; exact hnotin, by rw [hcl]; exact hnotclose⟩
      simp only [replyWriteCallback, load, hheap, Exec.pure_eq, Exec.ok_bind, hr, hdel]
      exact hfree
  | some client =>
    have hw := replyWriteToClient_written hr
    have hdel := hw.eventDel
    rw [Bool.true_and] at hdel
    refine .inr ⟨{ l with
        heap := Function.update l.heap id (some { c with client := client })
        events := if clientHasPendingReplies client then l.events
          else Function.update l.events c.client.fd { l.events c.client.fd with write := false } },
      { c with client := client }, ?_, ?_, ?_⟩
    · simp only [replyWriteCallback, load, hheap, Exec.pure_eq, Exec.ok_bind, hr, hdel, store]
      cases clientHasPendingReplies client <;> simp [elEventDel, setEvent, hsize, Event.del]
    · refine ⟨hheap, rfl, hw.fd, rfl, rfl, rfl, ?_, fun _ _ => Iff.rfl, fun _ _ => Iff.rfl, h.pending_nodup,
        h.close_nodup⟩
      intro fd hne
      dsimp only
      split_ifs
      · rfl
      · exact Function.update_of_ne hne _ _
    · refine ⟨hinv.lt, hinv.listed, by rw [hw.fd]; exact hinv.fd, hinv.idle.congr hw.input, ?_, ?_, ?_, hinv.closing, ?_, ?_⟩
      · rw [hw.fd]
        dsimp only
        split_ifs
        · exact hinv.reading
        · simpa using hinv.reading
      · rw [hw.fd]
        dsimp only
        split_ifs with hp
        · exact fun _ => ⟨hcb, hp, hw.flag.trans hflag, hasap⟩
        · simp
      · rw [hw.flag]
        exact hinv.flagged
      · intro ha
        rw [hasap] at ha
        cases ha
      · rw [hw.fd]
        intro hp
        dsimp only
        rw [if_pos hp]
        exact .inr (.inl hwrite)

/-- A client with a pending write is not to be closed and has no write callback. -/
theorem Inv.of_pending (h : l.Inv) (hheap : l.heap id = some c) (hmem : id ∈ l.clientsWithPendingWrites) :
    c.closeAsap = false ∧ id ∉ l.clientsToClose ∧ (l.events c.client.fd).write = false := by
  have hinv := h.conn id c hheap
  have hflag := hinv.flagged.mpr hmem
  have hasap : c.closeAsap = false := by
    cases ha : c.closeAsap with
    | false => rfl
    | true =>
      rw [(hinv.waiting ha).2] at hflag
      cases hflag
  refine ⟨hasap, ?_, ?_⟩
  · rw [← hinv.closing, hasap]
    simp
  · cases hw : (l.events c.client.fd).write with
    | false => rfl
    | true =>
      rw [(hinv.writing hw).2.2.1] at hflag
      cases hflag

/-- A client that is gone when its replies are written. -/
theorem writePending_gone (h : l.Inv) (hheap : l.heap id = some c) (hmem : id ∈ l.clientsWithPendingWrites)
    {outs : List WriteOutcome} (epoll : Bool)
    (hr : (replyWriteToClient { c.client with pendingWrite := false } false outs).client = none) :
    ∃ l', l.writePending id outs epoll = .ok l' ∧
      l'.clientsWithPendingWrites = l.clientsWithPendingWrites.erase id ∧ Frees l l' id c ∧ id ∉ l'.clientsToClose := by
  have hinv := h.conn id c hheap
  obtain ⟨-, hnotclose, -⟩ := h.of_pending hheap hmem
  have hrun : l.writePending id outs epoll =
      .ok (freed { l.store id ⟨{ c.client with pendingWrite := false }, c.closeAsap⟩ with
        clientsWithPendingWrites := l.clientsWithPendingWrites.erase id } id c.client.fd) := by
    simp only [writePending, load, hheap, Exec.pure_eq, Exec.ok_bind, hr]
    exact rrClientFree_eq (c := ⟨{ c.client with pendingWrite := false }, c.closeAsap⟩) (by simp [store])
      hinv.listed hinv.fd
  refine ⟨_, hrun, rfl, ⟨hheap, ?_, rfl, rfl, rfl, ?_, ?_, .inr rfl, .inl rfl⟩, hnotclose⟩
  · simp [freed, store]
  · exact fun fd hne => Function.update_of_ne hne _ _
  · simp [freed]

/-- A turn of the loop before polling takes its client out of the list, and then frees it,
installs the write callback, queues it for closing, or has sent everything. -/
theorem writePending_spec (h : l.Inv) (hheap : l.heap id = some c) (hmem : id ∈ l.clientsWithPendingWrites)
    (outs : List WriteOutcome) (epoll : Bool) :
    ∃ l', l.writePending id outs epoll = .ok l' ∧
      l'.clientsWithPendingWrites = l.clientsWithPendingWrites.erase id ∧
      ((Frees l l' id c ∧ id ∉ l'.clientsToClose) ∨ ∃ c', Touches l l' id c c' ∧ ConnInv l' id c') := by
  have hinv := h.conn id c hheap
  obtain ⟨hasap, hnotclose, hnowrite⟩ := h.of_pending hheap hmem
  have hfd := hinv.fd
  have hsize : ¬ c.client.fd ≥ l.size := by omega
  have hout : id ∉ l.clientsWithPendingWrites.erase id := h.pending_nodup.not_mem_erase
  cases hr : (replyWriteToClient { c.client with pendingWrite := false } false outs).client with
  | none =>
    obtain ⟨l', hrun, hlist, hfrees⟩ := writePending_gone h hheap hmem epoll hr
    exact ⟨l', hrun, hlist, .inl hfrees⟩
  | some client =>
    have hw := replyWriteToClient_written hr
    have hwfd : client.fd = c.client.fd := hw.fd
    have hwflag : client.pendingWrite = false := hw.flag
    have hcleared : Client.IdleInv { c.client with pendingWrite := false } :=
      hinv.idle.congr (by constructor <;> rfl)
    have hidle : client.IdleInv := hcleared.congr hw.input
    -- the three ways on differ in the events and in the list of clients to close
    have hshape : ∀ (ev : ℤ → Event) (asap : Bool) (close : List ℕ),
        (∀ fd, fd ≠ c.client.fd → ev fd = l.events fd) →
        (∀ j, j ≠ id → (j ∈ close ↔ j ∈ l.clientsToClose)) → close.Nodup →
        Touches l { l with
            heap := Function.update l.heap id (some ⟨client, asap⟩)
            events := ev
            clientsWithPendingWrites := l.clientsWithPendingWrites.erase id
            clientsToClose := close } id c ⟨client, asap⟩ := by
      intro ev asap close hev hclose hnodup
      exact ⟨hheap, rfl, hwfd, rfl, rfl, rfl, hev, fun j hne => List.mem_erase_of_ne hne, hclose,
        h.pending_nodup.erase id, hnodup⟩
    by_cases hp : clientHasPendingReplies client = true
    · cases epoll with
      | true =>
        refine ⟨_, ?_, ?_, .inr ⟨_, hshape (Function.update l.events c.client.fd
          ((l.events c.client.fd).add .write .replyWriteCallback id)) c.closeAsap l.clientsToClose
          (fun fd hne => Function.update_of_ne hne _ _) (fun _ _ => Iff.rfl) h.close_nodup, ?_⟩⟩
        · simp [writePending, load, hheap, hr, store, hp, elEventAdd, hwfd, hsize, setEvent]
        · rfl
        · refine ⟨hinv.lt, hinv.listed, by rw [hwfd]; exact hfd, hidle, ?_, ?_, ?_, hinv.closing, ?_, ?_⟩
          · exact ⟨by simpa [hwfd, Event.add] using hinv.reading.1, by simpa [hwfd, Event.add] using hinv.reading.2.1,
              by simp [hwfd, Event.add]⟩
          · intro _
            exact ⟨by simp [hwfd, Event.add], hp, hwflag, hasap⟩
          · simp [hwflag, hout]
          · simp [hasap]
          · simp [hwfd, Event.add]
      | false =>
        refine ⟨_, ?_, ?_, .inr ⟨_, hshape l.events true (l.clientsToClose ++ [id]) (fun _ _ => rfl)
          (fun j hne => by simp [hne]) ?_, ?_⟩⟩
        · simp [writePending, load, hheap, hr, store, hp, elEventAdd, freeClientAsync, hasap]
        · rfl
        · exact List.nodup_append.mpr ⟨h.close_nodup, by simp, by
            intro j hj k hk
            rw [List.mem_singleton] at hk
            rintro rfl
            exact hnotclose (hk ▸ hj)⟩
        · refine ⟨hinv.lt, hinv.listed, by rw [hwfd]; exact hfd, hidle, ?_, ?_, ?_, ?_, ?_, ?_⟩
          · simpa [hwfd] using hinv.reading
          · simp [hwfd, hnowrite]
          · simp [hwflag, hout]
          · simp
          · exact fun _ => ⟨hp, hwflag⟩
          · exact fun _ => .inr (.inr rfl)
    · refine ⟨_, ?_, ?_, .inr ⟨_, hshape l.events c.closeAsap l.clientsToClose (fun _ _ => rfl) (fun _ _ => Iff.rfl)
        h.close_nodup, ?_⟩⟩
      · simp [writePending, load, hheap, hr, store, hp]
      · rfl
      · refine ⟨hinv.lt, hinv.listed, by rw [hwfd]; exact hfd, hidle, ?_, ?_, ?_, hinv.closing, ?_, ?_⟩
        · simpa [hwfd] using hinv.reading
        · simp [hwfd, hnowrite]
        · simp [hwflag, hout]
        · simp [hasap]
        · exact fun hpend => absurd hpend hp

/-- A turn of the loop over the clients to close. -/
theorem freeAsync_spec (h : l.Inv) (hheap : l.heap id = some c) (hmem : id ∈ l.clientsToClose) :
    ∃ l', l.freeAsync id = .ok l' ∧ Frees l l' id c ∧ l'.clientsToClose = l.clientsToClose.erase id ∧
      id ∉ l'.clientsWithPendingWrites := by
  have hinv := h.conn id c hheap
  have hnotin : id ∉ l.clientsWithPendingWrites := by
    rw [← hinv.flagged, (hinv.waiting (hinv.closing.mpr hmem)).2]
    simp
  have hfree : (l.store id { c with closeAsap := false }).rrClientFree id =
      .ok ((l.store id { c with closeAsap := false }).freed id c.client.fd) :=
    rrClientFree_eq (c := { c with closeAsap := false }) (by simp [store]) hinv.listed hinv.fd
  have hrun : l.freeAsync id = .ok { (l.store id { c with closeAsap := false }).freed id c.client.fd with
      clientsToClose := l.clientsToClose.erase id } := by
    simp only [freeAsync, load, hheap, Exec.pure_eq, Exec.ok_bind, hfree]
    rfl
  refine ⟨_, hrun, ⟨hheap, ?_, rfl, rfl, rfl, ?_, ?_, .inl rfl, .inr rfl⟩, rfl, hnotin⟩
  · simp [freed, store]
  · exact fun fd hne => Function.update_of_ne hne _ _
  · simp [freed]

theorem fd_unused (h : l.Inv) {fd : ℤ} (hfree : l.inUse fd = false) : ∀ id c, l.heap id = some c → c.client.fd ≠ fd := by
  intro id c hc he
  have hany : l.inUse fd = true := by
    rw [inUse, List.any_eq_true]
    exact ⟨id, (h.conn id c hc).listed, by simp [hc, he]⟩
  rw [hfree] at hany
  cases hany

/-- A new client takes a descriptor that no live client has. -/
theorem accepted_inv (h : l.Inv) {fd : ℤ} (hfd : 0 ≤ fd ∧ fd < l.size) (hfree : l.inUse fd = false) :
    Inv { l with
      next := l.next + 1
      events := Function.update l.events fd ((l.events fd).add .read .handleReadFromClient l.next)
      heap := Function.update l.heap l.next (some ⟨rrClientCreate fd, false⟩)
      clients := l.clients ++ [l.next] } := by
  have hunused := fd_unused h hfree
  have hfresh : l.heap l.next = none := by
    cases hc : l.heap l.next with
    | none => rfl
    | some c => exact absurd (h.conn l.next c hc).lt (lt_irrefl _)
  have hnot : ∀ {xs : List ℕ}, (∀ j ∈ xs, j < l.next) → l.next ∉ xs := fun hx hm => lt_irrefl _ (hx _ hm)
  have hnone : (l.events fd).write = false := by
    cases hw : (l.events fd).write with
    | false => rfl
    | true =>
      obtain ⟨j, d, hj, hd⟩ := h.events fd (.inr hw)
      exact absurd hd (hunused j d hj)
  have hclients : l.next ∉ l.clients := by
    intro hm
    have hlive := h.clients_live l.next hm
    rw [hfresh] at hlive
    cases hlive
  have hlook : ∀ j d, Function.update l.heap l.next (some ⟨rrClientCreate fd, false⟩) j = some d →
      (j = l.next ∧ d = ⟨rrClientCreate fd, false⟩) ∨ j ≠ l.next ∧ l.heap j = some d := by
    intro j d hj
    by_cases hne : j = l.next
    · rw [hne, Function.update_self] at hj
      exact .inl ⟨hne, (Option.some.inj hj).symm⟩
    · rw [Function.update_of_ne hne] at hj
      exact .inr ⟨hne, hj⟩
  refine ⟨?_, ?_, ?_, ?_, h.pending_nodup, h.close_nodup, ?_, ?_, ?_⟩
  · intro j d hj
    rcases hlook j d hj with ⟨rfl, rfl⟩ | ⟨hne, hj'⟩
    · refine ⟨Nat.lt_succ_self _, by simp, hfd, rrClientCreate_idleInv fd, ?_, ?_, ?_, ?_, by simp, ?_⟩
      · simp [rrClientCreate, Event.add]
      · simp [rrClientCreate, Event.add, hnone]
      · simp [rrClientCreate, hnot h.pending_lt]
      · simp [hnot h.close_lt]
      · simp [rrClientCreate, clientHasPendingReplies]
    · have hinv := h.conn j d hj'
      refine hinv.of_other (Nat.le_succ _) (List.mem_append_left _ hinv.listed) rfl ?_ Iff.rfl Iff.rfl
      exact Function.update_of_ne (hunused j d hj') _ _
  · intro i j d e hi hj he
    rcases hlook i d hi with ⟨rfl, rfl⟩ | ⟨hi', hi⟩
    · rcases hlook j e hj with ⟨rfl, rfl⟩ | ⟨hj', hj⟩
      · rfl
      · exact absurd he.symm (hunused j e hj)
    · rcases hlook j e hj with ⟨rfl, rfl⟩ | ⟨hj', hj⟩
      · exact absurd he (hunused i d hi)
      · exact h.fds i j d e hi hj he
  · intro j hj
    rcases List.mem_append.mp hj with hj | hj
    · have hne : j ≠ l.next := fun he => hclients (he ▸ hj)
      simpa [Function.update_of_ne hne] using h.clients_live j hj
    · rw [List.mem_singleton.mp hj]
      simp
  · refine List.nodup_append.mpr ⟨h.clients_nodup, by simp, ?_⟩
    intro j hj k hk
    rw [List.mem_singleton] at hk
    rintro rfl
    exact hclients (hk ▸ hj)
  · exact fun j hj => Nat.lt_succ_of_lt (h.pending_lt j hj)
  · exact fun j hj => Nat.lt_succ_of_lt (h.close_lt j hj)
  · intro fd' hfd'
    by_cases hne : fd' = fd
    · exact ⟨l.next, _, Function.update_self _ _ _, hne.symm⟩
    · dsimp only at hfd'
      rw [Function.update_of_ne hne] at hfd'
      obtain ⟨j, d, hj, hd⟩ := h.events fd' hfd'
      have hji : j ≠ l.next := by
        rintro rfl
        rw [hfresh] at hj
        cases hj
      exact ⟨j, d, (Function.update_of_ne hji _ _).trans hj, hd⟩

theorem addClient_spec (h : l.Inv) (fd : ℤ) (epoll : Bool) :
    ∃ l', l.addClient fd epoll = .ok l' ∧ l'.Inv ∧ (l.ListsLive → l'.ListsLive) := by
  have hnext : Inv { l with next := l.next + 1 } := by
    refine ⟨fun j d hj => ?_, h.fds, h.clients_live, h.clients_nodup, h.pending_nodup, h.close_nodup, ?_, ?_, h.events⟩
    · exact (h.conn j d hj).of_other (Nat.le_succ _) (h.conn j d hj).listed rfl rfl Iff.rfl Iff.rfl
    · exact fun j hj => Nat.lt_succ_of_lt (h.pending_lt j hj)
    · exact fun j hj => Nat.lt_succ_of_lt (h.close_lt j hj)
  unfold addClient
  by_cases hbad : fd < 0 ∨ l.inUse fd = true
  · rw [if_pos hbad]
    exact ⟨l, rfl, h, id⟩
  rw [if_neg hbad]
  obtain ⟨h0, hfree⟩ : 0 ≤ fd ∧ l.inUse fd = false := by
    simpa [not_or] using hbad
  by_cases hsize : fd ≥ l.size
  · refine ⟨{ l with next := l.next + 1 }, ?_, hnext, id⟩
    simp [elEventAdd, hsize]
  cases epoll with
  | false =>
    refine ⟨{ l with next := l.next + 1 }, ?_, hnext, id⟩
    simp [elEventAdd]
  | true =>
    have hacc := accepted_inv h ⟨h0, by omega⟩ hfree
    have hlive : l.ListsLive → ListsLive { l with
        next := l.next + 1
        events := Function.update l.events fd ((l.events fd).add .read .handleReadFromClient l.next)
        heap := Function.update l.heap l.next (some ⟨rrClientCreate fd, false⟩)
        clients := l.clients ++ [l.next] } := by
      intro hl
      have hkeep : ∀ j, (l.heap j).isSome →
          (Function.update l.heap l.next (some ⟨rrClientCreate fd, false⟩) j).isSome := by
        intro j hj
        by_cases hne : j = l.next
        · rw [hne, Function.update_self]
          rfl
        · rwa [Function.update_of_ne hne]
      exact ⟨fun j hj => hkeep j (hl.1 j hj), fun j hj => hkeep j (hl.2 j hj)⟩
    by_cases hmax : (l.clients ++ [l.next]).length > l.maxClients
    · have hnew : Function.update l.heap l.next (some ⟨rrClientCreate fd, false⟩) l.next =
          some ⟨rrClientCreate fd, false⟩ := Function.update_self _ _ _
      obtain ⟨l', hrun, hf, hp, hc⟩ := frees_rrClientFree hacc hnew
      refine ⟨l', ?_, hf.inv hacc, fun hl => (hf.listsLive_iff (hlive hl)).mpr ?_⟩
      · rw [← hrun]
        simp only [elEventAdd, hsize, if_false, Bool.not_true, Bool.false_eq_true, setEvent, store, hmax, if_true]
      · rw [hp, hc]
        exact ⟨fun hm => lt_irrefl _ (h.pending_lt _ hm), fun hm => lt_irrefl _ (h.close_lt _ hm)⟩
    · refine ⟨_, ?_, hacc, hlive⟩
      simp only [elEventAdd, hsize, if_false, Bool.not_true, Bool.false_eq_true, setEvent, store, hmax]
      rfl

end Loop

end RhinoRox
