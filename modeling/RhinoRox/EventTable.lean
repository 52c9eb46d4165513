import RhinoRox.EventLoopInvariant
import RhinoRox.StepRuns
import Mathlib.Data.Finset.Card
import Mathlib.Order.Interval.Finset.Nat

/-!
# The size of the event table

`rr_server_init` makes the table of events as large as the number of clients, and not larger by
the number of descriptors that the process needs for itself, which the limit of open files has
been raised by. With descriptors handed out from below, a connection is lost as soon as the
clients and the other descriptors fill the table.
-/

namespace RhinoRox
open StepRuns

/-- The descriptor that the kernel hands out. -/
def lowestFree (used : Finset ℕ) : ℕ := Nat.find (Infinite.exists_notMem_finset used)

theorem lowestFree_notMem (used : Finset ℕ) : lowestFree used ∉ used :=
  Nat.find_spec (Infinite.exists_notMem_finset used)

theorem lowestFree_le {used : Finset ℕ} {n : ℕ} (h : n ∉ used) : lowestFree used ≤ n :=
  Nat.find_min' (Infinite.exists_notMem_finset used) h

theorem lowestFree_eq {used : Finset ℕ} {n : ℕ} (h : n ∉ used) (hbelow : ∀ k < n, k ∈ used) : lowestFree used = n := by
  refine le_antisymm (lowestFree_le h) (not_lt.mp fun hlt => ?_)
  exact lowestFree_notMem used (hbelow _ hlt)

theorem lowestFree_lt_iff {used : Finset ℕ} {m : ℕ} : lowestFree used < m ↔ (used.filter (· < m)).card < m := by
  have hsub : used.filter (· < m) ⊆ Finset.range m := fun n hn => Finset.mem_range.mpr (Finset.mem_filter.mp hn).2
  constructor
  · intro h
    have hne : lowestFree used ∉ used.filter (· < m) := fun hm => lowestFree_notMem used (Finset.mem_filter.mp hm).1
    have hlt := Finset.card_lt_card ((Finset.ssubset_iff_of_subset hsub).mpr ⟨_, Finset.mem_range.mpr h, hne⟩)
    rwa [Finset.card_range] at hlt
  · intro h
    obtain ⟨n, hn, hnot⟩ := Finset.exists_mem_notMem_of_card_lt_card (h.trans_eq (Finset.card_range m).symm)
    rw [Finset.mem_range] at hn
    exact (lowestFree_le fun hm => hnot (Finset.mem_filter.mpr ⟨hm, hn⟩)).trans_lt hn

/-! ## Starting -/

def serverReservedFds : ℕ := 32

/-- The loop of `rr_server_adjust_max_clients` that looks for the best limit. -/
def bestLimit (setrlimit : ℕ → Bool) (oldlimit bestlimit : ℕ) : ℕ :=
  if bestlimit > oldlimit then
    if setrlimit bestlimit then bestlimit
    else if bestlimit < 16 then bestlimit
    else bestLimit setrlimit oldlimit (bestlimit - 16)
  else bestlimit
termination_by bestlimit

/-- `getrlimit` is what the call returned, if it succeeded. The number of clients is an unsigned
integer of 32 bits, and so is its sum with the reserved descriptors. -/
def rrServerAdjustMaxClients (getrlimit : Option ℕ) (setrlimit : ℕ → Bool) (maxClients : ℕ) : Exec ℕ :=
  let maxfiles := (maxClients + serverReservedFds) % 2 ^ 32
  match getrlimit with
  | none => pure (1024 - serverReservedFds)
  | some oldlimit =>
    if oldlimit < maxfiles then
      let bestlimit := max (bestLimit setrlimit oldlimit maxfiles) oldlimit
      if bestlimit < maxfiles then
        let maxClients := subSize bestlimit serverReservedFds % 2 ^ 32
        if maxClients < 1 then throw .exit else pure maxClients
      else pure maxClients
    else pure maxClients

/-- The part of `rr_server_init` that opens descriptors: `epoll_create` and the sockets on which the
server listens. The result is the loop with the descriptors that are then open. -/
def rrServerInitFds {σ : Type} (getrlimit : Option ℕ) (setrlimit : ℕ → Bool) (opened : Finset ℕ) (maxClients : ℕ)
    (unixDomainSock : Bool) (state : σ) : Exec (Loop σ × Finset ℕ) := do
  let maxClients ← rrServerAdjustMaxClients getrlimit setrlimit maxClients
  -- the size of the table is an `int`, and there is no memory for a negative number of events
  if maxClients ≥ 2 ^ 31 then throw .exit
  let opened := insert (lowestFree opened) opened
  let lpfd := lowestFree opened
  if lpfd ≥ maxClients then throw .exit
  let opened := insert lpfd opened
  if unixDomainSock then
    let fd := lowestFree opened
    if fd ≥ maxClients then throw .exit
    pure (Loop.start maxClients maxClients state, insert fd opened)
  else pure (Loop.start maxClients maxClients state, opened)

variable {σ : Type}

/-- The table has as many entries as there may be clients, and a socket of the server is one of them. -/
theorem rrServerInitFds_spec {getrlimit : Option ℕ} {setrlimit : ℕ → Bool} {opened own : Finset ℕ} {maxClients : ℕ}
    {unixDomainSock : Bool} {state : σ} {l : Loop σ}
    (h : rrServerInitFds getrlimit setrlimit opened maxClients unixDomainSock state = .ok (l, own)) :
    ∃ m, l = Loop.start m m state ∧ ∃ fd ∈ own, fd < m := by
  unfold rrServerInitFds at h
  cases hm : rrServerAdjustMaxClients getrlimit setrlimit maxClients with
  | error e =>
    rw [hm] at h
    cases h
  | ok m =>
    rw [hm, Exec.ok_bind] at h
    by_cases hbig : m ≥ 2 ^ 31
    · rw [if_pos hbig] at h
      cases h
    rw [if_neg hbig] at h
    by_cases hlisten : lowestFree (insert (lowestFree opened) opened) ≥ m
    · rw [if_pos hlisten] at h
      cases h
    rw [if_neg hlisten] at h
    by_cases hunix : unixDomainSock = true
    · rw [if_pos hunix] at h
      by_cases hsock : lowestFree (insert (lowestFree (insert (lowestFree opened) opened))
          (insert (lowestFree opened) opened)) ≥ m
      · rw [if_pos hsock] at h
        cases h
      · rw [if_neg hsock] at h
        cases h
        exact ⟨m, rfl, _, Finset.mem_insert_self _ _, not_le.mp hsock⟩
    · rw [if_neg hunix] at h
      cases h
      exact ⟨m, rfl, _, Finset.mem_insert_self _ _, not_le.mp hlisten⟩

/-! ## Connections -/

namespace Loop

/-- The descriptors of the clients. -/
def fds (l : Loop σ) : List ℕ := l.clients.filterMap fun id => (l.heap id).map fun c => c.client.fd.toNat

/-- A connection arrives, and `epoll_ctl` succeeds or not, or a client goes away. -/
inductive Traffic where
  | accept (epoll : Bool)
  | disconnect (id : ℕ)
  deriving DecidableEq, Repr

/-- The kernel knows the descriptors of the clients and those that the process has opened itself. -/
def traffic (own : Finset ℕ) (l : Loop σ) : Traffic → Exec (Loop σ)
  | .accept epoll => l.addClient (lowestFree (own ∪ l.fds.toFinset)) epoll
  | .disconnect id => if id ∈ l.clients then l.rrClientFree id else pure l

/-- A new connection below the limit is registered and served. -/
def Served (own : Finset ℕ) (l : Loop σ) : Traffic → Prop
  | .accept true => l.clients.length ≤ l.maxClients - 1 →
      ∃ l' fd c, l.traffic own (.accept true) = .ok l' ∧ l'.clients = l.clients ++ [l.next] ∧
        l'.heap l.next = some c ∧ c.client.fd = fd ∧ (l'.events fd).read = true ∧
        (l'.events fd).readCb = some .handleReadFromClient ∧ (l'.events fd).ud = some l.next
  | _ => True

/-- With the descriptors of the process itself, the clients leave an entry of the table free. -/
def HasRoom (own : Finset ℕ) (l : Loop σ) : Traffic → Prop
  | .accept true => l.clients.length ≤ l.maxClients - 1 →
      l.clients.length + (own.filter (· < l.maxClients)).card < l.maxClients
  | _ => True

/-- What every run keeps. -/
structure Table (own : Finset ℕ) (m : ℕ) (l : Loop σ) : Prop where
  inv : l.Inv
  size : l.size = m
  maxClients : l.maxClients = m
  apart : ∀ fd ∈ l.fds, fd ∉ own
  listens : ∃ fd ∈ own, fd < m

variable {l l' : Loop σ} {own : Finset ℕ} {m : ℕ}

theorem start_table (state : σ) (hlisten : ∃ fd ∈ own, fd < m) : (start m m state).Table own m :=
  ⟨start_inv m m state, rfl, rfl, by simp [fds, start], hlisten⟩

theorem mem_fds {fd : ℕ} : fd ∈ l.fds ↔ ∃ id ∈ l.clients, ∃ c, l.heap id = some c ∧ c.client.fd.toNat = fd := by
  simp [fds]

theorem Inv.nodup_fds (h : l.Inv) : l.fds.Nodup := by
  refine h.clients_nodup.filterMap fun i j fd hi hj => ?_
  obtain ⟨c, hc, hfd⟩ := Option.map_eq_some_iff.mp hi
  obtain ⟨d, hd, hfd'⟩ := Option.map_eq_some_iff.mp hj
  have hc0 := (h.conn i c hc).fd.1
  have hd0 := (h.conn j d hd).fd.1
  exact h.fds i j c d hc hd (by omega)

theorem Inv.length_fds (h : l.Inv) : l.fds.length = l.clients.length := by
  refine List.filterMap_length_eq_length.mpr fun id hid => ?_
  rw [Option.isSome_map]
  exact h.clients_live id hid

theorem Inv.fds_lt (h : l.Inv) {fd : ℕ} (hfd : fd ∈ l.fds) : fd < l.size := by
  obtain ⟨id, -, c, hc, rfl⟩ := mem_fds.mp hfd
  have hlt := (h.conn id c hc).fd
  omega

/-- The entries of the table that are taken. -/
theorem Table.card_used (h : l.Table own m) :
    ((own ∪ l.fds.toFinset).filter (· < m)).card = l.clients.length + (own.filter (· < m)).card := by
  have hall : l.fds.toFinset.filter (· < m) = l.fds.toFinset := by
    refine Finset.filter_true_of_mem fun fd hfd => ?_
    rw [← h.size]
    exact h.inv.fds_lt (List.mem_toFinset.mp hfd)
  have hdisjoint : Disjoint (own.filter (· < m)) l.fds.toFinset := by
    rw [Finset.disjoint_right]
    intro fd hfd hown
    exact h.apart fd (List.mem_toFinset.mp hfd) (Finset.mem_filter.mp hown).1
  rw [Finset.filter_union, hall, Finset.card_union_of_disjoint hdisjoint, List.toFinset_card_of_nodup h.inv.nodup_fds,
    h.inv.length_fds, Nat.add_comm]

/-- The kernel finds an entry of the table exactly if there is room. -/
theorem Table.lowestFree_lt_iff (h : l.Table own m) :
    lowestFree (own ∪ l.fds.toFinset) < m ↔ l.clients.length + (own.filter (· < m)).card < m := by
  rw [RhinoRox.lowestFree_lt_iff, h.card_used]

/-- The limit is never reached, since the socket on which the server listens takes an entry. -/
theorem Table.length_lt (h : l.Table own m) : l.clients.length < m := by
  obtain ⟨fd, hfd, hlt⟩ := h.listens
  have hpos : 0 < (own.filter (· < m)).card := Finset.card_pos.mpr ⟨fd, Finset.mem_filter.mpr ⟨hfd, hlt⟩⟩
  have hle : ((own ∪ l.fds.toFinset).filter (· < m)).card ≤ (Finset.range m).card :=
    Finset.card_le_card fun n hn => Finset.mem_range.mpr (Finset.mem_filter.mp hn).2
  rw [h.card_used, Finset.card_range] at hle
  omega

theorem lowestFree_unused (own : Finset ℕ) (l : Loop σ) : l.inUse (lowestFree (own ∪ l.fds.toFinset)) = false := by
  rw [Bool.eq_false_iff]
  intro huse
  obtain ⟨id, hid, hany⟩ := List.any_eq_true.mp huse
  cases hc : l.heap id with
  | none => simp [hc] at hany
  | some c =>
    have hfd : c.client.fd = lowestFree (own ∪ l.fds.toFinset) := by simpa [hc] using hany
    refine lowestFree_notMem (own ∪ l.fds.toFinset) (Finset.mem_union_right _ (List.mem_toFinset.mpr ?_))
    exact mem_fds.mpr ⟨id, hid, c, hc, by omega⟩

/-- The state in which a connection has been registered. -/
def accepted (l : Loop σ) (fd : ℤ) : Loop σ :=
  { l with
    next := l.next + 1
    events := Function.update l.events fd ((l.events fd).add .read .handleReadFromClient l.next)
    heap := Function.update l.heap l.next (some ⟨rrClientCreate fd, false⟩)
    clients := l.clients ++ [l.next] }

/-- A connection that finds no entry, or that `epoll_ctl` refuses, is closed again. -/
theorem Table.refused (h : l.Table own m) {epoll : Bool}
    (hno : ¬ lowestFree (own ∪ l.fds.toFinset) < m ∨ epoll = false) :
    l.traffic own (.accept epoll) = .ok { l with next := l.next + 1 } := by
  have hunused := lowestFree_unused own l
  have hsize := h.size
  rw [traffic, addClient, if_neg (by simp [hunused])]
  rcases hno with hfull | rfl
  · have hge : ((lowestFree (own ∪ l.fds.toFinset) : ℕ) : ℤ) ≥ (l.size : ℤ) := by omega
    simp [elEventAdd, hge]
  · simp [elEventAdd]

/-- With room there is an entry, and the number of clients stays below the limit. -/
theorem Table.admitted (h : l.Table own m) (hroom : lowestFree (own ∪ l.fds.toFinset) < m) :
    l.traffic own (.accept true) = .ok (l.accepted (lowestFree (own ∪ l.fds.toFinset))) := by
  have hunused := lowestFree_unused own l
  have hsize := h.size
  have hmax := h.maxClients
  have hlen := h.lowestFree_lt_iff.mp hroom
  have hlt : ¬ ((lowestFree (own ∪ l.fds.toFinset) : ℕ) : ℤ) ≥ (l.size : ℤ) := by omega
  have hcount : ¬ l.clients.length + 1 > l.maxClients := by omega
  rw [traffic, addClient, if_neg (by simp [hunused])]
  simp [elEventAdd, hlt, setEvent, store, accepted]
  omega

theorem Table.next (h : l.Table own m) : Table own m { l with next := l.next + 1 } := by
  obtain ⟨l', hrun, h', -⟩ := addClient_spec h.inv (lowestFree (own ∪ l.fds.toFinset)) false
  have hrun' : l.traffic own (.accept false) = .ok l' := hrun
  rw [h.refused (.inr rfl)] at hrun'
  cases hrun'
  exact ⟨h', h.size, h.maxClients, h.apart, h.listens⟩

theorem fds_accepted (h : l.Inv) (fd : ℕ) : (l.accepted fd).fds = l.fds ++ [fd] := by
  have hfresh : ∀ id ∈ l.clients, id ≠ l.next := by
    intro id hid
    obtain ⟨c, hc⟩ := Option.isSome_iff_exists.mp (h.clients_live id hid)
    exact (h.conn id c hc).lt.ne
  rw [fds, accepted, List.filterMap_append]
  congr 1
  · refine List.filterMap_congr fun id hid => ?_
    show Option.map _ (Function.update l.heap l.next _ id) = _
    rw [Function.update_of_ne (hfresh id hid)]
  · simp [rrClientCreate]

theorem Table.accept (h : l.Table own m) (hroom : lowestFree (own ∪ l.fds.toFinset) < m) :
    Table own m (l.accepted (lowestFree (own ∪ l.fds.toFinset))) := by
  have hfd : 0 ≤ ((lowestFree (own ∪ l.fds.toFinset) : ℕ) : ℤ) ∧
      ((lowestFree (own ∪ l.fds.toFinset) : ℕ) : ℤ) < (l.size : ℤ) := by
    have hsize := h.size
    omega
  refine ⟨accepted_inv h.inv hfd (lowestFree_unused own l), h.size, h.maxClients, fun fd hmem => ?_, h.listens⟩
  rw [fds_accepted h.inv] at hmem
  rcases List.mem_append.mp hmem with hmem | hmem
  · exact h.apart fd hmem
  · rw [List.mem_singleton.mp hmem]
    exact fun hown => lowestFree_notMem _ (Finset.mem_union_left _ hown)

theorem Table.disconnect (h : l.Table own m) {id : ℕ} (hid : id ∈ l.clients) :
    ∃ l', l.rrClientFree id = .ok l' ∧ l'.Table own m := by
  obtain ⟨c, hc⟩ := Option.isSome_iff_exists.mp (h.inv.clients_live id hid)
  have hconn := h.inv.conn id c hc
  obtain ⟨l', hrun, hfrees, -⟩ := frees_rrClientFree h.inv hc
  have hinv := hfrees.inv h.inv
  rw [rrClientFree_eq hc hconn.listed hconn.fd] at hrun
  cases hrun
  refine ⟨_, rrClientFree_eq hc hconn.listed hconn.fd, hinv, h.size, h.maxClients, fun fd hmem => ?_, h.listens⟩
  obtain ⟨j, hj, d, hd, hfd⟩ := mem_fds.mp hmem
  refine h.apart fd (mem_fds.mpr ⟨j, List.mem_of_mem_erase hj, d, ?_, hfd⟩)
  have hne : j ≠ id := by
    rintro rfl
    simp [freed] at hd
  simpa [freed, Function.update_of_ne hne] using hd

/-- Every event keeps the table. -/
theorem Table.step (h : l.Table own m) (t : Traffic) : ∃ l', l.traffic own t = .ok l' ∧ l'.Table own m := by
  cases t with
  | accept epoll =>
    by_cases hroom : lowestFree (own ∪ l.fds.toFinset) < m
    · cases epoll with
      | false => exact ⟨_, h.refused (.inr rfl), h.next⟩
      | true => exact ⟨_, h.admitted hroom, h.accept hroom⟩
    · exact ⟨_, h.refused (.inl hroom), h.next⟩
  | disconnect id =>
    by_cases hid : id ∈ l.clients
    · obtain ⟨l', hrun, h'⟩ := h.disconnect hid
      exact ⟨l', by rw [traffic, if_pos hid, hrun], h'⟩
    · exact ⟨l, by rw [traffic, if_neg hid]; rfl, h⟩

theorem Table.served_iff (h : l.Table own m) (t : Traffic) : l.Served own t ↔ l.HasRoom own t := by
  cases t with
  | disconnect id => exact Iff.rfl
  | accept epoll =>
    cases epoll with
    | false => exact Iff.rfl
    | true =>
      have hmax := h.maxClients
      refine imp_congr_right fun hcount => ?_
      rw [hmax, ← h.lowestFree_lt_iff]
      constructor
      · rintro ⟨l', fd, c, hrun, hclients, -⟩
        by_contra hfull
        rw [h.refused (.inl hfull)] at hrun
        cases hrun
        exact absurd (congrArg List.length hclients) (by simp)
      · intro hroom
        refine ⟨_, _, ⟨rrClientCreate (lowestFree (own ∪ l.fds.toFinset)), false⟩, h.admitted hroom, rfl, ?_, rfl, ?_⟩
        · exact Function.update_self _ _ _
        · simp [accepted, rrClientCreate, Event.add]

/-- Connections that arrive one after the other fill the table before the limit is reached. -/
theorem Table.not_hasRoom (h : l.Table own m) {n : ℕ} (hn : l.clients.length + n = m) :
    ¬ EachStep (traffic own) (fun l t => l.HasRoom own t) l (List.replicate n (.accept true)) := by
  induction n generalizing l with
  | zero => exact absurd h.length_lt (by omega)
  | succ n ih =>
    rw [List.replicate_succ]
    intro heach
    have hroom := heach.1 (by have hmax := h.maxClients; omega)
    rw [h.maxClients, ← h.lowestFree_lt_iff] at hroom
    rw [eachStep_cons (h.admitted hroom)] at heach
    refine ih (h.accept hroom) ?_ heach.2
    rw [accepted, List.length_append, List.length_singleton]
    omega

end Loop

/-- Whenever the server starts, the connections of a run that arrive below the limit are served
exactly if each of them finds room in the table, and there are runs in which one does not. -/
theorem connections_served_iff {getrlimit : Option ℕ} {setrlimit : ℕ → Bool} {opened own : Finset ℕ} {maxClients : ℕ}
    {unixDomainSock : Bool} {state : σ} {l : Loop σ}
    (h : rrServerInitFds getrlimit setrlimit opened maxClients unixDomainSock state = .ok (l, own)) :
    (∀ ts, EachStep (Loop.traffic own) (fun l t => l.Served own t) l ts ↔
      EachStep (Loop.traffic own) (fun l t => l.HasRoom own t) l ts) ∧
    ∃ ts, ¬ EachStep (Loop.traffic own) (fun l t => l.Served own t) l ts := by
  obtain ⟨m, rfl, hlisten⟩ := rrServerInitFds_spec h
  have htable := Loop.start_table state hlisten
  have hagree : ∀ (l : Loop σ) t, Loop.Table own m l → True → (Loop.Served own l t ↔ Loop.HasRoom own l t) :=
    fun l t hl _ => hl.served_iff t
  have hkeep : ∀ (l : Loop σ) t, Loop.Table own m l → True → Loop.HasRoom own l t →
      ∃ l', Loop.traffic own l t = .ok l' ∧ Loop.Table own m l' := fun l t hl _ _ => hl.step t
  have hiff := fun ts => eachStep_iff hagree hkeep htable (eachStep_of_forall (fun _ _ => trivial) _ ts)
  refine ⟨hiff, List.replicate m (.accept true), fun hserved => ?_⟩
  exact htable.not_hasRoom (by simp [Loop.start]) ((hiff _).mp hserved)

/-- The standard streams are open and five clients are allowed. -/
theorem rrServerInitFds_five :
    rrServerInitFds (some 1024) (fun _ => true) {0, 1, 2} 5 false () = .ok (Loop.start 5 5 (), {0, 1, 2, 3, 4}) := by
  have hepoll : lowestFree {0, 1, 2} = 3 := lowestFree_eq (by decide) (by decide)
  have hlisten : lowestFree (insert 3 {0, 1, 2}) = 4 := lowestFree_eq (by decide) (by decide)
  have hown : insert 4 (insert 3 {0, 1, 2}) = ({0, 1, 2, 3, 4} : Finset ℕ) := by decide
  simp [rrServerInitFds, rrServerAdjustMaxClients, serverReservedFds, hepoll, hlisten, hown]

theorem connections_served_iff_five :
    ∃ ts, ¬ EachStep (Loop.traffic {0, 1, 2, 3, 4}) (fun l t => l.Served {0, 1, 2, 3, 4} t) (Loop.start 5 5 ()) ts :=
  (connections_served_iff rrServerInitFds_five).2

/-- The first connection gets the descriptor 5 and is closed. -/
theorem first_connection_refused :
    rrServerInitFds (some 1024) (fun _ => true) {0, 1, 2} 5 false () = .ok (Loop.start 5 5 (), {0, 1, 2, 3, 4}) ∧
      (Loop.start 5 5 ()).traffic {0, 1, 2, 3, 4} (.accept true) = .ok { Loop.start 5 5 () with next := 1 } ∧
      ¬ (Loop.start 5 5 ()).Served {0, 1, 2, 3, 4} (.accept true) := by
  have htable : (Loop.start 5 5 ()).Table {0, 1, 2, 3, 4} 5 := Loop.start_table () ⟨4, by decide, by decide⟩
  have hfull : ¬ lowestFree ({0, 1, 2, 3, 4} ∪ (Loop.start 5 5 ()).fds.toFinset) < 5 := by
    rw [htable.lowestFree_lt_iff]
    decide
  refine ⟨rrServerInitFds_five, htable.refused (.inl hfull), fun hserved => hfull ?_⟩
  rw [htable.lowestFree_lt_iff]
  exact (htable.served_iff _).mp hserved (by decide)

end RhinoRox
