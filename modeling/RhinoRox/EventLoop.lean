import RhinoRox.RequestParser
import Mathlib.Logic.Function.Basic

/-!
# The event loop and the lists of clients

Accepting, the dispatch of `el_loop_poll` (`rr_event.c`), the callbacks of a client, the work
done before polling and in `server_cron`, and `rr_client_free` (`rr_server.c`). Clients are
named by addresses that are never used again, so that a use of a freed client is seen: it
stops the execution. The sockets on which the server listens are left out of the table of
events, since they stay registered; an accept is a step of its own.
-/

namespace RhinoRox

inductive Callback where
  | handleReadFromClient
  | replyWriteCallback
  deriving DecidableEq

/-- `RR_EV_READ` and `RR_EV_WRITE`. -/
inductive EvMask where
  | read
  | write
  deriving DecidableEq

/-- `event_t`; `read` and `write` are the bits of its mask. -/
structure Event where
  read : Bool
  write : Bool
  readCb : Option Callback
  writeCb : Option Callback
  ud : Option ℕ

def Event.add (e : Event) (mask : EvMask) (proc : Callback) (ud : ℕ) : Event :=
  match mask with
  | .read => { e with read := true, readCb := some proc, ud := some ud }
  | .write => { e with write := true, writeCb := some proc, ud := some ud }

def Event.del (e : Event) : EvMask → Event
  | .read => { e with read := false }
  | .write => { e with write := false }

/-- A client with the flag `CLIENT_CLOSE_ASAP`. -/
structure Conn where
  client : Client
  closeAsap : Bool

/-- The event loop, the lists of the server, the clients that are not freed and the state
behind the commands. -/
structure Loop (σ : Type) where
  size : ℕ
  events : ℤ → Event
  maxClients : ℕ
  next : ℕ
  heap : ℕ → Option Conn
  clients : List ℕ
  clientsWithPendingWrites : List ℕ
  clientsToClose : List ℕ
  state : σ

namespace Loop
variable {σ : Type}

/-- The server before the first connection. -/
def start (size maxClients : ℕ) (state : σ) : Loop σ where
  size := size
  events := fun _ => ⟨false, false, none, none, none⟩
  maxClients := maxClients
  next := 0
  heap := fun _ => none
  clients := []
  clientsWithPendingWrites := []
  clientsToClose := []
  state := state

/-- Follow a pointer to a client. -/
def load (l : Loop σ) (id : ℕ) : Exec Conn :=
  match l.heap id with
  | some c => pure c
  | none => throw .freedMemory

def store (l : Loop σ) (id : ℕ) (c : Conn) : Loop σ := { l with heap := Function.update l.heap id (some c) }

def setEvent (l : Loop σ) (fd : ℤ) (e : Event) : Loop σ := { l with events := Function.update l.events fd e }

/-- `el_event_add`; `epoll` is whether `epoll_ctl` succeeds. -/
def elEventAdd (l : Loop σ) (fd : ℤ) (mask : EvMask) (proc : Callback) (ud : ℕ) (epoll : Bool) : Option (Loop σ) :=
  if fd ≥ l.size then none
  else if !epoll then none
  else some (l.setEvent fd ((l.events fd).add mask proc ud))

/-- `el_event_del`; what `epoll_ctl` returns is not looked at. -/
def elEventDel (l : Loop σ) (fd : ℤ) (mask : EvMask) : Loop σ :=
  if fd ≥ l.size then l else l.setEvent fd ((l.events fd).del mask)

/-- `unlink_client`. -/
def unlinkClient (l : Loop σ) (id : ℕ) (fd : ℤ) : Exec (Loop σ) :=
  if fd ≠ -1 then
    if id ∈ l.clients then
      let l := { l with clients := l.clients.erase id }
      pure ((l.elEventDel fd .read).elEventDel fd .write)
    else throw .assertion
  else pure l

/-- `rr_client_free`. A client that was freed before is followed once more. -/
def rrClientFree (l : Loop σ) (id : ℕ) : Exec (Loop σ) := do
  let c ← l.load id
  let l ← l.unlinkClient id c.client.fd
  pure { l with heap := Function.update l.heap id none }

/-- `free_client_async`. -/
def freeClientAsync (l : Loop σ) (id : ℕ) : Exec (Loop σ) := do
  let c ← l.load id
  if c.closeAsap then pure l
  else pure { l.store id { c with closeAsap := true } with clientsToClose := l.clientsToClose ++ [id] }

/-- Whether a descriptor is the one of a client. -/
def inUse (l : Loop σ) (fd : ℤ) : Bool :=
  l.clients.any fun id => (l.heap id).any fun c => c.client.fd = fd

/-- `add_client` on what `accept` returned. The kernel returns no descriptor that is open. -/
def addClient (l : Loop σ) (fd : ℤ) (epoll : Bool) : Exec (Loop σ) :=
  if fd < 0 ∨ l.inUse fd then pure l
  else
    let id := l.next
    let l := { l with next := l.next + 1 }
    match l.elEventAdd fd .read .handleReadFromClient id epoll with
    | none => pure l
    | some l =>
      let l := { l.store id ⟨rrClientCreate fd, false⟩ with clients := l.clients ++ [id] }
      if l.clients.length > l.maxClients then l.rrClientFree id else pure l

section Callbacks
variable (exec : σ → List StrEnc → σ × List ReplyCall)

/-- `handle_read_from_client` as a callback. The client is put into the list of pending writes
together with its flag, and nothing in the callback clears the flag. -/
def handleRead (l : Loop σ) (id : ℕ) (out : ReadOutcome) : Exec (Loop σ) := do
  let c ← l.load id
  match ← handleReadFromClient (cmdProcess exec) l.state c.client out with
  | none => l.rrClientFree id
  | some (s, client) =>
    let l := { l.store id { c with client := client } with state := s }
    pure (if client.pendingWrite && !c.client.pendingWrite then
      { l with clientsWithPendingWrites := id :: l.clientsWithPendingWrites }
    else l)

/-- `reply_write_callback`. -/
def replyWriteCallback (l : Loop σ) (id : ℕ) (outs : List WriteOutcome) : Exec (Loop σ) := do
  let c ← l.load id
  let r := replyWriteToClient c.client true outs
  let l := if r.eventDel then l.elEventDel c.client.fd .write else l
  match r.client with
  | none => l.rrClientFree id
  | some client => pure (l.store id { c with client := client })

/-- Call a registered callback with its user data. -/
def callback (l : Loop σ) (cb : Option Callback) (ud : Option ℕ) (out : ReadOutcome) (outs : List WriteOutcome) :
    Exec (Loop σ) :=
  match cb, ud with
  | some .handleReadFromClient, some id => l.handleRead exec id out
  | some .replyWriteCallback, some id => l.replyWriteCallback id outs
  | _, _ => throw .wildPointer

/-- One fired event in `el_loop_poll`; the mask is looked at again after the first callback. -/
def fired (l : Loop σ) (fd : ℤ) (readable writable : Bool) (out : ReadOutcome) (outs : List WriteOutcome) :
    Exec (Loop σ) := do
  let rfired := (l.events fd).read && readable
  let l ← if rfired then l.callback exec (l.events fd).readCb (l.events fd).ud out outs else pure l
  let e := l.events fd
  if e.write && writable then
    if !rfired || e.writeCb ≠ e.readCb then l.callback exec e.writeCb e.ud out outs else pure l
  else pure l

/-- One turn of the loop of `handle_clients_with_pending_writes`. -/
def writePending (l : Loop σ) (id : ℕ) (outs : List WriteOutcome) (epoll : Bool) : Exec (Loop σ) := do
  let c ← l.load id
  let client := { c.client with pendingWrite := false }
  let l := { l.store id { c with client := client } with
    clientsWithPendingWrites := l.clientsWithPendingWrites.erase id }
  match (replyWriteToClient client false outs).client with
  | none => l.rrClientFree id
  | some client =>
    let l := l.store id { c with client := client }
    if clientHasPendingReplies client then
      match l.elEventAdd client.fd .write .replyWriteCallback id epoll with
      | some l => pure l
      | none => l.freeClientAsync id
    else pure l

/-- `handle_clients_with_pending_writes`: the outcomes of the calls of `write` and of
`epoll_ctl` are given for each client. -/
def handlePendingWrites (l : Loop σ) (outs : ℕ → List WriteOutcome) (epoll : ℕ → Bool) : Exec (Loop σ) :=
  l.clientsWithPendingWrites.foldlM (fun l id => l.writePending id (outs id) (epoll id)) l

/-- One turn of the loop of `handle_async_freed_clients`. -/
def freeAsync (l : Loop σ) (id : ℕ) : Exec (Loop σ) := do
  let c ← l.load id
  let l ← (l.store id { c with closeAsap := false }).rrClientFree id
  pure { l with clientsToClose := l.clientsToClose.erase id }

/-- `handle_async_freed_clients`. -/
def handleAsyncFreed (l : Loop σ) : Exec (Loop σ) := l.clientsToClose.foldlM freeAsync l

/-- The steps of the loop. -/
inductive Op where
  | accept (fd : ℤ) (epoll : Bool)
  | event (fd : ℤ) (readable writable : Bool) (out : ReadOutcome) (outs : List WriteOutcome)
  | beforePolling (outs : ℕ → List WriteOutcome) (epoll : ℕ → Bool)
  | cron

def step (l : Loop σ) : Op → Exec (Loop σ)
  | .accept fd epoll => l.addClient fd epoll
  | .event fd readable writable out outs => l.fired exec fd readable writable out outs
  | .beforePolling outs epoll => l.handlePendingWrites outs epoll
  | .cron => l.handleAsyncFreed

/-- A run of the loop. -/
def run (l : Loop σ) : List Op → Exec (Loop σ)
  | [] => pure l
  | op :: ops => do
    let l ← l.step exec op
    l.run ops

end Callbacks

end Loop

end RhinoRox
