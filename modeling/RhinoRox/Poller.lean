import Mathlib.Data.Finset.Basic
import RhinoRox.ByteStrings

/-!
# Registered events, from `rr_event.c`, `rr_epoll.c` and `rr_kqueue.c`

The table of events of an event loop and what the kernel watches for it. On Linux the kernel keeps
one entry with a mask for each descriptor, on the BSDs one filter for each event. The kernel refuses
a call on a closed descriptor, and it may refuse to watch more for lack of resources.
-/

namespace RhinoRox.Poller

/-- `RR_EV_READ` and `RR_EV_WRITE`, and the filters `EVFILT_READ` and `EVFILT_WRITE`. -/
inductive EvBit where
  | read | write
  deriving DecidableEq, Repr

/-- A mask of the two. -/
structure EvBits where
  read : Bool
  write : Bool
  deriving DecidableEq, Repr

namespace EvBits

def none : EvBits := ⟨false, false⟩

def single : EvBit → EvBits
  | .read => ⟨true, false⟩
  | .write => ⟨false, true⟩

/-- `m | n`. -/
def union (m n : EvBits) : EvBits := ⟨m.read || n.read, m.write || n.write⟩

/-- `m & (~n)`. -/
def minus (m n : EvBits) : EvBits := ⟨m.read && !n.read, m.write && !n.write⟩

end EvBits

/-! ## Linux -/

structure Epoll where
  opened : Finset ℕ
  interest : ℕ → Option EvBits

/-- What both kernels do for an event loop. -/
structure Context (K : Type) where
  opened : K → Finset ℕ
  /-- The descriptor is handed out to the process, or given back, which ends every watch on it. -/
  openFd : K → ℕ → K
  closeFd : K → ℕ → K
  /-- `el_context_add` and `el_context_del`, with the mask that the table has for the descriptor. -/
  add : K → EvBits → ℕ → EvBits → (EvBit → Bool) → K × Bool
  del : K → EvBits → ℕ → EvBits → K

structure Kqueue where
  opened : Finset ℕ
  filters : ℕ → EvBits

/-- `event_t`. -/
structure EventEntry (F : Type) where
  mask : EvBits
  readCb : Option F
  writeCb : Option F
  ud : Option ℕ

/-- `eventloop_t`, with the state of the kernel behind its context. -/
structure EventLoop (K F : Type) where
  size : ℕ
  events : ℕ → EventEntry F
  maxfd : ℤ
  kernel : K

variable {K F : Type}

/-- `el_loop_create`. -/
def elLoopCreate (size : ℕ) (kernel : K) : EventLoop K F where
  size := size
  events := fun _ => ⟨.none, none, none, none⟩
  maxfd := -1
  kernel := kernel

def EventEntry.add (e : EventEntry F) (mask : EvBits) (proc : F) (ud : ℕ) : EventEntry F where
  mask := e.mask.union mask
  readCb := if mask.read then some proc else e.readCb
  writeCb := if mask.write then some proc else e.writeCb
  ud := some ud

def elEventAdd (ctx : Context K) (el : EventLoop K F) (fd : ℕ) (mask : EvBits) (proc : F) (ud : ℕ) (spare : EvBit → Bool) :
    EventLoop K F × Status :=
  if fd ≥ el.size then (el, .error)
  else
    match ctx.add el.kernel (el.events fd).mask fd mask spare with
    | (k, false) => ({ el with kernel := k }, .error)
    | (k, true) =>
      ({ el with
          events := Function.update el.events fd ((el.events fd).add mask proc ud)
          maxfd := if fd > el.maxfd then fd else el.maxfd
          kernel := k }, .ok)

/-- The loop that looks for the greatest descriptor below `j` with an event. -/
def greatestBelow (events : ℕ → EventEntry F) : ℕ → ℤ
  | 0 => -1
  | j + 1 => if (events j).mask ≠ .none then j else greatestBelow events j

def elEventDel (ctx : Context K) (el : EventLoop K F) (fd : ℕ) (mask : EvBits) : EventLoop K F :=
  if fd ≥ el.size then el
  else if (el.events fd).mask = .none then el
  else
    let kernel := ctx.del el.kernel (el.events fd).mask fd mask
    let events := Function.update el.events fd { el.events fd with mask := (el.events fd).mask.minus mask }
    let maxfd := if fd = el.maxfd ∧ (events fd).mask = .none then greatestBelow events el.maxfd.toNat else el.maxfd
    ⟨el.size, events, maxfd, kernel⟩

def elEventGet (el : EventLoop K F) (fd : ℕ) : EvBits := if fd ≥ el.size then .none else (el.events fd).mask

end RhinoRox.Poller
