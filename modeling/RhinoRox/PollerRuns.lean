import RhinoRox.EventLoop
import RhinoRox.LabelledRuns
import RhinoRox.Poller

/-!
# The kernel watches what the table says

On either system, whatever events are added and deleted and whatever descriptors are opened and
closed, the kernel watches exactly the events of the table, as long as a descriptor is closed only
when it has no events left. An addition then fails for lack of resources only.
-/

namespace RhinoRox.Poller

open LabelledRuns

variable {K F : Type} {fd : ℕ} {mask : EvBits}

/-! ## Masks -/

namespace EvBits

theorem union_single_ne_none (m : EvBits) (b : EvBit) : m.union (single b) ≠ .none := by
  intro h
  cases b with
  | read => exact Bool.noConfusion ((Bool.or_true _).symm.trans (congrArg EvBits.read h))
  | write => exact Bool.noConfusion ((Bool.or_true _).symm.trans (congrArg EvBits.write h))

end EvBits

/-! ## Kernels -/

/-- What the table relies on. `Watches k table` says that the kernel watches the events of `table`. -/
structure Lawful (ctx : Context K) (Watches : K → (ℕ → EvBits) → Prop) : Prop where
  openFd {k : K} {table : ℕ → EvBits} (h : Watches k table) (fd : ℕ) :
    Watches (ctx.openFd k fd) table ∧ ctx.opened (ctx.openFd k fd) = insert fd (ctx.opened k)
  closeFd {k : K} {table : ℕ → EvBits} (h : Watches k table) {fd : ℕ} (hfd : table fd = .none) :
    Watches (ctx.closeFd k fd) table ∧ ctx.opened (ctx.closeFd k fd) = (ctx.opened k).erase fd
  add {k : K} {table : ℕ → EvBits} (h : Watches k table) (fd : ℕ) (bit : EvBit) (spare : EvBit → Bool) :
    (fd ∈ ctx.opened k → (∀ b, spare b = true) → (ctx.add k (table fd) fd (.single bit) spare).2 = true) ∧
    ctx.opened (ctx.add k (table fd) fd (.single bit) spare).1 = ctx.opened k ∧
    ((ctx.add k (table fd) fd (.single bit) spare).2 = true → fd ∈ ctx.opened k ∧
      Watches (ctx.add k (table fd) fd (.single bit) spare).1 (Function.update table fd ((table fd).union (.single bit)))) ∧
    ((ctx.add k (table fd) fd (.single bit) spare).2 = false → Watches (ctx.add k (table fd) fd (.single bit) spare).1 table)
  del {k : K} {table : ℕ → EvBits} (h : Watches k table) {fd : ℕ} (hfd : fd ∈ ctx.opened k) (hmask : table fd ≠ .none)
    (mask : EvBits) : Watches (ctx.del k (table fd) fd mask) (Function.update table fd ((table fd).minus mask)) ∧
      ctx.opened (ctx.del k (table fd) fd mask) = ctx.opened k

/-- An entry for each descriptor with an event. -/
def Epoll.Watches (k : Epoll) (table : ℕ → EvBits) : Prop :=
  ∀ fd, k.interest fd = if table fd = .none then none else some (table fd)

def Kqueue.Watches (k : Kqueue) (table : ℕ → EvBits) : Prop := k.filters = table

theorem Epoll.Watches.update {k : Epoll} {table : ℕ → EvBits} (h : k.Watches table) (fd : ℕ) (ev : EvBits) :
    Epoll.Watches { k with interest := Function.update k.interest fd (if ev = .none then none else some ev) }
      (Function.update table fd ev) := by
  intro fd'
  by_cases hfd : fd' = fd
  · subst hfd
    change Function.update _ fd' _ fd' = _
    rw [Function.update_self, Function.update_self]
  · change Function.update _ fd _ fd' = _
    rw [Function.update_of_ne hfd, Function.update_of_ne hfd]
    exact h fd'

/-- The greatest descriptor with an event, or `-1`. -/
structure IsMaxfd (events : ℕ → EventEntry F) (maxfd : ℤ) : Prop where
  le (fd : ℕ) : (events fd).mask ≠ .none → (fd : ℤ) ≤ maxfd
  reached : maxfd = -1 ∨ ∃ fd : ℕ, maxfd = fd ∧ (events fd).mask ≠ .none

theorem greatestBelow_spec (events : ℕ → EventEntry F) (n : ℕ) (h : ∀ fd, n ≤ fd → (events fd).mask = .none) :
    IsMaxfd events (greatestBelow events n) := by
  induction n with
  | zero => exact ⟨fun fd hfd => absurd (h fd (Nat.zero_le fd)) hfd, .inl rfl⟩
  | succ n ih =>
    rw [greatestBelow]
    by_cases hn : (events n).mask = .none
    · rw [if_neg (not_not.mpr hn)]
      refine ih fun fd hfd => ?_
      rcases hfd.eq_or_lt with rfl | hlt
      · exact hn
      · exact h fd hlt
    · rw [if_pos hn]
      refine ⟨fun fd hfd => ?_, .inr ⟨n, rfl, hn⟩⟩
      by_contra hlt
      exact hfd (h fd (by omega))

theorem IsMaxfd.add {events : ℕ → EventEntry F} {maxfd : ℤ} (h : IsMaxfd events maxfd) {e : EventEntry F} (he : e.mask ≠ .none) :
    IsMaxfd (Function.update events fd e) (if (fd : ℤ) > maxfd then fd else maxfd) := by
  constructor
  · intro fd' hfd'
    by_cases hsame : fd' = fd
    · rw [hsame]
      split_ifs <;> omega
    · rw [Function.update_of_ne hsame] at hfd'
      have hle := h.le fd' hfd'
      split_ifs <;> omega
  · by_cases hlt : (fd : ℤ) > maxfd
    · rw [if_pos hlt]
      exact .inr ⟨fd, rfl, by rwa [Function.update_self]⟩
    · rw [if_neg hlt]
      rcases h.reached with hm | ⟨fd', hm, hfd'⟩
      · omega
      · refine .inr ⟨fd', hm, ?_⟩
        by_cases hsame : fd' = fd
        · rwa [hsame, Function.update_self]
        · rwa [Function.update_of_ne hsame]

/-- A bit of the mask is set only where there is a function to call. -/
structure EventEntry.HasCallbacks (e : EventEntry F) : Prop where
  read : e.mask.read = true → e.readCb.isSome = true
  write : e.mask.write = true → e.writeCb.isSome = true

theorem EventEntry.HasCallbacks.add {e : EventEntry F} (h : e.HasCallbacks) (bit : EvBit) (proc : F) (ud : ℕ) :
    (e.add (.single bit) proc ud).HasCallbacks := by
  cases bit with
  | read => exact ⟨fun _ => rfl, fun hw => h.write ((Bool.or_false _).symm.trans hw)⟩
  | write => exact ⟨fun hr => h.read ((Bool.or_false _).symm.trans hr), fun _ => rfl⟩

theorem EventEntry.HasCallbacks.minus {e : EventEntry F} (h : e.HasCallbacks) (mask : EvBits) :
    EventEntry.HasCallbacks { e with mask := e.mask.minus mask } where
  read hr := h.read (Bool.and_eq_true_iff.mp hr).1
  write hw := h.write (Bool.and_eq_true_iff.mp hw).1

/-- The table, the kernel and the descriptors agree. -/
structure Agrees (ctx : Context K) (Watches : K → (ℕ → EvBits) → Prop) (el : EventLoop K F) : Prop where
  watches : Watches el.kernel fun fd => (el.events fd).mask
  inTable (fd : ℕ) : (el.events fd).mask ≠ .none → fd < el.size ∧ fd ∈ ctx.opened el.kernel
  callbacks (fd : ℕ) : (el.events fd).HasCallbacks
  maxfd : IsMaxfd el.events el.maxfd

variable {ctx : Context K} {Watches : K → (ℕ → EvBits) → Prop} {el : EventLoop K F}

theorem mask_update (events : ℕ → EventEntry F) (fd : ℕ) (e : EventEntry F) :
    (fun fd' => (Function.update events fd e fd').mask) = Function.update (fun fd' => (events fd').mask) fd e.mask :=
  Function.comp_update EventEntry.mask events fd e

theorem Agrees.create (kernel : K) (h : Watches kernel fun _ => .none) (size : ℕ) :
    Agrees ctx Watches (elLoopCreate size kernel : EventLoop K F) where
  watches := h
  inTable _ hfd := absurd rfl hfd
  callbacks _ := ⟨fun h => Bool.noConfusion h, fun h => Bool.noConfusion h⟩
  maxfd := ⟨fun _ hfd => absurd rfl hfd, .inl rfl⟩

/-- An event is added to an open descriptor in the table, if the kernel has the resources. -/
theorem Agrees.add (hlaw : Lawful ctx Watches) (h : Agrees ctx Watches el) (fd : ℕ) (bit : EvBit) (proc : F) (ud : ℕ)
    (spare : EvBit → Bool) :
    Agrees ctx Watches (elEventAdd ctx el fd (.single bit) proc ud spare).1 ∧
      (fd < el.size → fd ∈ ctx.opened el.kernel → (∀ b, spare b = true) →
        (elEventAdd ctx el fd (.single bit) proc ud spare).2 = .ok) := by
  obtain ⟨hok, hopened, hyes, hno⟩ := hlaw.add h.watches fd bit spare
  unfold elEventAdd
  by_cases hsize : fd ≥ el.size
  · rw [if_pos hsize]
    exact ⟨h, fun hlt => absurd hlt (not_lt.mpr hsize)⟩
  · rw [if_neg hsize]
    cases hadd : ctx.add el.kernel (el.events fd).mask fd (.single bit) spare with
    | mk k added =>
      simp only [hadd] at hok hopened hyes hno
      cases added with
      | false =>
        refine ⟨⟨hno rfl, ?_, h.callbacks, h.maxfd⟩, fun _ hopen hall => absurd (hok hopen hall) (by decide)⟩
        intro fd' hfd'
        rw [hopened]
        exact h.inTable fd' hfd'
      | true =>
        obtain ⟨hopen, hwatch⟩ := hyes rfl
        refine ⟨⟨?_, ?_, ?_, ?_⟩, fun _ _ _ => rfl⟩
        · simp only [mask_update]
          exact hwatch
        · refine (Function.forall_update_iff el.events fun fd e => e.mask ≠ .none → fd < el.size ∧ fd ∈ ctx.opened k).mpr ?_
          rw [hopened]
          exact ⟨fun _ => ⟨not_le.mp hsize, hopen⟩, fun fd' _ => h.inTable fd'⟩
        · refine (Function.forall_update_iff el.events fun _ e => e.HasCallbacks).mpr ?_
          exact ⟨(h.callbacks fd).add bit proc ud, fun fd' _ => h.callbacks fd'⟩
        · exact h.maxfd.add (EvBits.union_single_ne_none _ _)

theorem EvBits.of_minus_ne_none {m n : EvBits} (h : m.minus n ≠ .none) : m ≠ .none := by
  rintro rfl
  exact h rfl

theorem IsMaxfd.minus {events : ℕ → EventEntry F} {maxfd : ℤ} (h : IsMaxfd events maxfd) {e : EventEntry F}
    (he : e.mask ≠ .none → (events fd).mask ≠ .none) :
    IsMaxfd (Function.update events fd e)
      (if fd = maxfd ∧ (Function.update events fd e fd).mask = .none then greatestBelow (Function.update events fd e) maxfd.toNat
        else maxfd) := by
  have hsub : ∀ fd', (Function.update events fd e fd').mask ≠ .none → (events fd').mask ≠ .none := by
    intro fd' hfd'
    by_cases hsame : fd' = fd
    · subst hsame
      rw [Function.update_self] at hfd'
      exact he hfd'
    · rwa [Function.update_of_ne hsame] at hfd'
  split_ifs with hmax
  · refine greatestBelow_spec _ _ fun fd' hfd' => ?_
    rcases Nat.eq_or_lt_of_le (show fd ≤ fd' by omega) with rfl | hlt
    · exact hmax.2
    · by_contra hne
      have hle := h.le fd' (hsub fd' hne)
      omega
  · refine ⟨fun fd' hfd' => h.le fd' (hsub fd' hfd'), ?_⟩
    rcases h.reached with hm | ⟨fd', hm, hfd'⟩
    · exact .inl hm
    · refine .inr ⟨fd', hm, ?_⟩
      by_cases hsame : fd' = fd
      · subst hsame
        exact fun hnone => hmax ⟨hm.symm, hnone⟩
      · rwa [Function.update_of_ne hsame]

theorem Agrees.del (hlaw : Lawful ctx Watches) (h : Agrees ctx Watches el) (fd : ℕ) (mask : EvBits) :
    Agrees ctx Watches (elEventDel ctx el fd mask) := by
  unfold elEventDel
  by_cases hsize : fd ≥ el.size
  · rwa [if_pos hsize]
  rw [if_neg hsize]
  by_cases hmask : (el.events fd).mask = .none
  · rwa [if_pos hmask]
  rw [if_neg hmask]
  obtain ⟨hwatch, hopened⟩ := hlaw.del h.watches (h.inTable fd hmask).2 hmask mask
  refine ⟨?_, ?_, ?_, h.maxfd.minus EvBits.of_minus_ne_none⟩
  · simp only [mask_update]
    exact hwatch
  · refine (Function.forall_update_iff el.events fun fd e => e.mask ≠ .none → fd < el.size ∧ fd ∈ ctx.opened _).mpr ?_
    rw [hopened]
    exact ⟨fun _ => h.inTable fd hmask, fun fd' _ => h.inTable fd'⟩
  · refine (Function.forall_update_iff el.events fun _ e => e.HasCallbacks).mpr ?_
    exact ⟨(h.callbacks fd).minus mask, fun fd' _ => h.callbacks fd'⟩

/-! ## The table of the event loop model -/

def EventEntry.event (e : EventEntry Callback) : Event := ⟨e.mask.read, e.mask.write, e.readCb, e.writeCb, e.ud⟩

def EvBit.evMask : EvBit → EvMask
  | .read => .read
  | .write => .write

theorem EventEntry.event_add (e : EventEntry Callback) (bit : EvBit) (proc : Callback) (ud : ℕ) :
    (e.add (.single bit) proc ud).event = e.event.add bit.evMask proc ud := by
  cases bit with
  | read => simp [event, EventEntry.add, Event.add, EvBit.evMask, EvBits.union, EvBits.single]
  | write => simp [event, EventEntry.add, Event.add, EvBit.evMask, EvBits.union, EvBits.single]

theorem EventEntry.event_minus (e : EventEntry Callback) (bit : EvBit) :
    EventEntry.event { e with mask := e.mask.minus (.single bit) } = e.event.del bit.evMask := by
  cases bit with
  | read => simp [event, Event.del, EvBit.evMask, EvBits.minus, EvBits.single]
  | write => simp [event, Event.del, EvBit.evMask, EvBits.minus, EvBits.single]

section Shows
variable {σ : Type} {el : EventLoop K Callback} {l : Loop σ}

/-- The model of the event loop has the same table. -/
structure Shows (el : EventLoop K Callback) (l : Loop σ) : Prop where
  size : l.size = el.size
  events (fd : ℕ) : l.events fd = (el.events fd).event

theorem Shows.setEvent (h : Shows el l) {fd : ℕ} {e : EventEntry Callback} {events : ℕ → EventEntry Callback} {maxfd : ℤ}
    {kernel : K} (hevents : events = Function.update el.events fd e) :
    Shows ⟨el.size, events, maxfd, kernel⟩ (l.setEvent fd e.event) := by
  refine ⟨h.size, fun fd' => ?_⟩
  subst hevents
  change Function.update l.events fd e.event fd' = (Function.update el.events fd e fd').event
  by_cases hfd : fd' = fd
  · rw [hfd, Function.update_self, Function.update_self]
  · rw [Function.update_of_ne hfd, Function.update_of_ne (by exact_mod_cast hfd), h.events]

/-- Its `el_event_add` is told whether the kernel accepts the event. -/
theorem Shows.add (ctx : Context K) (h : Shows el l) (fd : ℕ) (bit : EvBit) (proc : Callback) (ud : ℕ) (spare : EvBit → Bool) :
    ∃ accepted l', l.elEventAdd fd bit.evMask proc ud accepted = (if accepted then some l' else none) ∧
      ((elEventAdd ctx el fd (.single bit) proc ud spare).2 = .ok ↔ accepted = true) ∧
      Shows (elEventAdd ctx el fd (.single bit) proc ud spare).1 (if accepted then l' else l) := by
  have hsize := h.size
  unfold elEventAdd
  by_cases hfar : fd ≥ el.size
  · rw [if_pos hfar]
    refine ⟨false, l, ?_, iff_of_false (by intro h; cases h) (by decide), h⟩
    rw [Loop.elEventAdd, if_pos (by omega)]
    rfl
  · have hnear : ¬ (fd : ℤ) ≥ l.size := by omega
    rw [if_neg hfar]
    cases hadd : ctx.add el.kernel (el.events fd).mask fd (.single bit) spare with
    | mk k added =>
      cases added with
      | false =>
        refine ⟨false, l, ?_, iff_of_false (by intro h; cases h) (by decide), ⟨hsize, h.events⟩⟩
        rw [Loop.elEventAdd, if_neg hnear]
        rfl
      | true =>
        refine ⟨true, l.setEvent fd ((el.events fd).add (.single bit) proc ud).event, ?_, iff_of_true rfl rfl, h.setEvent rfl⟩
        rw [Loop.elEventAdd, if_neg hnear, h.events, EventEntry.event_add]
        rfl

/-- An event that is not registered is deleted without effect. -/
theorem Shows.setEvent_self (h : Shows el l) (fd : ℕ) : l.setEvent fd (el.events fd).event = l := by
  rw [Loop.setEvent, ← h.events, Function.update_eq_self]

theorem Shows.del (ctx : Context K) (h : Shows el l) (fd : ℕ) (bit : EvBit) :
    Shows (elEventDel ctx el fd (.single bit)) (l.elEventDel fd bit.evMask) := by
  have hsize := h.size
  unfold elEventDel Loop.elEventDel
  by_cases hfar : fd ≥ el.size
  · rwa [if_pos hfar, if_pos (by omega)]
  · have hnear : ¬ (fd : ℤ) ≥ l.size := by omega
    rw [if_neg hfar, if_neg hnear, h.events, ← EventEntry.event_minus]
    by_cases hmask : (el.events fd).mask = .none
    · have hsame : EventEntry.mk ((el.events fd).mask.minus (.single bit)) (el.events fd).readCb (el.events fd).writeCb
          (el.events fd).ud = el.events fd := by
        rw [hmask, show EvBits.none.minus (.single bit) = .none from rfl, ← hmask]
      rw [if_pos hmask, hsame, h.setEvent_self]
      exact h
    · rw [if_neg hmask]
      exact h.setEvent rfl

end Shows

/-! ## Runs -/

/-- A call of the loop, or a descriptor that is opened or closed. One event is added at a time. -/
inductive Call (F : Type) where
  | opened (fd : ℕ)
  | closed (fd : ℕ)
  | add (fd : ℕ) (bit : EvBit) (proc : F) (ud : ℕ) (spare : EvBit → Bool)
  | del (fd : ℕ) (mask : EvBits)

def exec (ctx : Context K) (el : EventLoop K F) : Call F → EventLoop K F
  | .opened fd => { el with kernel := ctx.openFd el.kernel fd }
  | .closed fd => { el with kernel := ctx.closeFd el.kernel fd }
  | .add fd bit proc ud spare => (elEventAdd ctx el fd (.single bit) proc ud spare).1
  | .del fd mask => elEventDel ctx el fd mask

/-- A descriptor is closed when the table has no event for it, as `unlink_client` and `add_client` do. -/
inductive Step (ctx : Context K) : EventLoop K F → Call F → EventLoop K F → Prop where
  | call {el : EventLoop K F} {call : Call F} (hclose : ∀ fd, call = .closed fd → (el.events fd).mask = .none) :
      Step ctx el call (exec ctx el call)

theorem Agrees.step (hlaw : Lawful ctx Watches) (h : Agrees ctx Watches el) {call : Call F} {el' : EventLoop K F}
    (step : Step ctx el call el') : Agrees ctx Watches el' := by
  obtain ⟨hclose⟩ := step
  cases call with
  | opened fd =>
    obtain ⟨hwatch, hopened⟩ := hlaw.openFd h.watches fd
    refine ⟨hwatch, fun fd' hfd' => ?_, h.callbacks, h.maxfd⟩
    obtain ⟨hlt, hopen⟩ := h.inTable fd' hfd'
    exact ⟨hlt, hopened ▸ Finset.mem_insert_of_mem hopen⟩
  | closed fd =>
    have hnone := hclose fd rfl
    obtain ⟨hwatch, hopened⟩ := hlaw.closeFd h.watches hnone
    refine ⟨hwatch, fun fd' hfd' => ?_, h.callbacks, h.maxfd⟩
    obtain ⟨hlt, hopen⟩ := h.inTable fd' hfd'
    have hne : fd' ≠ fd := by
      rintro rfl
      exact hfd' hnone
    exact ⟨hlt, hopened ▸ Finset.mem_erase_of_ne_of_mem hne hopen⟩
  | add fd bit proc ud spare => exact (h.add hlaw fd bit proc ud spare).1
  | del fd mask => exact h.del hlaw fd mask

end RhinoRox.Poller
