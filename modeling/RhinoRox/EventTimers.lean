import RhinoRox.MinheapInvariant
import Mathlib.Data.Prod.Lex

/-!
# The timers of `rr_event.c`

Timers wait in a heap ordered by their deadlines. The event loop sleeps until the earliest one,
and afterwards runs the callbacks of those that are due. A callback may add timers to the loop
while the timer that it belongs to is held by a pointer into the array of the heap.
-/

namespace RhinoRox

/-! ## Dates, from `rr_datetime.c` -/

/-- What `rr_dt_now` stores: the seconds and the milliseconds of the time of day. -/
structure DtNow where
  sec : ℤ
  ms : ℤ
  range : 0 ≤ ms ∧ ms < 1000

def DtNow.millis (now : DtNow) : ℤ := now.sec * 1000 + now.ms

/-- Times compare by their seconds first. -/
def DtNow.moment (now : DtNow) : ℤ ×ₗ ℤ := toLex (now.sec, now.ms)

/-- The division of C rounds towards zero. -/
def rrDtExpireAt (now : DtNow) (delta : ℤ) : ℤ × ℤ :=
  let utlSec := now.sec + delta.tdiv 1000
  let utlMs := now.ms + delta.tmod 1000
  if utlMs ≥ 1000 then (utlSec + 1, utlMs - 1000) else (utlSec, utlMs)

def rrDtIsPast (now : DtNow) (sec ms : ℤ) : Bool := now.sec > sec || (now.sec = sec && now.ms ≥ ms)

theorem rrDtIsPast_iff {now : DtNow} {sec ms : ℤ} :
    rrDtIsPast now sec ms = true ↔ toLex (sec, ms) ≤ now.moment := by
  rw [DtNow.moment, Prod.Lex.toLex_le_toLex, rrDtIsPast, Bool.or_eq_true, Bool.and_eq_true]
  simp only [decide_eq_true_eq, gt_iff_lt, ge_iff_le]
  rw [eq_comm (a := now.sec)]

/-- The date lies `delta` milliseconds ahead and has less than 1000 of them. -/
theorem rrDtExpireAt_spec (now : DtNow) {delta : ℤ} (h : 0 < delta) :
    (rrDtExpireAt now delta).1 * 1000 + (rrDtExpireAt now delta).2 = now.millis + delta ∧
      0 ≤ (rrDtExpireAt now delta).2 ∧ (rrDtExpireAt now delta).2 < 1000 := by
  have hr := now.range
  have hd : delta.tdiv 1000 = delta / 1000 := Int.tdiv_eq_ediv_of_nonneg h.le
  have hm : delta.tmod 1000 = delta % 1000 := Int.tmod_eq_emod_of_nonneg h.le
  rw [rrDtExpireAt, DtNow.millis, hd, hm]
  split <;> omega

theorem lt_rrDtExpireAt (now : DtNow) {delta : ℤ} (h : 0 < delta) :
    now.moment < toLex (rrDtExpireAt now delta) := by
  obtain ⟨he, h0, h1⟩ := rrDtExpireAt_spec now h
  have hr := now.range
  rw [DtNow.millis] at he
  rw [DtNow.moment, Prod.Lex.toLex_lt_toLex]
  dsimp only
  omega

/-! ## Timers -/

/-- `ev_timer_t`. -/
structure EvTimer (C U : Type) where
  sec : ℤ
  ms : ℤ
  timerCb : C
  ud : U
  deriving DecidableEq, Repr

variable {C U σ : Type}

def EvTimer.deadline (t : EvTimer C U) : ℤ ×ₗ ℤ := toLex (t.sec, t.ms)

def EvTimer.millis (t : EvTimer C U) : ℤ := t.sec * 1000 + t.ms

/-- The timer with the date `date`. -/
def EvTimer.moveTo (t : EvTimer C U) (date : ℤ × ℤ) : EvTimer C U := { t with sec := date.1, ms := date.2 }

@[simp] theorem EvTimer.moveTo_deadline (t : EvTimer C U) (date : ℤ × ℤ) :
    (t.moveTo date).deadline = toLex date := rfl

def timerCmp (l r : EvTimer C U) : ℤ :=
  if l.sec < r.sec ∨ (l.sec = r.sec ∧ l.ms < r.ms) then -1
  else if l.sec = r.sec ∧ l.ms = r.ms then 0
  else 1

theorem timerCmp_neg {l r : EvTimer C U} : timerCmp l r < 0 ↔ l.deadline < r.deadline := by
  rw [EvTimer.deadline, EvTimer.deadline, Prod.Lex.toLex_lt_toLex, timerCmp]
  split_ifs with h₁ h₂
  · simpa using h₁
  · simpa using h₁
  · simpa using h₁

theorem timerCmp_pos {l r : EvTimer C U} : timerCmp l r > 0 ↔ r.deadline < l.deadline := by
  rw [EvTimer.deadline, EvTimer.deadline, Prod.Lex.toLex_lt_toLex, timerCmp]
  dsimp only
  split_ifs <;> omega

def timerComparator : Comparator (EvTimer C U) where
  comp := timerCmp
  swap l r := timerCmp_neg.trans timerCmp_pos.symm
  trans x y z hxy hyz := by
    rw [← not_lt, ← gt_iff_lt, timerCmp_pos, not_lt] at *
    exact hxy.trans hyz

theorem timer_below {x y : EvTimer C U} : timerComparator.Below x y ↔ x.deadline < y.deadline := timerCmp_neg

/-! ## The time to sleep -/

/-- `struct timeval`. -/
structure Timeval where
  tvSec : ℤ
  tvUsec : ℤ
  deriving DecidableEq, Repr

/-- The milliseconds that `epoll_wait` is given. -/
def Timeval.millis (tvp : Timeval) : ℤ := tvp.tvSec * 1000 + tvp.tvUsec.tdiv 1000

/-- `none` when there is no timer, and the loop then waits for file events alone. -/
def elPollGetTimeout (timers : Minheap (EvTimer C U)) (now : DtNow) : Exec (Option Timeval) := do
  if minheapLen timers = 0 then pure none
  else
    match ← minheapMin timers with
    | none => throw .nullPointer
    | some t =>
      let tvp : Timeval :=
        if t.ms < now.ms then ⟨t.sec - now.sec - 1, (t.ms + 1000 - now.ms) * 1000⟩
        else ⟨t.sec - now.sec, (t.ms - now.ms) * 1000⟩
      let tvp := if tvp.tvSec < 0 then { tvp with tvSec := 0 } else tvp
      let tvp := if tvp.tvUsec < 0 then { tvp with tvUsec := 0 } else tvp
      pure (some tvp)

/-- The loop sleeps exactly until the earliest deadline, and not at all once it has passed. -/
def SleepsUntil (timers : Minheap (EvTimer C U)) (now : DtNow) (t : EvTimer C U) : Prop :=
  ∃ tvp, elPollGetTimeout timers now = .ok (some tvp) ∧ tvp.millis = max 0 (t.millis - now.millis)

theorem elPollGetTimeout_min {timers : Minheap (EvTimer C U)} {t : EvTimer C U} (now : DtNow)
    (hlen : timers.len ≠ 0) (ht : minheapMin timers = .ok (some t)) :
    ∃ tvp, elPollGetTimeout timers now = .ok (some tvp) ∧
      tvp.millis = max 0 (t.sec - now.sec - if t.ms < now.ms then 1 else 0) * 1000 +
        max 0 (t.ms - now.ms + if t.ms < now.ms then 1000 else 0) := by
  have hdiv : ∀ x : ℤ, (x * 1000).tdiv 1000 = x := fun x => Int.mul_tdiv_cancel x (by decide)
  rw [elPollGetTimeout, minheapLen, if_neg hlen, ht]
  refine ⟨_, rfl, ?_⟩
  by_cases hb : t.ms < now.ms
  · simp only [Timeval.millis, hb, if_true]
    split_ifs <;> simp only [hdiv, Int.zero_tdiv] at * <;> omega
  · simp only [Timeval.millis, hb, if_false]
    split_ifs <;> simp only [hdiv, Int.zero_tdiv] at * <;> omega

/-- The earliest timer is the one that `minheap_min` shows, or has the same date. -/
theorem exists_minheapMin {timers : Minheap (EvTimer C U)} (hi : timers.Inv timerComparator) {t : EvTimer C U}
    (ht : t ∈ timers.toMultiset) (hleast : ∀ y ∈ timers.toMultiset, t.deadline ≤ y.deadline) :
    timers.len ≠ 0 ∧ ∃ x, minheapMin timers = .ok (some x) ∧ x.sec = t.sec ∧ x.ms = t.ms := by
  have hpos : 0 < timers.len := by
    rw [← hi.card_toMultiset]
    exact Multiset.card_pos_iff_exists_mem.mpr ⟨t, ht⟩
  obtain ⟨x, hx, hm, hmin⟩ := minheapMin_spec hi hpos
  have hle : x.deadline ≤ t.deadline := by
    rw [← not_lt, ← timer_below]
    exact hmin t ht
  have heq : (x.sec, x.ms) = (t.sec, t.ms) := toLex_inj.mp (le_antisymm hle (hleast x hm))
  exact ⟨hpos.ne', x, hx, congrArg Prod.fst heq, congrArg Prod.snd heq⟩

/-- The borrow from the seconds is clamped away with them, so an overdue timer is waited for by
the rest of a second unless it is overdue by whole seconds. -/
theorem poll_timeout_iff {timers : Minheap (EvTimer C U)} (hi : timers.Inv timerComparator) {t : EvTimer C U}
    (ht : t ∈ timers.toMultiset) (hleast : ∀ y ∈ timers.toMultiset, t.deadline ≤ y.deadline)
    (hms : 0 ≤ t.ms ∧ t.ms < 1000) (now : DtNow) :
    SleepsUntil timers now t ↔ now.millis ≤ t.millis ∨ t.ms = now.ms := by
  obtain ⟨hlen, x, hx, hsec, hmsec⟩ := exists_minheapMin hi ht hleast
  obtain ⟨tvp, hr, hm⟩ := elPollGetTimeout_min now hlen hx
  have hnow := now.range
  rw [hsec, hmsec] at hm
  rw [SleepsUntil, hr]
  simp only [EvTimer.millis, DtNow.millis]
  constructor
  · rintro ⟨tvp', he, hmax⟩
    obtain rfl : tvp = tvp' := Option.some.inj (Except.ok.inj he)
    rw [hm] at hmax
    split_ifs at hmax <;> omega
  · intro h
    refine ⟨tvp, rfl, ?_⟩
    rw [hm]
    split_ifs <;> omega

/-- A heap of one timer. -/
def oneTimer (t : EvTimer C U) : Minheap (EvTimer C U) := ⟨1, ⟨1, 0, [some t]⟩, timerCmp⟩

theorem oneTimer_push (t : EvTimer C U) : minheapPush (minheapCreate 1 timerCmp) t = .ok (oneTimer t) := by
  simp [minheapPush, minheapItem, minheapCreate, arrayCreate, arrayLen, arrayPush, arrayStore, shiftdown, oneTimer]

theorem oneTimer_inv (t : EvTimer C U) : (oneTimer t).Inv timerComparator := by
  obtain ⟨h, hr, hi, -⟩ := minheapPush_spec (minheapCreate_inv timerComparator 1)
    (show (minheapCreate 1 _).len + 1 < 2 ^ 31 by simp [minheapCreate]) t
  have he : minheapPush (minheapCreate 1 timerCmp) t = .ok h := hr
  rw [oneTimer_push] at he
  obtain rfl : oneTimer t = h := Except.ok.inj he
  exact hi

theorem oneTimer_toMultiset (t : EvTimer C U) : (oneTimer t).toMultiset = {t} := by
  simp [oneTimer, Minheap.toMultiset, List.reduceOption]

theorem oneTimer_earliest (t : EvTimer C U) :
    t ∈ (oneTimer t).toMultiset ∧ ∀ y ∈ (oneTimer t).toMultiset, t.deadline ≤ y.deadline := by
  rw [oneTimer_toMultiset]
  simp

theorem poll_timeout_iff_ahead :
    SleepsUntil (oneTimer (⟨12, 5, (), ()⟩ : EvTimer Unit Unit)) ⟨10, 250, by decide⟩ ⟨12, 5, (), ()⟩ := by
  have h := oneTimer_earliest (⟨12, 5, (), ()⟩ : EvTimer Unit Unit)
  exact (poll_timeout_iff (oneTimer_inv _) h.1 h.2 (by decide) ⟨10, 250, by decide⟩).mpr (Or.inl (by decide))

/-- A timer that is one millisecond late is waited for by 999 more. -/
theorem poll_timeout_late :
    elPollGetTimeout (oneTimer (⟨10, 0, (), ()⟩ : EvTimer Unit Unit)) ⟨10, 1, by decide⟩ = .ok (some ⟨0, 999000⟩) ∧
      (⟨0, 999000⟩ : Timeval).millis = 999 ∧
      ¬ SleepsUntil (oneTimer (⟨10, 0, (), ()⟩ : EvTimer Unit Unit)) ⟨10, 1, by decide⟩ ⟨10, 0, (), ()⟩ := by
  have hr : elPollGetTimeout (oneTimer (⟨10, 0, (), ()⟩ : EvTimer Unit Unit)) ⟨10, 1, by decide⟩ =
      .ok (some ⟨0, 999000⟩) := rfl
  refine ⟨hr, by decide, ?_⟩
  rintro ⟨tvp, he, hm⟩
  rw [hr] at he
  obtain rfl : (⟨0, 999000⟩ : Timeval) = tvp := Option.some.inj (Except.ok.inj he)
  revert hm
  decide

/-! ## Running the timers -/

/-- A call of `el_timer_add` by a callback. -/
structure TimerRequest (C U : Type) where
  milliseconds : ℤ
  proc : C
  ud : U
  deriving DecidableEq, Repr

/-- What a callback does: the timers it adds, the value it returns and what it leaves behind for
other callbacks. -/
structure TimerOutcome (C U σ : Type) where
  adds : List (TimerRequest C U)
  result : ℤ
  state : σ

/-- The clock, reading by reading, and the callbacks. -/
structure TimerEnv (C U σ : Type) where
  clock : ℕ → DtNow
  call : C → U → σ → TimerOutcome C U σ

structure TimerLoop (C U σ : Type) where
  timers : Minheap (EvTimer C U)
  reads : ℕ
  state : σ

/-- The timer that `el_timer_add` pushes. -/
def TimerRequest.timer (r : TimerRequest C U) (now : DtNow) : EvTimer C U :=
  ⟨(rrDtExpireAt now r.milliseconds).1, (rrDtExpireAt now r.milliseconds).2, r.proc, r.ud⟩

/-- A pointer into the array of a heap. It dangles once the array has been moved to grow. -/
structure SlotPtr where
  slot : Option ℕ
  block : ℕ

def slotLoad {α : Type} (a : ArrayT α) (p : SlotPtr) : Exec α :=
  if a.elm.length = p.block then arrayLoad a p.slot else throw .freedMemory

def slotStore {α : Type} (a : ArrayT α) (x : α) (p : SlotPtr) : Exec (ArrayT α) :=
  if a.elm.length = p.block then arrayStore a x p.slot else throw .freedMemory

/-- `minheap_push` of an element that lies in the array of the same heap. It is read after the
array has grown. -/
def minheapPushSlot {α : Type} (h : Minheap α) (p : SlotPtr) : Exec (Minheap α) := do
  let x ← slotLoad (minheapItem h).2 p
  minheapPush h x

/-- One turn of the loop of `el_timer_process`: the timer whose callback ran, the reading at which it
was due, the timers its callback added, what it returned and the reading at which it was armed again. -/
structure TimerTurn (C U : Type) where
  timer : EvTimer C U
  now : DtNow
  added : List (EvTimer C U)
  result : ℤ
  rearmedAt : DtNow

section Process
variable (env : TimerEnv C U σ)

def elTimerAdd (l : TimerLoop C U σ) (r : TimerRequest C U) : Exec (TimerLoop C U σ) := do
  let timers ← minheapPush l.timers (r.timer (env.clock l.reads))
  pure { l with timers := timers, reads := l.reads + 1 }

/-- The calls of `el_timer_add` in a callback, with the timers that they make. -/
def elTimerAdds (l : TimerLoop C U σ) : List (TimerRequest C U) → Exec (List (EvTimer C U) × TimerLoop C U σ)
  | [] => pure ([], l)
  | r :: rs => do
    let l' ← elTimerAdd env l r
    let (ts, l'') ← elTimerAdds l' rs
    pure (r.timer (env.clock l.reads) :: ts, l'')

/-- `rr_dt_expire_at` on the timer behind the pointer, which is then pushed. -/
def elTimerRearm (l : TimerLoop C U σ) (millisecond : ℤ) (p : SlotPtr) : Exec (TimerLoop C U σ) := do
  let t ← slotLoad l.timers.array p
  let a ← slotStore l.timers.array (t.moveTo (rrDtExpireAt (env.clock l.reads) millisecond)) p
  let timers ← minheapPushSlot { l.timers with array := a } p
  pure { l with timers := timers, reads := l.reads + 1 }

/-- The callback of the timer that was popped; `minheap_pop` returned a pointer to the slot just
past the heap. -/
def elTimerRun (l : TimerLoop C U σ) (t : EvTimer C U) (now : DtNow) : Exec (TimerTurn C U × TimerLoop C U σ) := do
  let p : SlotPtr := ⟨arrayAt l.timers.array l.timers.len, l.timers.array.elm.length⟩
  let o := env.call t.timerCb t.ud l.state
  let (added, l') ← elTimerAdds env { l with state := o.state } o.adds
  let turn : TimerTurn C U := ⟨t, now, added, o.result, env.clock l'.reads⟩
  if o.result > 0 then do
    let l'' ← elTimerRearm env l' o.result p
    pure (turn, l'')
  else pure (turn, l')

/-- One turn of the loop; no callback runs when it breaks. -/
def elTimerTurn (l : TimerLoop C U σ) : Exec (Option (TimerTurn C U) × TimerLoop C U σ) := do
  match ← minheapMin l.timers with
  | none => throw .nullPointer
  | some t =>
    let now := env.clock l.reads
    if rrDtIsPast now t.sec t.ms then do
      match ← minheapPop l.timers with
      | (none, _) => throw .nullPointer
      | (some t, timers) => do
        let (turn, l') ← elTimerRun env { l with timers := timers, reads := l.reads + 1 } t now
        pure (some turn, l')
    else pure (none, { l with reads := l.reads + 1 })

def elTimerLoop : ℕ → TimerLoop C U σ → Exec (List (TimerTurn C U) × TimerLoop C U σ)
  | 0, l => pure ([], l)
  | len + 1, l => do
    match ← elTimerTurn env l with
    | (none, l') => pure ([], l')
    | (some turn, l') => do
      let (turns, l'') ← elTimerLoop len l'
      pure (turn :: turns, l'')

/-- The number of turns is returned; the number of timers is narrowed to 32 bits. -/
def elTimerProcess (l : TimerLoop C U σ) : Exec (List (TimerTurn C U) × TimerLoop C U σ) :=
  elTimerLoop env (minheapLen l.timers % 2 ^ 32) l

end Process

end RhinoRox
