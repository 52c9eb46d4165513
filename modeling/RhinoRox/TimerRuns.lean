import RhinoRox.EventTimers
import Mathlib.Algebra.Order.Group.Multiset
import Mathlib.Tactic.Abel

/-!
# What a call of `el_timer_process` does

A turn of the loop is right when it runs the earliest timer, which is due, and leaves the other
timers, those that the callback added and the timer itself if it is armed again. The pointer to
the popped timer stays good as long as its callback does not push into the same array.
-/

namespace RhinoRox

open ImplicitHeap

variable {C U σ : Type}

/-! ## The steps of a turn -/

section Steps
variable (env : TimerEnv C U σ)

/-- The timers that requests make when the clock is read for them one after another. -/
def addedTimers (reads : ℕ) : List (TimerRequest C U) → List (EvTimer C U)
  | [] => []
  | r :: rs => r.timer (env.clock reads) :: addedTimers (reads + 1) rs

theorem elTimerAdds_spec {l : TimerLoop C U σ} (hi : l.timers.Inv timerComparator) (rs : List (TimerRequest C U))
    (hroom : l.timers.len + rs.length < 2 ^ 31) :
    ∃ timers, elTimerAdds env l rs =
        .ok (addedTimers env l.reads rs, { l with timers := timers, reads := l.reads + rs.length }) ∧
      timers.Inv timerComparator ∧ timers.len = l.timers.len + rs.length ∧
      timers.toMultiset = addedTimers env l.reads rs + l.timers.toMultiset := by
  induction rs generalizing l with
  | nil => exact ⟨l.timers, rfl, hi, rfl, by simp [addedTimers]⟩
  | cons r rs ih =>
    rw [List.length_cons] at hroom
    obtain ⟨h, hr, hih, hl, hm, -⟩ := minheapPush_spec hi (by omega) (r.timer (env.clock l.reads))
    obtain ⟨timers, hr', hi', hl', hm'⟩ := ih (l := { l with timers := h, reads := l.reads + 1 }) hih
      (by simp only; omega)
    refine ⟨timers, ?_, hi', by rw [hl', hl, List.length_cons]; omega, ?_⟩
    · rw [elTimerAdds, elTimerAdd, hr]
      simp only [Exec.ok_bind, Exec.pure_eq, hr', addedTimers, List.length_cons]
      rw [Nat.add_right_comm, Nat.add_assoc]
    · rw [hm', hm, addedTimers, ← Multiset.cons_coe, Multiset.cons_add, Multiset.add_cons]

/-- A push that returns had room. -/
theorem Minheap.Shaped.room_of_push {α : Type} {c : Comparator α} {h h' : Minheap α} (hs : h.Shaped c) {x : α}
    (hp : minheapPush h x = .ok h') : h.len + 1 < 2 ^ 31 := by
  by_contra hfull
  have hle := hs.len_le
  have hsmall := hs.array.small
  rw [minheapPush_overflow hs (by omega) (by omega)] at hp
  cases hp

/-- More requests than there is room for run into the end of the array. -/
theorem elTimerAdds_room {l : TimerLoop C U σ} (hi : l.timers.Inv timerComparator) {rs : List (TimerRequest C U)}
    {r : List (EvTimer C U) × TimerLoop C U σ} (h : elTimerAdds env l rs = .ok r) :
    l.timers.len + rs.length < 2 ^ 31 := by
  have hle := hi.len_le
  have hsmall := hi.array.small
  induction rs generalizing l r with
  | nil => simpa using hle.trans_lt hsmall
  | cons q rs ih =>
    by_cases hs : l.timers.len + 1 < 2 ^ 31
    · obtain ⟨timers, hr, hir, hl, -⟩ := minheapPush_spec hi hs (q.timer (env.clock l.reads))
      rw [elTimerAdds, elTimerAdd, hr, Exec.ok_bind, Exec.pure_eq, Exec.ok_bind] at h
      cases hrest : elTimerAdds env { l with timers := timers, reads := l.reads + 1 } rs with
      | error e =>
        rw [hrest] at h
        cases h
      | ok r' =>
        have := ih (l := { l with timers := timers, reads := l.reads + 1 }) hir hrest hir.len_le hir.array.small
        simp only at this
        rw [List.length_cons]
        omega
    · rw [elTimerAdds, elTimerAdd] at h
      cases hp : minheapPush l.timers (q.timer (env.clock l.reads)) with
      | error e =>
        rw [hp] at h
        cases h
      | ok h' => exact absurd (hi.shaped.room_of_push hp) hs

/-- Storing to a slot of the array. -/
theorem Minheap.Inv.storeSlot {α : Type} {c : Comparator α} {h : Minheap α} (hi : h.Inv c) {i : ℕ}
    (hn : i < h.array.nelm) (x : α) :
    ∃ a, arrayStore h.array x (some i) = .ok a ∧ SameSize h.array a ∧ a.Inv ∧
      a.view x = Function.update (h.array.view x) i x := by
  obtain ⟨a, ha, hia, -, hv⟩ := hi.array.store x x hn
  exact ⟨a, ha, arrayStore_size ha, hia, hv⟩

/-- Storing past the heap changes none of its elements. -/
theorem Minheap.Inv.storePast {α : Type} {c : Comparator α} {h : Minheap α} (hi : h.Inv c) {i : ℕ}
    (hlen : h.len ≤ i) (hn : i < h.array.nelm) (x : α) :
    ∃ a, arrayStore h.array x (some i) = .ok a ∧ a.elm.length = h.array.elm.length ∧ a.nelm = h.array.nelm ∧
      Minheap.Inv c { h with array := a } ∧ Minheap.toMultiset { h with array := a } = h.toMultiset ∧
      arrayLoad a (some i) = .ok x := by
  obtain ⟨a, ha, hsize, hia, hv⟩ := hi.storeSlot hn x
  have hna := hsize.nelm
  have hsame : ∀ j < h.len, a.view x j = h.array.view x j := by
    intro j hj
    rw [hv, Function.update_of_ne (by omega)]
  have hinv : Minheap.Inv c { h with array := a } := by
    refine ⟨hia, hna ▸ hi.len_le, hi.comp, fun d => ?_⟩
    refine (hi.ordered x).congr fun j hj => ?_
    rw [← hsame j hj]
    exact hia.view_eq x d (hna ▸ hj.trans_le hi.len_le)
  refine ⟨a, ha, hsize.length, hna, hinv, ?_, ?_⟩
  · rw [hinv.toMultiset_eq x, hi.toMultiset_eq x]
    exact elems_congr hsame
  · rw [hia.load x (hna ▸ hn), hv, Function.update_self]

/-- The timer in the slot past the heap is armed again, and the push reuses its slot. -/
theorem elTimerRearm_spec {l : TimerLoop C U σ} (hi : l.timers.Inv timerComparator)
    (hn : l.timers.len < l.timers.array.nelm) {t : EvTimer C U}
    (ht : arrayLoad l.timers.array (some l.timers.len) = .ok t) (millisecond : ℤ) :
    ∃ timers, elTimerRearm env l millisecond ⟨some l.timers.len, l.timers.array.elm.length⟩ =
        .ok { l with timers := timers, reads := l.reads + 1 } ∧
      timers.Inv timerComparator ∧ timers.len = l.timers.len + 1 ∧
      timers.toMultiset = t.moveTo (rrDtExpireAt (env.clock l.reads) millisecond) ::ₘ l.timers.toMultiset := by
  obtain ⟨a, ha, hlen, hna, hia, hma, hload⟩ := hi.storePast le_rfl hn
    (t.moveTo (rrDtExpireAt (env.clock l.reads) millisecond))
  have hitem : minheapItem { l.timers with array := a } = (arrayAt a l.timers.len, a) := by
    rw [minheapItem, arrayLen, if_neg (by simp only; omega)]
  have hsmall := hi.array.small
  obtain ⟨timers, hr, hir, hlr, hmr, -⟩ := minheapPush_spec hia (by simp only; omega)
    (t.moveTo (rrDtExpireAt (env.clock l.reads) millisecond))
  refine ⟨timers, ?_, hir, hlr, by rw [hmr, hma]⟩
  simp only [elTimerRearm, slotLoad, slotStore, if_true, ht, Exec.ok_bind, ha, minheapPushSlot, hitem, hlen, hload, hr,
    Exec.pure_eq]

/-- The array that a push goes to has the slots of the old one in front. -/
theorem minheapItem_elm {α : Type} (h : Minheap α) : ∃ m, (minheapItem h).2.elm = h.array.elm ++ List.replicate m none := by
  by_cases hfull : h.len = h.array.nelm
  · obtain ⟨nrest, m, hpush, -⟩ := arrayPush_eq h.array
    rw [minheapItem_of_full hfull, hpush]
    exact ⟨m, rfl⟩
  · rw [minheapItem_of_not_full hfull]
    exact ⟨0, by simp⟩

theorem minheapItem_elm_of_length {α : Type} {h : Minheap α}
    (hlen : (minheapItem h).2.elm.length = h.array.elm.length) : (minheapItem h).2.elm = h.array.elm := by
  obtain ⟨m, hm⟩ := minheapItem_elm h
  obtain rfl : m = 0 := by
    rw [hm, List.length_append, List.length_replicate] at hlen
    omega
  simpa using hm

theorem arrayLoad_congr {α : Type} {a b : ArrayT α} (h : a.elm = b.elm) (i : Option ℕ) : arrayLoad a i = arrayLoad b i := by
  cases i with
  | none => rfl
  | some i => simp only [arrayLoad, h]

/-- A pointer that can still be read has not been moved. -/
theorem slotLoad_eq_ok {α : Type} {a : ArrayT α} {p : SlotPtr} {x : α} (h : slotLoad a p = .ok x) :
    a.elm.length = p.block ∧ arrayLoad a p.slot = .ok x := by
  rw [slotLoad] at h
  split at h
  · rename_i hb
    exact ⟨hb, h⟩
  · cases h

/-- The pointer is to a timer in the heap: that one is given the new date, and a copy of it is pushed. -/
theorem elTimerRearm_live {l l' : TimerLoop C U σ} (hi : l.timers.Inv timerComparator) {i block : ℕ}
    (hlt : i < l.timers.len) {millisecond : ℤ} (h : elTimerRearm env l millisecond ⟨some i, block⟩ = .ok l') :
    ∃ x, slotLoad l.timers.array ⟨some i, block⟩ = .ok x ∧ (minheapItem l.timers).2.elm.length = block ∧
      l.timers.len + 1 < 2 ^ 31 ∧
      x ::ₘ l'.timers.toMultiset = x.moveTo (rrDtExpireAt (env.clock l.reads) millisecond) ::ₘ
        x.moveTo (rrDtExpireAt (env.clock l.reads) millisecond) ::ₘ l.timers.toMultiset := by
  have hn : i < l.timers.array.nelm := hlt.trans_le hi.len_le
  cases hx : slotLoad l.timers.array ⟨some i, block⟩ with
  | error e =>
    rw [elTimerRearm, hx] at h
    cases h
  | ok x =>
    obtain ⟨hblock, hload⟩ := slotLoad_eq_ok hx
    rw [elTimerRearm, hx, Exec.ok_bind, slotStore, if_pos hblock] at h
    generalize hx' : x.moveTo (rrDtExpireAt (env.clock l.reads) millisecond) = x' at h
    obtain ⟨a, ha, hsize, hia, hv⟩ := hi.storeSlot hn x'
    have hna := hsize.nelm
    rw [ha, Exec.ok_bind] at h
    have hshaped : Minheap.Shaped timerComparator { l.timers with array := a } := ⟨hia, hna ▸ hi.len_le, hi.comp⟩
    cases hp : minheapPushSlot { l.timers with array := a } ⟨some i, block⟩ with
    | error e =>
      rw [hp] at h
      cases h
    | ok timers =>
      rw [hp, Exec.ok_bind] at h
      obtain rfl := Except.ok.inj h
      cases hy : slotLoad (minheapItem { l.timers with array := a }).2 ⟨some i, block⟩ with
      | error e =>
        rw [minheapPushSlot, hy] at hp
        cases hp
      | ok y =>
        rw [minheapPushSlot, hy, Exec.ok_bind] at hp
        obtain ⟨hblock', hload'⟩ := slotLoad_eq_ok hy
        have hitem : (minheapItem { l.timers with array := a }).2.elm = a.elm :=
          minheapItem_elm_of_length (hblock'.trans (hblock.symm.trans hsize.length.symm))
        rw [arrayLoad_congr hitem, hia.load x' (hna ▸ hn), hv, Function.update_self] at hload'
        obtain rfl := Except.ok.inj hload'
        have hroom : l.timers.len + 1 < 2 ^ 31 := hshaped.room_of_push hp
        obtain ⟨timers', hr, -, -, hm, -⟩ := minheapPush_shaped hshaped hroom x'
        obtain rfl : timers' = timers := Except.ok.inj (hr.symm.trans hp)
        have hview : l.timers.array.view x' i = x := Except.ok.inj ((hi.array.load x' hn).symm.trans hload)
        refine ⟨x, rfl, hsize.item_length.symm.trans hblock', hroom, ?_⟩
        have hswap := elems_update (l.timers.array.view x') hlt x'
        rw [hview, ← hi.toMultiset_eq x', ← hv] at hswap
        rw [hx', hm, Multiset.cons_swap, hshaped.toMultiset_eq x', hswap]

/-- If that timer is what the popped one is to become, nothing is lost. -/
theorem elTimerRearm_alike {l : TimerLoop C U σ} (hi : l.timers.Inv timerComparator) {i block : ℕ} {millisecond : ℤ}
    {t : EvTimer C U} (hroom : l.timers.len + 1 < 2 ^ 31) (hitem : (minheapItem l.timers).2.elm.length = block)
    (ht : slotLoad l.timers.array ⟨some i, block⟩ =
      .ok (t.moveTo (rrDtExpireAt (env.clock l.reads) millisecond))) :
    ∃ timers, elTimerRearm env l millisecond ⟨some i, block⟩ =
        .ok { l with timers := timers, reads := l.reads + 1 } ∧
      timers.Inv timerComparator ∧
      timers.toMultiset = t.moveTo (rrDtExpireAt (env.clock l.reads) millisecond) ::ₘ l.timers.toMultiset := by
  obtain ⟨hblock, hload⟩ := slotLoad_eq_ok ht
  have hmove : (t.moveTo (rrDtExpireAt (env.clock l.reads) millisecond)).moveTo
      (rrDtExpireAt (env.clock l.reads) millisecond) =
        t.moveTo (rrDtExpireAt (env.clock l.reads) millisecond) := rfl
  generalize t.moveTo (rrDtExpireAt (env.clock l.reads) millisecond) = x at *
  -- the slot is overwritten by what it holds
  have hget : l.timers.array.elm[i]? = some (some x) := by
    simp only [arrayLoad] at hload
    split at hload
    · cases hload
    · cases hload
    · rename_i y hy
      rw [hy, Except.ok.inj hload]
  have hstore : slotStore l.timers.array x ⟨some i, block⟩ = .ok l.timers.array := by
    obtain ⟨hlt, hval⟩ := List.getElem?_eq_some_iff.mp hget
    rw [slotStore, if_pos hblock, arrayStore, if_pos hlt, ← hval, List.set_getElem_self]
    rfl
  have hslot : slotLoad (minheapItem l.timers).2 ⟨some i, block⟩ = .ok x := by
    rw [slotLoad, if_pos hitem, arrayLoad_congr (minheapItem_elm_of_length (hitem.trans hblock.symm))]
    exact hload
  obtain ⟨timers, hr, hir, -, hm, -⟩ := minheapPush_spec hi hroom x
  refine ⟨timers, ?_, hir, hm⟩
  rw [elTimerRearm, ht, Exec.ok_bind, hmove, hstore, Exec.ok_bind, minheapPushSlot]
  simp only [hslot, Exec.ok_bind, hr, Exec.pure_eq]

end Steps

/-! ## One turn -/

/-- The timer as it is armed again, if its callback asked for it. -/
def TimerTurn.rearmed (turn : TimerTurn C U) : List (EvTimer C U) :=
  if turn.result > 0 then [turn.timer.moveTo (rrDtExpireAt turn.rearmedAt turn.result)] else []

section Turn
variable (env : TimerEnv C U σ)

/-- The turn ran the earliest timer, which was due, with its own callback and data, and the heap
holds all other timers, those added and the one armed again. -/
structure TurnServed (l l' : TimerLoop C U σ) (turn : TimerTurn C U) : Prop where
  least : ∀ y ∈ l.timers.toMultiset, turn.timer.deadline ≤ y.deadline
  now : turn.now = env.clock l.reads
  due : turn.timer.deadline ≤ turn.now.moment
  result : turn.result = (env.call turn.timer.timerCb turn.timer.ud l.state).result
  added : turn.added = addedTimers env (l.reads + 1) (env.call turn.timer.timerCb turn.timer.ud l.state).adds
  rearmedAt : turn.rearmedAt =
    env.clock (l.reads + 1 + (env.call turn.timer.timerCb turn.timer.ud l.state).adds.length)
  state : l'.state = (env.call turn.timer.timerCb turn.timer.ud l.state).state
  reads : l.reads < l'.reads
  heap : turn.timer ::ₘ l'.timers.toMultiset = l.timers.toMultiset + turn.added + turn.rearmed
  ordered : l'.timers.Inv timerComparator

/-- The turn is right: no timer is due, or the earliest is served. -/
def TurnRight (l : TimerLoop C U σ) : Prop :=
  (elTimerTurn env l = .ok (none, { l with reads := l.reads + 1 }) ∧
    ∀ y ∈ l.timers.toMultiset, (env.clock l.reads).moment < y.deadline) ∨
  ∃ turn l', elTimerTurn env l = .ok (some turn, l') ∧ TurnServed env l l' turn

/-- The loop when the callback of the timer `t` starts, with `timers` left in the heap. -/
def afterPop (l : TimerLoop C U σ) (t : EvTimer C U) (timers : Minheap (EvTimer C U)) : TimerLoop C U σ :=
  ⟨timers, l.reads + 1, (env.call t.timerCb t.ud l.state).state⟩

/-- After the callback of the popped timer `t` its slot, which has not been moved, holds the very
timer that `t` is to become. -/
def SlotAlike (l : TimerLoop C U σ) (t : EvTimer C U) (timers : Minheap (EvTimer C U)) : Prop :=
  ∃ added l', elTimerAdds env (afterPop env l t timers) (env.call t.timerCb t.ud l.state).adds = .ok (added, l') ∧
    l'.timers.len + 1 < 2 ^ 31 ∧ (minheapItem l'.timers).2.elm.length = timers.array.elm.length ∧
    slotLoad l'.timers.array ⟨some timers.len, timers.array.elm.length⟩ =
      .ok (t.moveTo (rrDtExpireAt (env.clock l'.reads) (env.call t.timerCb t.ud l.state).result))

/-- If a timer is due, then its callback does not ask to be armed again after adding timers, unless
the slot holds the same timer anyway. There is room for the timers it adds. -/
def Undisturbed (l : TimerLoop C U σ) : Prop :=
  ∀ t timers, minheapPop l.timers = .ok (some t, timers) → t.deadline ≤ (env.clock l.reads).moment →
    timers.len + (env.call t.timerCb t.ud l.state).adds.length < 2 ^ 31 ∧
    ((env.call t.timerCb t.ud l.state).result ≤ 0 ∨ (env.call t.timerCb t.ud l.state).adds = [] ∨
      SlotAlike env l t timers)

/-- What a pop leaves. -/
structure Popped (l : TimerLoop C U σ) (t : EvTimer C U) (timers : Minheap (EvTimer C U)) : Prop where
  run : minheapPop l.timers = .ok (some t, timers)
  inv : timers.Inv timerComparator
  len : timers.len + 1 = l.timers.len
  heap : l.timers.toMultiset = t ::ₘ timers.toMultiset
  least : ∀ y ∈ l.timers.toMultiset, t.deadline ≤ y.deadline
  inside : timers.len < timers.array.nelm
  slot : arrayLoad timers.array (some timers.len) = .ok t

theorem exists_popped {l : TimerLoop C U σ} (hi : l.timers.Inv timerComparator) (hpos : 0 < l.timers.len) :
    ∃ t timers, Popped l t timers := by
  obtain ⟨t, timers, hr, hir, hl, hm, hleast, hn, hslot⟩ := minheapPop_spec hi hpos
  refine ⟨t, timers, hr, hir, hl, hm, fun y hy => ?_, hn, hslot⟩
  rw [hm, Multiset.mem_cons] at hy
  rcases hy with rfl | hy
  · exact le_rfl
  · rw [← not_lt, ← timer_below]
    exact hleast y hy

theorem elTimerTurn_cases {l : TimerLoop C U σ} (hi : l.timers.Inv timerComparator) {t : EvTimer C U}
    {timers : Minheap (EvTimer C U)} (hp : Popped l t timers) :
    elTimerTurn env l =
      if t.deadline ≤ (env.clock l.reads).moment then do
        let r ← elTimerRun env ⟨timers, l.reads + 1, l.state⟩ t (env.clock l.reads)
        pure (some r.1, r.2)
      else pure (none, { l with reads := l.reads + 1 }) := by
  obtain ⟨x, hx, hmem, hmin⟩ := minheapMin_spec hi (by have := hp.len; omega)
  have hsame : x.deadline = t.deadline := by
    refine le_antisymm ?_ (hp.least x hmem)
    rw [← not_lt, ← timer_below]
    exact hmin t (by rw [hp.heap]; exact Multiset.mem_cons_self _ _)
  have hdue : rrDtIsPast (env.clock l.reads) x.sec x.ms = true ↔ t.deadline ≤ (env.clock l.reads).moment := by
    rw [rrDtIsPast_iff, ← hsame]
    rfl
  rw [elTimerTurn, hx, Exec.ok_bind]
  by_cases hd : t.deadline ≤ (env.clock l.reads).moment
  · rw [if_pos hd]
    simp only [hdue.mpr hd, if_true, hp.run, Exec.ok_bind]
  · rw [if_neg hd]
    simp only [mt hdue.mp hd, Bool.false_eq_true, if_false]

/-- The turn that runs the timer `t`. -/
def turnOf (l : TimerLoop C U σ) (t : EvTimer C U) : TimerTurn C U :=
  ⟨t, env.clock l.reads, addedTimers env (l.reads + 1) (env.call t.timerCb t.ud l.state).adds,
    (env.call t.timerCb t.ud l.state).result,
    env.clock (l.reads + 1 + (env.call t.timerCb t.ud l.state).adds.length)⟩

/-- The callback and what it adds, with room for it. The pointer is to the slot past the heap. -/
theorem elTimerRun_eq {l : TimerLoop C U σ} {t : EvTimer C U} {timers : Minheap (EvTimer C U)} (hp : Popped l t timers)
    (hroom : timers.len + (env.call t.timerCb t.ud l.state).adds.length < 2 ^ 31) :
    ∃ l', elTimerAdds env (afterPop env l t timers) (env.call t.timerCb t.ud l.state).adds =
        .ok ((turnOf env l t).added, l') ∧
      l'.reads = l.reads + 1 + (env.call t.timerCb t.ud l.state).adds.length ∧
      l'.state = (env.call t.timerCb t.ud l.state).state ∧ l'.timers.Inv timerComparator ∧
      l'.timers.len = timers.len + (env.call t.timerCb t.ud l.state).adds.length ∧
      l'.timers.toMultiset = (turnOf env l t).added + timers.toMultiset ∧
      elTimerRun env ⟨timers, l.reads + 1, l.state⟩ t (env.clock l.reads) =
        if (turnOf env l t).result > 0 then do
          let l'' ← elTimerRearm env l' (turnOf env l t).result ⟨some timers.len, timers.array.elm.length⟩
          pure (turnOf env l t, l'')
        else pure (turnOf env l t, l') := by
  obtain ⟨h, hr, hir, hl, hm⟩ := elTimerAdds_spec env (l := afterPop env l t timers) hp.inv
    (env.call t.timerCb t.ud l.state).adds hroom
  refine ⟨_, hr, rfl, rfl, hir, hl, hm, ?_⟩
  rw [afterPop] at hr
  simp only [elTimerRun, hp.inv.array.arrayAt hp.inside, hr, Exec.ok_bind]
  rfl

/-- A turn is served when the heap holds what it must. -/
theorem turnServed_of_heap {l l' : TimerLoop C U σ} {t : EvTimer C U} {timers : Minheap (EvTimer C U)}
    (hp : Popped l t timers) (hdue : t.deadline ≤ (env.clock l.reads).moment)
    (hstate : l'.state = (env.call t.timerCb t.ud l.state).state) (hreads : l.reads < l'.reads)
    (hord : l'.timers.Inv timerComparator)
    (hheap : l'.timers.toMultiset = (turnOf env l t).rearmed + ((turnOf env l t).added + timers.toMultiset)) :
    TurnServed env l l' (turnOf env l t) where
  least := hp.least
  now := rfl
  due := hdue
  result := rfl
  added := rfl
  rearmedAt := rfl
  state := hstate
  reads := hreads
  heap := by
    rw [hheap, hp.heap, Multiset.cons_add, Multiset.cons_add, Multiset.add_comm timers.toMultiset,
      Multiset.add_comm]
    rfl
  ordered := hord

theorem rearmed_of_pos {l l₁ : TimerLoop C U σ} {t : EvTimer C U} (hpositive : (turnOf env l t).result > 0)
    (hreads : l₁.reads = l.reads + 1 + (env.call t.timerCb t.ud l.state).adds.length) :
    (turnOf env l t).rearmed = [t.moveTo (rrDtExpireAt (env.clock l₁.reads) (turnOf env l t).result)] := by
  rw [TimerTurn.rearmed, if_pos hpositive, hreads]
  rfl

/-- The popped timer is armed again in a loop that has added what its callback asked for. -/
theorem turnRight_of_rearm {l l₁ : TimerLoop C U σ} (hi : l.timers.Inv timerComparator) {t : EvTimer C U}
    {timers h₂ : Minheap (EvTimer C U)} (hp : Popped l t timers) (hdue : t.deadline ≤ (env.clock l.reads).moment)
    (hpositive : (turnOf env l t).result > 0)
    (hreads : l₁.reads = l.reads + 1 + (env.call t.timerCb t.ud l.state).adds.length)
    (hstate : l₁.state = (env.call t.timerCb t.ud l.state).state)
    (hm : l₁.timers.toMultiset = (turnOf env l t).added + timers.toMultiset)
    (hrun : elTimerRun env ⟨timers, l.reads + 1, l.state⟩ t (env.clock l.reads) = do
      let l'' ← elTimerRearm env l₁ (turnOf env l t).result ⟨some timers.len, timers.array.elm.length⟩
      pure (turnOf env l t, l''))
    (hr₂ : elTimerRearm env l₁ (turnOf env l t).result ⟨some timers.len, timers.array.elm.length⟩ =
      .ok { l₁ with timers := h₂, reads := l₁.reads + 1 })
    (hi₂ : h₂.Inv timerComparator)
    (hm₂ : h₂.toMultiset =
      t.moveTo (rrDtExpireAt (env.clock l₁.reads) (turnOf env l t).result) ::ₘ l₁.timers.toMultiset) :
    TurnRight env l := by
  right
  have hturn := elTimerTurn_cases env hi hp
  rw [if_pos hdue, hrun, hr₂] at hturn
  refine ⟨turnOf env l t, _, hturn, turnServed_of_heap env hp hdue hstate (by simp only; omega) hi₂ ?_⟩
  rw [hm₂, rearmed_of_pos env hpositive hreads, hm]
  rfl

theorem turnRight_of_undisturbed {l : TimerLoop C U σ} (hi : l.timers.Inv timerComparator) (hpos : 0 < l.timers.len)
    (h : Undisturbed env l) : TurnRight env l := by
  obtain ⟨t, timers, hp⟩ := exists_popped hi hpos
  have hturn := elTimerTurn_cases env hi hp
  by_cases hdue : t.deadline ≤ (env.clock l.reads).moment
  · obtain ⟨hroom, hcases⟩ := h t timers hp.run hdue
    obtain ⟨l₁, hadds, hreads, hstate, hi₁, hlen, hm, hrun⟩ := elTimerRun_eq env hp hroom
    by_cases hpositive : (turnOf env l t).result > 0
    · rw [if_pos hpositive] at hrun
      rcases hcases with hneg | hnone | ⟨added, l₂, hadds', hroom', hitem, hslot⟩
      · exact absurd hneg (not_le.mpr hpositive)
      · -- nothing was pushed in between: the slot past the heap still holds the timer
        rw [hnone] at hadds
        obtain ⟨-, rfl⟩ : _ ∧ afterPop env l t timers = l₁ := by simpa [elTimerAdds] using hadds
        obtain ⟨h₂, hr₂, hi₂, -, hm₂⟩ := elTimerRearm_spec env (l := afterPop env l t timers) hp.inv hp.inside hp.slot
          (turnOf env l t).result
        exact turnRight_of_rearm env hi hp hdue hpositive hreads hstate hm hrun hr₂ hi₂ hm₂
      · obtain ⟨-, rfl⟩ : _ ∧ l₁ = l₂ := by simpa [hadds] using hadds'
        obtain ⟨h₂, hr₂, hi₂, hm₂⟩ := elTimerRearm_alike env hi₁ hroom' hitem hslot
        exact turnRight_of_rearm env hi hp hdue hpositive hreads hstate hm hrun hr₂ hi₂ hm₂
    · right
      rw [if_neg hpositive] at hrun
      rw [if_pos hdue, hrun] at hturn
      refine ⟨turnOf env l t, l₁, hturn, turnServed_of_heap env hp hdue hstate (by omega) hi₁ ?_⟩
      rw [TimerTurn.rearmed, if_neg hpositive, hm]
      simp
  · left
    rw [if_neg hdue] at hturn
    refine ⟨hturn, fun y hy => ?_⟩
    exact (not_le.mp hdue).trans_le (hp.least y hy)

/-- The turn that was taken is the one of the popped timer. -/
theorem elTimerRun_turn {l : TimerLoop C U σ} {t : EvTimer C U} {timers : Minheap (EvTimer C U)} {r : TimerTurn C U × TimerLoop C U σ}
    (hp : Popped l t timers) (h : elTimerRun env ⟨timers, l.reads + 1, l.state⟩ t (env.clock l.reads) = .ok r) :
    timers.len + (env.call t.timerCb t.ud l.state).adds.length < 2 ^ 31 ∧ r.1 = turnOf env l t := by
  have hroom : timers.len + (env.call t.timerCb t.ud l.state).adds.length < 2 ^ 31 := by
    cases hadds : elTimerAdds env (afterPop env l t timers) (env.call t.timerCb t.ud l.state).adds with
    | error e =>
      rw [afterPop] at hadds
      simp only [elTimerRun, hadds] at h
      cases h
    | ok a => exact elTimerAdds_room env (l := afterPop env l t timers) hp.inv hadds
  obtain ⟨l₁, -, -, -, -, -, -, hrun⟩ := elTimerRun_eq env hp hroom
  rw [hrun] at h
  refine ⟨hroom, ?_⟩
  split at h
  · cases hre : elTimerRearm env l₁ (turnOf env l t).result ⟨some timers.len, timers.array.elm.length⟩ with
    | error e =>
      rw [hre] at h
      cases h
    | ok l'' =>
      rw [hre] at h
      rw [← Except.ok.inj h]
  · rw [← Except.ok.inj h]

theorem eq_of_cons_cons {α : Type} {x y z : α} {m : Multiset α} (h : x ::ₘ y ::ₘ m = z ::ₘ z ::ₘ m) : x = z ∧ y = z := by
  have hpair : ({x, y} : Multiset α) = {z, z} := by
    have h' : ({x, y} : Multiset α) + m = {z, z} + m := by simpa using h
    exact Multiset.add_left_inj.mp h'
  have hx : x ∈ ({z, z} : Multiset α) := hpair ▸ Multiset.mem_cons_self x _
  have hy : y ∈ ({z, z} : Multiset α) := hpair ▸ Multiset.mem_cons_of_mem (Multiset.mem_singleton_self y)
  exact ⟨by simpa using hx, by simpa using hy⟩

theorem undisturbed_of_turnRight {l : TimerLoop C U σ} (hi : l.timers.Inv timerComparator) (h : TurnRight env l) :
    Undisturbed env l := by
  intro t timers hpop hdue
  have hpos : 0 < l.timers.len := by
    by_contra h0
    rw [minheapPop, if_pos (by omega)] at hpop
    cases hpop
  obtain ⟨t', timers', hp⟩ := exists_popped hi hpos
  obtain ⟨rfl, rfl⟩ : t' = t ∧ timers' = timers := by simpa [hp.run] using hpop
  have hturn := elTimerTurn_cases env hi hp
  rw [if_pos hdue] at hturn
  cases hrun : elTimerRun env ⟨timers', l.reads + 1, l.state⟩ t' (env.clock l.reads) with
  | error e =>
    rw [hrun] at hturn
    rcases h with ⟨hr, -⟩ | ⟨turn, l', hr, -⟩
    · cases hturn.symm.trans hr
    · cases hturn.symm.trans hr
  | ok r =>
    obtain ⟨hroom, hr1⟩ := elTimerRun_turn env hp hrun
    refine ⟨hroom, ?_⟩
    rw [hrun] at hturn
    obtain ⟨turn, l', hr, hserved⟩ : ∃ turn l', elTimerTurn env l = .ok (some turn, l') ∧ TurnServed env l l' turn := by
      rcases h with ⟨hr, -⟩ | h
      · cases hturn.symm.trans hr
      · exact h
    obtain ⟨rfl, rfl⟩ : r.1 = turn ∧ r.2 = l' := by simpa using hturn.symm.trans hr
    by_cases hpositive : (turnOf env l t').result > 0
    · right
      by_cases hnone : (env.call t'.timerCb t'.ud l.state).adds = []
      · exact Or.inl hnone
      right
      obtain ⟨l₁, hadds, hreads, -, hi₁, hlen, hm, heq⟩ := elTimerRun_eq env hp hroom
      have hlive : timers'.len < l₁.timers.len := by
        have := List.length_pos_iff.mpr hnone
        omega
      rw [heq, if_pos hpositive] at hrun
      cases hre : elTimerRearm env l₁ (turnOf env l t').result ⟨some timers'.len, timers'.array.elm.length⟩ with
      | error e =>
        rw [hre] at hrun
        cases hrun
      | ok l₂ =>
        rw [hre] at hrun
        obtain rfl := Except.ok.inj hrun
        obtain ⟨x, hx, hitem, hroom', hheap⟩ := elTimerRearm_live env hi₁ hlive hre
        -- what the heap must hold and what it does hold differ by the timer in the slot
        have hrearm := rearmed_of_pos env hpositive hreads
        have hmust : l₂.timers.toMultiset =
            t'.moveTo (rrDtExpireAt (env.clock l₁.reads) (turnOf env l t').result) ::ₘ l₁.timers.toMultiset := by
          have hcons := hserved.heap
          rw [hp.heap, hrearm, Multiset.coe_singleton, Multiset.add_comm _ {_}, Multiset.singleton_add, Multiset.cons_add,
            Multiset.cons_swap, Multiset.add_comm timers'.toMultiset, ← hm] at hcons
          exact (Multiset.cons_inj_right t').mp hcons
        rw [hmust] at hheap
        obtain ⟨hxx, htx⟩ := eq_of_cons_cons hheap
        exact ⟨_, l₁, hadds, hroom', hitem, hx.trans (by rw [hxx, ← htx]; rfl)⟩
    · exact Or.inl (not_lt.mp hpositive)

theorem turnRight_iff {l : TimerLoop C U σ} (hi : l.timers.Inv timerComparator) (hpos : 0 < l.timers.len) :
    TurnRight env l ↔ Undisturbed env l :=
  ⟨undisturbed_of_turnRight env hi, turnRight_of_undisturbed env hi hpos⟩

end Turn

/-! ## The whole call -/

/-- The clock never goes back and timers are added for the future. -/
structure TimerEnv.Forward (env : TimerEnv C U σ) : Prop where
  clock : ∀ {i j : ℕ}, i ≤ j → (env.clock i).moment ≤ (env.clock j).moment
  delays : ∀ c u s, ∀ r ∈ (env.call c u s).adds, 0 < r.milliseconds

section Run
variable (env : TimerEnv C U σ)

/-- A property of the loop at the start of each of at most `n` turns. -/
def EachTurn (p : TimerLoop C U σ → Prop) : ℕ → TimerLoop C U σ → Prop
  | 0, _ => True
  | n + 1, l => p l ∧ ∀ turn l', elTimerTurn env l = .ok (some turn, l') → EachTurn p n l'

/-- Served turns, one after another. The last one of a call may only look at the clock. -/
inductive ServedRun : TimerLoop C U σ → List (TimerTurn C U) → TimerLoop C U σ → Prop where
  | done (l : TimerLoop C U σ) : ServedRun l [] l
  | stop (l : TimerLoop C U σ) : ServedRun l [] { l with reads := l.reads + 1 }
  | cons {l l₁ l' : TimerLoop C U σ} {turn : TimerTurn C U} {turns : List (TimerTurn C U)}
      (served : TurnServed env l l₁ turn) (rest : ServedRun l₁ turns l') : ServedRun l (turn :: turns) l'

variable {env}

theorem TurnRight.served {l l' : TimerLoop C U σ} {turn : TimerTurn C U} (h : TurnRight env l)
    (run : elTimerTurn env l = .ok (some turn, l')) : TurnServed env l l' turn := by
  rcases h with ⟨hr, -⟩ | ⟨turn₁, l₁, hr, hs⟩
  · cases hr.symm.trans run
  · obtain ⟨rfl, rfl⟩ : turn₁ = turn ∧ l₁ = l' := by simpa using hr.symm.trans run
    exact hs

/-- At most the timer that ran is missing. -/
theorem TurnServed.len_le {l l' : TimerLoop C U σ} {turn : TimerTurn C U} (h : TurnServed env l l' turn)
    (hi : l.timers.Inv timerComparator) : l.timers.len ≤ l'.timers.len + 1 := by
  have hcard := congrArg Multiset.card h.heap
  rw [Multiset.card_cons, Multiset.card_add, Multiset.card_add, h.ordered.card_toMultiset, hi.card_toMultiset] at hcard
  omega

theorem eachTurn_iff {n : ℕ} {l : TimerLoop C U σ} (hi : l.timers.Inv timerComparator) (hn : n ≤ l.timers.len) :
    EachTurn env (TurnRight env) n l ↔ EachTurn env (Undisturbed env) n l := by
  induction n generalizing l with
  | zero => exact Iff.rfl
  | succ n ih =>
    have hagree := turnRight_iff env hi (by omega)
    by_cases hr : TurnRight env l
    · have hnext : ∀ turn l', elTimerTurn env l = .ok (some turn, l') →
          (EachTurn env (TurnRight env) n l' ↔ EachTurn env (Undisturbed env) n l') := by
        intro turn l' run
        have hs := hr.served run
        have hlen := hs.len_le hi
        exact ih hs.ordered (by omega)
      refine and_congr hagree ?_
      exact forall_congr' fun turn => forall_congr' fun l' => forall_congr' fun run => hnext turn l' run
    · exact iff_of_false (fun h => hr h.1) (fun h => hr (hagree.mpr h.1))

variable (henv : env.Forward)
include henv

theorem lt_of_mem_addedTimers {reads : ℕ} {rs : List (TimerRequest C U)} (hrs : ∀ r ∈ rs, 0 < r.milliseconds)
    {x : EvTimer C U} (hx : x ∈ addedTimers env reads rs) : (env.clock reads).moment < x.deadline := by
  induction rs generalizing reads with
  | nil => cases hx
  | cons r rs ih =>
    rcases List.mem_cons.mp hx with rfl | hx
    · exact lt_rrDtExpireAt _ (hrs r List.mem_cons_self)
    · have hnext := ih (fun q hq => hrs q (List.mem_cons_of_mem _ hq)) hx
      exact (henv.clock (Nat.le_succ reads)).trans_lt hnext

/-- What a turn puts into the heap is not due at its own reading of the clock. -/
theorem TurnServed.later {l l' : TimerLoop C U σ} {turn : TimerTurn C U} (h : TurnServed env l l' turn)
    {x : EvTimer C U} (hx : x ∈ turn.added ++ turn.rearmed) : (env.clock l.reads).moment < x.deadline := by
  rcases List.mem_append.mp hx with hx | hx
  · rw [h.added] at hx
    have hlt := lt_of_mem_addedTimers henv (henv.delays _ _ _) hx
    exact (henv.clock (Nat.le_succ l.reads)).trans_lt hlt
  · rw [TimerTurn.rearmed] at hx
    split at hx
    · rename_i hpos
      rw [List.mem_singleton.mp hx, EvTimer.moveTo_deadline]
      refine lt_of_le_of_lt ?_ (lt_rrDtExpireAt turn.rearmedAt hpos)
      rw [h.rearmedAt]
      exact henv.clock (by omega)
    · cases hx

/-- Of the timers due at a moment not after the turn, just the one that ran is gone. -/
theorem TurnServed.filter_due {l l' : TimerLoop C U σ} {turn : TimerTurn C U} (h : TurnServed env l l' turn)
    {e : ℤ ×ₗ ℤ} (he : e ≤ (env.clock l.reads).moment) :
    (turn.timer ::ₘ l'.timers.toMultiset).filter (fun x => x.deadline ≤ e) =
      l.timers.toMultiset.filter fun x => x.deadline ≤ e := by
  have hnew : ((turn.added ++ turn.rearmed : List (EvTimer C U)) : Multiset (EvTimer C U)).filter
      (fun x => x.deadline ≤ e) = 0 := by
    refine Multiset.filter_eq_nil.mpr fun x hx => ?_
    exact not_le.mpr (he.trans_lt (h.later henv (Multiset.mem_coe.mp hx)))
  rw [h.heap, Multiset.add_assoc, Multiset.coe_add, Multiset.filter_add, hnew, Multiset.add_zero]

theorem ServedRun.filter_due {l l' : TimerLoop C U σ} {turns : List (TimerTurn C U)} (h : ServedRun env l turns l')
    {e : ℤ ×ₗ ℤ} (he : e ≤ (env.clock l.reads).moment) :
    (((turns.map TimerTurn.timer : List (EvTimer C U)) : Multiset (EvTimer C U)) + l'.timers.toMultiset).filter
        (fun x => x.deadline ≤ e) =
      l.timers.toMultiset.filter fun x => x.deadline ≤ e := by
  induction h with
  | done l => simp
  | stop l => simp
  | cons served rest ih =>
    have hnext := ih (he.trans (henv.clock served.reads.le))
    rw [← served.filter_due henv he, List.map_cons, ← Multiset.cons_coe, Multiset.cons_add, Multiset.filter_cons,
      Multiset.filter_cons, hnext]

/-- The loop returns, with no timer left that was due at the moment `e`, if it has as many turns as
there are such timers. -/
theorem elTimerLoop_served {e : ℤ ×ₗ ℤ} {n : ℕ} {l : TimerLoop C U σ} (hi : l.timers.Inv timerComparator)
    (hn : n ≤ l.timers.len) (he : e ≤ (env.clock l.reads).moment)
    (hdue : (l.timers.toMultiset.filter fun x => x.deadline ≤ e).card ≤ n)
    (h : EachTurn env (TurnRight env) n l) :
    ∃ turns l', elTimerLoop env n l = .ok (turns, l') ∧ ServedRun env l turns l' ∧
      l'.timers.Inv timerComparator ∧ l'.timers.toMultiset.filter (fun x => x.deadline ≤ e) = 0 := by
  induction n generalizing l with
  | zero => exact ⟨[], l, rfl, .done l, hi, Multiset.card_eq_zero.mp (Nat.le_zero.mp hdue)⟩
  | succ n ih =>
    obtain ⟨hright, hnext⟩ := h
    rcases hright with ⟨hr, hlate⟩ | ⟨turn, l₁, hr, hs⟩
    · refine ⟨[], { l with reads := l.reads + 1 }, ?_, .stop l, hi, ?_⟩
      · rw [elTimerLoop, hr]
        rfl
      · refine Multiset.filter_eq_nil.mpr fun x hx => ?_
        exact not_le.mpr (he.trans_lt (hlate x hx))
    · have hlen := hs.len_le hi
      have hfilter := hs.filter_due henv he
      have hcard : (l₁.timers.toMultiset.filter fun x => x.deadline ≤ e).card ≤ n := by
        by_cases hd : turn.timer.deadline ≤ e
        · rw [Multiset.filter_cons_of_pos (p := fun x : EvTimer C U => x.deadline ≤ e) _ hd] at hfilter
          rw [← hfilter, Multiset.card_cons] at hdue
          omega
        · -- the earliest timer is not due at `e`, so none is
          have hnone : l.timers.toMultiset.filter (fun x => x.deadline ≤ e) = 0 := by
            refine Multiset.filter_eq_nil.mpr fun x hx hle => hd ((hs.least x hx).trans hle)
          rw [Multiset.filter_cons_of_neg (p := fun x : EvTimer C U => x.deadline ≤ e) _ hd, hnone] at hfilter
          rw [hfilter]
          exact Nat.zero_le n
      obtain ⟨turns, l', hr', hrun, hi', hzero⟩ := ih hs.ordered (by omega)
        (he.trans (henv.clock hs.reads.le)) hcard (hnext turn l₁ hr)
      refine ⟨turn :: turns, l', ?_, .cons hs hrun, hi', hzero⟩
      rw [elTimerLoop, hr]
      simp only [Exec.ok_bind, hr', Exec.pure_eq]

omit henv in
theorem ServedRun.due {l l' : TimerLoop C U σ} {turns : List (TimerTurn C U)} (h : ServedRun env l turns l') :
    ∀ turn ∈ turns, turn.timer.deadline ≤ turn.now.moment := by
  induction h with
  | done => simp
  | stop => simp
  | cons served _ ih =>
    intro turn ht
    rcases List.mem_cons.mp ht with rfl | ht
    · exact served.due
    · exact ih turn ht

omit henv in
/-- No timer gets lost, changed or doubled. -/
theorem ServedRun.conserve {l l' : TimerLoop C U σ} {turns : List (TimerTurn C U)} (h : ServedRun env l turns l') :
    ((turns.map TimerTurn.timer : List (EvTimer C U)) : Multiset (EvTimer C U)) + l'.timers.toMultiset =
      l.timers.toMultiset + turns.flatMap TimerTurn.added + turns.flatMap TimerTurn.rearmed := by
  induction h with
  | done => simp
  | stop => simp
  | cons served _ ih =>
    rw [List.map_cons, ← Multiset.cons_coe, Multiset.cons_add, ih, List.flatMap_cons, List.flatMap_cons,
      ← Multiset.coe_add, ← Multiset.coe_add, ← Multiset.cons_add, ← Multiset.cons_add, served.heap]
    abel

omit henv in
theorem TimerTurn.mem_rearmed {turn : TimerTurn C U} {x : EvTimer C U} (hx : x ∈ turn.rearmed) :
    x.timerCb = turn.timer.timerCb ∧ x.ud = turn.timer.ud ∧ x.millis = turn.rearmedAt.millis + turn.result := by
  rw [TimerTurn.rearmed] at hx
  split at hx
  · rename_i hpos
    rw [List.mem_singleton.mp hx]
    exact ⟨rfl, rfl, (rrDtExpireAt_spec turn.rearmedAt hpos).1⟩
  · cases hx

omit henv in
/-- What a call of `el_timer_process` must do: every turn serves the earliest timer; no callback
runs early, each timer that is due on entry runs once, the heap keeps its order and holds the timers
that did not run, those that callbacks added and those whose callbacks returned a positive number. -/
structure TimersServed (env : TimerEnv C U σ) (l : TimerLoop C U σ) : Prop where
  turnwise : EachTurn env (TurnRight env) (minheapLen l.timers % 2 ^ 32) l
  whole : ∃ turns l', elTimerProcess env l = .ok (turns, l') ∧ ServedRun env l turns l' ∧
    l'.timers.Inv timerComparator ∧
    (∀ turn ∈ turns, turn.timer.deadline ≤ turn.now.moment) ∧
    ((turns.map TimerTurn.timer : List (EvTimer C U)) : Multiset (EvTimer C U)).filter
        (fun x => x.deadline ≤ (env.clock l.reads).moment) =
      l.timers.toMultiset.filter (fun x => x.deadline ≤ (env.clock l.reads).moment) ∧
    ((turns.map TimerTurn.timer : List (EvTimer C U)) : Multiset (EvTimer C U)) + l'.timers.toMultiset =
      l.timers.toMultiset + turns.flatMap TimerTurn.added + turns.flatMap TimerTurn.rearmed ∧
    ∀ turn ∈ turns, ∀ x ∈ turn.rearmed, x.timerCb = turn.timer.timerCb ∧ x.ud = turn.timer.ud ∧
      x.millis = turn.rearmedAt.millis + turn.result

/-- The timers are served exactly when no callback that runs in the call adds timers and asks to be
armed again, save when the slot that its timer was in comes to hold the same timer. -/
theorem timers_served_iff {l : TimerLoop C U σ} (hi : l.timers.Inv timerComparator) :
    TimersServed env l ↔ EachTurn env (Undisturbed env) (minheapLen l.timers % 2 ^ 32) l := by
  have hlen : minheapLen l.timers % 2 ^ 32 = l.timers.len := by
    have hle := hi.len_le
    have hsmall := hi.array.small
    exact Nat.mod_eq_of_lt (by rw [minheapLen]; omega)
  constructor
  · intro h
    exact (eachTurn_iff hi (by rw [hlen])).mp h.turnwise
  · intro h
    have hright := (eachTurn_iff hi (by rw [hlen])).mpr h
    refine ⟨hright, ?_⟩
    have hcard : (l.timers.toMultiset.filter fun x => x.deadline ≤ (env.clock l.reads).moment).card ≤
        minheapLen l.timers % 2 ^ 32 := by
      rw [hlen, ← hi.card_toMultiset]
      exact Multiset.card_le_card (Multiset.filter_le _ _)
    obtain ⟨turns, l', hr, hrun, hi', hzero⟩ := elTimerLoop_served henv hi (by rw [hlen]) le_rfl hcard hright
    have hfilter := hrun.filter_due henv le_rfl
    rw [Multiset.filter_add, hzero, Multiset.add_zero] at hfilter
    exact ⟨turns, l', hr, hrun, hi', hrun.due, hfilter, hrun.conserve, fun turn _ x hx => TimerTurn.mem_rearmed hx⟩

end Run

/-- A clock that stands still at ten seconds, and callbacks of three kinds. The first asks to be
called again after half a second; the second does so after adding a timer of the third kind. -/
def threeKinds : TimerEnv ℕ Unit Unit where
  clock _ := ⟨10, 0, by decide⟩
  call c _ _ :=
    if c = 0 then ⟨[], 500, ()⟩
    else if c = 1 then ⟨[⟨1000, 2, ()⟩], 500, ()⟩
    else ⟨[], 0, ()⟩

theorem threeKinds_forward : threeKinds.Forward where
  clock _ := le_rfl
  delays c u s r hr := by
    simp only [threeKinds] at hr
    split at hr
    · cases hr
    · split at hr
      · rw [List.mem_singleton.mp hr]
        decide
      · cases hr

theorem timers_served_iff_rearmed : TimersServed threeKinds ⟨oneTimer ⟨9, 0, 0, ()⟩, 0, ()⟩ := by
  refine (timers_served_iff threeKinds_forward (oneTimer_inv _)).mpr ⟨fun t timers hp _ => ?_, fun _ _ _ => trivial⟩
  obtain ⟨t', timers', hp'⟩ := exists_popped (l := (⟨oneTimer ⟨9, 0, 0, ()⟩, 0, ()⟩ : TimerLoop ℕ Unit Unit))
    (oneTimer_inv _) (by decide)
  obtain ⟨rfl, rfl⟩ : t' = t ∧ timers' = timers := by simpa [hp'.run] using hp
  have hmem : t' ∈ (oneTimer (⟨9, 0, 0, ()⟩ : EvTimer ℕ Unit)).toMultiset := by
    have hheap : (oneTimer (⟨9, 0, 0, ()⟩ : EvTimer ℕ Unit)).toMultiset = t' ::ₘ timers'.toMultiset := hp'.heap
    rw [hheap]
    exact Multiset.mem_cons_self _ _
  rw [oneTimer_toMultiset, Multiset.mem_singleton] at hmem
  have hlen : timers'.len + 1 = 1 := hp'.len
  subst hmem
  refine ⟨?_, Or.inr (Or.inl rfl)⟩
  change timers'.len + 0 < 2 ^ 31
  omega

/-- A timer of the second kind is due, and two others of the third kind wait. -/
def threeTimers : Minheap (EvTimer ℕ Unit) :=
  ⟨3, ⟨3, 1, [some ⟨10, 0, 1, ()⟩, some ⟨20, 0, 3, ()⟩, some ⟨30, 0, 4, ()⟩, none]⟩, timerCmp⟩

/-- It is what pushing the three timers makes. -/
theorem threeTimers_pushed :
    ∃ h, (minheapPush (oneTimer (⟨10, 0, 1, ()⟩ : EvTimer ℕ Unit)) ⟨20, 0, 3, ()⟩ >>= fun h =>
        minheapPush h ⟨30, 0, 4, ()⟩) = .ok h ∧ decide (h.len = 3 ∧ h.array = threeTimers.array) = true :=
  Exec.exists_of_any (by decide +kernel)

theorem threeTimers_inv : threeTimers.Inv timerComparator := by
  obtain ⟨h, hr, he⟩ := threeTimers_pushed
  obtain ⟨h₁, hr₁, hi₁, hl₁, -⟩ := minheapPush_spec (oneTimer_inv (⟨10, 0, 1, ()⟩ : EvTimer ℕ Unit))
    (show (oneTimer _).len + 1 < 2 ^ 31 by decide) ⟨20, 0, 3, ()⟩
  have hone : h₁.len = 2 := hl₁
  obtain ⟨h₂, hr₂, hi₂, -⟩ := minheapPush_spec hi₁ (by omega) ⟨30, 0, 4, ()⟩
  rw [hr₁, Exec.ok_bind, hr₂] at hr
  obtain rfl := Except.ok.inj hr
  obtain ⟨hlen, harray⟩ := of_decide_eq_true he
  have heq : h₂ = threeTimers := by
    cases h₂
    simp only at hlen harray
    have hcomp := hi₂.comp
    simp only at hcomp
    rw [hlen, harray, hcomp]
    rfl
  exact heq ▸ hi₂

/-- The timer that was due is gone, and the one that took its slot is there twice with a new date. -/
theorem timer_lost_after_add :
    threeKinds.Forward ∧ threeTimers.Inv timerComparator ∧
      (∃ r, elTimerProcess threeKinds ⟨threeTimers, 0, ()⟩ = .ok r ∧
        decide (r.2.timers.array.elm = [some ⟨10, 500, 3, ()⟩, some ⟨11, 0, 2, ()⟩, some ⟨10, 500, 3, ()⟩,
          some ⟨30, 0, 4, ()⟩] ∧ r.2.timers.len = 4 ∧ r.1.map TimerTurn.timer = [⟨10, 0, 1, ()⟩]) = true) ∧
      ¬ TimersServed threeKinds ⟨threeTimers, 0, ()⟩ := by
  have hrun : ∃ r, elTimerProcess threeKinds ⟨threeTimers, 0, ()⟩ = .ok r ∧
      decide (r.2.timers.array.elm = [some ⟨10, 500, 3, ()⟩, some ⟨11, 0, 2, ()⟩, some ⟨10, 500, 3, ()⟩,
        some ⟨30, 0, 4, ()⟩] ∧ r.2.timers.len = 4 ∧ r.1.map TimerTurn.timer = [⟨10, 0, 1, ()⟩]) = true :=
    Exec.exists_of_any (by decide +kernel)
  refine ⟨threeKinds_forward, threeTimers_inv, hrun, fun hs => ?_⟩
  obtain ⟨r, hr, hd⟩ := hrun
  obtain ⟨helm, hlen, hturns⟩ := of_decide_eq_true hd
  obtain ⟨turns, l', hr', -, -, -, -, hkeep, -⟩ := hs.whole
  obtain rfl := Except.ok.inj (hr.symm.trans hr')
  -- the waiting timer of twenty seconds is nowhere to be found
  have hwaits : (⟨20, 0, 3, ()⟩ : EvTimer ℕ Unit) ∈ threeTimers.toMultiset := by decide
  have hthere : (⟨20, 0, 3, ()⟩ : EvTimer ℕ Unit) ∈
      ((turns.map TimerTurn.timer : List (EvTimer ℕ Unit)) : Multiset (EvTimer ℕ Unit)) + l'.timers.toMultiset := by
    rw [hkeep]
    exact Multiset.mem_add.mpr (Or.inl (Multiset.mem_add.mpr (Or.inl hwaits)))
  simp only at helm hlen hturns
  rw [hturns, Minheap.toMultiset, helm, hlen] at hthere
  revert hthere
  decide

end RhinoRox
