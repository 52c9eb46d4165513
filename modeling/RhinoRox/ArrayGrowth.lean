import RhinoRox.Minheap
import RhinoRox.StepRuns

/-!
# The capacity of the growing array

`array_push_n` compares twice the number of elements with the number of new slots, and not with
the number of slots that are needed. A run of new slots that is longer than the array, but
shorter than twice its length, does not fit into the array that is then allocated.
-/

namespace RhinoRox
open StepRuns

variable {α : Type}

/-- The run of slots that `array_push_n` returns starts at the given index. The sums and the
difference are those of an `unsigned long`. -/
def arrayPushN (a : ArrayT α) (n : ℕ) : Option ℕ × ArrayT α :=
  if n = 0 then (none, a)
  else if a.nrest ≥ n then (some a.nelm, { a with nrest := a.nrest - n, nelm := (a.nelm + n) % 2 ^ 64 })
  else
    let nslots := if (2 * a.nelm) % 2 ^ 64 > n then (2 * a.nelm) % 2 ^ 64 else (a.nelm + a.nrest + n) % 2 ^ 64
    let nelm := (a.nelm + n) % 2 ^ 64
    (some a.nelm,
      { elm := a.elm.take nslots ++ List.replicate (nslots - a.elm.length) none
        nelm := nelm
        nrest := subSize nslots nelm })

/-- The two ways to get slots, and the copy of an element into a slot. -/
inductive ArrayCall (α : Type) where
  | push
  | pushN (n : ℕ)
  | store (i : ℕ) (x : α)
  deriving DecidableEq, Repr

namespace ArrayCall

def run (a : ArrayT α) : ArrayCall α → Exec (Option ℕ × ArrayT α)
  | push => pure (arrayPush a)
  | pushN n => pure (arrayPushN a n)
  | store i x => do
    let a' ← arrayStore a x (some i)
    pure (some i, a')

/-- The number of slots that a call hands out. -/
def slots : ArrayCall α → ℕ
  | push => 1
  | pushN n => n
  | store _ _ => 0

/-- A call grows the array to a number of bytes below `2 ^ 64`, and only slots that were handed out are written. -/
def Fits (size : ℕ) (a : ArrayT α) : ArrayCall α → Prop
  | push => a.nrest = 0 → 2 * a.nelm * size < 2 ^ 64
  | pushN n => a.nrest < n → (if 2 * a.nelm > n then 2 * a.nelm else a.nelm + a.nrest + n) * size < 2 ^ 64
  | store i _ => i < a.nelm

instance (size : ℕ) (a : ArrayT α) : ∀ c : ArrayCall α, Decidable (c.Fits size a)
  | push => inferInstanceAs (Decidable (a.nrest = 0 → _))
  | pushN n => inferInstanceAs (Decidable (a.nrest < n → _))
  | store i _ => inferInstanceAs (Decidable (i < a.nelm))

/-- If new slots do not fit into the rest, they are at most as many as the elements or at least twice as many. -/
def OutsideBand (a : ArrayT α) : ArrayCall α → Prop
  | pushN n => a.nrest < n → n ≤ a.nelm ∨ 2 * a.nelm ≤ n
  | _ => True

instance (a : ArrayT α) : ∀ c : ArrayCall α, Decidable (c.OutsideBand a)
  | push => inferInstanceAs (Decidable True)
  | pushN n => inferInstanceAs (Decidable (a.nrest < n → _))
  | store _ _ => inferInstanceAs (Decidable True)

/-- The new slots follow the old ones inside the allocation, whose size is again the sum of the
two counters, and no other element changes. -/
structure Right (a : ArrayT α) (c : ArrayCall α) (slot : Option ℕ) (a' : ArrayT α) : Prop where
  capacity : a'.nelm + a'.nrest = a'.elm.length
  nelm : a'.nelm = a.nelm + c.slots
  inside : a.nelm + c.slots ≤ a'.elm.length
  follows : c = .push ∨ (∃ n, n ≠ 0 ∧ c = .pushN n) → slot = some a.nelm
  kept : ∀ i < a.nelm, (∀ x, c ≠ .store i x) → a'.elm[i]? = a.elm[i]?

/-- The call returns, and what it returns is right. -/
def Works (a : ArrayT α) (c : ArrayCall α) : Prop := ∃ slot a', c.run a = .ok (slot, a') ∧ c.Right a slot a'

end ArrayCall

/-- The array after a call. -/
def arrayCall (a : ArrayT α) (c : ArrayCall α) : Exec (ArrayT α) := do
  let (_, a') ← c.run a
  pure a'

/-- The two counters are the size of the allocation, whose bytes can be counted. -/
structure ArrayT.Capacity (size : ℕ) (a : ArrayT α) : Prop where
  capacity : a.nelm + a.nrest = a.elm.length
  pos : 0 < a.elm.length
  bytes : a.elm.length * size < 2 ^ 64

theorem ArrayT.Capacity.lt {size : ℕ} {a : ArrayT α} (h : a.Capacity size) (hs : 0 < size) : a.elm.length < 2 ^ 64 :=
  (Nat.le_mul_of_pos_right _ hs).trans_lt h.bytes

theorem arrayCreate_capacity {size n : ℕ} (hn : (if n = 0 then 1 else n) * size < 2 ^ 64) :
    (arrayCreate n : ArrayT α).Capacity size where
  capacity := by simp [arrayCreate]
  pos := by
    simp only [arrayCreate, List.length_replicate]
    split <;> omega
  bytes := by simpa only [arrayCreate, List.length_replicate] using hn

/-- The counters say that the new slots lie inside the allocation. -/
theorem ArrayCall.right_of_capacity {c : ArrayCall α} {a a' : ArrayT α} {slot : Option ℕ}
    (hn : a'.nelm = a.nelm + c.slots) (hc : a'.nelm + a'.nrest = a'.elm.length)
    (hslot : c = .push ∨ (∃ n, n ≠ 0 ∧ c = .pushN n) → slot = some a.nelm)
    (hkept : ∀ i < a.nelm, (∀ x, c ≠ .store i x) → a'.elm[i]? = a.elm[i]?) : c.Right a slot a' where
  capacity := hc
  nelm := hn
  inside := by omega
  follows := hslot
  kept := hkept

theorem push_works {size : ℕ} {a : ArrayT α} (h : a.Capacity size) (hf : ArrayCall.push.Fits size a) :
    ∃ slot a', ArrayCall.push.run a = .ok (slot, a') ∧ ArrayCall.push.Right a slot a' ∧ a'.Capacity size := by
  have hc := h.capacity
  have hp := h.pos
  by_cases hr : 0 < a.nrest
  · have hrun : arrayPush a = (some a.nelm, ⟨a.nelm + 1, a.nrest - 1, a.elm⟩) := if_pos hr
    have hc' : a.nelm + 1 + (a.nrest - 1) = a.elm.length := by omega
    refine ⟨_, _, congrArg Except.ok hrun, ?_, ⟨hc', hp, h.bytes⟩⟩
    exact ArrayCall.right_of_capacity rfl hc' (fun _ => rfl) (fun _ _ _ => rfl)
  · have hlen : (a.elm ++ List.replicate (2 * a.nelm - a.elm.length) none).length = 2 * a.nelm := by
      rw [List.length_append, List.length_replicate]
      omega
    have hrun : arrayPush a = (some a.nelm,
        ⟨a.nelm + 1, a.nelm - 1, a.elm ++ List.replicate (2 * a.nelm - a.elm.length) none⟩) := if_neg hr
    have hc' : a.nelm + 1 + (a.nelm - 1) = (a.elm ++ List.replicate (2 * a.nelm - a.elm.length) none).length := by
      omega
    refine ⟨_, _, congrArg Except.ok hrun, ?_, ⟨hc', ?_, ?_⟩⟩
    · refine ArrayCall.right_of_capacity rfl hc' (fun _ => rfl) fun i hi _ => ?_
      exact List.getElem?_append_left (by omega)
    · rw [hlen]
      omega
    · rw [hlen]
      exact hf (by omega)

theorem store_works {size : ℕ} {a : ArrayT α} (h : a.Capacity size) {i : ℕ} {x : α} (hi : i < a.nelm) :
    ∃ slot a', (ArrayCall.store i x).run a = .ok (slot, a') ∧ (ArrayCall.store i x).Right a slot a' ∧
      a'.Capacity size := by
  have hc := h.capacity
  have hlt : i < a.elm.length := by omega
  have hrun : (ArrayCall.store i x).run a = .ok (some i, { a with elm := a.elm.set i (some x) }) := by
    simp [ArrayCall.run, arrayStore, hlt]
  have hlen : (a.elm.set i (some x)).length = a.elm.length := List.length_set
  have hc' : a.nelm + a.nrest = (a.elm.set i (some x)).length := hc.trans hlen.symm
  refine ⟨_, _, hrun, ?_, ⟨hc', hlen ▸ h.pos, hlen ▸ h.bytes⟩⟩
  refine ArrayCall.right_of_capacity rfl hc' (fun hpush => ?_) fun j _ hj => ?_
  · rcases hpush with he | ⟨n, -, he⟩ <;> cases he
  · refine List.getElem?_set_ne fun he => hj x ?_
    rw [he]

/-- The capacity that `array_push_n` asks for. -/
def newSlots (a : ArrayT α) (n : ℕ) : ℕ := if 2 * a.nelm > n then 2 * a.nelm else a.nelm + a.nrest + n

/-- No sum of a growing call wraps, but the number of elements and the rest may. -/
theorem arrayPushN_grow {size : ℕ} (hs : 0 < size) {a : ArrayT α} {n : ℕ} (hr : a.nrest < n)
    (hf : (ArrayCall.pushN n).Fits size a) :
    arrayPushN a n = (some a.nelm,
      { elm := a.elm.take (newSlots a n) ++ List.replicate (newSlots a n - a.elm.length) none
        nelm := (a.nelm + n) % 2 ^ 64
        nrest := subSize (newSlots a n) ((a.nelm + n) % 2 ^ 64) }) := by
  have hlt : newSlots a n < 2 ^ 64 := (Nat.le_mul_of_pos_right _ hs).trans_lt (hf hr)
  have hslots : (if (2 * a.nelm) % 2 ^ 64 > n then (2 * a.nelm) % 2 ^ 64 else (a.nelm + a.nrest + n) % 2 ^ 64) =
      newSlots a n := by
    rw [newSlots] at hlt ⊢
    have htwo : 2 * a.nelm < 2 ^ 64 := by split at hlt <;> omega
    rw [Nat.mod_eq_of_lt htwo]
    by_cases hn : 2 * a.nelm > n
    · rw [if_pos hn, if_pos hn]
    · rw [if_neg hn] at hlt ⊢
      rw [if_neg hn, Nat.mod_eq_of_lt hlt]
  rw [arrayPushN, if_neg (by omega), if_neg (by omega), hslots]

theorem length_resized (l : List (Option α)) (n : ℕ) :
    (l.take n ++ List.replicate (n - l.length) none).length = n := by
  rw [List.length_append, List.length_take, List.length_replicate]
  omega

theorem pushN_works {size : ℕ} (hs : 0 < size) {a : ArrayT α} (h : a.Capacity size) {n : ℕ}
    (hf : (ArrayCall.pushN n).Fits size a) (hband : (ArrayCall.pushN n).OutsideBand a) :
    ∃ slot a', (ArrayCall.pushN n).run a = .ok (slot, a') ∧ (ArrayCall.pushN n).Right a slot a' ∧ a'.Capacity size := by
  have hc := h.capacity
  have hp := h.pos
  have hlt := h.lt hs
  rcases Nat.eq_zero_or_pos n with rfl | hn
  · refine ⟨none, a, rfl, ArrayCall.right_of_capacity rfl hc (fun hpush => ?_) fun _ _ _ => rfl, h⟩
    rcases hpush with he | ⟨n, hne, he⟩
    · cases he
    · exact absurd (ArrayCall.pushN.inj he).symm hne
  rcases Nat.lt_or_ge a.nrest n with hr | hr
  · have hroom : a.nelm + n ≤ newSlots a n ∧ a.elm.length ≤ newSlots a n := by
      rw [newSlots]
      have hcases := hband hr
      split <;> omega
    have hfit : newSlots a n < 2 ^ 64 := (Nat.le_mul_of_pos_right _ hs).trans_lt (hf hr)
    have hrun := arrayPushN_grow hs hr hf
    rw [Nat.mod_eq_of_lt (hroom.1.trans_lt hfit), subSize_of_le hroom.1 hfit] at hrun
    have hlen := length_resized a.elm (newSlots a n)
    have hc' : a.nelm + n + (newSlots a n - (a.nelm + n)) = newSlots a n := by omega
    refine ⟨_, _, congrArg Except.ok hrun, ?_, ⟨hc'.trans hlen.symm, ?_, ?_⟩⟩
    · refine ArrayCall.right_of_capacity rfl (hc'.trans hlen.symm) (fun _ => rfl) fun i hi _ => ?_
      show (a.elm.take (newSlots a n) ++ _)[i]? = a.elm[i]?
      rw [List.take_of_length_le hroom.2]
      exact List.getElem?_append_left (by omega)
    · rw [hlen]
      omega
    · rw [hlen]
      exact hf hr
  · have hrun : arrayPushN a n = (some a.nelm, ⟨(a.nelm + n) % 2 ^ 64, a.nrest - n, a.elm⟩) := by
      rw [arrayPushN, if_neg (by omega), if_pos hr]
    rw [Nat.mod_eq_of_lt (by omega)] at hrun
    have hc' : a.nelm + n + (a.nrest - n) = a.elm.length := by omega
    refine ⟨_, _, congrArg Except.ok hrun, ?_, ⟨hc', hp, h.bytes⟩⟩
    exact ArrayCall.right_of_capacity rfl hc' (fun _ => rfl) (fun _ _ _ => rfl)

/-- In the band the new slots end outside the allocation. -/
theorem outsideBand_of_works {size : ℕ} (hs : 0 < size) {a : ArrayT α} {c : ArrayCall α} (hf : c.Fits size a)
    (hw : c.Works a) : c.OutsideBand a := by
  cases c with
  | push => trivial
  | store i x => trivial
  | pushN n =>
    intro hr
    obtain ⟨slot, a', hrun, hright⟩ := hw
    have hrun' : arrayPushN a n = (slot, a') := Except.ok.inj hrun
    rw [arrayPushN_grow hs hr hf, Prod.mk.injEq] at hrun'
    have hinside := hright.inside
    rw [← hrun'.2, length_resized] at hinside
    rw [ArrayCall.slots, newSlots] at hinside
    split at hinside <;> omega

/-- One step: outside the band a call works and keeps the invariant. -/
theorem ArrayCall.works_of_outsideBand {size : ℕ} (hs : 0 < size) {a : ArrayT α} (h : a.Capacity size) {c : ArrayCall α}
    (hf : c.Fits size a) (hband : c.OutsideBand a) :
    ∃ slot a', c.run a = .ok (slot, a') ∧ c.Right a slot a' ∧ a'.Capacity size := by
  cases c with
  | push => exact push_works h hf
  | store i x => exact store_works h hf
  | pushN n => exact pushN_works hs h hf hband

theorem ArrayCall.works_iff {size : ℕ} (hs : 0 < size) {a : ArrayT α} (h : a.Capacity size) {c : ArrayCall α}
    (hf : c.Fits size a) : c.Works a ↔ c.OutsideBand a := by
  constructor
  · exact outsideBand_of_works hs hf
  · intro hband
    obtain ⟨slot, a', hrun, hright, -⟩ := c.works_of_outsideBand hs h hf hband
    exact ⟨slot, a', hrun, hright⟩

/-- Along every run of calls whose byte counts do not overflow, every call works exactly if none
asks for a number of slots in the band. -/
theorem array_calls_work_iff {size : ℕ} (hs : 0 < size) (n : ℕ) (hn : (if n = 0 then 1 else n) * size < 2 ^ 64)
    (cs : List (ArrayCall α)) (hf : EachStep arrayCall (fun a c => c.Fits size a) (arrayCreate n) cs) :
    EachStep arrayCall (fun a c => c.Works a) (arrayCreate n) cs ↔
      EachStep arrayCall (fun a c => c.OutsideBand a) (arrayCreate n) cs := by
  refine eachStep_iff (fun a c h hfit => c.works_iff hs h hfit) (fun a c h hfit hband => ?_)
    (arrayCreate_capacity hn) hf
  obtain ⟨slot, a', hrun, -, h'⟩ := c.works_of_outsideBand hs h hfit hband
  exact ⟨a', by rw [arrayCall, hrun]; rfl, h'⟩

theorem array_calls_work_iff_growing :
    EachStep arrayCall (fun a c => c.Works a) (arrayCreate 1 : ArrayT ℕ) [.push, .store 0 7, .push, .pushN 2, .pushN 8] := by
  refine (array_calls_work_iff (by decide : 0 < 8) 1 (by decide) _ ?_).mpr ?_
  · refine ⟨?_, ?_, ?_, ?_, ?_, trivial⟩ <;> decide
  · refine ⟨?_, ?_, ?_, ?_, ?_, trivial⟩ <;> decide

/-- After two elements, three more slots: the allocation has four, and the rest has wrapped. -/
theorem array_push_n_overruns :
    EachStep arrayCall (fun a c => c.Fits 8 a) (arrayCreate 1 : ArrayT ℕ) [.push, .push, .pushN 3] ∧
      ArrayCall.run ⟨2, 0, [none, none]⟩ (.pushN 3) =
        .ok (some 2, (⟨5, 2 ^ 64 - 1, [none, none, none, none]⟩ : ArrayT ℕ)) ∧
      ¬ EachStep arrayCall (fun a c => c.Works a) (arrayCreate 1 : ArrayT ℕ) [.push, .push, .pushN 3] := by
  refine ⟨?_, rfl, ?_⟩
  · refine ⟨?_, ?_, ?_, trivial⟩ <;> decide
  · rintro ⟨-, -, ⟨slot, a', hrun, hright⟩, -⟩
    cases hrun
    exact absurd hright.inside (by decide)

end RhinoRox
