import RhinoRox.Minheap

/-!
# The sizes of the heap and of its array

What moves elements in the array keeps its counters, and every call on a heap leaves it in
agreement with them, whatever the comparison function does and however many elements there are.
-/

namespace RhinoRox

variable {α : Type}

/-! ## What moves the elements -/

/-- The counters and the number of slots are those of the array before. -/
structure SameSize (a a' : ArrayT α) : Prop where
  nelm : a'.nelm = a.nelm
  nrest : a'.nrest = a.nrest
  length : a'.elm.length = a.elm.length

theorem SameSize.refl (a : ArrayT α) : SameSize a a := ⟨rfl, rfl, rfl⟩

theorem SameSize.trans {a b c : ArrayT α} (h : SameSize a b) (h' : SameSize b c) : SameSize a c :=
  ⟨h'.nelm.trans h.nelm, h'.nrest.trans h.nrest, h'.length.trans h.length⟩

/-- A store that returns has changed its slot and nothing else. -/
theorem arrayStore_eq_ok {a b : ArrayT α} {x : α} {i : ℕ} :
    arrayStore a x (some i) = .ok b ↔ i < a.elm.length ∧ { a with elm := a.elm.set i (some x) } = b := by
  rw [arrayStore]
  by_cases hi : i < a.elm.length
  · rw [if_pos hi, Exec.pure_eq, Except.ok.injEq]
    exact (and_iff_right hi).symm
  · rw [if_neg hi]
    exact iff_of_false (fun h => nomatch h) (fun h => hi h.1)

theorem arrayStore_size {a a' : ArrayT α} {x : α} {p : Option ℕ} (h : arrayStore a x p = .ok a') : SameSize a a' := by
  cases p with
  | none => cases h
  | some i =>
    obtain ⟨-, rfl⟩ := arrayStore_eq_ok.mp h
    exact ⟨rfl, rfl, List.length_set⟩

theorem arraySwap_size {a a' : ArrayT α} {p q : Option ℕ} (h : arraySwap a p q = .ok a') : SameSize a a' := by
  obtain ⟨x, -, h₁⟩ := Exec.bind_eq_ok.mp h
  obtain ⟨y, -, h₂⟩ := Exec.bind_eq_ok.mp h₁
  obtain ⟨b, hb, h₃⟩ := Exec.bind_eq_ok.mp h₂
  exact (arrayStore_size hb).trans (arrayStore_size h₃)

theorem shiftdown_size {comp : α → α → ℤ} {a a' : ArrayT α} {start last : ℕ}
    (h : shiftdown comp a start last = .ok a') : SameSize a a' := by
  induction last using Nat.strong_induction_on generalizing a with
  | _ last ih =>
    rw [shiftdown] at h
    by_cases hlt : start < last
    · rw [if_pos hlt] at h
      obtain ⟨x, -, h₁⟩ := Exec.bind_eq_ok.mp h
      obtain ⟨y, -, h₂⟩ := Exec.bind_eq_ok.mp h₁
      by_cases hcomp : comp x y < 0
      · rw [if_pos hcomp] at h₂
        obtain ⟨b, hb, h₃⟩ := Exec.bind_eq_ok.mp h₂
        exact (arraySwap_size hb).trans (ih _ (by omega) h₃)
      · rw [if_neg hcomp] at h₂
        obtain rfl := Except.ok.inj h₂
        exact .refl a
    · rw [if_neg hlt] at h
      obtain rfl := Except.ok.inj h
      exact .refl a

/-- The child that the hole goes to is in the heap. -/
theorem shiftupRight_lt {comp : α → α → ℤ} {a : ArrayT α} {ichild iend : ℕ} {right : Bool}
    (h : shiftupRight comp a ichild iend = .ok right) (hlt : ichild < iend) :
    (if right then ichild + 1 else ichild) < iend := by
  by_cases hr : ichild + 1 < iend
  · split <;> omega
  · rw [shiftupRight, if_neg hr] at h
    obtain rfl := Except.ok.inj h
    exact hlt

/-- The hole stays where it is, or ends in the heap. -/
theorem shiftupLoop_size {comp : α → α → ℤ} {a a' : ArrayT α} {istart iend i : ℕ}
    (h : shiftupLoop comp a istart iend = .ok (a', i)) : SameSize a a' ∧ (i = istart ∨ i < iend) := by
  induction hn : iend - istart using Nat.strong_induction_on generalizing a istart with
  | _ n ih =>
    rw [shiftupLoop] at h
    by_cases hlt : 2 * istart + 1 < iend
    · rw [if_pos hlt] at h
      obtain ⟨right, hright, h₁⟩ := Exec.bind_eq_ok.mp h
      obtain ⟨b, hb, h₂⟩ := Exec.bind_eq_ok.mp h₁
      have hchild := shiftupRight_lt hright hlt
      have hdown : iend - (if right then 2 * istart + 1 + 1 else 2 * istart + 1) < n := by
        split <;> omega
      obtain ⟨hsize, hi⟩ := ih _ hdown h₂ rfl
      refine ⟨(arraySwap_size hb).trans hsize, Or.inr ?_⟩
      rcases hi with rfl | hi
      · exact hchild
      · exact hi
    · rw [if_neg hlt] at h
      obtain ⟨rfl, rfl⟩ := Prod.mk.inj (Except.ok.inj h)
      exact ⟨.refl a, Or.inl rfl⟩

theorem shiftup_size {comp : α → α → ℤ} {a a' : ArrayT α} {start len : ℕ} (h : shiftup comp a start len = .ok a') :
    SameSize a a' := by
  obtain ⟨⟨b, i⟩, hb, h₁⟩ := Exec.bind_eq_ok.mp h
  exact (shiftupLoop_size hb).1.trans (shiftdown_size h₁)

/-- A push takes one slot more, after those of before and the new ones. The counters stay right
unless there was no slot: twice nothing is nothing. -/
theorem arrayPush_eq (a : ArrayT α) :
    ∃ nrest m, arrayPush a = (some a.nelm, ⟨a.nelm + 1, nrest, a.elm ++ List.replicate m none⟩) ∧
      (a.elm.length = a.nelm + a.nrest → a.elm.length + m = a.nelm + 1 + nrest ∨ a.elm.length + m = 0) := by
  rw [arrayPush]
  by_cases hrest : 0 < a.nrest
  · refine ⟨a.nrest - 1, 0, ?_, by omega⟩
    rw [if_pos hrest, List.replicate_zero, List.append_nil]
  · refine ⟨a.nelm - 1, 2 * a.nelm - a.elm.length, ?_, by omega⟩
    rw [if_neg hrest]

/-! ## Calls on a heap -/

/-- The counters and the slots of the array agree, and the heap is a part of it. -/
structure Minheap.Sized (h : Minheap α) : Prop where
  length : h.array.elm.length = h.array.nelm + h.array.nrest
  len_le : h.len ≤ h.array.nelm

theorem Minheap.Sized.of_size {h : Minheap α} {a : ArrayT α} {len : ℕ} (hs : h.Sized) (ha : SameSize h.array a)
    (hle : len ≤ h.array.nelm) : Minheap.Sized ⟨len, a, h.comp⟩ where
  length := by rw [ha.length, ha.nelm, ha.nrest, hs.length]
  len_le := ha.nelm ▸ hle

theorem minheapCreate_sized (n : ℕ) (comp : α → α → ℤ) : (minheapCreate n comp).Sized where
  length := by simp [minheapCreate, arrayCreate]
  len_le := Nat.zero_le _

/-- A full heap gets its new slot past the elements of the array. -/
theorem minheapItem_of_full {h : Minheap α} (hfull : h.len = h.array.nelm) : minheapItem h = arrayPush h.array :=
  if_pos hfull

theorem minheapItem_of_not_full {h : Minheap α} (hfull : h.len ≠ h.array.nelm) :
    minheapItem h = (arrayAt h.array h.len, h.array) :=
  if_neg hfull

theorem minheapItem_nelm {h : Minheap α} (hs : h.Sized) :
    (minheapItem h).2.nelm = max h.array.nelm (h.len + 1) := by
  have hle := hs.len_le
  by_cases hfull : h.len = h.array.nelm
  · obtain ⟨nrest, m, hpush, -⟩ := arrayPush_eq h.array
    rw [minheapItem_of_full hfull, hpush]
    simp only
    omega
  · rw [minheapItem_of_not_full hfull]
    simp only
    omega

theorem minheapItem_store {h : Minheap α} (hs : h.Sized) (hfull : h.len = h.array.nelm) (hpos : 0 < h.len) (v : α) :
    ∃ a, arrayStore (minheapItem h).2 v (minheapItem h).1 = .ok a ∧ a.nelm = h.len + 1 := by
  obtain ⟨nrest, m, hpush, hcount⟩ := arrayPush_eq h.array
  have hlen := hs.length
  have hcount' := hcount hlen
  have hroom : h.array.nelm < (h.array.elm ++ List.replicate m none).length := by
    rw [List.length_append, List.length_replicate]
    omega
  rw [minheapItem_of_full hfull, hpush, hfull]
  exact ⟨_, arrayStore_eq_ok.mpr ⟨hroom, rfl⟩, rfl⟩

/-- Whether a push gets more slots depends on the sizes alone. -/
theorem SameSize.item_length {h : Minheap α} {a : ArrayT α} (ha : SameSize h.array a) :
    (minheapItem { h with array := a }).2.elm.length = (minheapItem h).2.elm.length := by
  by_cases he : h.len = h.array.nelm
  · by_cases h0 : 0 < h.array.nrest
    · simp [minheapItem, arrayLen, arrayPush, he, ha.nelm, ha.nrest, h0, ha.length]
    · simp [minheapItem, arrayLen, arrayPush, he, ha.nelm, ha.nrest, h0, ha.length]
  · simp [minheapItem, arrayLen, he, ha.nelm, ha.length]

/-- A heap that agrees with its counters after a call: `n` elements, and no more slots used than needed. -/
structure Minheap.Resized (h : Minheap α) (n : ℕ) (h' : Minheap α) : Prop where
  sized : h'.Sized
  len : h'.len = n
  nelm : h'.array.nelm = max h.array.nelm n

theorem minheapPush_resized {h h' : Minheap α} {v : α} (hs : h.Sized) (hpush : minheapPush h v = .ok h') :
    h.Resized (h.len + 1) h' := by
  obtain ⟨a, ha, h₁⟩ : ∃ a, arrayStore (minheapItem h).2 v (minheapItem h).1 = .ok a ∧
      (shiftdown h.comp a 0 h.len >>= fun b => pure { h with array := b, len := h.len + 1 }) = .ok h' :=
    Exec.bind_eq_ok.mp hpush
  obtain ⟨b, hb, h₂⟩ := Exec.bind_eq_ok.mp h₁
  obtain rfl := Except.ok.inj h₂
  have hstored := arrayStore_size ha
  have hnelm := hstored.nelm.trans (minheapItem_nelm hs)
  have hlen : a.elm.length = a.nelm + a.nrest := by
    by_cases hfull : h.len = h.array.nelm
    · obtain ⟨nrest, m, hnew, hcount⟩ := arrayPush_eq h.array
      rw [minheapItem_of_full hfull, hnew] at ha hstored
      have hroom := (arrayStore_eq_ok.mp ha).1
      rw [List.length_append, List.length_replicate] at hroom
      rw [hstored.length, hstored.nelm, hstored.nrest, List.length_append, List.length_replicate]
      have hcount' := hcount hs.length
      simp only
      omega
    · rw [minheapItem_of_not_full hfull] at hstored
      rw [hstored.length, hstored.nelm, hstored.nrest, hs.length]
  have hin : Minheap.Sized ⟨h.len + 1, a, h.comp⟩ := ⟨hlen, hnelm ▸ le_max_right _ _⟩
  have hdown := shiftdown_size hb
  exact ⟨hin.of_size hdown hin.len_le, rfl, hdown.nelm.trans hnelm⟩

theorem minheapPop_resized {h h' : Minheap α} {x : Option α} (hs : h.Sized) (hpop : minheapPop h = .ok (x, h')) :
    h.Resized (h.len - 1) h' := by
  have hle := hs.len_le
  rw [minheapPop] at hpop
  by_cases hempty : h.len = 0
  · rw [if_pos hempty] at hpop
    obtain ⟨-, rfl⟩ := Prod.mk.inj (Except.ok.inj hpop)
    exact ⟨hs, by omega, by omega⟩
  · rw [if_neg hempty] at hpop
    obtain ⟨a, ha, h₁⟩ := Exec.bind_eq_ok.mp hpop
    obtain ⟨b, hb, h₂⟩ := Exec.bind_eq_ok.mp h₁
    obtain ⟨root, -, h₃⟩ := Exec.bind_eq_ok.mp h₂
    obtain ⟨-, rfl⟩ := Prod.mk.inj (Except.ok.inj h₃)
    have hmoved := (arraySwap_size ha).trans (shiftup_size hb)
    refine ⟨hs.of_size hmoved (by omega), rfl, ?_⟩
    rw [hmoved.nelm]
    omega

end RhinoRox
