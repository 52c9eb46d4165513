import RhinoRox.HeapSizes
import RhinoRox.ImplicitHeap
import Mathlib.Data.List.ReduceOption

/-!
# Heap order through pushes and pops

The invariant of the array with its initialised slots, and what `shiftdown`, `shiftup`,
`minheap_push` and `minheap_pop` do to the elements they rearrange.
-/

namespace RhinoRox

open ImplicitHeap

variable {α : Type}

/-- A comparison function whose sign is that of a total preorder. -/
structure Comparator (α : Type) where
  comp : α → α → ℤ
  swap : ∀ x y, comp x y < 0 ↔ comp y x > 0
  trans : ∀ x y z, comp x y ≤ 0 → comp y z ≤ 0 → comp x z ≤ 0

/-- `x` compares below `y`. -/
def Comparator.Below (c : Comparator α) (x y : α) : Prop := c.comp x y < 0

theorem Comparator.not_below {c : Comparator α} {x y : α} : ¬ c.Below x y ↔ c.comp y x ≤ 0 := by
  have h := c.swap x y
  unfold Comparator.Below
  omega

theorem Comparator.strictWeak (c : Comparator α) : StrictWeak c.Below where
  asymm {x y} h := by
    have hs := (c.swap x y).mp h
    unfold Comparator.Below
    omega
  negTrans {x y z} hxy hyz := by
    rw [Comparator.not_below] at *
    exact c.trans z y x hyz hxy

/-- The element of slot `i`, and `d` where there is none. -/
def ArrayT.view (a : ArrayT α) (d : α) (i : ℕ) : α := (a.elm[i]?).join.getD d

structure ArrayT.Inv (a : ArrayT α) : Prop where
  length : a.elm.length = a.nelm + a.nrest
  pos : 0 < a.elm.length
  small : a.nelm < 2 ^ 31
  filled : ∀ i < a.nelm, ∃ x, a.elm[i]? = some (some x)

theorem arrayCreate_inv (n : ℕ) : (arrayCreate n : ArrayT α).Inv where
  length := by simp [arrayCreate]
  pos := by
    simp only [arrayCreate, List.length_replicate]
    split <;> omega
  small := by simp [arrayCreate]
  filled := by simp [arrayCreate]

section Access
variable {a : ArrayT α} {i j : ℕ}

theorem ArrayT.Inv.arrayAt (h : a.Inv) (hi : i < a.nelm) : arrayAt a i = some i := by
  have hs := h.small
  rw [RhinoRox.arrayAt, toInt32_of_lt (by omega) (by omega), if_neg (by omega), if_pos (by omega)]
  simp

theorem ArrayT.Inv.getElem? (h : a.Inv) (d : α) (hi : i < a.nelm) :
    a.elm[i]? = some (some (a.view d i)) := by
  obtain ⟨x, hx⟩ := h.filled i hi
  simp [ArrayT.view, hx]

theorem ArrayT.Inv.load (h : a.Inv) (d : α) (hi : i < a.nelm) :
    arrayLoad a (some i) = .ok (a.view d i) := by
  simp [arrayLoad, h.getElem? d hi]

/-- Writing an initialised slot. -/
theorem ArrayT.Inv.store (h : a.Inv) (d x : α) (hi : i < a.nelm) :
    ∃ a', arrayStore a x (some i) = .ok a' ∧ a'.Inv ∧ a'.nelm = a.nelm ∧
      a'.view d = Function.update (a.view d) i x := by
  have hl : i < a.elm.length := by
    have := h.length
    omega
  refine ⟨{ a with elm := a.elm.set i (some x) }, by simp [arrayStore, hl], ?_, rfl, ?_⟩
  · refine ⟨by simpa using h.length, by simpa using h.pos, h.small, fun k hk => ?_⟩
    by_cases hik : i = k
    · subst hik
      exact ⟨x, by simp [hl]⟩
    · simpa [List.getElem?_set_ne hik] using h.filled k hk
  · funext k
    by_cases hik : k = i
    · subst hik
      simp [ArrayT.view, hl]
    · simp [ArrayT.view, List.getElem?_set_ne (Ne.symm hik), Function.update_of_ne hik]

theorem exchange_eq_update (f : ℕ → α) (i j : ℕ) :
    Function.update (Function.update f i (f j)) j (f i) = exchange f i j := by
  funext k
  by_cases hj : k = j
  · subst hj
    simp
  · by_cases hi : k = i
    · subst hi
      simp [Function.update_of_ne hj]
    · simp [Function.update_of_ne hj, Function.update_of_ne hi, exchange_of_ne f hi hj]

theorem ArrayT.Inv.swap (h : a.Inv) (d : α) (hi : i < a.nelm) (hj : j < a.nelm) :
    ∃ a', arraySwap a (some i) (some j) = .ok a' ∧ a'.Inv ∧ a'.nelm = a.nelm ∧
      a'.view d = exchange (a.view d) i j := by
  obtain ⟨a₁, h₁, hi₁, hn₁, hv₁⟩ := h.store d (a.view d j) hi
  obtain ⟨a₂, h₂, hi₂, hn₂, hv₂⟩ := hi₁.store d (a.view d i) (hn₁ ▸ hj)
  refine ⟨a₂, ?_, hi₂, hn₂.trans hn₁, ?_⟩
  · simp [arraySwap, h.load d hi, h.load d hj, h₁, h₂]
  · rw [hv₂, hv₁, exchange_eq_update]

end Access

/-- `a'` has the first `n` elements of `a` in another order and the rest unchanged. -/
structure Rearranged (d : α) (n : ℕ) (a a' : ArrayT α) : Prop where
  inv : a'.Inv
  nelm : a'.nelm = a.nelm
  elems : elems (a'.view d) n = elems (a.view d) n
  beyond : ∀ k, n ≤ k → a'.view d k = a.view d k

theorem Rearranged.refl {d : α} {n : ℕ} {a : ArrayT α} (h : a.Inv) : Rearranged d n a a :=
  ⟨h, rfl, rfl, fun _ _ => rfl⟩

theorem Rearranged.trans {d : α} {n : ℕ} {a b c : ArrayT α} (h : Rearranged d n a b)
    (h' : Rearranged d n b c) : Rearranged d n a c :=
  ⟨h'.inv, h'.nelm.trans h.nelm, h'.elems.trans h.elems,
    fun k hk => (h'.beyond k hk).trans (h.beyond k hk)⟩

theorem Rearranged.exchange {d : α} {n i j : ℕ} {a a' : ArrayT α} (hi : i < n) (hj : j < n)
    (h : a'.Inv) (hn : a'.nelm = a.nelm) (hv : a'.view d = exchange (a.view d) i j) :
    Rearranged d n a a' := by
  refine ⟨h, hn, by rw [hv, elems_exchange _ hi hj], fun k hk => ?_⟩
  rw [hv, exchange_of_ne _ (by omega) (by omega)]

section Shift
variable (c : Comparator α) (d : α) {n : ℕ}

/-- The elements move in any case; they end up ordered if only the one at `last` was out of order. -/
theorem shiftdown_spec {a : ArrayT α} {last : ℕ} (h : a.Inv) (hn : n ≤ a.nelm) (hl : last < n) :
    ∃ a', shiftdown c.comp a 0 last = .ok a' ∧ Rearranged d n a a' ∧
      (Bubbling c.Below (a.view d) n last → Ordered c.Below (a'.view d) n) := by
  induction last using Nat.strong_induction_on generalizing a with
  | _ last ih =>
    rw [shiftdown]
    by_cases h0 : 0 < last
    · have hp : parent last < last := parent_lt h0
      have hpn : parent last < a.nelm := by omega
      have hln : last < a.nelm := by omega
      have hat : arrayAt a (((last - 1) / 2 : ℕ) : ℤ) = some (parent last) := h.arrayAt hpn
      simp only [h0, if_true, h.arrayAt hln, hat, h.load d hln, h.load d hpn, Exec.ok_bind]
      by_cases hc : c.comp (a.view d last) (a.view d (parent last)) < 0
      · obtain ⟨a₁, h₁, hi₁, hn₁, hv₁⟩ := h.swap d hln hpn
        have hr₁ : Rearranged d n a a₁ := .exchange hl (by omega) hi₁ hn₁ hv₁
        obtain ⟨a₂, h₂, hr₂, ho₂⟩ := ih _ hp hi₁ (hn₁ ▸ hn) (by omega)
        refine ⟨a₂, ?_, hr₁.trans hr₂, fun hb => ho₂ ?_⟩
        · simp only [if_pos hc, h₁, Exec.ok_bind]
          exact h₂
        · rw [hv₁]
          exact hb.up c.strictWeak h0 hl hc
      · exact ⟨a, by simp [if_neg hc], .refl h, fun hb => hb.ordered_stop hc⟩
    · obtain rfl : last = 0 := by omega
      exact ⟨a, by simp, .refl h, fun hb => hb.ordered_root⟩

/-- The child the hole sinks to. -/
theorem shiftupRight_spec {a : ArrayT α} {i : ℕ} (h : a.Inv) (hn : n ≤ a.nelm) (hi : 2 * i + 1 < n) :
    ∃ r : Bool, shiftupRight c.comp a (2 * i + 1) n = .ok r ∧
      (if r then 2 * i + 1 + 1 else 2 * i + 1) < n ∧
      ∀ s, 0 < s → s < n → parent s = i →
        ¬ c.Below (a.view d s) (a.view d (if r then 2 * i + 1 + 1 else 2 * i + 1)) := by
  by_cases hr : 2 * i + 1 + 1 < n
  · have hln : 2 * i + 1 < a.nelm := by omega
    have hrn : 2 * i + 1 + 1 < a.nelm := by omega
    refine ⟨decide (c.comp (a.view d (2 * i + 1)) (a.view d (2 * i + 1 + 1)) > 0), ?_, ?_, ?_⟩
    · simp only [shiftupRight, hr, if_true, h.arrayAt hln, h.load d hln, Exec.ok_bind,
        h.arrayAt hrn, h.load d hrn, Exec.pure_eq]
    · split <;> omega
    · intro s hs hsn hp
      by_cases hc : c.comp (a.view d (2 * i + 1)) (a.view d (2 * i + 1 + 1)) > 0
      · simp only [hc, decide_true, if_true]
        rcases (parent_eq_iff hs).mp hp with rfl | rfl
        · exact c.strictWeak.asymm ((c.swap _ _).mpr hc)
        · exact c.strictWeak.irrefl _
      · simp only [hc, decide_false, if_false, Bool.false_eq_true]
        rcases (parent_eq_iff hs).mp hp with rfl | rfl
        · exact c.strictWeak.irrefl _
        · exact Comparator.not_below.mpr (not_lt.mp hc)
  · refine ⟨false, by simp [shiftupRight, hr], by simpa using hi, ?_⟩
    intro s hs hsn hp
    rcases (parent_eq_iff hs).mp hp with rfl | rfl
    · simpa using c.strictWeak.irrefl _
    · omega

theorem shiftupLoop_spec {a : ArrayT α} {i : ℕ} (h : a.Inv) (hn : n ≤ a.nelm) (hi : i < n)
    (hs : Sinking c.Below (a.view d) n i) :
    ∃ a' j, shiftupLoop c.comp a i n = .ok (a', j) ∧ Rearranged d n a a' ∧ j < n ∧
      Bubbling c.Below (a'.view d) n j := by
  induction hk : n - i using Nat.strong_induction_on generalizing a i with
  | _ k ih =>
    rw [shiftupLoop]
    by_cases hc : 2 * i + 1 < n
    · obtain ⟨r, hr, hlt, hmin⟩ := shiftupRight_spec c d h hn hc
      generalize hch : (if r = true then 2 * i + 1 + 1 else 2 * i + 1) = ch at hlt hmin
      have hch0 : 0 < ch ∧ parent ch = i := by
        unfold parent
        split at hch <;> omega
      have hic : i < ch := hch0.2 ▸ parent_lt hch0.1
      obtain ⟨a₁, h₁, hi₁, hn₁, hv₁⟩ := h.swap d (show i < a.nelm by omega) (show ch < a.nelm by omega)
      have hr₁ : Rearranged d n a a₁ := .exchange hi hlt hi₁ hn₁ hv₁
      have hs₁ : Sinking c.Below (a₁.view d) n ch := by
        rw [hv₁]
        exact hs.down hch0.1 hlt hch0.2 hmin
      obtain ⟨a₂, j, h₂, hr₂, hj, hb⟩ := ih (n - ch) (by omega) hi₁ (hn₁ ▸ hn) hlt hs₁ rfl
      refine ⟨a₂, j, ?_, hr₁.trans hr₂, hj, hb⟩
      simp only [hc, if_true, hr, Exec.ok_bind, hch, h.arrayAt (show i < a.nelm by omega),
        h.arrayAt (show ch < a.nelm by omega), h₁]
      exact h₂
    · exact ⟨a, i, by simp [hc], .refl h, hi, hs.bubbling (by omega)⟩

theorem shiftup_spec {a : ArrayT α} (h : a.Inv) (hn : n ≤ a.nelm)
    (hs : Sinking c.Below (a.view d) n 0) :
    ∃ a', shiftup c.comp a 0 n = .ok a' ∧ Rearranged d n a a' ∧ Ordered c.Below (a'.view d) n := by
  rcases Nat.eq_zero_or_pos n with rfl | hpos
  · refine ⟨a, ?_, .refl h, fun i _ hi => by omega⟩
    rw [shiftup, shiftupLoop]
    simp only [Nat.not_lt_zero, if_false, Exec.pure_eq, Exec.ok_bind]
    rw [shiftdown]
    simp
  · obtain ⟨a₁, j, h₁, hr₁, hj, hb⟩ := shiftupLoop_spec c d h hn hpos hs
    obtain ⟨a₂, h₂, hr₂, ho⟩ := shiftdown_spec c d hr₁.inv (hr₁.nelm ▸ hn) hj
    exact ⟨a₂, by simp [shiftup, h₁, h₂], hr₁.trans hr₂, ho hb⟩

end Shift

theorem ArrayT.Inv.view_eq {a : ArrayT α} (h : a.Inv) (d d' : α) {i : ℕ} (hi : i < a.nelm) :
    a.view d i = a.view d' i := by
  simpa using (h.getElem? d hi).symm.trans (h.getElem? d' hi)

structure Minheap.Inv (c : Comparator α) (h : Minheap α) : Prop where
  array : h.array.Inv
  len_le : h.len ≤ h.array.nelm
  comp : h.comp = c.comp
  ordered : ∀ d, Ordered c.Below (h.array.view d) h.len

/-- A heap whose elements may be out of order. -/
structure Minheap.Shaped (c : Comparator α) (h : Minheap α) : Prop where
  array : h.array.Inv
  len_le : h.len ≤ h.array.nelm
  comp : h.comp = c.comp

theorem Minheap.Shaped.sized {c : Comparator α} {h : Minheap α} (hi : h.Shaped c) : h.Sized :=
  ⟨hi.array.length, hi.len_le⟩

theorem Minheap.Inv.shaped {c : Comparator α} {h : Minheap α} (hi : h.Inv c) : h.Shaped c :=
  ⟨hi.array, hi.len_le, hi.comp⟩

/-- The elements of the heap. -/
def Minheap.toMultiset (h : Minheap α) : Multiset α := (h.array.elm.take h.len).reduceOption

section Operations
variable {c : Comparator α} {h : Minheap α}

theorem minheapCreate_inv (c : Comparator α) (n : ℕ) : (minheapCreate n c.comp).Inv c :=
  ⟨arrayCreate_inv n, by simp [minheapCreate], rfl, fun _ i _ hi => by simp [minheapCreate] at hi⟩

theorem minheapCreate_toMultiset (c : Comparator α) (n : ℕ) :
    (minheapCreate n c.comp).toMultiset = 0 := by
  simp [Minheap.toMultiset, minheapCreate, List.reduceOption_nil]

theorem Minheap.Inv.of_ordered {a : ArrayT α} {len : ℕ} (d : α) (ha : a.Inv) (hl : len ≤ a.nelm)
    (ho : Ordered c.Below (a.view d) len) : Minheap.Inv c ⟨len, a, c.comp⟩ :=
  ⟨ha, hl, rfl, fun d' => ho.congr fun _ hi => ha.view_eq d d' (hi.trans_le hl)⟩

theorem reduceOption_map_some (l : List α) : (l.map some).reduceOption = l := by
  induction l with
  | nil => rfl
  | cons a l ih => rw [List.map_cons, List.reduceOption_cons_of_some, ih]

theorem Minheap.Shaped.toMultiset_eq (hi : h.Shaped c) (d : α) :
    h.toMultiset = elems (h.array.view d) h.len := by
  have hl := hi.array.length
  have hle := hi.len_le
  have hm : h.array.elm.take h.len = ((List.range h.len).map (h.array.view d)).map some := by
    refine List.ext_getElem? fun i => ?_
    by_cases hlt : i < h.len
    · simp [List.getElem?_take_of_lt hlt, hi.array.getElem? d (hlt.trans_le hle), hlt]
    · simp [hlt]
  rw [Minheap.toMultiset, hm, reduceOption_map_some]
  rfl

theorem Minheap.Inv.toMultiset_eq (hi : h.Inv c) (d : α) : h.toMultiset = elems (h.array.view d) h.len :=
  hi.shaped.toMultiset_eq d

theorem Minheap.Inv.card_toMultiset (hi : h.Inv c) : h.toMultiset.card = h.len := by
  rcases Nat.eq_zero_or_pos h.len with h0 | hpos
  · simp [Minheap.toMultiset, h0, List.reduceOption_nil]
  · obtain ⟨d, -⟩ := hi.array.filled 0 (hpos.trans_le hi.len_le)
    rw [hi.toMultiset_eq d, card_elems]

/-- Writing the slot just past the last element. -/
theorem ArrayT.Inv.append {a : ArrayT α} (h : a.Inv) (v : α) (nrest m : ℕ)
    (hs : a.nelm + 1 < 2 ^ 31) (hl : a.elm.length + m = a.nelm + 1 + nrest) :
    ∃ b, arrayStore ⟨a.nelm + 1, nrest, a.elm ++ List.replicate m none⟩ v (some a.nelm) = .ok b ∧
      b.Inv ∧ b.nelm = a.nelm + 1 ∧ b.view v = Function.update (a.view v) a.nelm v := by
  have hlen := h.length
  have hlt : a.nelm < (a.elm ++ List.replicate m none).length := by
    simp only [List.length_append, List.length_replicate]
    omega
  refine ⟨⟨a.nelm + 1, nrest, (a.elm ++ List.replicate m none).set a.nelm (some v)⟩, ?_, ?_, rfl, ?_⟩
  · simp only [arrayStore, if_pos hlt, Exec.pure_eq]
  · refine ⟨by simpa using hl, by simpa using Nat.add_pos_left h.pos m, hs, ?_⟩
    intro k hk
    by_cases hkn : k = a.nelm
    · exact ⟨v, by rw [hkn, List.getElem?_set_self hlt]⟩
    · obtain ⟨x, hx⟩ := h.filled k (by change k < a.nelm + 1 at hk; omega)
      refine ⟨x, ?_⟩
      rw [List.getElem?_set_ne (Ne.symm hkn), List.getElem?_append_left (List.getElem?_eq_some_iff.mp hx).1, hx]
  · funext k
    by_cases hk : k = a.nelm
    · rw [hk, Function.update_self, ArrayT.view, List.getElem?_set_self hlt]
      rfl
    · rw [Function.update_of_ne hk, ArrayT.view, ArrayT.view, List.getElem?_set_ne (Ne.symm hk)]
      by_cases hkl : k < a.elm.length
      · rw [List.getElem?_append_left hkl]
      · rw [List.getElem?_append_right (by omega), List.getElem?_eq_none (l := a.elm) (by omega),
          List.getElem?_replicate]
        split <;> rfl

/-- The slot for a new element is at `len`, in the array or just past its end. -/
theorem Minheap.Shaped.newSlot (hi : h.Shaped c) (hs : h.len + 1 < 2 ^ 31) (v : α) :
    ∃ a, arrayStore (minheapItem h).2 v (minheapItem h).1 = .ok a ∧
      a.Inv ∧ a.nelm = max h.array.nelm (h.len + 1) ∧
      a.view v = Function.update (h.array.view v) h.len v := by
  have hlen := hi.array.length
  have hpos := hi.array.pos
  by_cases he : h.len = h.array.nelm
  · obtain ⟨nrest, m, hpush, hcount⟩ := arrayPush_eq h.array
    rw [minheapItem_of_full he, hpush, he]
    rw [he] at hs
    have hcount' := hcount hlen
    obtain ⟨b, hb, hib, hnb, hvb⟩ := hi.array.append v nrest m hs (by omega)
    exact ⟨b, hb, hib, by omega, hvb⟩
  · have hlt : h.len < h.array.nelm := lt_of_le_of_ne hi.len_le he
    obtain ⟨a, h₁, hi₁, hn₁, hv₁⟩ := hi.array.store v v hlt
    rw [minheapItem_of_not_full he, hi.array.arrayAt hlt]
    exact ⟨a, h₁, hi₁, by omega, hv₁⟩

/-- A push adds its element in any case, and keeps the order of a heap that had one. -/
theorem minheapPush_shaped (hi : h.Shaped c) (hs : h.len + 1 < 2 ^ 31) (v : α) :
    ∃ h', minheapPush h v = .ok h' ∧ h'.Shaped c ∧ h'.len = h.len + 1 ∧
      h'.toMultiset = v ::ₘ h.toMultiset ∧ h'.array.nelm = max h.array.nelm (h.len + 1) ∧
      (h.Inv c → h'.Inv c) := by
  obtain ⟨a, h₁, hi₁, hl₁, hv₁⟩ := hi.newSlot hs v
  obtain ⟨a', h₂, hr, ho⟩ := shiftdown_spec c v hi₁ (show h.len + 1 ≤ a.nelm by omega) (Nat.lt_succ_self h.len)
  have hshaped : Minheap.Shaped c ⟨h.len + 1, a', c.comp⟩ := ⟨hr.inv, by rw [hr.nelm]; simp only; omega, rfl⟩
  refine ⟨⟨h.len + 1, a', c.comp⟩, ?_, hshaped, rfl, ?_, hr.nelm.trans hl₁, fun hinv => ?_⟩
  · simp [minheapPush, hi.comp, h₁, h₂]
  · rw [hshaped.toMultiset_eq v, hi.toMultiset_eq v, hr.elems, elems_succ, hv₁, Function.update_self]
    congr 1
    exact elems_congr fun i hlt => Function.update_of_ne hlt.ne _ _
  · refine .of_ordered v hr.inv hshaped.len_le (ho ?_)
    rw [hv₁]
    constructor
    · intro j hj hjn hjl
      have hp := parent_lt hj
      rw [Function.update_of_ne hjl, Function.update_of_ne (by omega)]
      exact hinv.ordered v j hj (by omega)
    · intro _ k hk hkn hp
      have := parent_lt hk
      omega

theorem minheapPush_spec (hi : h.Inv c) (hs : h.len + 1 < 2 ^ 31) (v : α) :
    ∃ h', minheapPush h v = .ok h' ∧ h'.Inv c ∧ h'.len = h.len + 1 ∧
      h'.toMultiset = v ::ₘ h.toMultiset ∧ h'.array.nelm = max h.array.nelm (h.len + 1) := by
  obtain ⟨h', hr, -, hl, hm, hn, hinv⟩ := minheapPush_shaped hi.shaped hs v
  exact ⟨h', hr, hinv hi, hl, hm, hn⟩

/-- The push that brings the array to `2 ^ 31` elements: their number is negative as an
`int`, so that `array_at` returns `NULL` for the new element. -/
theorem minheapPush_overflow (hi : h.Shaped c) (hfull : h.len = h.array.nelm) (hn : h.len + 1 = 2 ^ 31) (v : α) :
    minheapPush h v = .error .nullPointer := by
  obtain ⟨a, ha, hna⟩ := minheapItem_store hi.sized hfull (by omega) v
  have hnarrow : toInt32 ((2 ^ 31 : ℕ) : ℤ) = -2 ^ 31 := by decide
  have hat : arrayAt a (h.len : ℤ) = none := by
    rw [RhinoRox.arrayAt, hna, hn, hnarrow, if_pos (Or.inl (by omega))]
  have hnull : shiftdown c.comp a 0 h.len = .error .nullPointer := by
    rw [shiftdown, if_pos (by omega)]
    simp [hat, arrayLoad]
  simp [minheapPush, ha, hi.comp, hnull]

/-- The element that `minheap_min` shows and `minheap_pop` takes. -/
theorem Minheap.Inv.root_le (hi : h.Inv c) (d : α) {y : α} (hy : y ∈ h.toMultiset) :
    ¬ c.Below y (h.array.view d 0) := by
  rw [hi.toMultiset_eq d, mem_elems] at hy
  obtain ⟨i, hlt, rfl⟩ := hy
  exact (hi.ordered d).root_le c.strictWeak hlt

theorem minheapMin_spec (hi : h.Inv c) (hpos : 0 < h.len) :
    ∃ x, minheapMin h = .ok (some x) ∧ x ∈ h.toMultiset ∧ ∀ y ∈ h.toMultiset, ¬ c.Below y x := by
  have hn : 0 < h.array.nelm := hpos.trans_le hi.len_le
  obtain ⟨d, -⟩ := hi.array.filled 0 hn
  refine ⟨h.array.view d 0, ?_, ?_, fun y => hi.root_le d⟩
  · have hat : arrayAt h.array 0 = some 0 := hi.array.arrayAt hn
    simp [minheapMin, hpos.ne', hat, hi.array.load d hn]
  · rw [hi.toMultiset_eq d, mem_elems]
    exact ⟨0, hpos, rfl⟩

theorem minheapPop_spec (hi : h.Inv c) (hpos : 0 < h.len) :
    ∃ x h', minheapPop h = .ok (some x, h') ∧ h'.Inv c ∧ h'.len + 1 = h.len ∧
      h.toMultiset = x ::ₘ h'.toMultiset ∧ (∀ y ∈ h'.toMultiset, ¬ c.Below y x) ∧
      h'.len < h'.array.nelm ∧ arrayLoad h'.array (some h'.len) = .ok x := by
  obtain ⟨n, hlen⟩ : ∃ n, h.len = n + 1 := ⟨h.len - 1, by omega⟩
  have hle := hi.len_le
  have h0 : 0 < h.array.nelm := by omega
  have hn : n < h.array.nelm := by omega
  obtain ⟨d, -⟩ := hi.array.filled 0 h0
  have ho := hi.ordered d
  rw [hlen] at ho
  obtain ⟨a, h₁, hi₁, hn₁, hv₁⟩ := hi.array.swap d h0 hn
  obtain ⟨a', h₂, hr, ho'⟩ := shiftup_spec c d hi₁ (show n ≤ a.nelm by omega) (hv₁ ▸ ho.sinking)
  have hna' : n < a'.nelm := by rw [hr.nelm, hn₁]; exact hn
  have hinv : Minheap.Inv c ⟨n, a', c.comp⟩ := .of_ordered d hr.inv hna'.le ho'
  have hroot : a'.view d n = h.array.view d 0 := by rw [hr.beyond n le_rfl, hv₁, exchange_right]
  have hsplit : h.toMultiset = h.array.view d 0 ::ₘ Minheap.toMultiset ⟨n, a', c.comp⟩ := by
    rw [hinv.toMultiset_eq d, hi.toMultiset_eq d, hlen, hr.elems,
      ← elems_exchange _ (show 0 < n + 1 by omega) (show n < n + 1 by omega), ← hv₁, elems_succ, hv₁,
      exchange_right]
  refine ⟨h.array.view d 0, ⟨n, a', c.comp⟩, ?_, hinv, hlen.symm, hsplit, fun y hy => ?_, hna', ?_⟩
  · have hat : arrayAt h.array 0 = some 0 := hi.array.arrayAt h0
    rw [minheapPop, if_neg hpos.ne', show h.len - 1 = n by omega, hat, hi.array.arrayAt hn, h₁]
    rw [Exec.ok_bind, hi.comp, h₂, Exec.ok_bind, hr.inv.arrayAt hna', hr.inv.load d hna', hroot]
    rfl
  · exact hi.root_le d (hsplit ▸ Multiset.mem_cons_of_mem hy)
  · rw [hr.inv.load d hna', hroot]

end Operations

end RhinoRox
