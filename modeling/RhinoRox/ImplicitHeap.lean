import Mathlib.Data.Multiset.Range
import Mathlib.Logic.Equiv.Basic
import Mathlib.Data.Multiset.MapFold
import Mathlib.Tactic.Common

/-!
# Heap order on an indexed sequence

Positions `0, 1, 2, …` form the implicit binary tree with parent `(i - 1) / 2`. The
lemmas describe one exchange at a time: an element bubbling up, a hole sinking to a
leaf through the smaller child, and the multiset that exchanges preserve.
-/

namespace RhinoRox.ImplicitHeap

variable {α : Type*}

/-- `lt` is the strict part of a total preorder. -/
structure StrictWeak (lt : α → α → Prop) : Prop where
  asymm : ∀ {a b}, lt a b → ¬ lt b a
  negTrans : ∀ {a b c}, ¬ lt a b → ¬ lt b c → ¬ lt a c

theorem StrictWeak.irrefl {lt : α → α → Prop} (h : StrictWeak lt) (a : α) : ¬ lt a a :=
  fun ha => h.asymm ha ha

def parent (i : ℕ) : ℕ := (i - 1) / 2

theorem parent_lt {i : ℕ} (h : 0 < i) : parent i < i := by
  unfold parent
  omega

theorem parent_eq_iff {c i : ℕ} (h : 0 < c) : parent c = i ↔ c = 2 * i + 1 ∨ c = 2 * i + 2 := by
  unfold parent
  omega

/-- Exchange two positions. -/
def exchange (f : ℕ → α) (i j : ℕ) : ℕ → α := fun k => f (Equiv.swap i j k)

@[simp] theorem exchange_left (f : ℕ → α) (i j : ℕ) : exchange f i j i = f j := by simp [exchange]

@[simp] theorem exchange_right (f : ℕ → α) (i j : ℕ) : exchange f i j j = f i := by simp [exchange]

theorem exchange_of_ne (f : ℕ → α) {i j k : ℕ} (hi : k ≠ i) (hj : k ≠ j) : exchange f i j k = f k := by
  simp [exchange, Equiv.swap_apply_of_ne_of_ne hi hj]

/-- The multiset of the first `n` elements. -/
def elems (f : ℕ → α) (n : ℕ) : Multiset α := (Multiset.range n).map f

theorem elems_succ (f : ℕ → α) (n : ℕ) : elems f (n + 1) = f n ::ₘ elems f n := by
  simp [elems, Multiset.range_succ]

@[simp] theorem card_elems (f : ℕ → α) (n : ℕ) : (elems f n).card = n := by simp [elems]

theorem mem_elems {f : ℕ → α} {n : ℕ} {x : α} : x ∈ elems f n ↔ ∃ i < n, f i = x := by
  simp [elems]

theorem elems_congr {f g : ℕ → α} {n : ℕ} (h : ∀ i < n, f i = g i) : elems f n = elems g n :=
  Multiset.map_congr rfl fun i hi => h i (Multiset.mem_range.mp hi)

/-- The element that was at `i` is exchanged for `x`. -/
theorem elems_update (f : ℕ → α) {i n : ℕ} (hi : i < n) (x : α) :
    f i ::ₘ elems (Function.update f i x) n = x ::ₘ elems f n := by
  induction n with
  | zero => omega
  | succ n ih =>
    rw [elems_succ, elems_succ]
    by_cases hin : i = n
    · subst hin
      rw [Function.update_self, Multiset.cons_swap, elems_congr fun j hj => Function.update_of_ne hj.ne x f]
    · rw [Function.update_of_ne (Ne.symm hin), Multiset.cons_swap, ih (by omega), Multiset.cons_swap]

theorem elems_exchange (f : ℕ → α) {i j n : ℕ} (hi : i < n) (hj : j < n) :
    elems (exchange f i j) n = elems f n := by
  have hp : (Multiset.range n).map (Equiv.swap i j) = Multiset.range n := by
    refine (Multiset.Nodup.ext ((Multiset.nodup_range n).map (Equiv.injective _))
      (Multiset.nodup_range n)).mpr fun k => ?_
    have hlt : ∀ m, m < n → Equiv.swap i j m < n := by
      intro m hm
      rw [Equiv.swap_apply_def]
      split_ifs <;> assumption
    simp only [Multiset.mem_map, Multiset.mem_range]
    constructor
    · rintro ⟨m, hm, rfl⟩
      exact hlt m hm
    · exact fun hk => ⟨Equiv.swap i j k, hlt k hk, by simp⟩
  calc elems (exchange f i j) n = ((Multiset.range n).map (Equiv.swap i j)).map f := by
        rw [Multiset.map_map]; rfl
    _ = elems f n := by rw [hp, elems]

variable {lt : α → α → Prop} {f : ℕ → α} {n : ℕ}

/-- No element is below its parent. -/
def Ordered (lt : α → α → Prop) (f : ℕ → α) (n : ℕ) : Prop :=
  ∀ i, 0 < i → i < n → ¬ lt (f i) (f (parent i))

theorem Ordered.congr {g : ℕ → α} (h : Ordered lt f n) (he : ∀ i < n, f i = g i) : Ordered lt g n := by
  intro i hi hn
  rw [← he i hn, ← he _ ((parent_lt hi).trans hn)]
  exact h i hi hn

theorem Ordered.root_le (h : Ordered lt f n) (w : StrictWeak lt) {i : ℕ} (hi : i < n) : ¬ lt (f i) (f 0) := by
  induction i using Nat.strong_induction_on with
  | _ i ih =>
    rcases Nat.eq_zero_or_pos i with rfl | hpos
    · exact w.irrefl _
    · exact w.negTrans (h i hpos hi) (ih _ (parent_lt hpos) ((parent_lt hpos).trans hi))

/-- Only the pair at `i` and its parent may be out of order. -/
structure Bubbling (lt : α → α → Prop) (f : ℕ → α) (n i : ℕ) : Prop where
  pairs : ∀ j, 0 < j → j < n → j ≠ i → ¬ lt (f j) (f (parent j))
  grand : 0 < i → ∀ c, 0 < c → c < n → parent c = i → ¬ lt (f c) (f (parent i))

theorem Bubbling.ordered_root (h : Bubbling lt f n 0) : Ordered lt f n :=
  fun j hj hn => h.pairs j hj hn hj.ne'

theorem Bubbling.ordered_stop {i : ℕ} (h : Bubbling lt f n i) (hs : ¬ lt (f i) (f (parent i))) :
    Ordered lt f n := by
  intro j hj hn
  by_cases he : j = i
  · rw [he]
    exact hs
  · exact h.pairs j hj hn he

theorem Bubbling.up (w : StrictWeak lt) {i : ℕ} (h : Bubbling lt f n i) (hi : 0 < i) (hn : i < n)
    (hlt : lt (f i) (f (parent i))) : Bubbling lt (exchange f i (parent i)) n (parent i) := by
  have hpi := parent_lt hi
  have hle : ¬ lt (f (parent i)) (f i) := w.asymm hlt
  constructor
  · intro j hj hjn hjp
    by_cases hji : j = i
    · subst hji
      simpa using hle
    · rw [exchange_of_ne f hji hjp]
      by_cases hpj : parent j = i
      · rw [hpj, exchange_left]
        exact h.grand hi j hj hjn hpj
      · by_cases hpp : parent j = parent i
        · rw [hpp, exchange_right]
          exact w.negTrans (hpp ▸ h.pairs j hj hjn hji) hle
        · rw [exchange_of_ne f hpj hpp]
          exact h.pairs j hj hjn hji
  · intro hp c hc hcn hpc
    have hpp := parent_lt hp
    have hup : ¬ lt (f (parent i)) (f (parent (parent i))) := h.pairs _ hp (hpi.trans hn) hpi.ne
    rw [exchange_of_ne f (hpp.trans hpi).ne hpp.ne]
    by_cases hci : c = i
    · rw [hci, exchange_left]
      exact hup
    · have hcp : c ≠ parent i := fun he => by
        have := parent_lt hc
        omega
      rw [exchange_of_ne f hci hcp]
      exact w.negTrans (hpc ▸ h.pairs c hc hcn hci) hup

/-- Only pairs touching the hole `i` may be out of order, and the hole can be skipped. -/
structure Sinking (lt : α → α → Prop) (f : ℕ → α) (n i : ℕ) : Prop where
  pairs : ∀ j, 0 < j → j < n → j ≠ i → parent j ≠ i → ¬ lt (f j) (f (parent j))
  grand : 0 < i → ∀ c, 0 < c → c < n → parent c = i → ¬ lt (f c) (f (parent i))

/-- Moving the last element of a heap to the root leaves a hole at the root. -/
theorem Ordered.sinking (h : Ordered lt f (n + 1)) : Sinking lt (exchange f 0 n) n 0 := by
  constructor
  · intro j hj hjn hj₀ hp₀
    have hlt := parent_lt hj
    rw [exchange_of_ne f hj₀ (by omega), exchange_of_ne f hp₀ (by omega)]
    exact h j hj (by omega)
  · intro hi
    omega

/-- At a leaf a sinking hole is an element about to bubble up. -/
theorem Sinking.bubbling {i : ℕ} (h : Sinking lt f n i) (hleaf : n ≤ 2 * i + 1) : Bubbling lt f n i := by
  have hp : ∀ j, 0 < j → j < n → parent j ≠ i := by
    intro j hj hjn hpj
    rcases (parent_eq_iff hj).mp hpj with rfl | rfl <;> omega
  exact ⟨fun j hj hjn hji => h.pairs j hj hjn hji (hp j hj hjn), fun _ c hc hcn hpc => absurd hpc (hp c hc hcn)⟩

theorem Sinking.down {i c : ℕ} (h : Sinking lt f n i) (hc : 0 < c) (hcn : c < n)
    (hpc : parent c = i) (hmin : ∀ s, 0 < s → s < n → parent s = i → ¬ lt (f s) (f c)) :
    Sinking lt (exchange f i c) n c := by
  have hic : i < c := hpc ▸ parent_lt hc
  constructor
  · intro j hj hjn hjc hpj
    by_cases hji : j = i
    · subst hji
      rw [exchange_left, exchange_of_ne f (parent_lt hj).ne hpj]
      exact h.grand hj c hc hcn hpc
    · rw [exchange_of_ne f hji hjc]
      by_cases hpi : parent j = i
      · rw [hpi, exchange_left]
        exact hmin j hj hjn hpi
      · rw [exchange_of_ne f hpi hpj]
        exact h.pairs j hj hjn hji hpi
  · intro _ d hd hdn hpd
    have hcd : c < d := hpd ▸ parent_lt hd
    rw [hpc, exchange_left, exchange_of_ne f (by omega) (by omega), ← hpd]
    exact h.pairs d hd hdn (by omega) (by omega)

end RhinoRox.ImplicitHeap
