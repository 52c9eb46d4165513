import RhinoRox.Stemmer
import Mathlib.Algebra.Order.Ring.Int

/-!
# What stemming leaves of a word

The result does not depend on the `j` that the stemmer was left with, the letters stay in
the buffer they came in, and at least one letter and no new one remains.
-/

namespace RhinoRox

namespace Stemmer

/-- Two stemmers hold the same letters; `j` may differ. -/
structure SameWord (z z' : Stemmer) : Prop where
  b : z.b = z'.b
  k : z.k = z'.k

theorem SameWord.refl (z : Stemmer) : SameWord z z := ⟨rfl, rfl⟩

theorem SameWord.eq_with {z z' : Stemmer} (h : SameWord z z') : z' = { z with j := z'.j } := by
  obtain ⟨b, k, j⟩ := z
  obtain ⟨b', k', j'⟩ := z'
  obtain ⟨rfl, rfl⟩ := h
  rfl

@[simp] theorem ends_with (z : Stemmer) (j : ℤ) (s : Bytes) : ends { z with j := j } s = ends z s := rfl

@[simp] theorem ch_with (z : Stemmer) (j i : ℤ) : ch { z with j := j } i = z.ch i := rfl

theorem step1a_sameWord {z z' : Stemmer} (h : SameWord z z') : SameWord (step1a z) (step1a z') := by
  have hch : z'.ch z'.k = z.ch z.k := by rw [h.eq_with, ch_with]
  have hch' : z'.ch (z'.k - 1) = z.ch (z.k - 1) := by rw [h.eq_with, ch_with]
  have hends (s : Bytes) : ends z' s = ends z s := by rw [h.eq_with, ends_with]
  simp only [step1a, hch, hch', hends]
  split
  · rcases ends z (ascii "sses") with _ | x
    · rcases ends z (ascii "ies") with _ | x
      · dsimp only
        split
        · exact ⟨h.b, by simp [h.k]⟩
        · exact h
      · exact .refl _
    · exact .refl _
  · exact h

theorem step1b_sameWord {z z' : Stemmer} (h : SameWord z z') : SameWord (step1b z) (step1b z') := by
  rw [h.eq_with]
  simp only [step1b, ends_with]
  split
  · exact .refl _
  · split
    · exact .refl _
    · exact ⟨rfl, rfl⟩

theorem step1c_sameWord {z z' : Stemmer} (h : SameWord z z') : SameWord (step1c z) (step1c z') := by
  rw [h.eq_with]
  simp only [step1c, ends_with]
  split
  · exact .refl _
  · exact ⟨rfl, rfl⟩

theorem replaceSuffix_sameWord {z z' : Stemmer} (h : SameWord z z') (rules : List (String × String)) :
    SameWord (replaceSuffix z rules) (replaceSuffix z' rules) := by
  rw [h.eq_with]
  induction rules with
  | nil => exact ⟨rfl, rfl⟩
  | cons p rest ih =>
    simp only [replaceSuffix, ends_with]
    split
    · exact .refl _
    · exact ih

theorem step2_sameWord {z z' : Stemmer} (h : SameWord z z') : SameWord (step2 z) (step2 z') := by
  have hch : z'.ch (z'.k - 1) = z.ch (z.k - 1) := by rw [h.eq_with, ch_with]
  rw [step2, step2, hch]
  exact replaceSuffix_sameWord h _

theorem step3_sameWord {z z' : Stemmer} (h : SameWord z z') : SameWord (step3 z) (step3 z') := by
  have hch : z'.ch z'.k = z.ch z.k := by rw [h.eq_with, ch_with]
  rw [step3, step3, hch]
  exact replaceSuffix_sameWord h _

/-- A search that succeeds forgets the old `j`, one that fails keeps the letters. -/
def SameSearch (p q : Bool × Stemmer) : Prop := p.1 = q.1 ∧ SameWord p.2 q.2 ∧ (p.1 = true → p.2 = q.2)

theorem endsAny_sameSearch {z z' : Stemmer} (h : SameWord z z') (l : List String) :
    SameSearch (endsAny z l) (endsAny z' l) := by
  rw [h.eq_with]
  induction l with
  | nil => exact ⟨rfl, ⟨rfl, rfl⟩, by simp [endsAny]⟩
  | cons s rest ih =>
    simp only [endsAny, ends_with]
    split
    · exact ⟨rfl, .refl _, fun _ => rfl⟩
    · exact ih

theorem endsIon_sameSearch {z z' : Stemmer} (h : SameWord z z') : SameSearch (endsIon z) (endsIon z') := by
  rw [h.eq_with]
  simp only [endsIon, ends_with]
  split
  · exact ⟨rfl, .refl _, fun _ => rfl⟩
  · exact ⟨rfl, ⟨rfl, rfl⟩, by simp⟩

theorem step4Switch_sameSearch {z z' : Stemmer} (h : SameWord z z') :
    SameSearch (step4Switch z) (step4Switch z') := by
  have hch : z'.ch (z'.k - 1) = z.ch (z.k - 1) := by rw [h.eq_with, ch_with]
  simp only [step4Switch, hch]
  split
  · exact ⟨rfl, h, by simp⟩
  · split
    · have hion := endsIon_sameSearch h
      generalize endsIon z = p at hion ⊢
      generalize endsIon z' = q at hion ⊢
      obtain ⟨a, x⟩ := p
      obtain ⟨b, y⟩ := q
      obtain ⟨rfl, hw, he⟩ : a = b ∧ SameWord x y ∧ (a = true → x = y) := hion
      cases a with
      | true => exact ⟨rfl, hw, he⟩
      | false => exact endsAny_sameSearch hw _
    · exact endsAny_sameSearch h _

theorem step4_sameWord {z z' : Stemmer} (h : SameWord z z') : SameWord (step4 z) (step4 z') := by
  have hs := step4Switch_sameSearch h
  unfold step4
  generalize step4Switch z = p at hs ⊢
  generalize step4Switch z' = q at hs ⊢
  obtain ⟨a, x⟩ := p
  obtain ⟨b, y⟩ := q
  obtain ⟨rfl, hw, he⟩ : a = b ∧ SameWord x y ∧ (a = true → x = y) := hs
  cases a with
  | true =>
    obtain rfl := he rfl
    exact .refl _
  | false => exact hw

theorem step5_sameWord {z z' : Stemmer} (h : SameWord z z') : SameWord (step5 z) (step5 z') := by
  have he : ({ z with j := z.k } : Stemmer) = { z' with j := z'.k } := by
    rw [h.eq_with]
  rw [step5, step5, he]
  exact .refl _

theorem laterSteps_sameWord {z z' : Stemmer} (h : SameWord z z') :
    SameWord (laterSteps z) (laterSteps z') :=
  step5_sameWord (step4_sameWord (step3_sameWord (step2_sameWord (step1c_sameWord h))))

/-! ## Bounds -/

theorem m_pos {z : Stemmer} (h : 0 < z.m) : 1 ≤ z.j := by
  by_contra hj
  have hle : (z.j + 1).toNat ≤ 1 := by omega
  unfold m at h
  rcases Nat.le_one_iff_eq_zero_or_eq_one.mp hle with h0 | h1
  · rw [h0] at h
    exact absurd h (by simp [mLoop])
  · rw [h1] at h
    simp only [mLoop] at h
    split at h <;> simp at h

theorem vowelinstem_pos {z : Stemmer} (h : vowelinstem z = true) : 0 ≤ z.j := by
  by_contra hj
  have h0 : (z.j + 1).toNat = 0 := by omega
  simp [vowelinstem, h0] at h

theorem doublec_pos {z : Stemmer} {j : ℤ} (h : doublec z j = true) : 1 ≤ j := by
  by_contra hj
  simp [doublec, show j < 1 by omega] at h

theorem ends_eq_some {z z' : Stemmer} {s : Bytes} (h : ends z s = some z') :
    z' = { z with j := z.k - s.length } ∧ s.length ≤ z.k + 1 := by
  unfold ends at h
  split_ifs at h with _ hlen
  exact ⟨(Option.some.inj h).symm, by omega⟩

/-- The letters of `z'` lie in the same buffer, and there are at most `n + 1` of them. -/
structure Within (n : ℤ) (z z' : Stemmer) : Prop where
  nonneg : 0 ≤ z'.k
  le : z'.k ≤ n
  length : z'.b.length = z.b.length

theorem Within.refl {z : Stemmer} (h : 0 ≤ z.k) : Within z.k z z := ⟨h, le_rfl, rfl⟩

theorem Within.trans {n : ℤ} {z z' z'' : Stemmer} (h : Within n z z') (h' : Within z'.k z' z'') :
    Within n z z'' := ⟨h'.nonneg, h'.le.trans h.le, h'.length.trans h.length⟩

theorem setto_length {z : Stemmer} {s : Bytes} (hj : -1 ≤ z.j) (hl : z.j + s.length < z.b.length) :
    (setto z s).b.length = z.b.length := by
  simp only [setto, List.length_append, List.length_take, List.length_drop]
  omega

theorem step1a_within {z : Stemmer} (h2 : 2 ≤ z.k) (hl : z.k < z.b.length) :
    Within z.k z (step1a z) := by
  unfold step1a
  split
  · split
    · rename_i z' he
      obtain ⟨rfl, hlen⟩ := ends_eq_some he
      exact ⟨by simpa using h2, by simp only; omega, rfl⟩
    · split
      · rename_i z' he
        obtain ⟨rfl, hlen⟩ := ends_eq_some he
        have h3 : ((ascii "ies").length : ℤ) = 3 := by decide
        have h1 : ((ascii "i").length : ℤ) = 1 := by decide
        refine ⟨?_, ?_, setto_length ?_ ?_⟩
        all_goals simp only [setto, h3, h1]; omega
      · split
        · exact ⟨by simp only; omega, by simp only; omega, rfl⟩
        · exact .refl (by omega)
  · exact .refl (by omega)

theorem restore_within {z z' : Stemmer} {s t : Bytes} (he : ends z s = some z')
    (ht : t.length = s.length + 1) (h0 : 0 ≤ z.k) (hl : z.k + 1 < z.b.length) :
    Within (z.k + 1) z (setto z' t) := by
  obtain ⟨rfl, hlen⟩ := ends_eq_some he
  refine ⟨?_, ?_, setto_length ?_ ?_⟩
  all_goals simp only [setto, ht]; omega

theorem step1bTail_within {z : Stemmer} (h0 : 0 ≤ z.k) (hj : z.j = z.k) (hl : z.k + 1 < z.b.length) :
    Within (z.k + 1) z (step1bTail z) := by
  unfold step1bTail
  split
  · rename_i z' he
    exact restore_within he (by decide) h0 hl
  · split
    · rename_i z' he
      exact restore_within he (by decide) h0 hl
    · split
      · rename_i z' he
        exact restore_within he (by decide) h0 hl
      · split
        · rename_i hd
          have h1 := doublec_pos hd
          dsimp only
          split
          · exact ⟨h0, by simp, rfl⟩
          · exact ⟨by simp; omega, by simp; omega, rfl⟩
        · split
          · have h1 : ((ascii "e").length : ℤ) = 1 := by decide
            refine ⟨?_, ?_, setto_length ?_ ?_⟩
            all_goals simp only [setto, h1, hj]; omega
          · exact ⟨h0, by simp, rfl⟩

theorem step1b_within {z : Stemmer} (h0 : 0 ≤ z.k) (hl : z.k < z.b.length) : Within z.k z (step1b z) := by
  have stripped {z' : Stemmer} {s : Bytes} (he : ends z s = some z') (hs : 2 ≤ s.length)
      (hv : vowelinstem z' = true) : Within z.k z (step1bTail { z' with k := z'.j }) := by
    obtain ⟨rfl, hlen⟩ := ends_eq_some he
    have hj := vowelinstem_pos hv
    simp only at hj
    have ht := step1bTail_within (z := { z with j := z.k - s.length, k := z.k - s.length }) hj rfl
      (by simp only; omega)
    exact ⟨ht.nonneg, ht.le.trans (by simp only; omega), ht.length⟩
  unfold step1b
  split
  · rename_i z' he
    obtain ⟨rfl, hlen⟩ := ends_eq_some he
    have h3 : ((ascii "eed").length : ℤ) = 3 := by decide
    rw [h3] at hlen
    split
    · exact ⟨by simp only; omega, by simp, rfl⟩
    · exact ⟨h0, le_rfl, rfl⟩
  · rcases hed : ends z (ascii "ed") with _ | z'
    · rcases hing : ends z (ascii "ing") with _ | z'
      · exact .refl h0
      · simp only [Option.orElse_none]
        split
        · rename_i hv
          exact stripped hing (by decide) hv
        · obtain ⟨rfl, -⟩ := ends_eq_some hing
          exact ⟨h0, le_rfl, rfl⟩
    · simp only [Option.orElse_some]
      split
      · rename_i hv
        exact stripped hed (by decide) hv
      · obtain ⟨rfl, -⟩ := ends_eq_some hed
        exact ⟨h0, le_rfl, rfl⟩

theorem step1c_within {z : Stemmer} (h0 : 0 ≤ z.k) : Within z.k z (step1c z) := by
  unfold step1c
  split
  · rename_i z' he
    obtain ⟨rfl, -⟩ := ends_eq_some he
    split
    · exact ⟨h0, le_rfl, by simp⟩
    · exact ⟨h0, le_rfl, rfl⟩
  · exact .refl h0

/-- No replacement is longer than its suffix. -/
def Shortening (rules : List (String × String)) : Prop :=
  ∀ p ∈ rules, (ascii p.2).length ≤ (ascii p.1).length

theorem replaceSuffix_within {z : Stemmer} {rules : List (String × String)} (hr : Shortening rules)
    (h0 : 0 ≤ z.k) (hl : z.k < z.b.length) : Within z.k z (replaceSuffix z rules) := by
  induction rules with
  | nil => exact .refl h0
  | cons p rest ih =>
    obtain ⟨s, t⟩ := p
    have hst : (ascii t).length ≤ (ascii s).length := hr (s, t) (by simp)
    rw [replaceSuffix]
    split
    · rename_i z' he
      obtain ⟨rfl, hlen⟩ := ends_eq_some he
      unfold r
      split
      · rename_i hm
        have hj := m_pos hm
        simp only at hj
        refine ⟨?_, ?_, setto_length ?_ ?_⟩
        all_goals simp only [setto]; omega
      · exact ⟨h0, le_rfl, rfl⟩
    · exact ih fun q hq => hr q (List.mem_cons_of_mem _ hq)

theorem Rules.select_shortening {t : Rules} (h : ∀ e ∈ t, Shortening e.2) (c : UInt8) :
    Shortening (t.select c) := by
  unfold Rules.select
  split
  · rename_i e he
    exact h e (List.mem_of_find?_eq_some he)
  · simp [Shortening]

theorem step2Rules_shortening : ∀ e ∈ step2Rules, Shortening e.2 := by
  unfold Shortening
  decide

theorem step3Rules_shortening : ∀ e ∈ step3Rules, Shortening e.2 := by
  unfold Shortening
  decide

/-- A search for suffixes moves only `j`, and leaves it before the end when it succeeds. -/
def Found (z : Stemmer) (p : Bool × Stemmer) : Prop := SameWord z p.2 ∧ (p.1 = true → p.2.j ≤ z.k)

theorem endsAny_found {z z₀ : Stemmer} (h : SameWord z₀ z) (l : List String) :
    Found z₀ (endsAny z l) := by
  induction l with
  | nil => exact ⟨h, by simp [endsAny]⟩
  | cons s rest ih =>
    rw [endsAny]
    split
    · rename_i z' he
      obtain ⟨rfl, -⟩ := ends_eq_some he
      exact ⟨⟨h.b, h.k⟩, fun _ => by simp [h.k]⟩
    · exact ih

theorem endsIon_found (z : Stemmer) : Found z (endsIon z) := by
  unfold endsIon
  split
  · rename_i z' he
    obtain ⟨rfl, -⟩ := ends_eq_some he
    exact ⟨⟨rfl, rfl⟩, fun _ => by simp⟩
  · exact ⟨.refl z, by simp⟩

theorem step4Switch_found (z : Stemmer) : Found z (step4Switch z) := by
  unfold step4Switch
  dsimp only
  split
  · exact ⟨.refl z, by simp⟩
  · split
    · have hion := endsIon_found z
      generalize endsIon z = p at hion ⊢
      obtain ⟨_ | _, x⟩ := p
      · exact endsAny_found hion.1 _
      · exact hion
    · exact endsAny_found (.refl z) _

theorem step4_within {z : Stemmer} (h0 : 0 ≤ z.k) : Within z.k z (step4 z) := by
  have hf := step4Switch_found z
  unfold step4
  generalize step4Switch z = p at hf ⊢
  obtain ⟨_ | _, x⟩ := p
  · exact ⟨hf.1.k ▸ h0, hf.1.k.ge, by rw [← hf.1.b]⟩
  · dsimp only
    split
    · rename_i hm
      have hj := m_pos (by omega : 0 < x.m)
      exact ⟨by simp only; omega, hf.2 rfl, congrArg List.length hf.1.b.symm⟩
    · exact ⟨hf.1.k ▸ h0, hf.1.k.ge, by rw [← hf.1.b]⟩

theorem step5e_within {z : Stemmer} (h0 : 0 ≤ z.k) (hj : z.j = z.k) : Within z.k z (step5e z) := by
  unfold step5e
  split
  · split
    · rename_i hm
      have h1 := m_pos (z := z) (by omega)
      exact ⟨by simp only; omega, by simp, rfl⟩
    · exact .refl h0
  · exact .refl h0

theorem step5_within {z : Stemmer} (h0 : 0 ≤ z.k) : Within z.k z (step5 z) := by
  have he := step5e_within (z := { z with j := z.k }) h0 rfl
  unfold step5
  dsimp only
  split
  · rename_i hd
    have h1 := doublec_pos hd.2.1
    exact ⟨by simp only; omega, le_trans (by simp) he.le, he.length⟩
  · exact ⟨he.nonneg, he.le, he.length⟩

theorem laterSteps_within {z : Stemmer} (h0 : 0 ≤ z.k) (hl : z.k < z.b.length) :
    Within z.k z (laterSteps z) := by
  have h1 := step1c_within h0
  have h2 : Within z.k z (step2 (step1c z)) := h1.trans (replaceSuffix_within
    (Rules.select_shortening step2Rules_shortening _) h1.nonneg (by rw [h1.length]; exact h1.le.trans_lt hl))
  have h3 : Within z.k z (step3 (step2 (step1c z))) := h2.trans (replaceSuffix_within
    (Rules.select_shortening step3Rules_shortening _) h2.nonneg (by rw [h2.length]; exact h2.le.trans_lt hl))
  have h4 := h3.trans (step4_within h3.nonneg)
  exact h4.trans (step5_within h4.nonneg)

end Stemmer

open Stemmer

/-- A word of `k + 1` letters keeps at least one and gets no new one. -/
theorem stem_within (z : Stemmer) {b : Bytes} {k : ℤ} (h0 : 0 ≤ k) (hl : k < b.length) :
    0 ≤ (stem z b k).1 ∧ (stem z b k).1 ≤ k ∧ (stem z b k).2.1.length = b.length := by
  unfold stem
  split
  · exact ⟨h0, le_rfl, rfl⟩
  · have h1 := step1a_within (z := { z with b := b, k := k }) (by simp only; omega) hl
    have h2 := h1.trans (step1b_within h1.nonneg (by rw [h1.length]; exact h1.le.trans_lt hl))
    dsimp only
    split
    · have h3 := h2.trans (laterSteps_within h2.nonneg (by rw [h2.length]; exact h2.le.trans_lt hl))
      exact ⟨h3.nonneg, h3.le, h3.length⟩
    · exact ⟨h2.nonneg, h2.le, h2.length⟩

/-- What earlier words left in the stemmer has no influence. -/
theorem stem_congr (z z' : Stemmer) (b : Bytes) (k : ℤ) :
    (stem z b k).1 = (stem z' b k).1 ∧ (stem z b k).2.1 = (stem z' b k).2.1 := by
  unfold stem
  split
  · exact ⟨rfl, rfl⟩
  · have hstart : SameWord { z with b := b, k := k } { z' with b := b, k := k } := ⟨rfl, rfl⟩
    have h := step1b_sameWord (step1a_sameWord hstart)
    have hk : (step1ab { z with b := b, k := k }).k = (step1ab { z' with b := b, k := k }).k := h.k
    dsimp only
    rw [hk]
    split
    · exact ⟨(laterSteps_sameWord h).k, (laterSteps_sameWord h).b⟩
    · exact ⟨h.k, h.b⟩

end RhinoRox
