import RhinoRox.Numbers
import Mathlib.Data.Nat.Digits.Defs
import Mathlib.Data.Nat.Digits.Lemmas

/-!
# Decimal text and the functions of `util.c`

The text of a number by its digits. `ll2string` writes it, and a string that `string2ll`
accepts is the text of the number it returns.
-/

namespace RhinoRox

/-- The decimal text of a number. -/
def decimalText (n : ℕ) : Bytes :=
  if n = 0 then [48] else (Nat.digits 10 n).reverse.map digitChar

theorem digitChar_toNat {d : ℕ} (h : d < 10) : (digitChar d).toNat = 48 + d := by
  interval_cases d <;> rfl

theorem digitChar_bounds {d : ℕ} (h : d < 10) : 48 ≤ digitChar d ∧ digitChar d ≤ 57 := by
  interval_cases d <;> decide

theorem le_foldl_digits (v : ℕ) (ds : List ℕ) : v ≤ ds.foldl (fun v d => v * 10 + d) v := by
  induction ds generalizing v with
  | nil => exact le_rfl
  | cons d ds ih => exact le_trans (by omega) (ih (v * 10 + d))

theorem string2llLoop_digits {v : ℕ} {ds : List ℕ} (hd : ∀ d ∈ ds, d < 10)
    (hv : ds.foldl (fun v d => v * 10 + d) v < 2 ^ 64) :
    string2llLoop v (ds.map digitChar) = some (ds.foldl (fun v d => v * 10 + d) v, []) := by
  induction ds generalizing v with
  | nil => rfl
  | cons d ds ih =>
    have hd10 : d < 10 := hd d List.mem_cons_self
    have hle : v * 10 + d < 2 ^ 64 := (le_foldl_digits (v * 10 + d) ds).trans_lt hv
    rw [List.map_cons, string2llLoop, if_pos (digitChar_bounds hd10), digitChar_toNat hd10]
    rw [if_neg (by omega), if_neg (by omega), show 48 + d - 48 = d by omega]
    exact ih (fun d' hd' => hd d' (List.mem_cons_of_mem _ hd')) hv

theorem foldl_digits_reverse (n : ℕ) :
    (Nat.digits 10 n).reverse.foldl (fun v d => v * 10 + d) 0 = n := by
  rw [List.foldl_reverse]
  conv_rhs => rw [← Nat.ofDigits_digits 10 n, Nat.ofDigits_eq_foldr]
  congr 1
  funext d v
  simp
  ring

theorem decimalText_value (n : ℕ) :
    (decimalText n).foldl (fun v c => v * 10 + (c.toNat - 48)) 0 = n := by
  unfold decimalText
  split
  · rename_i h
    rw [h]
    rfl
  · conv_rhs => rw [← foldl_digits_reverse n]
    rw [List.foldl_map]
    refine List.foldl_ext _ _ 0 fun v d hd => ?_
    rw [digitChar_toNat (Nat.digits_lt_base (by omega) (by simpa using hd))]
    omega

theorem decimalText_injective : Function.Injective decimalText := by
  intro m n h
  rw [← decimalText_value m, h, decimalText_value n]

/-- The parser reads back the number that was written. -/
theorem string2ll_decimalText {n : ℕ} (hn : n < 2 ^ 63) : string2ll (decimalText n) = some (n : ℤ) := by
  by_cases h0 : n = 0
  · subst h0
    rfl
  · have hne : Nat.digits 10 n ≠ [] := Nat.digits_ne_nil_iff_ne_zero.mpr h0
    obtain ⟨d, ds, hds⟩ : ∃ d ds, (Nat.digits 10 n).reverse = d :: ds :=
      List.exists_cons_of_ne_nil (by simpa using hne)
    have hlast : d = (Nat.digits 10 n).getLast hne := by
      have := List.head_reverse (l := Nat.digits 10 n) (by simpa using hne)
      simpa [hds] using this
    have hd0 : d ≠ 0 := hlast ▸ Nat.getLast_digit_ne_zero 10 h0
    have hall : ∀ x ∈ d :: ds, x < 10 := by
      intro x hx
      rw [← hds] at hx
      exact Nat.digits_lt_base (by omega) (by simpa using hx)
    have hd10 := hall d List.mem_cons_self
    have hfold : ds.foldl (fun v d => v * 10 + d) d = n := by
      have := foldl_digits_reverse n
      rw [hds] at this
      simpa using this
    have hloop := string2llLoop_digits (v := d) (fun x hx => hall x (List.mem_cons_of_mem _ hx))
      (by rw [hfold]; omega)
    rw [hfold] at hloop
    have hnat := digitChar_toNat hd10
    have hge : 49 ≤ digitChar d ∧ digitChar d ≤ 57 := by
      rw [UInt8.le_iff_toNat_le, UInt8.le_iff_toNat_le, hnat]
      constructor
      · simp
        omega
      · simp
        omega
    have h45 : digitChar d ≠ 45 := by
      intro h
      rw [h] at hnat
      simp at hnat
      omega
    have h48 : digitChar d ≠ 48 := by
      intro h
      rw [h] at hnat
      simp at hnat
      omega
    rw [decimalText, if_neg h0, hds, List.map_cons, string2ll]
    simp only [h48, and_false, if_false, h45, string2llUnsigned, hge, and_self, if_true, hnat]
    rw [show 48 + d - 48 = d by omega, hloop]
    simp only []
    rw [if_neg (by omega)]

theorem mem_decimalText {n : ℕ} {b : UInt8} (h : b ∈ decimalText n) : 48 ≤ b ∧ b ≤ 57 := by
  unfold decimalText at h
  split at h
  · rw [List.mem_singleton] at h
    subst h
    decide
  · obtain ⟨d, hd, rfl⟩ := List.mem_map.mp h
    exact digitChar_bounds (Nat.digits_lt_base (by omega) (by simpa using hd))

theorem decimalText_length_le {n : ℕ} (h : n < 10 ^ 9) : (decimalText n).length ≤ 9 := by
  unfold decimalText
  split
  · simp
  · rw [List.length_map, List.length_reverse]
    exact (Nat.digits_length_le_iff (by omega) n).mpr h

theorem decimalText_of_lt {d : ℕ} (h : d < 10) : decimalText d = [digitChar d] := by
  interval_cases d <;> simp [decimalText, digitChar]

/-- One more digit at the low end. -/
theorem decimalText_snoc {v d : ℕ} (hv : 0 < v) (hd : d < 10) :
    decimalText (v * 10 + d) = decimalText v ++ [digitChar d] := by
  have hdigits : Nat.digits 10 (v * 10 + d) = d :: Nat.digits 10 v := by
    rw [show v * 10 + d = d + 10 * v by omega]
    exact Nat.digits_add 10 (by omega) d v hd (.inr hv.ne')
  simp [decimalText, hdigits, show v ≠ 0 by omega]

theorem ll2stringDigits_eq (v : ℕ) : ll2stringDigits v = decimalText v := by
  induction v using Nat.strong_induction_on with
  | _ v ih =>
    rw [ll2stringDigits]
    split_ifs with h₁ h₂
    · have hv : v = (v / 100 * 10 + v % 100 / 10) * 10 + v % 100 % 10 := by omega
      rw [ih (v / 100) (by omega), digitPair]
      conv_rhs => rw [hv, decimalText_snoc (by omega) (by omega), decimalText_snoc (by omega) (by omega)]
      rw [List.append_assoc]
      rfl
    · exact (decimalText_of_lt h₂).symm
    · have hv : v = v / 10 * 10 + v % 10 := by omega
      conv_rhs => rw [hv, decimalText_snoc (by omega) (by omega), decimalText_of_lt (by omega)]
      rfl

theorem digitChar_of_bounds {c : UInt8} (h : 48 ≤ c ∧ c ≤ 57) :
    digitChar (c.toNat - 48) = c ∧ c.toNat - 48 < 10 := by
  obtain ⟨h₁, h₂⟩ := h
  rw [UInt8.le_iff_toNat_le] at h₁ h₂
  have h48 : (48 : UInt8).toNat = 48 := rfl
  have h57 : (57 : UInt8).toNat = 57 := rfl
  refine ⟨?_, by omega⟩
  rw [digitChar, show 48 + (c.toNat - 48) = c.toNat by omega, UInt8.ofNat_toNat]

/-- The loop of `string2ll` reads further digits of the number. -/
theorem string2llLoop_sound {v w : ℕ} {s : Bytes} (hv : 0 < v) (h : string2llLoop v s = some (w, [])) :
    0 < w ∧ decimalText w = decimalText v ++ s := by
  induction s generalizing v with
  | nil =>
    obtain rfl : v = w := by simpa [string2llLoop] using h
    exact ⟨hv, (List.append_nil _).symm⟩
  | cons c s ih =>
    rw [string2llLoop] at h
    split_ifs at h with hc ho₁ ho₂
    · obtain ⟨hchar, hlt⟩ := digitChar_of_bounds hc
      obtain ⟨hw, htext⟩ := ih (by omega) h
      refine ⟨hw, ?_⟩
      rw [htext, decimalText_snoc hv hlt, hchar, List.append_assoc]
      rfl
    · simp at h

theorem string2llUnsigned_sound {slen v : ℕ} {s : Bytes} (h : string2llUnsigned slen s = some v) :
    (0 < v ∧ decimalText v = s) ∨ (v = 0 ∧ slen = 1 ∧ s.head? = some 48) := by
  cases s with
  | nil => cases h
  | cons c s =>
    rw [string2llUnsigned] at h
    split_ifs at h with hc h0
    · have hge : 49 ≤ c.toNat := UInt8.le_iff_toNat_le.mp hc.1
      have h48 : 48 ≤ c := UInt8.le_iff_toNat_le.mpr (le_trans (by decide) hge)
      obtain ⟨hchar, hlt⟩ := digitChar_of_bounds ⟨h48, hc.2⟩
      cases hl : string2llLoop (c.toNat - 48) s with
      | none =>
        rw [hl] at h
        cases h
      | some r =>
        obtain ⟨w, rest⟩ := r
        rw [hl] at h
        cases rest with
        | nil =>
          obtain rfl : w = v := by simpa using h
          obtain ⟨hw, htext⟩ := string2llLoop_sound (by omega) hl
          rw [decimalText_of_lt hlt, hchar] at htext
          exact .inl ⟨hw, htext⟩
        | cons b rest => cases h
    · obtain rfl : 0 = v := by simpa using h
      exact .inr ⟨rfl, h0.2, by rw [h0.1]; rfl⟩

theorem integerText_natCast (v : ℕ) : integerText v = decimalText v := by
  rw [integerText, if_neg (by omega), Int.natAbs_natCast, ll2stringDigits_eq]

theorem integerText_neg {v : ℕ} (h : 0 < v) : integerText (-v) = 45 :: decimalText v := by
  rw [integerText, if_pos (by omega), Int.natAbs_neg, Int.natAbs_natCast, ll2stringDigits_eq]

/-- A string that `string2ll` accepts is the text of the number it returns. -/
theorem string2ll_sound {s : Bytes} {v : ℤ} (h : string2ll s = some v) : integerText v = s := by
  cases s with
  | nil => cases h
  | cons c t =>
    rw [string2ll] at h
    split_ifs at h with h0 hc
    · obtain rfl : 0 = v := by simpa using h
      rw [h0.1, h0.2]
      exact integerText_natCast 0
    · cases hu : string2llUnsigned (c :: t).length t with
      | none =>
        rw [hu] at h
        cases h
      | some w =>
        rw [hu] at h
        dsimp only at h
        split_ifs at h with hbig
        obtain rfl : -(w : ℤ) = v := by simpa using h
        rcases string2llUnsigned_sound hu with ⟨hpos, htext⟩ | ⟨rfl, hlen, hhead⟩
        · rw [integerText_neg hpos, htext, hc]
        · have hnil : t = [] := by simpa using hlen
          rw [hnil] at hhead
          cases hhead
    · cases hu : string2llUnsigned (c :: t).length (c :: t) with
      | none =>
        rw [hu] at h
        cases h
      | some w =>
        rw [hu] at h
        dsimp only at h
        split_ifs at h with hbig
        obtain rfl : (w : ℤ) = v := by simpa using h
        rcases string2llUnsigned_sound hu with ⟨hpos, htext⟩ | ⟨rfl, hlen, hhead⟩
        · rw [integerText_natCast, htext]
        · have hnil : t = [] := by simpa using hlen
          exact absurd ⟨hnil, by simpa using hhead⟩ h0

/-- An integer-encoded string stands for the bytes it was made from. -/
theorem decimal_of_string2l {s : Bytes} {n : Int64} (h : string2l s = some n) : decimal n = s := by
  rw [string2l] at h
  cases hll : string2ll s with
  | none =>
    rw [hll] at h
    cases h
  | some v =>
    rw [hll] at h
    dsimp only at h
    split_ifs at h with hrange
    obtain rfl : Int64.ofInt v = n := by simpa using h
    rw [decimal_eq, Int64.toInt_ofInt_of_le (by omega) (by omega), string2ll_sound hll]

end RhinoRox
