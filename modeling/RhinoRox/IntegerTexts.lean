import RhinoRox.SdsFormats

/-!
# Integers and their texts

`string2ll` and `string2l` of `util.c` read exactly the texts that `ll2string` and `sdsll2str` write,
so that an integer can stand for the string it was read from and the other way round.
-/

namespace RhinoRox

/-! ## Reading what was written -/

/-- The digits of a positive number, of which the first is not `0`. -/
theorem decimalText_cons {n : ℕ} (hn : 0 < n) :
    ∃ d ds, decimalText n = digitChar d :: ds.map digitChar ∧ 0 < d ∧ (∀ x ∈ d :: ds, x < 10) ∧
      ds.foldl (fun v d => v * 10 + d) d = n := by
  have hne : Nat.digits 10 n ≠ [] := Nat.digits_ne_nil_iff_ne_zero.mpr hn.ne'
  cases hds : (Nat.digits 10 n).reverse with
  | nil => exact absurd (List.reverse_eq_nil_iff.mp hds) hne
  | cons d ds =>
    have hall : ∀ x ∈ d :: ds, x < 10 := by
      intro x hx
      rw [← hds, List.mem_reverse] at hx
      exact Nat.digits_lt_base (by omega) hx
    have hlast : (Nat.digits 10 n).getLast hne = d := by
      have hhead := List.head_reverse (l := Nat.digits 10 n) (List.reverse_ne_nil_iff.mpr hne)
      simpa only [hds, List.head_cons] using hhead.symm
    have hfold := foldl_digits_reverse n
    rw [hds, List.foldl_cons, Nat.zero_mul, Nat.zero_add] at hfold
    refine ⟨d, ds, ?_, ?_, hall, hfold⟩
    · rw [decimalText, if_neg hn.ne', hds, List.map_cons]
    · exact Nat.pos_of_ne_zero (hlast ▸ Nat.getLast_digit_ne_zero 10 hn.ne')

/-- No overflow is seen as long as the number fits 64 bits. -/
theorem string2llUnsigned_decimalText {n : ℕ} (hn : 0 < n) (hlt : n < 2 ^ 64) (slen : ℕ) :
    string2llUnsigned slen (decimalText n) = some n := by
  obtain ⟨d, ds, htext, hpos, hall, hfold⟩ := decimalText_cons hn
  have hd := hall d List.mem_cons_self
  have hloop := string2llLoop_digits (v := d) (fun x hx => hall x (List.mem_cons_of_mem d hx)) (hfold ▸ hlt)
  have hbounds : 49 ≤ digitChar d ∧ digitChar d ≤ 57 := by
    refine ⟨?_, (digitChar_bounds hd).2⟩
    rw [UInt8.le_iff_toNat_le, digitChar_toNat hd]
    exact Nat.add_le_add_left hpos 48
  rw [htext, string2llUnsigned, if_pos hbounds, digitChar_toNat hd, Nat.add_sub_cancel_left, hloop, hfold]

theorem string2ll_integerText {v : ℤ} (hlo : -2 ^ 63 ≤ v) (hhi : v < 2 ^ 63) : string2ll (integerText v) = some v := by
  rcases lt_or_ge v 0 with hneg | hpos
  · obtain ⟨n, rfl⟩ : ∃ n : ℕ, v = -n := ⟨v.natAbs, by omega⟩
    have hn : 0 < n := by omega
    have hle : n ≤ 2 ^ 63 := by omega
    rw [integerText_neg hn, string2ll, if_neg (by simp), if_pos rfl, string2llUnsigned_decimalText hn (by omega)]
    exact if_neg (not_lt.mpr hle)
  · lift v to ℕ using hpos
    rw [integerText_natCast]
    exact string2ll_decimalText (by exact_mod_cast hhi)

/-! ## Reading nothing else -/

theorem string2ll_range {s : Bytes} {v : ℤ} (h : string2ll s = some v) : -2 ^ 63 ≤ v ∧ v < 2 ^ 63 := by
  cases s with
  | nil => cases h
  | cons c t =>
    rw [string2ll] at h
    split_ifs at h with h0 hc
    · obtain rfl := Option.some.inj h
      decide
    · cases hu : string2llUnsigned (c :: t).length t with
      | none =>
        rw [hu] at h
        cases h
      | some w =>
        rw [hu] at h
        dsimp only at h
        split_ifs at h with hbig
        obtain rfl := Option.some.inj h
        omega
    · cases hu : string2llUnsigned (c :: t).length (c :: t) with
      | none =>
        rw [hu] at h
        cases h
      | some w =>
        rw [hu] at h
        dsimp only at h
        split_ifs at h with hbig
        obtain rfl := Option.some.inj h
        omega

theorem string2ll_iff (s : Bytes) (v : ℤ) : string2ll s = some v ↔ (-2 ^ 63 ≤ v ∧ v < 2 ^ 63) ∧ integerText v = s := by
  constructor
  · intro h
    exact ⟨string2ll_range h, string2ll_sound h⟩
  · rintro ⟨⟨hlo, hhi⟩, rfl⟩
    exact string2ll_integerText hlo hhi

/-! ## Writing -/

theorem length_integerText (v : ℤ) : (integerText v).length = digits10 v.natAbs + if v < 0 then 1 else 0 := by
  rw [integerText]
  split_ifs with hneg
  · rw [List.length_cons, ll2stringDigits_length_eq]
  · rw [ll2stringDigits_length_eq, Nat.add_zero]

/-- `ll2string` needs one more byte for the NUL. -/
theorem ll2string_eq (dstlen : ℕ) (v : ℤ) :
    ll2string dstlen v = if (integerText v).length < dstlen then some (integerText v) else none := by
  have hwrites : ll2string dstlen v = if (integerText v).length ≥ dstlen then none else some (integerText v) := by
    rw [length_integerText]
    rfl
  rw [hwrites]
  split_ifs with hfull hroom hroom
  · omega
  · rfl
  · rfl
  · omega

/-- A string is read as an integer if and only if every routine writes exactly this string for the
integer, and an object that stands for the integer shows the same string. The least `long long` is
left out for `sdsll2str`, which negates it. -/
theorem integer_texts (s : Bytes) :
    (∀ v : ℤ, string2ll s = some v ↔
      (-2 ^ 63 ≤ v ∧ v < 2 ^ 63) ∧ ∀ dstlen, ll2string dstlen v = if s.length < dstlen then some s else none) ∧
    (∀ v : ℤ, string2ll s = some v ∧ v ≠ -2 ^ 63 ↔ (-2 ^ 63 < v ∧ v < 2 ^ 63) ∧ SdsMemory.sdsll2str v = s) ∧
    ∀ n : Int64, string2l s = some n ↔ decimal n = s := by
  refine ⟨fun v => ?_, fun v => ?_, fun n => ?_⟩
  · rw [string2ll_iff]
    refine and_congr_right fun _ => ⟨?_, fun h => ?_⟩
    · rintro rfl dstlen
      exact ll2string_eq dstlen v
    · have htext := h (s.length + (integerText v).length + 1)
      rw [ll2string_eq, if_pos (by omega), if_pos (by omega)] at htext
      exact Option.some.inj htext
  · rw [SdsMemory.sdsll2str_eq, string2ll_iff]
    constructor
    · rintro ⟨⟨⟨hlo, hhi⟩, htext⟩, hne⟩
      exact ⟨⟨lt_of_le_of_ne hlo hne.symm, hhi⟩, htext⟩
    · rintro ⟨⟨hlo, hhi⟩, htext⟩
      exact ⟨⟨⟨hlo.le, hhi⟩, htext⟩, hlo.ne'⟩
  · refine ⟨decimal_of_string2l, ?_⟩
    rintro rfl
    have hlo := n.le_toInt
    have hhi := n.toInt_lt
    rw [decimal_eq, string2l, string2ll_integerText hlo hhi]
    dsimp only
    rw [if_neg (by omega), Int64.ofInt_toInt]

end RhinoRox
