import RhinoRox.ByteStrings
import Mathlib.Data.Nat.Log
import Mathlib.Tactic.IntervalCases
import Mathlib.Tactic.Ring

/-!
# Decimal text of integers, from `util.c`

`ll2string` and `string2ll` as the reply and request code uses them.
-/

namespace RhinoRox

/-- Number of decimal digits. -/
def digits10 (v : ℕ) : ℕ :=
  if v < 10 then 1
  else if v < 100 then 2
  else if v < 1000 then 3
  else if v < 1000000000000 then
    if v < 100000000 then
      if v < 1000000 then
        if v < 10000 then 4 else if v ≥ 100000 then 6 else 5
      else if v ≥ 10000000 then 8 else 7
    else if v < 10000000000 then
      if v ≥ 1000000000 then 10 else 9
    else if v ≥ 100000000000 then 12 else 11
  else 12 + digits10 (v / 1000000000000)
termination_by v
decreasing_by omega

def digitChar (d : ℕ) : UInt8 := UInt8.ofNat (48 + d)

/-- Entry `i` of the table of two-digit texts. -/
def digitPair (i : ℕ) : Bytes := [digitChar (i / 10), digitChar (i % 10)]

/-- The digits that `ll2string` writes, two at a time from the low end. -/
def ll2stringDigits (value : ℕ) : Bytes :=
  if 100 ≤ value then ll2stringDigits (value / 100) ++ digitPair (value % 100)
  else if value < 10 then [digitChar value]
  else digitPair value
termination_by value
decreasing_by omega

/-- The text written to a buffer of `dstlen` bytes; `none` when it does not fit and
the function returns 0. -/
def ll2string (dstlen : ℕ) (svalue : ℤ) : Option Bytes :=
  let value := svalue.natAbs
  let negative := svalue < 0
  let length := digits10 value + if negative then 1 else 0
  if length ≥ dstlen then none
  else some (if negative then 45 :: ll2stringDigits value else ll2stringDigits value)

/-- The loop of `string2ll` over the remaining bytes; `none` on overflow, else the value
and what is left unread. -/
def string2llLoop (v : ℕ) : Bytes → Option (ℕ × Bytes)
  | [] => some (v, [])
  | c :: s =>
    if 48 ≤ c ∧ c ≤ 57 then
      if v > (2 ^ 64 - 1) / 10 then none
      else if v * 10 > 2 ^ 64 - 1 - (c.toNat - 48) then none
      else string2llLoop (v * 10 + (c.toNat - 48)) s
    else some (v, c :: s)

/-- Parse the digits after an optional sign. -/
def string2llUnsigned (slen : ℕ) : Bytes → Option ℕ
  | [] => none
  | c :: s =>
    if 49 ≤ c ∧ c ≤ 57 then
      match string2llLoop (c.toNat - 48) s with
      | some (v, []) => some v
      | _ => none
    else if c = 48 ∧ slen = 1 then some 0
    else none

/-- Convert a string into a long long; `none` when it returns 0. -/
def string2ll (s : Bytes) : Option ℤ :=
  match s with
  | [] => none
  | c :: t =>
    if t = [] ∧ c = 48 then some 0
    else if c = 45 then
      match string2llUnsigned s.length t with
      | some v => if v > 2 ^ 63 then none else some (-v)
      | none => none
    else
      match string2llUnsigned s.length s with
      | some v => if v > 2 ^ 63 - 1 then none else some v
      | none => none

/-- Convert a string into a long. -/
def string2l (s : Bytes) : Option Int64 :=
  match string2ll s with
  | some v => if v < -2 ^ 63 ∨ v > 2 ^ 63 - 1 then none else some (Int64.ofInt v)
  | none => none

theorem ll2stringDigits_length {v k : ℕ} (hk : 10 ^ k ≤ v) (hv : v < 10 ^ (k + 1)) :
    (ll2stringDigits v).length = k + 1 := by
  induction k using Nat.strong_induction_on generalizing v with
  | _ k ih =>
    rw [ll2stringDigits]
    match k with
    | 0 => simp [show ¬ 100 ≤ v by omega, show v < 10 by omega]
    | 1 => simp [show ¬ 100 ≤ v by omega, show ¬ v < 10 by omega, digitPair]
    | j + 2 =>
      have h₁ : 10 ^ (j + 2) = 10 ^ j * 100 := by ring
      have h₂ : 10 ^ (j + 2 + 1) = 10 ^ (j + 1) * 100 := by ring
      have hpos : 0 < 10 ^ j := Nat.pow_pos (by omega)
      have hlen := ih j (by omega) (v := v / 100) (by omega) (by omega)
      simp [show 100 ≤ v by omega, hlen, digitPair]

theorem digits10_eq {v k : ℕ} (hk : 10 ^ k ≤ v) (hv : v < 10 ^ (k + 1)) : digits10 v = k + 1 := by
  induction k using Nat.strong_induction_on generalizing v with
  | _ k ih =>
    by_cases hlt : k < 12
    · clear ih
      interval_cases k <;> rw [digits10] <;> simp (disch := omega) only [if_pos, if_neg]
    · obtain ⟨j, rfl⟩ : ∃ j, k = j + 12 := ⟨k - 12, by omega⟩
      have h₁ : 10 ^ (j + 12) = 10 ^ j * 1000000000000 := by ring
      have h₂ : 10 ^ (j + 12 + 1) = 10 ^ (j + 1) * 1000000000000 := by ring
      have hpos : 0 < 10 ^ j := Nat.pow_pos (by omega)
      have hlen := ih j (by omega) (v := v / 1000000000000) (by omega) (by omega)
      rw [digits10, hlen]
      simp (disch := omega) only [if_neg]
      omega

/-- The digits fill the length computed beforehand. -/
theorem ll2stringDigits_length_eq (v : ℕ) : (ll2stringDigits v).length = digits10 v := by
  rcases Nat.eq_zero_or_pos v with rfl | hpos
  · rw [ll2stringDigits, digits10]
    simp
  · have hk := Nat.pow_log_le_self 10 hpos.ne'
    have hv := Nat.lt_pow_succ_log_self (b := 10) (by omega) v
    rw [ll2stringDigits_length hk hv, digits10_eq hk hv]

theorem digitChar_ne_zero {d : ℕ} (h : d < 10) : digitChar d ≠ 0 := by
  interval_cases d <;> decide

theorem zero_notMem_ll2stringDigits (v : ℕ) : 0 ∉ ll2stringDigits v := by
  induction v using Nat.strong_induction_on with
  | _ v ih =>
    have hpair : ∀ i < 100, 0 ∉ digitPair i := by
      intro i hi
      simp only [digitPair, List.mem_cons, List.not_mem_nil, or_false, not_or]
      exact ⟨(digitChar_ne_zero (by omega)).symm, (digitChar_ne_zero (by omega)).symm⟩
    rw [ll2stringDigits]
    split_ifs with h₁ h₂
    · rw [List.mem_append, not_or]
      exact ⟨ih _ (by omega), hpair _ (by omega)⟩
    · simpa using (digitChar_ne_zero h₂).symm
    · exact hpair _ (by omega)

theorem digits10_le {v : ℕ} (h : v < 10 ^ 20) : digits10 v ≤ 20 := by
  rcases Nat.eq_zero_or_pos v with rfl | hpos
  · rw [digits10]
    simp
  · have hk := Nat.pow_log_le_self 10 hpos.ne'
    rw [digits10_eq hk (Nat.lt_pow_succ_log_self (b := 10) (by omega) v)]
    have : 10 ^ Nat.log 10 v < 10 ^ 20 := hk.trans_lt h
    have := (Nat.pow_lt_pow_iff_right (show 1 < 10 by omega)).mp this
    omega

/-- The text of an integer. -/
def integerText (v : ℤ) : Bytes :=
  if v < 0 then 45 :: ll2stringDigits v.natAbs else ll2stringDigits v.natAbs

/-- A buffer of 22 bytes is large enough for every `long long`. -/
theorem ll2string_longlong {v : ℤ} (hlo : -2 ^ 63 ≤ v) (hhi : v < 2 ^ 63) {dstlen : ℕ} (h : 22 ≤ dstlen) :
    ll2string dstlen v = some (integerText v) := by
  have hd : digits10 v.natAbs ≤ 20 := digits10_le (by omega)
  have hfit : ¬ (digits10 v.natAbs + (if v < 0 then 1 else 0) ≥ dstlen) := by
    split <;> omega
  simp only [ll2string, if_neg hfit, integerText]

/-- The text of a `long`. -/
def decimal (n : Int64) : Bytes := (ll2string 32 n.toInt).getD []

theorem decimal_eq (n : Int64) : decimal n = integerText n.toInt := by
  rw [decimal, ll2string_longlong n.le_toInt n.toInt_lt (by omega)]
  rfl

theorem zero_notMem_decimal (n : Int64) : 0 ∉ decimal n := by
  rw [decimal_eq, integerText]
  split
  · simpa using zero_notMem_ll2stringDigits _
  · exact zero_notMem_ll2stringDigits _

end RhinoRox
