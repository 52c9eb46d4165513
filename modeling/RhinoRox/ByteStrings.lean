import Mathlib.Data.List.TakeWhile
import Mathlib.Data.Nat.Bitwise
import Mathlib.Tactic.Common

/-!
# Bytes, C strings, machine arithmetic and failing executions

An execution either returns or stops at the first operation C leaves undefined: a
followed `NULL`, an integer used as an address, freed memory, an access outside an
allocation, a failed `assert`. `exit` stands for the end of the process.
-/

namespace RhinoRox

abbrev Bytes := List UInt8

inductive Fault where
  | nullPointer | wildPointer | freedMemory | outOfBounds | uninitialised | assertion | divergence
  | exit
  deriving DecidableEq, Repr

abbrev Exec := Except Fault

namespace Exec
universe u
variable {α β : Type u}

@[simp] theorem ok_bind (a : α) (f : α → Exec β) : ((Except.ok a : Exec α) >>= f) = f a := rfl

@[simp] theorem error_bind (e : Fault) (f : α → Exec β) :
    ((Except.error e : Exec α) >>= f) = .error e := rfl

@[simp] theorem pure_eq (a : α) : (pure a : Exec α) = .ok a := rfl

@[simp] theorem throw_eq (e : Fault) : (throw e : Exec α) = .error e := rfl

theorem bind_eq_ok {x : Exec α} {f : α → Exec β} {b : β} :
    (x >>= f) = .ok b ↔ ∃ a, x = .ok a ∧ f a = .ok b := by
  cases x <;> simp

/-- The result of a run that can be evaluated. -/
theorem exists_of_any {x : Exec α} {p : α → Bool} (h : x.toOption.any p = true) : ∃ a, x = .ok a ∧ p a = true := by
  cases x with
  | error e => cases h
  | ok a => exact ⟨a, rfl, h⟩

end Exec

/-- What `strlen` and `strcmp` see of a buffer. -/
def cStr (s : Bytes) : Bytes := s.takeWhile (· ≠ 0)

theorem zero_notMem_cStr (s : Bytes) : 0 ∉ cStr s := by
  intro h
  simpa using List.mem_takeWhile_imp h

theorem cStr_of_notMem {s : Bytes} (h : 0 ∉ s) : cStr s = s := by
  rw [cStr, List.takeWhile_eq_self_iff]
  intro b hb
  simpa using fun hz : b = 0 => h (hz ▸ hb)

/-- A byte string without NUL, as a C string holds it. -/
abbrev CString := {s : Bytes // 0 ∉ s}

@[simp] theorem cStr_coe (s : CString) : cStr s.1 = s.1 := cStr_of_notMem s.2

/-- A string literal of the source. -/
def ascii (s : String) : Bytes := s.toByteArray.data.toList

/-- `s[i]` of a NUL-terminated buffer; past the end it is the terminator. -/
def byteAt (s : Bytes) (i : ℕ) : UInt8 := s.getD i 0

@[simp] theorem byteAt_nil (i : ℕ) : byteAt [] i = 0 := by simp [byteAt]
@[simp] theorem byteAt_cons_zero (b : UInt8) (s : Bytes) : byteAt (b :: s) 0 = b := by simp [byteAt]
@[simp] theorem byteAt_cons_succ (b : UInt8) (s : Bytes) (i : ℕ) :
    byteAt (b :: s) (i + 1) = byteAt s i := by simp [byteAt]

theorem byteAt_of_lt {s : Bytes} {i : ℕ} (h : i < s.length) : byteAt s i = s[i] := by
  simp [byteAt, h]

theorem byteAt_of_le {s : Bytes} {i : ℕ} (h : s.length ≤ i) : byteAt s i = 0 := by
  simp [byteAt, h]

/-- `strchr(s, c)` for `c ≠ 0`, as an offset. -/
def strchr (s : Bytes) (c : UInt8) : Option ℕ := (cStr s).findIdx? (· = c)

/-- Subtraction of `size_t` values. -/
def subSize (a b : ℕ) : ℕ := (a + 2 ^ 64 - b % 2 ^ 64) % 2 ^ 64

theorem subSize_of_le {a b : ℕ} (h : b ≤ a) (ha : a < 2 ^ 64) : subSize a b = a - b := by
  unfold subSize
  omega

/-- Conversion to a 32-bit `int`. -/
def toInt32 (n : ℤ) : ℤ := (Int32.ofInt n).toInt

theorem toInt32_of_lt {n : ℤ} (h : 0 ≤ n) (h' : n < 2 ^ 31) : toInt32 n = n := by
  have hsize : ((Int32.size : ℕ) : ℤ) = 2 ^ 32 := by decide
  rw [toInt32, Int32.toInt_ofInt, Int.bmod_eq_of_le] <;> omega

/-- Conversion to a 64-bit `long`. -/
def toInt64 (n : ℤ) : ℤ := (Int64.ofInt n).toInt

theorem toInt64_of_lt {n : ℤ} (h : 0 ≤ n) (h' : n < 2 ^ 63) : toInt64 n = n := by
  have hsize : ((Int64.size : ℕ) : ℤ) = 2 ^ 64 := by decide
  rw [toInt64, Int64.toInt_ofInt, Int.bmod_eq_of_le] <;> omega

/-- `RR_OK` and `RR_ERROR`. -/
inductive Status where
  | ok | error
  deriving DecidableEq, Repr

end RhinoRox
