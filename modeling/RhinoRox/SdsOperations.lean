import Mathlib.Data.List.DropRight
import RhinoRox.SdsInvariant

/-!
# What the functions of `sds.c` do to a string

Each function that is given a string in memory stays inside its allocation and leaves the string
that its specification says, or the process ends for lack of memory.
-/

namespace RhinoRox.SdsMemory

open Buffers

variable {s s' : Sdshdr} {bs t : Bytes} {n len addlen : ℕ} (m : Malloc)

/-! ## Creation and space -/

theorem sdsMaxPrealloc_eq : sdsMaxPrealloc = 2 ^ 20 := rfl

theorem preallocate_bounds (h : n < 2 ^ 63) : n ≤ preallocate n ∧ preallocate n + 18 < 2 ^ 64 := by
  unfold preallocate
  rw [sdsMaxPrealloc_eq]
  split_ifs <;> omega

theorem sdsMakeRoomFor_yields (hs : s.WellFormed) (hlen : s.len + addlen < 2 ^ 63) :
    (sdsMakeRoomFor m s addlen).Yields fun s' => s.Moved s' ∧ s'.len + addlen ≤ s'.sdsalloc := by
  have havail := hs.sdsavail_eq
  have hle := hs.len_le
  unfold sdsMakeRoomFor
  by_cases hroom : addlen ≤ s.sdsavail
  · rw [if_pos hroom]
    exact .ok ⟨hs.moved, by omega⟩
  · rw [if_neg hroom]
    have hsum : (s.sdslen + addlen) % 2 ^ 64 = s.len + addlen := Nat.mod_eq_of_lt (by change s.len + addlen < _; omega)
    rw [hsum]
    obtain ⟨hnew, hsize⟩ := preallocate_bounds hlen
    have hlimit := lt_limit_growType (n := preallocate (s.len + addlen)) (by omega)
    refine (reallocate_yields m hs hlimit (by omega) hsize).mono fun s' ⟨hmoved, _, halloc⟩ => ⟨hmoved, ?_⟩
    rw [halloc, if_neg (growType_ne_type5 _), hmoved.len]
    exact hnew

theorem sdsMakeRoomFor_holds (hs : s.Holds bs) (hlen : bs.length + addlen < 2 ^ 63) :
    (sdsMakeRoomFor m s addlen).Yields fun s' => s'.Holds bs ∧ s'.len + addlen ≤ s'.sdsalloc := by
  have hlen' : s.len + addlen < 2 ^ 63 := by rwa [hs.len]
  exact (sdsMakeRoomFor_yields m hs.wellFormed hlen').mono fun s' ⟨hmoved, hroom⟩ => ⟨hmoved.holds hs, hroom⟩

theorem newType_ne {n : ℕ} (h : n < 2 ^ 64) : n < (if n = 0 then HdrType.type8 else sdsReqType n).limit := by
  split_ifs with h0
  · rw [h0]
    decide
  · exact lt_limit_sdsReqType h

theorem sdsnewlen_holds (init : Bytes) (hlen : init.length < 2 ^ 63) (hn : n ≤ init.length) :
    (sdsnewlen m (some init) n).Yields fun s => s.Holds (init.take n) := by
  unfold sdsnewlen
  generalize htype : (if n = 0 then HdrType.type8 else sdsReqType n) = type
  have hlimit : n < type.limit := htype ▸ newType_ne (by omega)
  have hget : sdsHdrSize type + n + 1 < 2 ^ 64 := by
    have := sdsHdrSize_le type
    omega
  refine .bind (m.get_yields hget) fun block hblock => ?_
  have hfresh : (block.drop (sdsHdrSize type)).length = n + 1 := by
    rw [List.length_drop, hblock]
    omega
  have hset : Sdshdr.sdssetlen ⟨type, 0, 0, block.drop (sdsHdrSize type)⟩ n = ⟨type, n, 0, block.drop (sdsHdrSize type)⟩ :=
    congrArg (fun len => Sdshdr.mk type len 0 _) (mod_of_lt_limit hlimit)
  have hw : (Sdshdr.sdssetalloc ⟨type, n, 0, block.drop (sdsHdrSize type)⟩ n).WellFormed :=
    wellFormed_of_header hlimit le_rfl hfresh
  have halloc : (Sdshdr.sdssetalloc ⟨type, n, 0, block.drop (sdsHdrSize type)⟩ n).sdsalloc = n := by
    rw [Sdshdr.sdsalloc_sdssetalloc hlimit]
    exact ite_self n
  have hinit : initBytes (some init) n = .ok (init.take n) := if_pos hn
  have htake : (init.take n).length = n := List.length_take_of_le hn
  simp only [Option.isNone_some, Bool.false_eq_true, if_false, hset, hinit, Exec.ok_bind]
  generalize hs : Sdshdr.sdssetalloc ⟨type, n, 0, block.drop (sdsHdrSize type)⟩ n = s at hw halloc
  have hslen : s.len = n := by
    rw [← hs]
    exact Sdshdr.sdssetalloc_len _ _
  have hroom : (0 : ℕ) + (init.take n).length ≤ s.buf.length := by
    have := hw.alloc_lt
    omega
  have hroom' : n + [(0 : UInt8)].length ≤ (writeAt s.buf 0 (init.take n)).length := by
    rw [length_writeAt hroom]
    have := hw.alloc_lt
    rw [List.length_singleton]
    omega
  have hw' : Sdshdr.WellFormed { s with buf := writeAt s.buf 0 (init.take n) } := hw.withBuf (length_writeAt hroom)
  rw [Sdshdr.write_eq hroom, Exec.ok_bind, Sdshdr.write_eq hroom']
  refine .ok ⟨hw'.withBuf (length_writeAt hroom'), hslen.trans htake.symm, ?_⟩
  have hwrite := prefix_writeAt (prefix_writeAt_zero s.buf (init.take n)) [(0 : UInt8)]
  rwa [htake] at hwrite

theorem sdsdup_holds (hs : s.Holds bs) (hlen : s.buf.length < 2 ^ 63) : (sdsdup m s).Yields fun s' => s'.Holds bs := by
  have hle : s.sdslen ≤ s.buf.length := (hs.wellFormed.len_le.trans_lt hs.wellFormed.alloc_lt).le
  have hnew := sdsnewlen_holds m s.buf hlen hle
  rwa [show s.buf.take s.sdslen = bs from hs.take_len] at hnew

/-! ## Appending and copying -/

theorem sdscatlen_holds (hs : s.Holds bs) (hlen : bs.length + t.length < 2 ^ 63) :
    (sdscatlen m s t).Yields fun s' => s'.Holds (bs ++ t) := by
  refine .bind (sdsMakeRoomFor_holds m hs hlen) fun s' ⟨hs', hroom⟩ => ?_
  rw [hs'.len] at hroom
  obtain ⟨s'', hrun, hs''⟩ := Sdshdr.write_terminate_holds hs'.wellFormed hs'.starts hroom
  rw [show s.sdslen = bs.length from hs.len, hrun]
  exact .ok hs''

end RhinoRox.SdsMemory
