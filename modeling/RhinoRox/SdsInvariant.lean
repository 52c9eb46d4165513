import RhinoRox.SdsHeaders

/-!
# The invariant of strings in memory

The length of a string is at most the space that its header states, that space is inside the
allocation and fits the header, and the bytes of the string end with a terminator.
-/

namespace RhinoRox

/-- The run ends the process for lack of memory, or it returns a value with the property. -/
def Exec.Yields {α : Type} (x : Exec α) (p : α → Prop) : Prop := x = .error .exit ∨ ∃ a, x = .ok a ∧ p a

namespace Exec.Yields
variable {α β : Type} {x : Exec α} {f : α → Exec β} {p q : α → Prop} {r : β → Prop} {a : α}

theorem ok (h : p a) : Yields (.ok a) p := .inr ⟨a, rfl, h⟩

theorem bind (hx : x.Yields p) (hf : ∀ a, p a → (f a).Yields r) : (x >>= f).Yields r := by
  rcases hx with hx | ⟨a, hx, ha⟩
  · rw [hx]
    exact .inl rfl
  · rw [hx]
    exact hf a ha

theorem mono (hx : x.Yields p) (h : ∀ a, p a → q a) : x.Yields q := by
  rcases hx with hx | ⟨a, hx, ha⟩
  · exact .inl hx
  · exact .inr ⟨a, hx, h a ha⟩

/-- What holds of the value that a run returned. -/
theorem of_eq (hx : x.Yields p) (h : x = .ok a) : p a := by
  rcases hx with hx | ⟨b, hx, hb⟩
  · cases h.symm.trans hx
  · cases h.symm.trans hx
    exact hb

end Exec.Yields

namespace SdsMemory

open Buffers

variable {s s' : Sdshdr} {bs t : Bytes} {n newlen addlen : ℕ} {type : HdrType} (m : Malloc)

/-! ## Header types -/

/-- The lengths below this one fit the header. -/
def HdrType.limit : HdrType → ℕ
  | .type5 => 32 | .type8 => 0xff | .type16 => 0xffff | .type32 => 0xffffffff | .type64 => 2 ^ 64

theorem HdrType.limit_le (type : HdrType) : type.limit ≤ 2 ^ type.bits := by
  cases type <;> decide

theorem mod_of_lt_limit (h : n < type.limit) : n % 2 ^ type.bits = n := Nat.mod_eq_of_lt (h.trans_le type.limit_le)

theorem lt_limit_sdsReqType (h : n < 2 ^ 64) : n < (sdsReqType n).limit := by
  unfold sdsReqType
  split_ifs <;> simp only [HdrType.limit] <;> omega

theorem growType_ne_type5 (n : ℕ) : growType n ≠ .type5 := by
  unfold growType
  split_ifs with h
  · decide
  · exact h

theorem lt_limit_growType (h : n < 2 ^ 64) : n < (growType n).limit := by
  have hreq := lt_limit_sdsReqType h
  unfold growType
  split_ifs with h5
  · rw [h5] at hreq
    exact hreq.trans (by decide)
  · exact hreq

theorem sdsHdrSize_le (type : HdrType) : sdsHdrSize type ≤ 17 := by
  cases type <;> decide

/-! ## The invariant -/

structure Sdshdr.WellFormed (s : Sdshdr) : Prop where
  len_le : s.len ≤ s.sdsalloc
  alloc_lt : s.sdsalloc < s.buf.length
  limit : s.sdsalloc < s.type.limit

/-- The string in memory is `bs`. -/
structure Sdshdr.Holds (s : Sdshdr) (bs : Bytes) : Prop where
  wellFormed : s.WellFormed
  len : s.len = bs.length
  text : bs ++ [0] <+: s.buf

namespace Sdshdr

theorem Holds.starts (h : s.Holds bs) : bs <+: s.buf := (List.prefix_append bs [0]).trans h.text

theorem Holds.length_lt (h : s.Holds bs) : bs.length < s.buf.length := by
  have hlen : s.len < s.buf.length := h.wellFormed.len_le.trans_lt h.wellFormed.alloc_lt
  rwa [h.len] at hlen

theorem Holds.take_len (h : s.Holds bs) : s.buf.take s.len = bs := by
  rw [h.len]
  exact take_of_starts h.starts

/-- A string in memory is one string of bytes only. -/
theorem Holds.unique {bs' : Bytes} (h : s.Holds bs) (h' : s.Holds bs') : bs = bs' := h.take_len.symm.trans h'.take_len

theorem WellFormed.sdsavail_eq (h : s.WellFormed) : s.sdsavail = s.sdsalloc - s.len := by
  obtain ⟨type, len, alloc, buf⟩ := s
  obtain ⟨hle, -, hlimit⟩ := h
  cases type <;> simp only [sdsavail, sdsalloc, HdrType.limit, reduceCtorEq, if_true, if_false, subSize] at * <;> omega

@[simp] theorem sdssetlen_type (s : Sdshdr) (n : ℕ) : (s.sdssetlen n).type = s.type := rfl
@[simp] theorem sdssetlen_buf (s : Sdshdr) (n : ℕ) : (s.sdssetlen n).buf = s.buf := rfl
@[simp] theorem sdssetlen_alloc (s : Sdshdr) (n : ℕ) : (s.sdssetlen n).alloc = s.alloc := rfl
theorem sdssetlen_len (h : n < s.type.limit) : (s.sdssetlen n).len = n := mod_of_lt_limit h

@[simp] theorem sdssetalloc_type (s : Sdshdr) (n : ℕ) : (s.sdssetalloc n).type = s.type := by
  rw [sdssetalloc]
  split_ifs <;> rfl

@[simp] theorem sdssetalloc_buf (s : Sdshdr) (n : ℕ) : (s.sdssetalloc n).buf = s.buf := by
  rw [sdssetalloc]
  split_ifs <;> rfl

@[simp] theorem sdssetalloc_len (s : Sdshdr) (n : ℕ) : (s.sdssetalloc n).len = s.len := by
  rw [sdssetalloc]
  split_ifs <;> rfl

/-- The space that a header states after it was set. -/
theorem sdsalloc_sdssetalloc (h : n < s.type.limit) :
    (s.sdssetalloc n).sdsalloc = if s.type = .type5 then s.len else n := by
  by_cases h5 : s.type = .type5
  · rw [sdsalloc, sdssetalloc_type, if_pos h5, if_pos h5, sdssetalloc_len]
  · rw [sdsalloc, sdssetalloc_type, if_neg h5, if_neg h5, sdssetalloc, if_neg h5]
    exact mod_of_lt_limit h

theorem sdsalloc_sdssetlen (h : n < s.type.limit) :
    (s.sdssetlen n).sdsalloc = if s.type = .type5 then n else s.sdsalloc := by
  by_cases h5 : s.type = .type5
  · rw [sdsalloc, sdssetlen_type, if_pos h5, if_pos h5, sdssetlen_len h]
  · rw [sdsalloc, sdssetlen_type, if_neg h5, if_neg h5, sdssetlen_alloc, sdsalloc, if_neg h5]

theorem WellFormed.sdssetlen (h : s.WellFormed) (hn : n ≤ s.sdsalloc) : (s.sdssetlen n).WellFormed := by
  have hlimit : n < s.type.limit := hn.trans_lt h.limit
  have hlt := h.alloc_lt
  constructor
  · rw [sdssetlen_len hlimit, sdsalloc_sdssetlen hlimit]
    split_ifs
    · exact le_rfl
    · exact hn
  · rw [sdsalloc_sdssetlen hlimit, sdssetlen_buf]
    split_ifs
    · exact hn.trans_lt hlt
    · exact hlt
  · rw [sdsalloc_sdssetlen hlimit, sdssetlen_type]
    split_ifs
    · exact hlimit
    · exact h.limit

theorem write_eq {i : ℕ} {data : Bytes} (h : i + data.length ≤ s.buf.length) :
    s.write i data = .ok { s with buf := writeAt s.buf i data } := if_pos h

theorem read_eq {i : ℕ} (h : i + n ≤ s.buf.length) : s.read i n = .ok ((s.buf.drop i).take n) := if_pos h

theorem WellFormed.withBuf (h : s.WellFormed) {buf : Bytes} (hbuf : buf.length = s.buf.length) :
    Sdshdr.WellFormed { s with buf := buf } := ⟨h.len_le, hbuf ▸ h.alloc_lt, h.limit⟩

/-- A well-formed string whose buffer starts with `bs` becomes the string `bs`. -/
theorem terminate_holds (h : s.WellFormed) (hbs : bs <+: s.buf) (hlen : bs.length ≤ s.sdsalloc) :
    ∃ s', s.terminate bs.length = .ok s' ∧ s'.Holds bs := by
  have hroom : bs.length + [(0 : UInt8)].length ≤ s.buf.length := hlen.trans_lt h.alloc_lt
  have hw : Sdshdr.WellFormed { s with buf := writeAt s.buf bs.length [0] } := h.withBuf (length_writeAt hroom)
  refine ⟨_, by rw [terminate, write_eq hroom]; rfl, hw.sdssetlen hlen, ?_, ?_⟩
  · exact sdssetlen_len (hlen.trans_lt h.limit)
  · exact prefix_writeAt hbs [0]

/-- Bytes written behind what the buffer starts with, and the end behind them. -/
theorem write_terminate_holds (h : s.WellFormed) (hbs : bs <+: s.buf) (hlen : bs.length + t.length ≤ s.sdsalloc) :
    ∃ s', (s.write bs.length t >>= fun s => s.terminate (bs.length + t.length)) = .ok s' ∧ s'.Holds (bs ++ t) := by
  have hroom : bs.length + t.length ≤ s.buf.length := hlen.trans h.alloc_lt.le
  have hw : Sdshdr.WellFormed { s with buf := writeAt s.buf bs.length t } := h.withBuf (length_writeAt hroom)
  have hlen' : (bs ++ t).length ≤ s.sdsalloc := by rwa [List.length_append]
  obtain ⟨s', hrun, hs'⟩ := terminate_holds hw (prefix_writeAt hbs t) hlen'
  rw [List.length_append] at hrun
  rw [write_eq hroom]
  exact ⟨s', hrun, hs'⟩

end Sdshdr

/-! ## Memory -/

theorem Malloc.get_yields (h : n < 2 ^ 64) : (m.get n).Yields fun block => block.length = n := by
  rw [Malloc.get, Nat.mod_eq_of_lt h]
  cases hb : m.block n with
  | none => exact .inl rfl
  | some block => exact .ok (m.size n block hb)

/-- What growing or shrinking the allocation leaves as it was. -/
structure Sdshdr.Moved (s s' : Sdshdr) : Prop where
  wellFormed : s'.WellFormed
  len : s'.len = s.len
  text : s.buf.take (s.len + 1) <+: s'.buf

theorem Sdshdr.WellFormed.moved (h : s.WellFormed) : s.Moved s := ⟨h, rfl, List.take_prefix _ _⟩

theorem Sdshdr.Moved.starts (h : s.Moved s') (hbs : bs <+: s.buf) (hlen : bs.length ≤ s.len + 1) : bs <+: s'.buf :=
  prefix_of_take hbs hlen h.text

theorem Sdshdr.Moved.holds (h : s.Moved s') (hs : s.Holds bs) : s'.Holds bs := by
  refine ⟨h.wellFormed, h.len.trans hs.len, h.starts hs.text ?_⟩
  rw [List.length_append, hs.len]
  exact le_rfl

/-- A header of the given type in front of `newlen` bytes and a terminator. -/
theorem wellFormed_of_header {buf : Bytes} {len alloc : ℕ} (hlimit : newlen < type.limit) (hlen : len ≤ newlen)
    (hbuf : buf.length = newlen + 1) : (Sdshdr.sdssetalloc ⟨type, len, alloc, buf⟩ newlen).WellFormed := by
  have halloc := Sdshdr.sdsalloc_sdssetalloc (s := ⟨type, len, alloc, buf⟩) hlimit
  constructor
  · rw [halloc, Sdshdr.sdssetalloc_len]
    split_ifs
    · exact le_rfl
    · exact hlen
  · rw [halloc, Sdshdr.sdssetalloc_buf]
    change _ < buf.length
    split_ifs
    · exact Nat.lt_of_le_of_lt hlen (by omega)
    · omega
  · rw [halloc, Sdshdr.sdssetalloc_type]
    split_ifs
    · exact hlen.trans_lt hlimit
    · exact hlimit

theorem reallocate_yields (hs : s.WellFormed) (hlimit : newlen < type.limit) (hlen : s.len ≤ newlen)
    (hsize : newlen + 18 < 2 ^ 64) :
    (reallocate m s type newlen).Yields fun s' =>
      s.Moved s' ∧ s'.type = type ∧ s'.sdsalloc = if type = .type5 then s.len else newlen := by
  have hget : sdsHdrSize type + newlen + 1 < 2 ^ 64 := by
    have := sdsHdrSize_le type
    omega
  refine .bind (m.get_yields hget) fun block hblock => ?_
  have hfresh : (block.drop (sdsHdrSize type)).length = newlen + 1 := by
    rw [List.length_drop, hblock]
    omega
  generalize block.drop (sdsHdrSize type) = fresh at hfresh
  have hlt := hs.len_le.trans_lt hs.alloc_lt
  by_cases htype : s.type = type
  · rw [if_pos htype]
    subst htype
    have hkept : ((s.buf.take fresh.length) ++ fresh.drop (s.buf.take fresh.length).length).length = newlen + 1 := by
      simp only [List.length_append, List.length_take, List.length_drop]
      omega
    refine .ok ⟨⟨wellFormed_of_header hlimit hlen hkept, Sdshdr.sdssetalloc_len _ _, ?_⟩, Sdshdr.sdssetalloc_type _ _, ?_⟩
    · rw [Sdshdr.sdssetalloc_buf]
      have htake : s.buf.take (s.len + 1) <+: s.buf.take fresh.length := List.take_prefix_take_left (by omega)
      exact htake.trans (List.prefix_append _ _)
    · exact Sdshdr.sdsalloc_sdssetalloc hlimit
  · rw [if_neg htype]
    have hcopied : (s.buf.take (s.len + 1)).length = s.len + 1 := by
      rw [List.length_take]
      omega
    have hread : s.read 0 (s.sdslen + 1) = .ok (s.buf.take (s.len + 1)) := Sdshdr.read_eq (by change 0 + (s.len + 1) ≤ _; omega)
    have hwrite : Sdshdr.write ⟨type, 0, 0, fresh⟩ 0 (s.buf.take (s.len + 1)) =
        .ok ⟨type, 0, 0, writeAt fresh 0 (s.buf.take (s.len + 1))⟩ :=
      Sdshdr.write_eq (by change 0 + (s.buf.take (s.len + 1)).length ≤ fresh.length; omega)
    rw [hread, Exec.ok_bind, hwrite, Exec.ok_bind]
    have hbuf : (writeAt fresh 0 (s.buf.take (s.len + 1))).length = newlen + 1 := by
      rw [length_writeAt (by omega), hfresh]
    have hset : Sdshdr.sdssetlen ⟨type, 0, 0, writeAt fresh 0 (s.buf.take (s.len + 1))⟩ s.sdslen =
        ⟨type, s.len, 0, writeAt fresh 0 (s.buf.take (s.len + 1))⟩ :=
      congrArg (fun len => Sdshdr.mk type len 0 _) (mod_of_lt_limit (hlen.trans_lt hlimit))
    rw [hset]
    refine .ok ⟨⟨wellFormed_of_header hlimit hlen hbuf, Sdshdr.sdssetalloc_len _ _, ?_⟩, Sdshdr.sdssetalloc_type _ _, ?_⟩
    · rw [Sdshdr.sdssetalloc_buf]
      exact prefix_writeAt_zero fresh _
    · exact Sdshdr.sdsalloc_sdssetalloc hlimit

end SdsMemory

end RhinoRox
