import Mathlib.Data.List.Count
import RhinoRox.SdsRuns

/-!
# How often a string is reallocated

`sdsMakeRoomFor` doubles the size of a short string and adds a megabyte to a long one. However many
requests are made, of whatever sizes, and whatever is done to the string in between, it asks for
memory at most twenty times and once more for each megabyte of the largest size requested.
-/

namespace RhinoRox.SdsMemory

open LabelledRuns

variable {s s' s₀ : Sdshdr} {peak addlen k : ℕ} {moves : List Bool}

/-- A use of a string that is not shrunk: a request for room, which moves the string or not, or work
inside the space that it has. -/
inductive Use (peak : ℕ) : Sdshdr → Bool → Sdshdr → Prop where
  | request {s s' : Sdshdr} {addlen : ℕ} (m : Malloc) (hpeak : s.len + addlen ≤ peak)
      (run : sdsMakeRoomFor m s addlen = .ok s') : Use peak s (s.sdsavail < addlen) s'
  | work {s s' : Sdshdr} (hs' : s'.WellFormed) (htype : s'.type = s.type) (halloc : s'.alloc = s.alloc) : Use peak s false s'

/-- After `k` moves the space has doubled `k` times, or it is a megabyte for each move after the
twentieth. -/
structure Grown (peak k : ℕ) (s : Sdshdr) : Prop where
  wellFormed : s.WellFormed
  type : 0 < k → s.type ≠ .type5
  space : 0 < k → k ≤ 20 ∧ 2 ^ (k + 1) ≤ s.alloc + 2 ∨
    2 ^ 20 * (k - 20) + 2 ^ 20 ≤ s.alloc ∧ 2 ^ 20 * (k - 20) ≤ peak ∧ 2 ^ 21 ≤ s.alloc

/-- The size that a string has after it is moved. -/
theorem sdsMakeRoomFor_moves {m : Malloc} (hs : s.WellFormed) (hlen : s.len + addlen < 2 ^ 63) (hmove : s.sdsavail < addlen)
    (run : sdsMakeRoomFor m s addlen = .ok s') :
    s'.WellFormed ∧ s'.type ≠ .type5 ∧ s'.alloc = preallocate (s.len + addlen) := by
  have hsum : (s.sdslen + addlen) % 2 ^ 64 = s.len + addlen := Nat.mod_eq_of_lt (by change s.len + addlen < _; omega)
  obtain ⟨hnew, hsize⟩ := preallocate_bounds hlen
  have hlimit : preallocate (s.len + addlen) < (growType (preallocate (s.len + addlen))).limit :=
    lt_limit_growType (by omega)
  rw [sdsMakeRoomFor, if_neg (by omega), hsum] at run
  obtain ⟨hmoved, htype, halloc⟩ := (reallocate_yields m hs hlimit (by omega) hsize).of_eq run
  have hne : s'.type ≠ .type5 := htype ▸ growType_ne_type5 _
  rw [if_neg (growType_ne_type5 _), Sdshdr.sdsalloc, if_neg hne] at halloc
  exact ⟨hmoved.wellFormed, hne, halloc⟩

theorem Grown.move (h : Grown peak k s) (hroom : s.sdsalloc < s.len + addlen) (hpeak : s.len + addlen ≤ peak)
    (hpeak' : peak < 2 ^ 63) (hs' : s'.WellFormed) (htype : s'.type ≠ .type5) (halloc : s'.alloc = preallocate (s.len + addlen)) :
    Grown peak (k + 1) s' := by
  refine ⟨hs', fun _ => htype, fun _ => ?_⟩
  rw [halloc, preallocate, sdsMaxPrealloc_eq]
  have hspace : 0 < k → s.alloc < s.len + addlen := by
    intro hk
    rwa [Sdshdr.sdsalloc, if_neg (h.type hk)] at hroom
  rcases Nat.eq_zero_or_pos k with rfl | hk
  · split_ifs <;> omega
  · have hlt := hspace hk
    rcases h.space hk with ⟨hk20, hdouble⟩ | ⟨hmega, -, hlong⟩
    · split_ifs with hshort
      · have hpow : 2 ^ (k + 1) ≤ 2 ^ 20 := by omega
        have hk19 : k + 1 ≤ 20 := (Nat.pow_le_pow_iff_right (by decide)).mp hpow
        refine .inl ⟨hk19, ?_⟩
        rw [pow_succ 2 (k + 1)]
        omega
      · omega
    · rw [if_neg (by omega)]
      omega

theorem Grown.use (h : Grown peak k s) (hpeak : peak < 2 ^ 63) {moved : Bool} (step : Use peak s moved s') :
    Grown peak (k + moved.toNat) s' := by
  cases step with
  | @request _ addlen m hle run =>
    by_cases hmove : s.sdsavail < addlen
    · have havail := h.wellFormed.sdsavail_eq
      have hslen := h.wellFormed.len_le
      obtain ⟨hs', htype, halloc⟩ := sdsMakeRoomFor_moves h.wellFormed (by omega) hmove run
      rw [decide_eq_true hmove]
      exact h.move (by omega) hle hpeak hs' htype halloc
    · rw [sdsMakeRoomFor, if_pos (not_lt.mp hmove)] at run
      obtain rfl := Except.ok.inj run
      rw [decide_eq_false hmove]
      exact h
  | work hs' htype halloc =>
    refine ⟨hs', fun hk => ?_, fun hk => ?_⟩
    · rw [htype]
      exact h.type hk
    · rw [halloc]
      exact h.space hk

theorem Grown.run (h : Grown peak k s) (hpeak : peak < 2 ^ 63) (run : Run (Use peak) s moves s') :
    Grown peak (k + moves.count true) s' := by
  induction run generalizing k with
  | nil s => exact h
  | @cons s s₁ s₂ moved moves head _ ih =>
    have hcount : (moved :: moves).count true = moved.toNat + moves.count true := by
      cases moved with
      | false => exact (List.count_cons_of_ne (by decide)).trans (Nat.zero_add _).symm
      | true => exact List.count_cons_self.trans (Nat.add_comm _ _)
    rw [hcount, ← Nat.add_assoc]
    exact ih (h.use hpeak head)

/-- However often room is asked for, the string is moved at most twenty times and once more for each
megabyte of the largest size. -/
theorem moves_le (hs₀ : s₀.WellFormed) (hpeak : peak < 2 ^ 63) (run : Run (Use peak) s₀ moves s) :
    moves.count true ≤ 20 + peak / (1024 * 1024) := by
  have h₀ : Grown peak 0 s₀ := ⟨hs₀, fun h => absurd h (lt_irrefl 0), fun h => absurd h (lt_irrefl 0)⟩
  have hgrown := h₀.run hpeak run
  rw [Nat.zero_add] at hgrown
  rcases Nat.eq_zero_or_pos (moves.count true) with h | h
  · rw [h]
    exact Nat.zero_le _
  · have hdiv := Nat.div_add_mod peak (1024 * 1024)
    rcases hgrown.space h with ⟨hle, -⟩ | ⟨-, hle, -⟩
    · omega
    · omega

/-! ## Appending -/

theorem terminate_keeps {len : ℕ} (run : s.terminate len = .ok s') : s'.type = s.type ∧ s'.alloc = s.alloc := by
  obtain ⟨s₁, hwrite, hend⟩ := Exec.bind_eq_ok.mp run
  rw [Sdshdr.write] at hwrite
  split_ifs at hwrite
  obtain rfl := Except.ok.inj hwrite
  obtain rfl := Except.ok.inj hend
  exact ⟨rfl, rfl⟩

/-- An append is a request for room and work in it. -/
theorem sdscatlen_uses {m : Malloc} {bs t : Bytes} (hs : s.Holds bs) (hlen : bs.length + t.length ≤ peak) (hpeak : peak < 2 ^ 63)
    (run : sdscatlen m s t = .ok s') : Run (Use peak) s [decide (s.sdsavail < t.length), false] s' := by
  have hs' := (sdscatlen_holds m hs (by omega)).of_eq run
  obtain ⟨s₁, hroom, hrest⟩ := Exec.bind_eq_ok.mp run
  obtain ⟨s₂, hwrite, hend⟩ := Exec.bind_eq_ok.mp hrest
  obtain ⟨htype, halloc⟩ := terminate_keeps hend
  rw [Sdshdr.write] at hwrite
  split_ifs at hwrite
  obtain rfl := Except.ok.inj hwrite
  have hlen' : s.len + t.length ≤ peak := by rwa [hs.len]
  exact .cons (.request m hlen' hroom) (.one (.work hs'.wellFormed htype halloc))

theorem moves_le_append : ∃ s : Sdshdr, s.Holds (ascii "abc") ∧ [true, false].count true ≤ 20 + 3 / (1024 * 1024) := by
  have hs₀ : Sdshdr.Holds ⟨.type5, 1, 0, [97, 0]⟩ (ascii "a") := ⟨⟨by decide, by decide, by decide⟩, rfl, by decide⟩
  have hcat : sdscatlen .zeros ⟨.type5, 1, 0, [97, 0]⟩ (ascii "bc") = .ok ⟨.type8, 3, 6, [97, 98, 99, 0, 0, 0, 0]⟩ := rfl
  have hs : Sdshdr.Holds ⟨.type8, 3, 6, [97, 98, 99, 0, 0, 0, 0]⟩ (ascii "abc") :=
    ⟨⟨by decide, by decide, by decide⟩, rfl, by decide⟩
  have run : Run (Use 3) ⟨.type5, 1, 0, [97, 0]⟩ [true, false] ⟨.type8, 3, 6, [97, 98, 99, 0, 0, 0, 0]⟩ :=
    sdscatlen_uses hs₀ (by decide) (by decide) hcat
  exact ⟨_, hs, moves_le hs₀.wellFormed (by decide) run⟩

end RhinoRox.SdsMemory
