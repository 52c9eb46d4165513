import RhinoRox.RequestParser
import RhinoRox.ReplyStream

/-!
# Safety of the request parser

Invariants of the client between reads, at the head of the loop over the query buffer
and at the head of the loop over the arguments, for every input and every chunking.
-/

namespace RhinoRox

theorem strchr_lt {s : Bytes} {b : UInt8} {i : ℕ} (h : strchr s b = some i) : i < s.length := by
  have hlt : i < (cStr s).length := by
    obtain ⟨hi, -⟩ := List.findIdx?_eq_some_iff_getElem.mp h
    exact hi
  exact hlt.trans_le (List.takeWhile_prefix _).length_le

/-- The fields that parsing depends on are the same. -/
structure SameInput (c c' : Client) : Prop where
  reqType : c'.reqType = c.reqType
  multibulkLen : c'.multibulkLen = c.multibulkLen
  bulkLen : c'.bulkLen = c.bulkLen
  query : c'.query = c.query
  closeAfterReply : c'.closeAfterReply = c.closeAfterReply
  argv : c'.argv = c.argv
  argvSize : c'.argvSize = c.argvSize

namespace SameInput

theorem refl (c : Client) : SameInput c c := by constructor <;> rfl

theorem trans {c₁ c₂ c₃ : Client} (h : SameInput c₁ c₂) (h' : SameInput c₂ c₃) : SameInput c₁ c₃ :=
  ⟨h'.reqType.trans h.reqType, h'.multibulkLen.trans h.multibulkLen, h'.bulkLen.trans h.bulkLen,
    h'.query.trans h.query, h'.closeAfterReply.trans h.closeAfterReply, h'.argv.trans h.argv,
    h'.argvSize.trans h.argvSize⟩

theorem prepareClientToWrite (c : Client) : SameInput c (prepareClientToWrite c).2 := by
  unfold RhinoRox.prepareClientToWrite
  split_ifs <;> constructor <;> rfl

theorem addReplyToBuffer (c : Client) (s : Bytes) : SameInput c (addReplyToBuffer c s).2 := by
  unfold RhinoRox.addReplyToBuffer
  dsimp only
  split_ifs <;> constructor <;> rfl

theorem addReplyToList (c : Client) (s : Bytes) : SameInput c (addReplyToList c s) := by
  unfold RhinoRox.addReplyToList
  dsimp only
  split_ifs <;> constructor <;> rfl

theorem replyAddSdsEncoded (c : Client) (s : Bytes) : SameInput c (replyAddSdsEncoded c s) := by
  have hb := addReplyToBuffer c s
  unfold RhinoRox.replyAddSdsEncoded
  generalize RhinoRox.addReplyToBuffer c s = r at hb ⊢
  obtain ⟨_ | _, c₁⟩ := r
  · exact hb
  · exact hb.trans (addReplyToList c₁ s)

theorem replyCall (c : Client) (call : ReplyCall) : SameInput c (call.run c) := by
  have hp := prepareClientToWrite c
  rw [ReplyCall.run_eq]
  generalize RhinoRox.prepareClientToWrite c = r at hp ⊢
  obtain ⟨_ | _, c₁⟩ := r
  · exact hp.trans (replyAddSdsEncoded c₁ call.payload)
  · exact hp

/-- Replies only touch the output side of a client. -/
theorem replyAll (c : Client) (calls : List ReplyCall) : SameInput c (replyAll c calls) := by
  induction calls generalizing c with
  | nil => exact refl c
  | cons call calls ih => exact (replyCall c call).trans (ih (call.run c))

end SameInput

/-- `bulk_len` is unset or an accepted length. -/
def Client.BulkRange (c : Client) : Prop := c.bulkLen = -1 ∨ 0 ≤ c.bulkLen ∧ c.bulkLen ≤ 512 * 1024 * 1024

/-- `argc + multibulk_len` is the announced count, for which `argv` was allocated. -/
def Client.Counted (c : Client) : Prop :=
  c.argv.length + c.multibulkLen = c.argvSize ∧ c.argvSize ≤ 1024 * 1024

/-- The invariant at the head of the loop over the query buffer. -/
structure Client.LoopInv (c : Client) : Prop where
  query_le : c.query.length ≤ protoQueryMaxLen
  bulk : c.BulkRange
  counted : c.multibulkLen ≠ 0 → c.Counted
  multibulk : c.multibulkLen ≠ 0 → c.reqType = .multibulk
  idle : c.multibulkLen = 0 → c.bulkLen = -1
  fresh : c.multibulkLen = 0 → ¬ c.closeAfterReply → c.argv = []
  closing : c.closeAfterReply → c.bulkLen = -1

/-- Between reads a large argument is still incomplete. -/
structure Client.IdleInv (c : Client) : Prop extends Client.LoopInv c where
  short : (protoMbulkBigArg : ℤ) ≤ c.bulkLen → c.query.length < c.bulkLen + 2

/-- The invariant at the head of the loop over the arguments. -/
structure BulkInv (c : Client) (pos : ℕ) : Prop where
  query_le : c.query.length ≤ protoQueryMaxLen
  pos_le : pos ≤ c.query.length
  bulk : c.BulkRange
  counted : c.Counted
  multibulk : c.reqType = .multibulk
  opened : ¬ c.closeAfterReply

theorem rrClientCreate_idleInv (fd : ℤ) : (rrClientCreate fd).IdleInv := by
  refine ⟨⟨by simp [rrClientCreate], .inl rfl, ?_, ?_, fun _ => rfl, fun _ _ => rfl, fun _ => rfl⟩, ?_⟩
  · intro h
    exact absurd rfl h
  · intro h
    exact absurd rfl h
  · intro h
    simp [rrClientCreate, protoMbulkBigArg] at h

theorem Client.LoopInv.congr {c c' : Client} (h : c.LoopInv) (hs : SameInput c c') : c'.LoopInv := by
  constructor
  · rw [hs.query]
    exact h.query_le
  · simpa only [Client.BulkRange, hs.bulkLen] using h.bulk
  · simpa only [Client.Counted, hs.multibulkLen, hs.argv, hs.argvSize] using h.counted
  · simpa only [hs.multibulkLen, hs.reqType] using h.multibulk
  · simpa only [hs.multibulkLen, hs.bulkLen] using h.idle
  · simpa only [hs.multibulkLen, hs.closeAfterReply, hs.argv] using h.fresh
  · simpa only [hs.closeAfterReply, hs.bulkLen] using h.closing

theorem Client.IdleInv.congr {c c' : Client} (h : c.IdleInv) (hs : SameInput c c') : c'.IdleInv :=
  ⟨h.toLoopInv.congr hs, by simpa only [hs.bulkLen, hs.query] using h.short⟩

/-- A protocol error closes the client and trims its buffer. -/
theorem protocolError_idleInv {c : Client} (calls : List ReplyCall) {pos : ℕ}
    (hq : c.query.length ≤ protoQueryMaxLen) (hp : pos ≤ c.query.length) (hb : c.bulkLen = -1)
    (hc : c.multibulkLen ≠ 0 → c.Counted) (hm : c.multibulkLen ≠ 0 → c.reqType = .multibulk) :
    (protocolError c calls pos).IdleInv := by
  have h := SameInput.replyAll c calls
  have hmax : protoQueryMaxLen = 2 ^ 29 := rfl
  have hbulk : (protocolError c calls pos).bulkLen = -1 := h.bulkLen.trans hb
  have hquery : (protocolError c calls pos).query = c.query.drop pos := by
    simp only [protocolError, setProtocolError, h.query]
    exact sdsrange_from (by omega) (by omega)
  refine ⟨⟨?_, .inl hbulk, ?_, ?_, fun _ => hbulk, fun _ hclose => absurd rfl hclose, fun _ => hbulk⟩, ?_⟩
  · rw [hquery, List.length_drop]
    omega
  · simpa only [protocolError, setProtocolError, Client.Counted, h.multibulkLen, h.argv, h.argvSize] using hc
  · simpa only [protocolError, setProtocolError, h.multibulkLen, h.reqType] using hm
  · intro hbig
    rw [hbulk] at hbig
    simp [protoMbulkBigArg] at hbig

section Bulk
variable {c : Client} {pos : ℕ}

/-- Reading a bulk length: an error closes the client, otherwise the invariant holds at
the new position, behind which the length is known. -/
theorem readBulkLen_spec (h : BulkInv c pos) :
    (∃ c', readBulkLen c pos = .ret .error c' ∧ c'.IdleInv) ∨
    (readBulkLen c pos = .stop c pos ∧ c.bulkLen = -1) ∨
    (∃ c' pos', readBulkLen c pos = .next c' pos' ∧ BulkInv c' pos' ∧ 0 ≤ c'.bulkLen ∧
      c'.multibulkLen = c.multibulkLen ∧ c'.query.length - pos' ≤ c.query.length - pos) := by
  have hmax : protoQueryMaxLen = 2 ^ 29 := rfl
  have hq := h.query_le
  have hp := h.pos_le
  have herr : ∀ (calls : List ReplyCall) (p : ℕ), c.bulkLen = -1 → p ≤ c.query.length →
      ∃ c', BulkStep.ret .error (protocolError c calls p) = .ret .error c' ∧ c'.IdleInv :=
    fun calls p hb hle =>
      ⟨_, rfl, protocolError_idleInv calls hq hle hb (fun _ => h.counted) (fun _ => h.multibulk)⟩
  by_cases hb : c.bulkLen = -1
  · simp only [readBulkLen, hb, if_true]
    cases hs : strchr (c.query.drop pos) 13 with
    | none =>
      dsimp only
      split_ifs
      · exact .inl (herr _ 0 hb (by omega))
      · exact .inr (.inl ⟨rfl, trivial⟩)
    | some offset =>
      have hlt : offset < c.query.length - pos := by simpa using strchr_lt hs
      rw [toInt32_of_lt (by omega) (by omega)]
      dsimp only
      split_ifs with h₁ h₂
      · exact .inr (.inl ⟨rfl, trivial⟩)
      · exact .inl (herr _ pos hb hp)
      · cases string2llLen (c.query.drop (pos + 1)) (subSize offset 1) with
        | none => exact .inl (herr _ pos hb hp)
        | some ll =>
          dsimp only
          split_ifs with h₃ h₄
          · exact .inl (herr _ pos hb hp)
          all_goals obtain ⟨hll, hll'⟩ : 0 ≤ ll ∧ ll ≤ 512 * 1024 * 1024 := by omega
          · rw [sdsrange_from (by omega) (by omega)]
            refine .inr (.inr ⟨_, _, rfl, ⟨?_, Nat.zero_le _, .inr ⟨hll, hll'⟩, h.counted,
              h.multibulk, h.opened⟩, hll, rfl, ?_⟩)
            · simp only [List.length_drop]
              omega
            · simp only [List.length_drop]
              omega
          · refine .inr (.inr ⟨_, _, rfl, ⟨hq, ?_, .inr ⟨hll, hll'⟩, h.counted, h.multibulk,
              h.opened⟩, hll, rfl, ?_⟩)
            · dsimp only
              omega
            · dsimp only
              omega
  · refine .inr (.inr ⟨c, pos, by simp [readBulkLen, hb], h, ?_, rfl, le_rfl⟩)
    rcases h.bulk with h₁ | h₁
    · exact absurd h₁ hb
    · exact h₁.1

theorem bulkSize_eq (h : c.BulkRange) (h0 : 0 ≤ c.bulkLen) : bulkSize c = (c.bulkLen + 2).toNat := by
  unfold bulkSize
  rcases h with h | h
  · omega
  · rw [Int.emod_eq_of_lt (by omega) (by omega)]

theorem pushArg_spec (h : c.Counted) (hm : c.multibulkLen ≠ 0) (o : StrEnc) :
    pushArg c o = .ok { c with argv := c.argv ++ [o] } := by
  have h₁ := h.1
  rw [pushArg, if_pos (by omega)]
  rfl

/-- Reading an argument: it is incomplete, or the position moves past it. -/
theorem readBulkArg_spec (h : BulkInv c pos) (h0 : 0 ≤ c.bulkLen) (hm : c.multibulkLen ≠ 0) :
    (readBulkArg c pos = .ok (.stop c pos) ∧ c.query.length - pos < c.bulkLen + 2) ∨
    (∃ c' pos', readBulkArg c pos = .ok (.next c' pos') ∧ BulkInv c' pos' ∧ c'.bulkLen = -1 ∧
      c'.multibulkLen + 1 = c.multibulkLen ∧ c'.query.length - pos' < c.query.length - pos) := by
  have hmax : protoQueryMaxLen = 2 ^ 29 := rfl
  have hq := h.query_le
  have hp := h.pos_le
  have hcount : ∀ o : StrEnc, (c.argv ++ [o]).length + (c.multibulkLen - 1) = c.argvSize := by
    intro o
    have := h.counted.1
    simp
    omega
  rw [readBulkArg, bulkSize_eq h.bulk h0, subSize_of_le hp (by omega)]
  by_cases hs : c.query.length - pos < (c.bulkLen + 2).toNat
  · exact .inl ⟨by rw [if_pos hs]; rfl, by omega⟩
  · rw [if_neg hs]
    by_cases hbig : pos = 0 ∧ c.bulkLen ≥ protoMbulkBigArg ∧ toInt32 c.query.length = c.bulkLen + 2
    · rw [if_pos hbig, pushArg_spec h.counted hm]
      refine .inr ⟨_, _, rfl, ⟨by simp, by simp, .inl rfl, ⟨hcount _, h.counted.2⟩, h.multibulk, h.opened⟩,
        rfl, by dsimp only; omega, ?_⟩
      dsimp only [List.length_nil]
      omega
    · rw [if_neg hbig, pushArg_spec h.counted hm]
      refine .inr ⟨_, _, rfl, ⟨hq, ?_, .inl rfl, ⟨hcount _, h.counted.2⟩, h.multibulk, h.opened⟩, rfl,
        by dsimp only; omega, ?_⟩
      · dsimp only
        omega
      · dsimp only
        omega

/-- One turn of the loop over the arguments. -/
theorem bulkStep_spec (h : BulkInv c pos) (hm : c.multibulkLen ≠ 0) :
    (∃ c', bulkStep c pos = .ok (.ret .error c') ∧ c'.IdleInv) ∨
    (∃ c' pos', bulkStep c pos = .ok (.stop c' pos') ∧ BulkInv c' pos' ∧
      c'.multibulkLen = c.multibulkLen ∧
      (0 ≤ c'.bulkLen → ((c'.query.length - pos' : ℕ) : ℤ) < c'.bulkLen + 2)) ∨
    (∃ c' pos', bulkStep c pos = .ok (.next c' pos') ∧ BulkInv c' pos' ∧ c'.bulkLen = -1 ∧
      c'.multibulkLen + 1 = c.multibulkLen ∧ c'.query.length - pos' < c.query.length - pos) := by
  rw [bulkStep, if_neg (not_lt.mpr h.pos_le)]
  rcases readBulkLen_spec h with ⟨c', hr, hi⟩ | ⟨hr, hb⟩ | ⟨c₁, pos₁, hr, hi, h0, hmul, hrem⟩
  · rw [hr]
    exact .inl ⟨c', rfl, hi⟩
  · rw [hr]
    exact .inr (.inl ⟨c, pos, rfl, h, rfl, by omega⟩)
  · rw [hr]
    dsimp only
    rcases readBulkArg_spec hi h0 (by omega) with ⟨ha, hlt⟩ | ⟨c₂, pos₂, ha, hi₂, hb₂, hm₂, hrem₂⟩
    · exact .inr (.inl ⟨c₁, pos₁, ha, hi, hmul, fun _ => by have := hi.pos_le; omega⟩)
    · exact .inr (.inr ⟨c₂, pos₂, ha, hi₂, hb₂, by omega, by omega⟩)

/-- The loop over the arguments ends in an error, at an incomplete argument, or with all
arguments read and the buffer advanced. -/
theorem bulkLoop_spec (n : ℕ) (h : BulkInv c pos) (hn : c.multibulkLen = n)
    (hb : n = 0 → c.bulkLen = -1) :
    (∃ c', bulkLoop n c pos = .ok (.ret .error c') ∧ c'.IdleInv) ∨
    (∃ c' pos', bulkLoop n c pos = .ok (.go (c', pos')) ∧ BulkInv c' pos' ∧
      (c'.multibulkLen ≠ 0 ∧ (0 ≤ c'.bulkLen → ((c'.query.length - pos' : ℕ) : ℤ) < c'.bulkLen + 2) ∨
        c'.multibulkLen = 0 ∧ c'.bulkLen = -1 ∧ c'.query.length - pos' + n ≤ c.query.length - pos)) := by
  induction n generalizing c pos with
  | zero => exact .inr ⟨c, pos, rfl, h, .inr ⟨hn, hb rfl, by omega⟩⟩
  | succ n ih =>
    rw [bulkLoop]
    rcases bulkStep_spec h (by omega) with ⟨c', hr, hi⟩ | ⟨c', pos', hr, hi, hm, hs⟩ |
      ⟨c₁, pos₁, hr, hi, hb₁, hm, hrem⟩
    · rw [hr]
      exact .inl ⟨c', rfl, hi⟩
    · rw [hr]
      exact .inr ⟨c', pos', rfl, hi, .inl ⟨by omega, hs⟩⟩
    · rw [hr, Exec.ok_bind]
      rcases ih hi (by omega) (fun _ => hb₁) with ⟨c', hl, hi'⟩ | ⟨c', pos', hl, hi', hd⟩
      · exact .inl ⟨c', hl, hi'⟩
      · refine .inr ⟨c', pos', hl, hi', hd.imp id fun hd => ⟨hd.1, hd.2.1, by omega⟩⟩

/-- A request was read: nothing of it is left in the parser's fields but the arguments. -/
structure Parsed (c c' : Client) : Prop where
  query_lt : c'.query.length < c.query.length
  bulkLen : c'.bulkLen = -1
  multibulkLen : c'.multibulkLen = 0
  opened : ¬ c'.closeAfterReply

theorem multiBulkHeader_spec (h : c.LoopInv) (hq : 0 < c.query.length) (ho : ¬ c.closeAfterReply)
    (ht : c.reqType = .multibulk) :
    (∃ c', multiBulkHeader c = .ok (.ret .error c') ∧ c'.IdleInv) ∨
    (∃ c', multiBulkHeader c = .ok (.ret .ok c') ∧ Parsed c c') ∨
    (∃ c' pos, multiBulkHeader c = .ok (.go (c', pos)) ∧ BulkInv c' pos ∧ c'.multibulkLen ≠ 0 ∧
      c'.query.length - pos ≤ c.query.length) := by
  have hmax : protoQueryMaxLen = 2 ^ 29 := rfl
  have hql := h.query_le
  by_cases hm : c.multibulkLen = 0
  · have hargv : c.argv = [] := h.fresh hm ho
    have hbulk : c.bulkLen = -1 := h.idle hm
    have hidle : c.IdleInv := ⟨h, fun hbig => by rw [hbulk] at hbig; simp [protoMbulkBigArg] at hbig⟩
    have herr : ∀ calls : List ReplyCall, ∃ c', (pure (Flow.ret .error (protocolError c calls 0)) :
        Exec (Flow (Client × ℕ))) = .ok (.ret .error c') ∧ c'.IdleInv :=
      fun calls => ⟨_, rfl, protocolError_idleInv calls hql (by omega) hbulk h.counted h.multibulk⟩
    simp only [multiBulkHeader, hm, if_true, hargv, List.length_nil, ne_eq, not_true_eq_false, if_false]
    cases hs : strchr c.query 13 with
    | none =>
      dsimp only
      split_ifs
      · exact .inl (herr _)
      · exact .inl ⟨c, rfl, hidle⟩
    | some newline =>
      have hlt := strchr_lt hs
      rw [toInt32_of_lt (by omega) (by omega)]
      dsimp only
      split_ifs with h₁
      · exact .inl ⟨c, rfl, hidle⟩
      · cases string2llLen (c.query.drop 1) (subSize newline 1) with
        | none => exact .inl (herr _)
        | some ll =>
          dsimp only
          split_ifs with h₂ h₃
          · exact .inl (herr _)
          · rw [sdsrange_from (by omega) (by omega)]
            refine .inr (.inl ⟨_, rfl, ?_, hbulk, rfl, ho⟩)
            simp only [List.length_drop]
            omega
          · refine .inr (.inr ⟨_, _, rfl, ⟨hql, ?_, .inl hbulk, ⟨?_, ?_⟩, ht, ho⟩, ?_, ?_⟩)
            all_goals simp only [List.length_nil]
            all_goals omega
  · refine .inr (.inr ⟨c, 0, by simp [multiBulkHeader, hm], ?_, hm, by omega⟩)
    exact ⟨hql, by omega, h.bulk, h.counted hm, ht, ho⟩

theorem finishMultiBulk_spec (hq : c.query.length ≤ protoQueryMaxLen) (hp : pos ≤ c.query.length) :
    finishMultiBulk c pos =
      (if c.multibulkLen = 0 then .ok else .error, { c with query := c.query.drop pos }) := by
  have hmax : protoQueryMaxLen = 2 ^ 29 := rfl
  rw [finishMultiBulk, sdsrange_from (by omega) (by omega)]
  by_cases h0 : pos = 0
  · subst h0
    simp
  · simp [h0]

theorem processMultiBulkInput_spec (h : c.LoopInv) (hq : 0 < c.query.length)
    (ho : ¬ c.closeAfterReply) (ht : c.reqType = .multibulk) :
    (∃ c', processMultiBulkInput c = .ok (.error, c') ∧ c'.IdleInv) ∨
    (∃ c', processMultiBulkInput c = .ok (.ok, c') ∧ Parsed c c') := by
  rw [processMultiBulkInput]
  rcases multiBulkHeader_spec h hq ho ht with ⟨c', hr, hi⟩ | ⟨c', hr, hd⟩ | ⟨c₁, pos₁, hr, hi, hm, hrem⟩
  · rw [hr]
    exact .inl ⟨c', rfl, hi⟩
  · rw [hr]
    exact .inr ⟨c', rfl, hd⟩
  · rw [hr, Exec.ok_bind]
    dsimp only
    rcases bulkLoop_spec c₁.multibulkLen hi rfl (fun h0 => absurd h0 hm) with ⟨c', hl, hi'⟩ |
      ⟨c', pos', hl, hi', ⟨hm', hs⟩ | ⟨hm', hb', hlen⟩⟩
    · rw [hl]
      exact .inl ⟨c', rfl, hi'⟩
    · rw [hl, Exec.ok_bind]
      dsimp only
      rw [finishMultiBulk_spec hi'.query_le hi'.pos_le, if_neg hm']
      refine .inl ⟨_, rfl, ⟨?_, hi'.bulk, fun _ => hi'.counted, fun _ => hi'.multibulk, ?_, ?_, ?_⟩, ?_⟩
      · simpa using hi'.query_le.trans (Nat.le_add_right _ _)
      · exact fun h0 => absurd h0 hm'
      · exact fun h0 => absurd h0 hm'
      · exact fun hc => absurd hc hi'.opened
      · intro hbig
        have := hs (by dsimp only at hbig; omega)
        simpa using this
    · rw [hl, Exec.ok_bind]
      dsimp only
      rw [finishMultiBulk_spec hi'.query_le hi'.pos_le, if_pos hm']
      refine .inr ⟨_, rfl, ?_, hb', hm', hi'.opened⟩
      simp only [List.length_drop]
      omega

end Bulk

theorem Client.LoopInv.idleInv {c : Client} (h : c.LoopInv)
    (hs : c.query.length = 0 ∨ c.closeAfterReply ∨ c.multibulkLen = 0) : c.IdleInv := by
  refine ⟨h, fun hbig => ?_⟩
  rcases hs with hs | hs | hs
  · omega
  · rw [h.closing hs] at hbig
    simp [protoMbulkBigArg] at hbig
  · rw [h.idle hs] at hbig
    simp [protoMbulkBigArg] at hbig

theorem processInlineInput_spec {c : Client} (h : c.LoopInv) (hq : 0 < c.query.length)
    (ho : ¬ c.closeAfterReply) (ht : c.reqType = .inline) :
    (∃ c', processInlineInput c = (.error, c') ∧ c'.IdleInv) ∨
    (∃ c', processInlineInput c = (.ok, c') ∧ Parsed c c') := by
  have hmax : protoQueryMaxLen = 2 ^ 29 := rfl
  have hql := h.query_le
  have hm : c.multibulkLen = 0 := by
    by_contra hm
    simpa [ht] using h.multibulk hm
  have hidle : c.IdleInv := h.idleInv (.inr (.inr hm))
  rw [processInlineInput]
  cases hs : strchr c.query 10 with
  | none =>
    dsimp only
    split_ifs
    · exact .inl ⟨_, rfl, hidle.congr (.replyAll c _)⟩
    · exact .inl ⟨c, rfl, hidle⟩
  | some newline =>
    have hlt := strchr_lt hs
    dsimp only
    generalize hql' : (if newline ≠ 0 ∧ byteAt c.query (newline - 1) = 13 then newline - 1 else newline) = querylen
    have hle : querylen ≤ newline := by
      rw [← hql']
      split <;> omega
    cases sdssplitargs (c.query.take querylen) with
    | none =>
      exact .inl ⟨_, rfl, protocolError_idleInv _ hql (by omega) (h.idle hm) h.counted h.multibulk⟩
    | some argv =>
      dsimp only
      rw [sdsrange_from (by omega) (by omega)]
      refine .inr ⟨_, rfl, ?_, h.idle hm, hm, ho⟩
      simp only [List.length_drop]
      omega

section Commands
variable {σ : Type} (exec : σ → List StrEnc → σ × List ReplyCall)

theorem executeRequest_quit {c : Client} (s : σ) (hargv : c.argv.length ≠ 0)
    (hquit : strcaseEq ((c.argv.map StrEnc.bytes).headD []) (ascii "quit")) :
    executeRequest (cmdProcess exec) s c =
      (s, { replyAll c [.obj Shared.ok] with closeAfterReply := true }) := by
  rw [executeRequest, if_neg hargv, cmdProcess, if_pos hquit]
  rfl

theorem executeRequest_exec {c : Client} (s : σ) (hargv : c.argv.length ≠ 0)
    (hquit : ¬ strcaseEq ((c.argv.map StrEnc.bytes).headD []) (ascii "quit")) :
    executeRequest (cmdProcess exec) s c =
      ((exec s c.argv).1, rrClientReset (replyAll c (exec s c.argv).2)) := by
  rw [executeRequest, if_neg hargv, cmdProcess, if_neg hquit]
  rfl

theorem rrClientReset_loopInv {c : Client} (hq : c.query.length ≤ protoQueryMaxLen) :
    (rrClientReset c).LoopInv :=
  ⟨hq, .inl rfl, fun h0 => absurd rfl h0, fun h0 => absurd rfl h0, fun _ => rfl, fun _ _ => rfl,
    fun _ => rfl⟩

/-- After a command the client is reset, or it is closing. -/
theorem executeRequest_spec {c c' : Client} (s : σ) (h : c.LoopInv) (hd : Parsed c c') :
    (executeRequest (cmdProcess exec) s c').2.LoopInv ∧
      (executeRequest (cmdProcess exec) s c').2.query.length < c.query.length := by
  have hq := h.query_le
  have hlt := hd.query_lt
  by_cases hargv : c'.argv.length = 0
  · rw [executeRequest, if_pos hargv]
    exact ⟨rrClientReset_loopInv (by omega), hlt⟩
  by_cases hquit : strcaseEq ((c'.argv.map StrEnc.bytes).headD []) (ascii "quit")
  · have hs := SameInput.replyAll c' [.obj Shared.ok]
    have hb := hs.bulkLen.trans hd.bulkLen
    have hm := hs.multibulkLen.trans hd.multibulkLen
    rw [executeRequest_quit exec s hargv hquit]
    refine ⟨⟨?_, .inl hb, fun h0 => absurd hm h0, fun h0 => absurd hm h0, fun _ => hb,
      fun _ h0 => absurd rfl h0, fun _ => hb⟩, ?_⟩
    · simp only [hs.query]
      omega
    · simpa only [hs.query] using hlt
  · have hs := SameInput.replyAll c' (exec s c'.argv).2
    rw [executeRequest_exec exec s hargv hquit]
    refine ⟨rrClientReset_loopInv ?_, ?_⟩
    · rw [hs.query]
      omega
    · simpa only [rrClientReset, hs.query] using hlt

theorem setReqType_loopInv {c : Client} (h : c.LoopInv) : (setReqType c).LoopInv := by
  unfold setReqType
  by_cases hu : c.reqType = .unset
  · rw [if_pos hu]
    have hm : c.multibulkLen = 0 := by
      by_contra hm
      simpa [hu] using h.multibulk hm
    exact ⟨h.query_le, h.bulk, h.counted, fun h0 => absurd hm h0, h.idle, h.fresh, h.closing⟩
  · rw [if_neg hu]
    exact h

theorem setReqType_reqType (c : Client) :
    (setReqType c).reqType = .inline ∨ (setReqType c).reqType = .multibulk := by
  unfold setReqType
  split_ifs with hu hb
  · exact .inr rfl
  · exact .inl rfl
  · cases ht : c.reqType with
    | unset => exact absurd ht hu
    | multibulk => exact .inr rfl
    | inline => exact .inl rfl

@[simp] theorem setReqType_query (c : Client) : (setReqType c).query = c.query := by
  unfold setReqType
  split <;> rfl

@[simp] theorem setReqType_close (c : Client) : (setReqType c).closeAfterReply = c.closeAfterReply := by
  unfold setReqType
  split <;> rfl

theorem processInput_spec {c : Client} (h : c.LoopInv) (hq : 0 < c.query.length)
    (ho : ¬ c.closeAfterReply) :
    (∃ c', processInput (setReqType c) = .ok (.error, c') ∧ c'.IdleInv) ∨
    (∃ c', processInput (setReqType c) = .ok (.ok, c') ∧ Parsed (setReqType c) c') := by
  have hi := setReqType_loopInv h
  have hq' : 0 < (setReqType c).query.length := by simpa using hq
  have ho' : ¬ (setReqType c).closeAfterReply := by simpa using ho
  rw [processInput]
  rcases setReqType_reqType c with ht | ht
  · rw [ht]
    rcases processInlineInput_spec hi hq' ho' ht with ⟨c', hr, hi'⟩ | ⟨c', hr, hd⟩
    · exact .inl ⟨c', by simp [hr], hi'⟩
    · exact .inr ⟨c', by simp [hr], hd⟩
  · rw [ht]
    exact processMultiBulkInput_spec hi hq' ho' ht

/-- One turn of the loop over the query buffer. -/
theorem userStep_spec {c : Client} (s : σ) (h : c.LoopInv) :
    (∃ s' c', userStep (cmdProcess exec) s c = .ok (.stop s' c') ∧ c'.IdleInv) ∨
    (∃ s' c', userStep (cmdProcess exec) s c = .ok (.next s' c') ∧ c'.LoopInv ∧
      c'.query.length < c.query.length) := by
  rw [userStep]
  by_cases hq : c.query.length = 0
  · rw [if_pos hq]
    exact .inl ⟨s, c, rfl, h.idleInv (.inl hq)⟩
  rw [if_neg hq]
  by_cases hc : c.closeAfterReply
  · rw [if_pos hc]
    exact .inl ⟨s, c, rfl, h.idleInv (.inr (.inl hc))⟩
  rw [if_neg hc]
  rcases processInput_spec h (Nat.pos_of_ne_zero hq) hc with ⟨c', hr, hi⟩ | ⟨c', hr, hd⟩
  · rw [hr]
    exact .inl ⟨s, c', rfl, hi⟩
  · rw [hr]
    obtain ⟨hl, hlt⟩ := executeRequest_spec exec s (setReqType_loopInv h) hd
    rw [setReqType_query] at hlt
    exact .inr ⟨_, _, rfl, hl, hlt⟩

theorem processUserInput_spec {c : Client} (s : σ) (h : c.LoopInv) {fuel : ℕ}
    (hf : c.query.length < fuel) :
    ∃ s' c', processUserInput (cmdProcess exec) fuel s c = .ok (s', c') ∧ c'.IdleInv := by
  induction fuel generalizing s c with
  | zero => omega
  | succ fuel ih =>
    rw [processUserInput]
    rcases userStep_spec exec s h with ⟨s', c', hr, hi⟩ | ⟨s', c', hr, hi, hlt⟩
    · rw [hr]
      exact ⟨s', c', rfl, hi⟩
    · rw [hr, Exec.ok_bind]
      exact ih s' hi (by omega)

theorem received_loopInv {c : Client} (h : c.LoopInv) {bs : Bytes}
    (hl : (received c bs).query.length ≤ protoQueryMaxLen) : (received c bs).LoopInv :=
  ⟨hl, h.bulk, h.counted, h.multibulk, h.idle, h.fresh, h.closing⟩

theorem handleReadFromClient_spec {c : Client} (s : σ) (h : c.IdleInv) (out : ReadOutcome) :
    ∃ r, handleReadFromClient (cmdProcess exec) s c out = .ok r ∧ ∀ s' c', r = some (s', c') → c'.IdleInv := by
  cases out with
  | again =>
    refine ⟨some (s, c), rfl, fun s' c' he => ?_⟩
    obtain ⟨-, rfl⟩ : _ ∧ _ := by simpa using he
    exact h
  | fail => exact ⟨none, rfl, by simp⟩
  | data bs =>
    simp only [handleReadFromClient]
    split_ifs with h0 hl
    · exact ⟨none, rfl, by simp⟩
    · exact ⟨none, rfl, by simp⟩
    · obtain ⟨s', c', hr, hi⟩ := processUserInput_spec exec s (received_loopInv h.toLoopInv (not_lt.mp hl))
        (Nat.lt_succ_self _)
      refine ⟨some (s', c'), ?_, fun s₁ c₁ he => ?_⟩
      · rw [hr]
        rfl
      · obtain ⟨-, rfl⟩ : _ ∧ _ := by simpa using he
        exact hi

/-- What the kernel may return for the length that was asked for. -/
def ReadOutcome.fits (len : ℤ) : ReadOutcome → Prop
  | .data bs => (bs.length : ℤ) ≤ len
  | _ => True

/-- The clients seen between two callbacks: fresh, after a read, after a write of replies,
and with whatever other clients did to the server's state. -/
inductive Reachable : σ → Client → Prop where
  | create (s : σ) (fd : ℤ) : Reachable s (rrClientCreate fd)
  | read {s s' : σ} {c c' : Client} (h : Reachable s c) (out : ReadOutcome) (fits : out.fits (readlen c))
      (run : handleReadFromClient (cmdProcess exec) s c out = .ok (some (s', c'))) : Reachable s' c'
  | write {s : σ} {c c' : Client} (h : Reachable s c) (handlerInstalled : Bool) (outs : List WriteOutcome)
      (run : (replyWriteToClient c handlerInstalled outs).client = some c') : Reachable s c'
  | written {s : σ} {c : Client} (h : Reachable s c) : Reachable s { c with pendingWrite := false }
  | others {s : σ} {c : Client} (h : Reachable s c) (s' : σ) : Reachable s' c

/-- The clients at the head of the loop of `process_user_input`. -/
inductive InUserLoop : σ → Client → Prop where
  | enter {s : σ} {c : Client} (h : Reachable exec s c) (bs : Bytes)
      (fits : (ReadOutcome.data bs).fits (readlen c))
      (small : (received c bs).query.length ≤ protoQueryMaxLen) : InUserLoop s (received c bs)
  | next {s s' : σ} {c c' : Client} (h : InUserLoop s c)
      (run : userStep (cmdProcess exec) s c = .ok (.next s' c')) : InUserLoop s' c'

theorem SameInput.replyWriteLoop (c : Client) (tot : ℕ) (outs : List WriteOutcome) :
    SameInput c (replyWriteLoop c tot outs).1 := by
  have hsome : ∀ (c : Client) (n : ℕ), SameInput c (sentSome c n) := by
    intro c n
    unfold sentSome
    dsimp only
    split_ifs <;> constructor <;> rfl
  fun_induction RhinoRox.replyWriteLoop c tot outs with
  | case1 c => exact .refl c
  | case2 c tot outs hp he ih => exact ⟨ih.1, ih.2, ih.3, ih.4, ih.5, ih.6, ih.7⟩
  | case3 c => exact .refl c
  | case4 c => exact .refl c
  | case5 c => exact .refl c
  | case6 c => exact .refl c
  | case7 c tot hp he n under outs nw => exact hsome c nw
  | case8 c tot hp he n under outs nw h0 hmax c₁ bs₁ failed hl ih =>
    rw [hl] at ih
    exact (hsome c nw).trans ih

theorem SameInput.replyWriteToClient {c c' : Client} {handlerInstalled : Bool} {outs : List WriteOutcome}
    (h : (replyWriteToClient c handlerInstalled outs).client = some c') : SameInput c c' := by
  have hl := SameInput.replyWriteLoop c 0 outs
  unfold RhinoRox.replyWriteToClient at h
  generalize RhinoRox.replyWriteLoop c 0 outs = r at h hl
  obtain ⟨c₁, sent, failed⟩ := r
  dsimp only at h
  split_ifs at h
  · obtain rfl : _ = c' := Option.some.inj h
    exact ⟨hl.1, hl.2, hl.3, hl.4, hl.5, hl.6, hl.7⟩
  · obtain rfl : _ = c' := Option.some.inj h
    exact hl

variable {exec}

theorem Reachable.idleInv {s : σ} {c : Client} (h : Reachable exec s c) : c.IdleInv := by
  induction h with
  | create s fd => exact rrClientCreate_idleInv fd
  | read _ out _ run ih =>
    obtain ⟨r, hr, hi⟩ := handleReadFromClient_spec exec _ ih out
    rw [hr] at run
    exact hi _ _ (Except.ok.inj run)
  | write _ _ _ run ih => exact ih.congr (.replyWriteToClient run)
  | written _ ih => exact ih.congr (by constructor <;> rfl)
  | others _ _ ih => exact ih

/-- A turn that goes on keeps the invariant and shortens the buffer. -/
theorem Client.LoopInv.next {s s' : σ} {c c' : Client} (h : c.LoopInv)
    (run : userStep (cmdProcess exec) s c = .ok (.next s' c')) :
    c'.LoopInv ∧ c'.query.length < c.query.length := by
  rcases userStep_spec exec s h with ⟨s₁, c₁, hr, -⟩ | ⟨s₁, c₁, hr, hi⟩
  · rw [hr] at run
    simp at run
  · rw [hr] at run
    obtain ⟨-, rfl⟩ : _ ∧ _ := by simpa using run
    exact hi

theorem InUserLoop.loopInv {s : σ} {c : Client} (h : InUserLoop exec s c) : c.LoopInv := by
  induction h with
  | enter h bs _ small => exact received_loopInv h.idleInv.toLoopInv small
  | next _ run ih => exact (ih.next run).1

/-- Turns of the loop of `process_user_input` that end without a break, one after another. -/
inductive UserTurns (exec : σ → List StrEnc → σ × List ReplyCall) (s : σ) (c : Client) :
    σ → Client → Prop where
  | refl : UserTurns exec s c s c
  | next {s₁ s₂ : σ} {c₁ c₂ : Client} (h : UserTurns exec s c s₁ c₁)
      (run : userStep (cmdProcess exec) s₁ c₁ = .ok (.next s₂ c₂)) : UserTurns exec s c s₂ c₂

theorem UserTurns.loopInv {s s' : σ} {c c' : Client} (h : UserTurns exec s c s' c') (hi : c.LoopInv) :
    c'.LoopInv := by
  induction h with
  | refl => exact hi
  | next _ run ih => exact (ih.next run).1

/-- More fuel than the loop needs changes nothing. -/
theorem processUserInput_fuel {c : Client} (s : σ) (h : c.LoopInv) {fuel fuel' : ℕ}
    (hf : c.query.length < fuel) (hf' : c.query.length < fuel') :
    processUserInput (cmdProcess exec) fuel s c = processUserInput (cmdProcess exec) fuel' s c := by
  induction fuel generalizing s c fuel' with
  | zero => omega
  | succ fuel ih =>
    cases fuel' with
    | zero => omega
    | succ fuel' =>
      rw [processUserInput, processUserInput]
      rcases userStep_spec exec s h with ⟨s', c', hr, -⟩ | ⟨s', c', hr, hi, hlt⟩
      · rw [hr]
        rfl
      · rw [hr, Exec.ok_bind, Exec.ok_bind]
        exact ih s' hi (by omega) (by omega)

/-- Whatever bytes the query buffer of a client holds: no turn of the loop faults, every turn
that does not break shortens the buffer, and the loop ends after at most as many turns as
there are bytes. -/
theorem user_input_terminates (exec : σ → List StrEnc → σ × List ReplyCall) {s : σ} {c : Client}
    (h : Reachable exec s c) (query : Bytes) (hq : query.length ≤ protoQueryMaxLen) :
    (∀ s₁ c₁, UserTurns exec s { c with query := query } s₁ c₁ →
      (∃ step, userStep (cmdProcess exec) s₁ c₁ = .ok step) ∧
      ∀ s₂ c₂, userStep (cmdProcess exec) s₁ c₁ = .ok (.next s₂ c₂) →
        c₂.query.length < c₁.query.length) ∧
    ∃ s' c', ∀ fuel, query.length < fuel →
      processUserInput (cmdProcess exec) fuel s { c with query := query } = .ok (s', c') := by
  have hi : ({ c with query := query } : Client).LoopInv := by
    have hl := h.idleInv.toLoopInv
    exact ⟨hq, hl.bulk, hl.counted, hl.multibulk, hl.idle, hl.fresh, hl.closing⟩
  refine ⟨fun s₁ c₁ ht => ⟨?_, fun s₂ c₂ run => ((ht.loopInv hi).next run).2⟩, ?_⟩
  · rcases userStep_spec exec s₁ (ht.loopInv hi) with ⟨s', c', hr, -⟩ | ⟨s', c', hr, -⟩
    · exact ⟨_, hr⟩
    · exact ⟨_, hr⟩
  · obtain ⟨s', c', hr, -⟩ := processUserInput_spec exec s hi (Nat.lt_succ_self _)
    refine ⟨s', c', fun fuel hf => ?_⟩
    rw [← hr]
    exact processUserInput_fuel s hi hf (Nat.lt_succ_self _)

theorem user_input_terminates_blank_lines :
    ∃ s' c', ∀ fuel, 6 < fuel → processUserInput (cmdProcess fun (s : Unit) _ => (s, [])) fuel ()
      { rrClientCreate 5 with query := ascii "\r\n*0\r\n" } = .ok (s', c') := by
  have h := user_input_terminates (fun (s : Unit) _ => (s, [])) (.create () 5)
    (ascii "\r\n*0\r\n") (by decide)
  simpa only [show (ascii "\r\n*0\r\n").length = 6 from by decide] using h.2

end Commands

end RhinoRox
