import RhinoRox.ReplyStream
import RhinoRox.Resp

/-!
# Replies as values of the protocol

What the composite replies of `rr_replying.c` put on the wire.
-/

namespace RhinoRox

theorem ascii_crlf : ascii "\r\n" = [13, 10] := by decide

/-- The loop counts the digits, of a negative number as well. -/
theorem bulkLenLoop_eq (fuel : ℕ) (n : ℤ) (len : ℕ) (h : n.natAbs < 10 ^ (fuel + 1)) :
    bulkLenLoop n len fuel + 1 = len + (decimalText n.natAbs).length := by
  induction fuel generalizing n len with
  | zero =>
    rw [bulkLenLoop, decimalText_of_lt (by simpa using h)]
    rfl
  | succ fuel ih =>
    have habs : (n.tdiv 10).natAbs = n.natAbs / 10 := Int.natAbs_tdiv n 10
    rw [bulkLenLoop]
    split_ifs with hn
    · have hpos : 0 < n.natAbs / 10 := by omega
      have hv : n.natAbs = n.natAbs / 10 * 10 + n.natAbs % 10 := by omega
      have hlen : (decimalText n.natAbs).length = (decimalText (n.natAbs / 10)).length + 1 := by
        conv_lhs => rw [hv, decimalText_snoc hpos (by omega)]
        simp
      rw [ih _ _ (by rw [habs, pow_succ] at *; omega), habs, hlen]
      omega
    · have hlt : n.natAbs < 10 := by omega
      rw [decimalText_of_lt hlt]
      rfl

/-- The announced length is that of the bytes the object stands for. -/
theorem bulkLen_eq (o : StrEnc) : bulkLen o = o.bytes.length := by
  cases o with
  | raw s => rfl
  | embstr s => rfl
  | int n =>
    have hlo := n.le_toInt
    have hhi := n.toInt_lt
    rw [StrEnc.bytes_int, decimal_eq, integerText, ll2stringDigits_eq, bulkLen]
    have hneg : n < 0 ↔ n.toInt < 0 := by
      rw [Int64.lt_iff_toInt_lt]
      rfl
    split_ifs with h₁ h₂ h₂
    · have habs : (-n).toInt.natAbs = n.toInt.natAbs := by
        rw [Int64.toInt_neg]
        rcases eq_or_ne n.toInt (-2 ^ 63) with hmin | hmin
        · rw [hmin]
          rfl
        · rw [Int.bmod_eq_of_le (by omega) (by omega), Int.natAbs_neg]
      have hloop := bulkLenLoop_eq 20 (-n).toInt 2 (by rw [habs]; omega)
      rw [habs] at hloop
      rw [List.length_cons]
      omega
    · exact absurd (hneg.mp h₁) h₂
    · exact absurd (hneg.mpr h₂) h₁
    · have hloop := bulkLenLoop_eq 20 n.toInt 1 (by omega)
      omega

/-- A prefix, an integer and a line end, whether or not the header is a shared object. -/
theorem replyAddLonglongWithPrefix_payload (ll : ℤ) (pre : UInt8) :
    (replyAddLonglongWithPrefix ll pre).flatMap ReplyCall.payload = pre :: (integerText ll ++ [13, 10]) := by
  have htext : 0 ≤ ll → ll2stringDigits ll.toNat = integerText ll := by
    intro h
    rw [integerText, if_neg (by omega), show ll.natAbs = ll.toNat by omega]
  unfold replyAddLonglongWithPrefix
  split_ifs with h₁ h₂
  · rw [h₁.1, ← htext h₁.2.2]
    simp [ReplyCall.payload, Shared.mbulkhdr, ascii_crlf, show ascii "*" = [42] by decide]
  · rw [h₂.1, ← htext h₂.2.2]
    simp [ReplyCall.payload, Shared.bulkhdr, ascii_crlf, show ascii "$" = [36] by decide]
  · simp [ReplyCall.payload, ascii_crlf]

theorem replyAddLonglongWithPrefix_header (n : ℕ) (pre : UInt8) :
    (replyAddLonglongWithPrefix n pre).flatMap ReplyCall.payload = headerLine pre n := by
  rw [replyAddLonglongWithPrefix_payload, integerText_natCast]
  rfl

theorem replyAddMultiBulkLen_payload (n : ℕ) :
    (replyAddMultiBulkLen n).flatMap ReplyCall.payload = headerLine 42 n := by
  rw [← replyAddLonglongWithPrefix_header, replyAddMultiBulkLen]
  split
  · rw [replyAddLonglongWithPrefix, if_pos ⟨rfl, by omega, by omega⟩]
    rfl
  · rfl

theorem replyAddBulkLen_payload (o : StrEnc) :
    (replyAddBulkLen o).flatMap ReplyCall.payload = headerLine 36 o.bytes.length := by
  rw [← replyAddLonglongWithPrefix_header, replyAddBulkLen, bulkLen_eq]
  split
  · rw [replyAddLonglongWithPrefix, if_neg (by simp), if_pos ⟨rfl, by omega, by omega⟩]
    rfl
  · rfl

/-- An object is sent with the length and the bytes it stands for, whatever its encoding. -/
theorem replyAddBulkObj_payload (o : StrEnc) :
    (replyAddBulkObj o).flatMap ReplyCall.payload = encodeArg o.bytes := by
  rw [replyAddBulkObj, List.flatMap_append, replyAddBulkLen_payload, encodeArg]
  simp [ReplyCall.payload, Shared.crlf, ascii_crlf]

theorem replyAddBulkCbuf_payload (p : Bytes) :
    (replyAddBulkCbuf p).flatMap ReplyCall.payload = encodeArg p := by
  rw [replyAddBulkCbuf, List.flatMap_append, replyAddLonglongWithPrefix_header, encodeArg]
  simp [ReplyCall.payload, Shared.crlf, ascii_crlf]

/-- `reply_add_err_format` leaves no line end in the text. -/
theorem oneLine_map (s : Bytes) : OneLine (s.map fun b => if b = 13 ∨ b = 10 then 32 else b) := by
  have hkeep : ∀ b : UInt8, (if b = 13 ∨ b = 10 then 32 else b) ≠ 13 ∧ (if b = 13 ∨ b = 10 then 32 else b) ≠ 10 := by
    intro b
    split_ifs with hb
    · decide
    · exact not_or.mp hb
  constructor
  · intro h
    obtain ⟨b, -, hb⟩ := List.mem_map.mp h
    exact (hkeep b).1 hb
  · intro h
    obtain ⟨b, -, hb⟩ := List.mem_map.mp h
    exact (hkeep b).2 hb

/-- The reply of a bulk string on the wire. -/
def bulkBytes (s : Bytes) : Bytes :=
  ascii "$" ++ ll2stringDigits s.length ++ ascii "\r\n" ++ s ++ ascii "\r\n"

theorem bulkBytes_eq (s : Bytes) : bulkBytes s = encodeArg s := by
  rw [bulkBytes, encodeArg, headerLine, ll2stringDigits_eq, ascii_crlf, show ascii "$" = [36] by decide]
  simp

end RhinoRox
