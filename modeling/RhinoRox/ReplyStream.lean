import RhinoRox.Replying

/-!
# The reply stream of one client

Whatever the order of appends and partial writes, the bytes sent followed by the bytes
still queued are the accepted payloads in call order.
-/

namespace RhinoRox

/-- The nodes queued behind the front. -/
def behind (c : Client) : List Bytes := if c.buf.length > 0 then c.reply else c.reply.tail

/-- `buf[buf_sent_len..buf_offset)` then the reply list, with `buf_sent_len` skipped from
the list head when `buf_offset` is 0. -/
def unsent (c : Client) : Bytes := offered c ++ (behind c).flatten

/-- The invariant of the output side of a client. -/
structure Client.OutInv (c : Client) : Prop where
  buf_le : c.buf.length ≤ protoReplyMaxLen
  replied : c.repliedLen = (c.reply.map List.length).sum
  sent : c.bufSentLen = 0 ∨ c.bufSentLen < (front c).length

theorem rrClientCreate_outInv (fd : ℤ) : (rrClientCreate fd).OutInv :=
  ⟨by simp [rrClientCreate], by simp [rrClientCreate], .inl rfl⟩

theorem front_append_behind (c : Client) : front c ++ (behind c).flatten = c.buf ++ c.reply.flatten := by
  unfold front behind
  by_cases h : c.buf.length > 0
  · simp only [h, if_true]
  · have hb : c.buf = [] := by simpa using h
    rw [if_neg h, if_neg h, hb]
    cases c.reply <;> simp

section Append
variable {c : Client}

theorem Client.OutInv.sent_le (h : c.OutInv) : c.bufSentLen ≤ (front c).length := by
  rcases h.sent with h | h <;> omega

theorem Client.OutInv.unsent_eq (h : c.OutInv) :
    unsent c = (c.buf ++ c.reply.flatten).drop c.bufSentLen := by
  rw [unsent, offered, ← front_append_behind, List.drop_append_of_le_length h.sent_le]

/-- `c'` is `c` with `s` appended to its output. -/
structure Appended (s : Bytes) (c c' : Client) : Prop where
  inv : c'.OutInv
  fd : c'.fd = c.fd
  close : c'.closeAfterReply = c.closeAfterReply
  unsent : unsent c' = unsent c ++ s

theorem Appended.of_content {s : Bytes} {c c' : Client} (h : c.OutInv) (hfd : c'.fd = c.fd)
    (hc : c'.closeAfterReply = c.closeAfterReply) (hs : c'.bufSentLen = c.bufSentLen)
    (hall : c'.buf ++ c'.reply.flatten = c.buf ++ c.reply.flatten ++ s) (hi : c'.OutInv) :
    Appended s c c' := by
  refine ⟨hi, hfd, hc, ?_⟩
  have hle := h.sent_le
  have hlen := congrArg List.length (front_append_behind c)
  simp only [List.length_append] at hlen
  rw [hi.unsent_eq, h.unsent_eq, hall, hs, List.drop_append_of_le_length]
  simp only [List.length_append]
  omega

theorem subSize_available (h : c.OutInv) :
    subSize protoReplyMaxLen c.buf.length = protoReplyMaxLen - c.buf.length :=
  subSize_of_le h.buf_le (by decide)

/-- The buffer path: refused, or the bytes are appended. -/
theorem addReplyToBuffer_spec (h : c.OutInv) (hc : ¬ c.closeAfterReply) (s : Bytes) :
    addReplyToBuffer c s = (.error, c) ∨
      ∃ c', addReplyToBuffer c s = (.ok, c') ∧ Appended s c c' := by
  unfold addReplyToBuffer
  rw [if_neg hc, subSize_available h]
  by_cases hr : c.reply.length > 0
  · exact .inl (by rw [if_pos hr])
  by_cases hl : s.length > protoReplyMaxLen - c.buf.length
  · exact .inl (by rw [if_neg hr, if_pos hl])
  refine .inr ⟨{ c with buf := c.buf ++ s }, by rw [if_neg hr, if_neg hl], ?_⟩
  have hr0 : c.reply = [] := by simpa using hr
  have hle := h.buf_le
  refine .of_content h rfl rfl rfl (by simp [hr0]) ⟨by simp; omega, h.replied, ?_⟩
  refine h.sent.imp id fun hlt => ?_
  have hb : c.buf.length > 0 := by
    by_contra hb
    simp [front, hb, hr0] at hlt
  have hb' : c.buf.length + s.length > 0 := by omega
  simp only [front, hb, if_true] at hlt
  simp only [front, List.length_append, hb', if_true]
  omega

theorem listCatLast_flatten {l : List Bytes} (h : l ≠ []) (s : Bytes) :
    (listCatLast l s).flatten = l.flatten ++ s := by
  have hl : l.getLast?.getD [] = l.getLast h := by rw [List.getLast?_eq_some_getLast h, Option.getD_some]
  conv_rhs => rw [← List.dropLast_concat_getLast h]
  simp [listCatLast, hl]

theorem le_headD_listCatLast (l : List Bytes) (s : Bytes) :
    (l.headD []).length ≤ ((listCatLast l s).headD []).length := by
  match l with
  | [] => simp
  | [o] => simp [listCatLast]
  | o :: p :: l => simp [listCatLast]

theorem le_headD_listAddNodeTail (l : List Bytes) (s : Bytes) :
    (l.headD []).length ≤ ((listAddNodeTail l s).headD []).length := by
  cases l <;> simp [listAddNodeTail]

/-- A longer list keeps the invariant and the output when only nodes at its end change. -/
theorem Appended.of_reply {s : Bytes} {l : List Bytes} (h : c.OutInv)
    (hf : l.flatten = c.reply.flatten ++ s) (hh : (c.reply.headD []).length ≤ (l.headD []).length) :
    Appended s c { c with repliedLen := c.repliedLen + s.length, reply := l } := by
  refine .of_content h rfl rfl rfl (by simp [hf]) ⟨h.buf_le, ?_, ?_⟩
  · rw [h.replied, ← List.length_flatten, ← List.length_flatten, hf, List.length_append]
  · refine h.sent.imp id fun hlt => ?_
    unfold front at hlt ⊢
    dsimp only
    split_ifs at hlt ⊢ <;> omega

theorem addReplyToList_spec (h : c.OutInv) (hc : ¬ c.closeAfterReply) (s : Bytes) :
    Appended s c (addReplyToList c s) := by
  unfold addReplyToList
  rw [if_neg hc]
  dsimp only
  split_ifs with h0 hfit
  · exact .of_reply h (by simp [listAddNodeTail]) (le_headD_listAddNodeTail _ _)
  · exact .of_reply h (listCatLast_flatten (by simpa using h0) s) (le_headD_listCatLast _ _)
  · exact .of_reply h (by simp [listAddNodeTail]) (le_headD_listAddNodeTail _ _)

theorem Appended.trans {s t : Bytes} {c₁ c₂ : Client} (h : Appended s c c₁) (h' : Appended t c₁ c₂) :
    Appended (s ++ t) c c₂ :=
  ⟨h'.inv, h'.fd.trans h.fd, h'.close.trans h.close, by rw [h'.unsent, h.unsent, List.append_assoc]⟩

theorem Appended.refl (h : c.OutInv) : Appended [] c c := ⟨h, rfl, rfl, by simp⟩

/-- The buffer first, then the list; nothing once the client is closing. -/
theorem replyAddSdsEncoded_spec (h : c.OutInv) (s : Bytes) :
    Appended (if c.closeAfterReply then [] else s) c (replyAddSdsEncoded c s) := by
  unfold replyAddSdsEncoded
  by_cases hc : c.closeAfterReply
  · simpa [addReplyToBuffer, hc] using Appended.refl h
  rw [if_neg hc]
  rcases addReplyToBuffer_spec h hc s with hb | ⟨c', hb, ha⟩
  · rw [hb]
    exact addReplyToList_spec h hc s
  · rw [hb]
    exact ha

/-- Every call prepares the client and then queues its payload. -/
theorem ReplyCall.run_eq (c : Client) (call : ReplyCall) :
    call.run c = match prepareClientToWrite c with
      | (.error, c) => c
      | (.ok, c) => replyAddSdsEncoded c call.payload := by
  cases call with
  | str s => rfl
  | sds s => rfl
  | obj o =>
    cases o with
    | raw s => rfl
    | embstr s => rfl
    | int n =>
      have hdec : (getDecodedObject (.int n)).bytes = decimal n := getDecodedObject_bytes _
      simp only [ReplyCall.run, replyAddObj, ReplyCall.payload, hdec, StrEnc.bytes_int]
      rcases prepareClientToWrite c with ⟨_ | _, c₁⟩
      · dsimp only
        rw [← decimal]
        split
        · cases hb : addReplyToBuffer c₁ (decimal n) with
          | mk st c₂ =>
            cases st with
            | ok => simp [replyAddSdsEncoded, hb]
            | error =>
              have hsame : c₂ = c₁ := by
                unfold addReplyToBuffer at hb
                dsimp only at hb
                split_ifs at hb <;> simp_all
              rw [hsame]
        · rfl
      · rfl

theorem prepareClientToWrite_spec (h : c.OutInv) :
    prepareClientToWrite c = (.error, c) ∧ c.fd ≤ 0 ∨
      ∃ c₁, prepareClientToWrite c = (.ok, c₁) ∧ 0 < c.fd ∧ Appended [] c c₁ := by
  unfold prepareClientToWrite
  split_ifs with hfd hp
  · exact .inl ⟨rfl, hfd⟩
  · exact .inr ⟨_, rfl, by omega, ⟨⟨h.buf_le, h.replied, h.sent⟩, rfl, rfl,
      by simp [RhinoRox.unsent, offered, front, behind]⟩⟩
  · exact .inr ⟨c, rfl, by omega, .refl h⟩

/-- What a call appends to the output of a client: nothing without a socket, or once the
client is closing. -/
def accepted (fd : ℤ) (closing : Bool) (payload : Bytes) : Bytes :=
  if 0 < fd ∧ ¬ closing then payload else []

theorem ReplyCall.run_spec (h : c.OutInv) (call : ReplyCall) :
    Appended (accepted c.fd c.closeAfterReply call.payload) c (call.run c) := by
  rw [ReplyCall.run_eq]
  rcases prepareClientToWrite_spec h with ⟨hp, hfd⟩ | ⟨c₁, hp, hfd, ha⟩
  · rw [hp, accepted, if_neg (by omega)]
    exact .refl h
  · rw [hp]
    have hq := ha.trans (replyAddSdsEncoded_spec ha.inv call.payload)
    rw [ha.close, List.nil_append] at hq
    have he : accepted c.fd c.closeAfterReply call.payload =
        if c.closeAfterReply then [] else call.payload := by
      cases hc : c.closeAfterReply <;> simp [accepted, hfd]
    rw [he]
    exact hq

theorem accepted_append (fd : ℤ) (closing : Bool) (s t : Bytes) :
    accepted fd closing (s ++ t) = accepted fd closing s ++ accepted fd closing t := by
  unfold accepted
  split <;> rfl

theorem replyAll_spec (h : c.OutInv) (calls : List ReplyCall) :
    Appended (accepted c.fd c.closeAfterReply (calls.flatMap ReplyCall.payload)) c (replyAll c calls) := by
  induction calls generalizing c with
  | nil =>
    have hnil : accepted c.fd c.closeAfterReply [] = [] := by
      unfold accepted
      split <;> rfl
    rw [List.flatMap_nil, hnil]
    exact .refl h
  | cons call calls ih =>
    have ha := call.run_spec h
    have hq := ha.trans (ih ha.inv)
    rw [ha.fd, ha.close, ← accepted_append] at hq
    exact hq

end Append

section Write
variable {c : Client}

/-- Sending less than what is left of the front. -/
theorem sentPart_spec (h : c.OutInv) {n : ℕ} (hn : c.bufSentLen + n < (front c).length) :
    Client.OutInv { c with bufSentLen := c.bufSentLen + n } ∧
      (offered c).take n ++ unsent { c with bufSentLen := c.bufSentLen + n } = unsent c := by
  refine ⟨⟨h.buf_le, h.replied, .inr hn⟩, ?_⟩
  have ho : offered { c with bufSentLen := c.bufSentLen + n } = (offered c).drop n := by
    simp [offered, front]
  rw [unsent, unsent, ho, ← List.append_assoc, List.take_append_drop]
  rfl

theorem unsent_of_sent_zero (h : c.bufSentLen = 0) : unsent c = c.buf ++ c.reply.flatten := by
  rw [unsent, offered, h, List.drop_zero, front_append_behind]

/-- Sending some bytes of the front. -/
theorem sentSome_spec (h : c.OutInv) {n : ℕ} (hpos : 0 < n) (hn : n ≤ (offered c).length) :
    (sentSome c n).OutInv ∧ (offered c).take n ++ unsent (sentSome c n) = unsent c := by
  have hlen : (offered c).length = (front c).length - c.bufSentLen := by simp [offered]
  have hle := h.buf_le
  by_cases hb : c.buf.length > 0
  · have hf : front c = c.buf := by simp [front, hb]
    rw [hf] at hlen
    have hsize : protoReplyMaxLen = 16384 := rfl
    have hint : toInt32 ((c.bufSentLen + n : ℕ) : ℤ) = (c.bufSentLen + n : ℕ) :=
      toInt32_of_lt (by omega) (by omega)
    simp only [sentSome, hb, if_true, hint, Int.ofNat_inj]
    split_ifs with he
    · refine ⟨⟨by simp, h.replied, .inl rfl⟩, ?_⟩
      rw [unsent_of_sent_zero rfl, List.take_of_length_le (by omega), unsent, behind, if_pos hb]
      simp
    · exact sentPart_spec h (by rw [hf]; omega)
  · have hf : front c = c.reply.headD [] := by simp [front, hb]
    have hb0 : c.buf = [] := by simpa using hb
    rw [hf] at hlen
    simp only [sentSome, hb, if_false]
    split_ifs with he
    · obtain ⟨o, rest, hr⟩ : ∃ o rest, c.reply = o :: rest := by
        cases hr : c.reply with
        | nil =>
          rw [hr, List.headD_nil, List.length_nil] at hlen
          omega
        | cons o rest => exact ⟨o, rest, rfl⟩
      have hrep := h.replied
      rw [hr, List.map_cons, List.sum_cons] at hrep
      refine ⟨⟨by simp [hb0], ?_, .inl rfl⟩, ?_⟩
      · simp [hr, hrep]
      · rw [unsent_of_sent_zero rfl, List.take_of_length_le (by omega), unsent, behind, if_neg hb, hb0]
        simp
    · exact sentPart_spec h (by rw [hf]; omega)

@[simp] theorem sentSome_fd (c : Client) (n : ℕ) : (sentSome c n).fd = c.fd := by
  unfold sentSome
  dsimp only
  split_ifs <;> rfl

@[simp] theorem sentSome_close (c : Client) (n : ℕ) :
    (sentSome c n).closeAfterReply = c.closeAfterReply := by
  unfold sentSome
  dsimp only
  split_ifs <;> rfl

/-- Dropping an empty list head. -/
theorem dropHead_spec (h : c.OutInv) (hb : c.buf.length = 0) (hh : (c.reply.headD []).length = 0) :
    Client.OutInv { c with reply := c.reply.tail } ∧ unsent { c with reply := c.reply.tail } = unsent c := by
  have hf : front c = c.reply.headD [] := by simp [front, hb]
  have hs : c.bufSentLen = 0 := by
    rcases h.sent with hs | hs
    · exact hs
    · rw [hf] at hs
      omega
  refine ⟨⟨h.buf_le, ?_, .inl hs⟩, ?_⟩
  · rw [h.replied]
    cases hr : c.reply with
    | nil => rfl
    | cons o rest => simp_all
  · rw [unsent_of_sent_zero hs, unsent_of_sent_zero (c := { c with reply := c.reply.tail }) hs]
    cases hr : c.reply with
    | nil => rfl
    | cons o rest => simp_all

/-- `c'` is `c` after `bs` was taken from the front of its output. -/
structure Delivered (bs : Bytes) (c c' : Client) : Prop where
  inv : c'.OutInv
  fd : c'.fd = c.fd
  close : c'.closeAfterReply = c.closeAfterReply
  unsent : bs ++ unsent c' = unsent c

theorem Delivered.refl (h : c.OutInv) : Delivered [] c c := ⟨h, rfl, rfl, rfl⟩

theorem Delivered.trans {bs bs' : Bytes} {c₁ c₂ : Client} (h : Delivered bs c c₁)
    (h' : Delivered bs' c₁ c₂) : Delivered (bs ++ bs') c c₂ :=
  ⟨h'.inv, h'.fd.trans h.fd, h'.close.trans h.close, by rw [List.append_assoc, h'.unsent, h.unsent]⟩

theorem Delivered.sentSome (h : c.OutInv) {n : ℕ} (hn : ¬ min n (offered c).length = 0) :
    Delivered ((offered c).take (min n (offered c).length)) c
      (sentSome c (min n (offered c).length)) := by
  obtain ⟨hi, hu⟩ := sentSome_spec h (Nat.pos_of_ne_zero hn) (Nat.min_le_right _ _)
  exact ⟨hi, sentSome_fd _ _, sentSome_close _ _, hu⟩

theorem replyWriteLoop_spec (h : c.OutInv) (tot : ℕ) (outs : List WriteOutcome) :
    ∃ c' bs failed, replyWriteLoop c tot outs = (c', bs, failed) ∧ Delivered bs c c' ∧
      (failed → .fail ∈ outs) := by
  fun_induction replyWriteLoop c tot outs with
  | case1 c tot outs hp => exact ⟨c, [], false, rfl, .refl h, by simp⟩
  | case2 c tot outs hp he ih =>
    obtain ⟨hi, hu⟩ := dropHead_spec h he.1 he.2.1
    obtain ⟨c', bs, failed, hr, hd, hf⟩ := ih hi
    exact ⟨c', bs, failed, hr, ⟨hd.inv, hd.fd, hd.close, hd.unsent.trans hu⟩, hf⟩
  | case3 c tot hp he => exact ⟨c, [], false, rfl, .refl h, by simp⟩
  | case4 c tot hp he outs => exact ⟨c, [], false, rfl, .refl h, by simp⟩
  | case5 c tot hp he outs => exact ⟨c, [], true, rfl, .refl h, by simp⟩
  | case6 c tot hp he n under outs nw h0 => exact ⟨c, [], false, rfl, .refl h, by simp⟩
  | case7 c tot hp he n under outs nw h0 hmax => exact ⟨_, _, false, rfl, .sentSome h h0, by simp⟩
  | case8 c tot hp he n under outs nw h0 hmax c₁ bs₁ failed₁ hl ih =>
    have hd₁ : Delivered ((offered c).take nw) c (RhinoRox.sentSome c nw) := .sentSome h h0
    obtain ⟨c', bs, failed, hr, hd, hf⟩ := ih hd₁.inv
    rw [hl] at hr
    obtain ⟨rfl, rfl, rfl⟩ : _ ∧ _ ∧ _ := by simpa using hr
    exact ⟨c₁, _, failed₁, rfl, hd₁.trans hd, fun hft => List.mem_cons_of_mem _ (hf hft)⟩

/-- A write leaves the client with the rest of its output, or frees it: when a write fails,
or once it is closing and everything was sent. -/
theorem replyWriteToClient_spec (h : c.OutInv) (handlerInstalled : Bool) (outs : List WriteOutcome) :
    (∃ c', (replyWriteToClient c handlerInstalled outs).client = some c' ∧
      Delivered (replyWriteToClient c handlerInstalled outs).sent c c') ∨
    ((replyWriteToClient c handlerInstalled outs).client = none ∧
      (replyWriteToClient c handlerInstalled outs).sent <+: unsent c ∧
      (.fail ∈ outs ∨ c.closeAfterReply ∧ (replyWriteToClient c handlerInstalled outs).sent = unsent c)) := by
  obtain ⟨c', bs, failed, hr, hd, hf⟩ := replyWriteLoop_spec h 0 outs
  have hpre : bs <+: unsent c := ⟨_, hd.unsent⟩
  simp only [replyWriteToClient, hr]
  cases failed with
  | true => exact .inr ⟨rfl, hpre, .inl (hf rfl)⟩
  | false =>
    simp only [Bool.false_eq_true, if_false]
    by_cases hp : clientHasPendingReplies c'
    · exact .inl ⟨c', by simp [hp], by simpa [hp] using hd⟩
    · obtain ⟨hb, hl⟩ : c'.buf = [] ∧ c'.reply = [] := by simpa [clientHasPendingReplies] using hp
      have hu : ∀ n, unsent { c' with bufSentLen := n } = [] := by
        intro n
        simp [unsent, offered, front, behind, hb, hl]
      have hs : bs = unsent c := by
        rw [← hd.unsent, hu c'.bufSentLen, List.append_nil]
      by_cases hc : c'.closeAfterReply
      · exact .inr ⟨by simp [hp, hc], by simpa [hp, hc] using hpre,
          .inr ⟨hd.close ▸ hc, by simp [hp, hc, hs]⟩⟩
      · refine .inl ⟨{ c' with bufSentLen := 0 }, by simp [hp, hc], ?_⟩
        have hi : Client.OutInv { c' with bufSentLen := 0 } := ⟨hd.inv.buf_le, hd.inv.replied, .inl rfl⟩
        simpa [hp, hc] using (⟨hi, hd.fd, hd.close, by rw [hu, hs, List.append_nil]⟩ :
          Delivered bs c { c' with bufSentLen := 0 })

end Write

/-- What happens to the output of a client: a reply call, a write, and the moment the
request side decides to close. -/
inductive ReplyOp where
  | add (call : ReplyCall)
  | write (handlerInstalled : Bool) (outs : List WriteOutcome)
  | close

/-- A client, unless freed, with the bytes its socket has accepted. -/
structure Connection where
  client : Option Client
  sent : Bytes

def ReplyOp.run (s : Connection) (op : ReplyOp) : Connection :=
  match s.client with
  | none => s
  | some c =>
    match op with
    | .add call => { s with client := some (call.run c) }
    | .write handlerInstalled outs =>
      let r := replyWriteToClient c handlerInstalled outs
      ⟨r.client, s.sent ++ r.sent⟩
    | .close => { s with client := some { c with closeAfterReply := true } }

def runReplies (s : Connection) (ops : List ReplyOp) : Connection := ops.foldl ReplyOp.run s

/-- The payloads appended while the client was not closing. -/
def acceptedAll (fd : ℤ) (closing : Bool) : List ReplyOp → Bytes
  | [] => []
  | .add call :: ops => accepted fd closing call.payload ++ acceptedAll fd closing ops
  | .write _ _ :: ops => acceptedAll fd closing ops
  | .close :: ops => acceptedAll fd true ops

/-- The bytes still queued on a connection. -/
def Connection.unsent (s : Connection) : Bytes := (s.client.map RhinoRox.unsent).getD []

/-- No write of the operation fails with an error other than `EAGAIN`. -/
def ReplyOp.noFailure : ReplyOp → Prop
  | .write _ outs => .fail ∉ outs
  | _ => True

theorem acceptedAll_closing (fd : ℤ) (ops : List ReplyOp) : acceptedAll fd true ops = [] := by
  induction ops with
  | nil => rfl
  | cons op ops ih => cases op <;> simp [acceptedAll, accepted, ih]

theorem runReplies_freed (sent : Bytes) (ops : List ReplyOp) : runReplies ⟨none, sent⟩ ops = ⟨none, sent⟩ := by
  induction ops with
  | nil => rfl
  | cons op ops ih => exact ih

/-- Whatever happens to the output of a client, it stays in order. -/
theorem runReplies_outInv {c : Client} (h : c.OutInv) {sent : Bytes} {ops : List ReplyOp} {c' : Client}
    (run : (runReplies ⟨some c, sent⟩ ops).client = some c') : c'.OutInv ∧ c'.fd = c.fd := by
  induction ops generalizing c sent with
  | nil =>
    obtain rfl := Option.some.inj run
    exact ⟨h, rfl⟩
  | cons op ops ih =>
    cases op with
    | add call =>
      have ha := call.run_spec h
      obtain ⟨hi, hfd⟩ := ih ha.inv run
      exact ⟨hi, hfd.trans ha.fd⟩
    | write handlerInstalled outs =>
      have hrun : runReplies ⟨some c, sent⟩ (.write handlerInstalled outs :: ops) =
          runReplies ⟨(replyWriteToClient c handlerInstalled outs).client,
            sent ++ (replyWriteToClient c handlerInstalled outs).sent⟩ ops := rfl
      rw [hrun] at run
      rcases replyWriteToClient_spec h handlerInstalled outs with ⟨c₁, hc, hd⟩ | ⟨hc, -⟩
      · rw [hc] at run
        obtain ⟨hi, hfd⟩ := ih hd.inv run
        exact ⟨hi, hfd.trans hd.fd⟩
      · rw [hc, runReplies_freed] at run
        cases run
    | close =>
      obtain ⟨hi, hfd⟩ := ih (c := { c with closeAfterReply := true }) ⟨h.buf_le, h.replied, h.sent⟩ run
      exact ⟨hi, hfd⟩

theorem runReplies_spec {c : Client} (h : c.OutInv) (sent : Bytes) (ops : List ReplyOp)
    (ho : ∀ op ∈ ops, op.noFailure) :
    (runReplies ⟨some c, sent⟩ ops).sent ++ (runReplies ⟨some c, sent⟩ ops).unsent =
        sent ++ unsent c ++ acceptedAll c.fd c.closeAfterReply ops ∧
      ∀ c', (runReplies ⟨some c, sent⟩ ops).client = some c' → c'.OutInv := by
  induction ops generalizing c sent with
  | nil => simpa [runReplies, Connection.unsent, acceptedAll] using h
  | cons op ops ih =>
    have ho' : ∀ op ∈ ops, op.noFailure := fun op hm => ho op (List.mem_cons_of_mem _ hm)
    cases op with
    | add call =>
      have ha := call.run_spec h
      obtain ⟨he, hi⟩ := ih ha.inv sent ho'
      have hrun : runReplies ⟨some c, sent⟩ (.add call :: ops) = runReplies ⟨some (call.run c), sent⟩ ops := rfl
      rw [ha.fd, ha.close, ha.unsent] at he
      rw [hrun]
      exact ⟨by simpa [acceptedAll] using he, hi⟩
    | write handlerInstalled outs =>
      have hf : .fail ∉ outs := ho (.write handlerInstalled outs) List.mem_cons_self
      rcases replyWriteToClient_spec h handlerInstalled outs with ⟨c', hc, hd⟩ | ⟨hc, -, hend⟩
      · obtain ⟨he, hi⟩ := ih hd.inv (sent ++ (replyWriteToClient c handlerInstalled outs).sent) ho'
        rw [hd.fd, hd.close, List.append_assoc sent, hd.unsent] at he
        have hrun : runReplies ⟨some c, sent⟩ (.write handlerInstalled outs :: ops) =
            runReplies ⟨some c', sent ++ (replyWriteToClient c handlerInstalled outs).sent⟩ ops := by
          simp [runReplies, ReplyOp.run, hc]
        rw [hrun]
        exact ⟨he, hi⟩
      · obtain ⟨hcl, hs⟩ := hend.resolve_left hf
        have hrun : runReplies ⟨some c, sent⟩ (.write handlerInstalled outs :: ops) =
            ⟨none, sent ++ unsent c⟩ := by
          rw [← hs, ← runReplies_freed _ ops]
          simp [runReplies, ReplyOp.run, hc]
        rw [hrun, acceptedAll, hcl, acceptedAll_closing]
        exact ⟨by simp [Connection.unsent], by simp⟩
    | close =>
      have hi' : Client.OutInv { c with closeAfterReply := true } := ⟨h.buf_le, h.replied, h.sent⟩
      obtain ⟨he, hi⟩ := ih hi' sent ho'
      exact ⟨he, hi⟩

/-- In every interleaving of appends and writes on a fresh client, sent and queued bytes
together are the accepted payloads in order, the static buffer is never overrun and
`replied_len` is the length of the reply list. -/
theorem reply_stream_exact (fd : ℤ) (ops : List ReplyOp) (ho : ∀ op ∈ ops, op.noFailure) :
    (runReplies ⟨some (rrClientCreate fd), []⟩ ops).sent ++
        (runReplies ⟨some (rrClientCreate fd), []⟩ ops).unsent = acceptedAll fd false ops ∧
      ∀ c, (runReplies ⟨some (rrClientCreate fd), []⟩ ops).client = some c →
        c.buf.length ≤ protoReplyMaxLen ∧ c.repliedLen = (c.reply.map List.length).sum := by
  obtain ⟨he, hi⟩ := runReplies_spec (rrClientCreate_outInv fd) [] ops ho
  exact ⟨he, fun c hc => ⟨(hi c hc).buf_le, (hi c hc).replied⟩⟩

theorem reply_stream_exact_partial_write :
    (∀ op ∈ [ReplyOp.add (.str [1, 2, 3]), .write false [.wrote 2 true, .again], .add (.sds [4])], op.noFailure) ∧
      (runReplies ⟨some (rrClientCreate 5), []⟩
          [.add (.str [1, 2, 3]), .write false [.wrote 2 true, .again], .add (.sds [4])]).sent ++
        (runReplies ⟨some (rrClientCreate 5), []⟩
          [.add (.str [1, 2, 3]), .write false [.wrote 2 true, .again], .add (.sds [4])]).unsent =
      [1, 2, 3, 4] := by
  have ho : ∀ op ∈ [ReplyOp.add (.str [1, 2, 3]), .write false [.wrote 2 true, .again], .add (.sds [4])],
      op.noFailure := by simp [ReplyOp.noFailure]
  exact ⟨ho, (reply_stream_exact 5 _ ho).1⟩

end RhinoRox
