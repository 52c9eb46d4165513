import RhinoRox.InlineRequests
import RhinoRox.ReplyValues

/-!
# Protocol errors

An error of the parser is reported and the client marked as closing in the same call, by
every exit but one: the report of an inline request that is too big leaves the client open.
Without that exit a connection reports at most one error, and nothing follows it.
-/

namespace RhinoRox

/-! ## The exits of the parsers -/

/-- The output side is untouched. -/
def SameOutput (c c' : Client) : Prop := ∀ d, c'.withInput d = c.withInput d

namespace SameOutput
variable {c c' c'' : Client}

theorem refl (c : Client) : SameOutput c c := fun _ => rfl

theorem trans (h : SameOutput c c') (h' : SameOutput c' c'') : SameOutput c c'' :=
  fun d => (h' d).trans (h d)

theorem close (h : SameOutput c c') : c'.closeAfterReply = c.closeAfterReply := by
  change (c'.withInput c).closeAfterReply = (c.withInput c).closeAfterReply
  rw [h c]

theorem unsent (h : SameOutput c c') : unsent c' = unsent c := by
  change RhinoRox.unsent (c'.withInput c) = RhinoRox.unsent (c.withInput c)
  rw [h c]

theorem outInv (h : SameOutput c c') (hi : c.OutInv) : c'.OutInv := by
  have hw : (c.withInput c).OutInv := ⟨hi.buf_le, hi.replied, hi.sent⟩
  rw [← h c] at hw
  exact ⟨hw.buf_le, hw.replied, hw.sent⟩

end SameOutput

/-- The calls that report an error of the protocol. -/
def protocolErrorCalls (text : Bytes) : List ReplyCall := replyAddErrLen (ascii "Protocol error: " ++ text)

/-- The report is sent and the client closing. -/
def Failed (c c' : Client) : Prop :=
  ∃ c₁ text pos, SameOutput c c₁ ∧ OneLine text ∧ c' = protocolError c₁ (protocolErrorCalls text) pos

/-- The one exit that reports without closing. -/
def TooBigInline (c : Client) : Prop :=
  c.reqType = .inline ∧ strchr c.query 10 = none ∧ protoInlineMaxLen < c.query.length

theorem Failed.of_sameOutput {c c₁ c' : Client} (h : SameOutput c c₁) (hf : Failed c₁ c') : Failed c c' := by
  obtain ⟨c₂, text, pos, hs, ht, he⟩ := hf
  exact ⟨c₂, text, pos, h.trans hs, ht, he⟩

theorem Failed.of_text (c : Client) (text : String) (pos : ℕ) (h : OneLine (ascii text))
    (hcut : replyAddErr (ascii ("Protocol error: " ++ text)) = protocolErrorCalls (ascii text)) :
    Failed c (protocolError c (replyAddErr (ascii ("Protocol error: " ++ text))) pos) :=
  ⟨c, ascii text, pos, .refl c, h, by rw [hcut]⟩

theorem Failed.of_format (c : Client) (b : UInt8) (pos : ℕ) :
    Failed c (protocolError c
      (replyAddErrFormat (ascii "Protocol error: expected '$', got '" ++ [b] ++ ascii "'")) pos) := by
  have hsplit : ascii "Protocol error: expected '$', got '" =
      ascii "Protocol error: " ++ ascii "expected '$', got '" := by decide
  have hkeep : (ascii "Protocol error: ").map (fun b => if b = 13 ∨ b = 10 then 32 else b) =
      ascii "Protocol error: " := by decide
  refine ⟨c, _, pos, .refl c, oneLine_map (ascii "expected '$', got '" ++ [b] ++ ascii "'"), ?_⟩
  rw [protocolErrorCalls, replyAddErrFormat, hsplit, List.append_assoc, List.append_assoc, List.map_append, hkeep,
    List.append_assoc]

/-- What one turn of the loop over the arguments does to the output side. -/
def BulkStep.Exits (c : Client) : BulkStep → Prop
  | .ret st c' => st = .error ∧ Failed c c'
  | .stop c' _ | .next c' _ => SameOutput c c'

theorem readBulkLen_exits (c : Client) (pos : ℕ) : (readBulkLen c pos).Exits c := by
  rw [readBulkLen]
  by_cases hlen : c.bulkLen = -1
  · rw [if_pos hlen]
    cases strchr (c.query.drop pos) 13 with
    | none =>
      dsimp only
      split_ifs
      · exact ⟨rfl, .of_text c "too big bulk count string" 0 (by decide) (by decide)⟩
      · exact SameOutput.refl c
    | some offset =>
      dsimp only
      split_ifs
      · exact SameOutput.refl c
      · exact ⟨rfl, .of_format c _ pos⟩
      · cases string2llLen (c.query.drop (pos + 1)) (subSize offset 1) with
        | none => exact ⟨rfl, .of_text c "invalid bulk length" pos (by decide) (by decide)⟩
        | some ll =>
          dsimp only
          split_ifs
          · exact ⟨rfl, .of_text c "invalid bulk length" pos (by decide) (by decide)⟩
          · exact fun _ => rfl
          · exact fun _ => rfl
  · rw [if_neg hlen]
    exact SameOutput.refl c

theorem readBulkArg_exits {c : Client} {pos : ℕ} {r : BulkStep} (h : readBulkArg c pos = .ok r) : r.Exits c := by
  have hpush : ∀ {o c'}, pushArg c o = .ok c' → c' = { c with argv := c.argv ++ [o] } := by
    intro o c' hp
    unfold pushArg at hp
    split_ifs at hp
    exact (Except.ok.inj hp).symm
  unfold readBulkArg at h
  split_ifs at h
  · cases h
    exact SameOutput.refl c
  · obtain ⟨c₁, hp, h⟩ := Exec.bind_eq_ok.mp h
    cases h
    rw [hpush hp]
    exact fun _ => rfl
  · obtain ⟨c₁, hp, h⟩ := Exec.bind_eq_ok.mp h
    cases h
    rw [hpush hp]
    exact fun _ => rfl

theorem BulkStep.Exits.of_sameOutput {c c₁ : Client} {r : BulkStep} (h : SameOutput c c₁) (hr : r.Exits c₁) :
    r.Exits c := by
  cases r with
  | ret st c' => exact ⟨hr.1, hr.2.of_sameOutput h⟩
  | stop c' pos => exact h.trans hr
  | next c' pos => exact h.trans hr

theorem bulkStep_exits {c : Client} {pos : ℕ} {r : BulkStep} (h : bulkStep c pos = .ok r) : r.Exits c := by
  have hlen := readBulkLen_exits c pos
  unfold bulkStep at h
  split_ifs at h
  cases hr : readBulkLen c pos with
  | ret st c' =>
    rw [hr] at h hlen
    cases h
    exact hlen
  | stop c' pos' =>
    rw [hr] at h hlen
    cases h
    exact hlen
  | next c' pos' =>
    rw [hr] at h hlen
    exact (readBulkArg_exits h).of_sameOutput hlen

/-- A part of `process_multi_bulk_input` fails or leaves the output side alone. -/
def Flow.Exits (c : Client) : Flow (Client × ℕ) → Prop
  | .ret st c' => SameOutput c c' ∨ st = .error ∧ Failed c c'
  | .go (c', _) => SameOutput c c'

theorem Flow.Exits.of_sameOutput {c c₁ : Client} {r : Flow (Client × ℕ)} (h : SameOutput c c₁) (hr : r.Exits c₁) :
    r.Exits c := by
  cases r with
  | ret st c' => exact hr.imp h.trans (fun hf => ⟨hf.1, hf.2.of_sameOutput h⟩)
  | go b => exact h.trans hr

theorem bulkLoop_exits {n : ℕ} {c : Client} {pos : ℕ} {r : Flow (Client × ℕ)} (h : bulkLoop n c pos = .ok r) :
    r.Exits c := by
  induction n generalizing c pos with
  | zero =>
    cases h
    exact SameOutput.refl c
  | succ n ih =>
    obtain ⟨step, hstep, h⟩ := Exec.bind_eq_ok.mp h
    have hx := bulkStep_exits hstep
    cases step with
    | ret st c' =>
      cases h
      exact .inr hx
    | stop c' pos' =>
      cases h
      exact hx
    | next c' pos' => exact (ih h).of_sameOutput hx

theorem multiBulkHeader_exits {c : Client} {r : Flow (Client × ℕ)} (h : multiBulkHeader c = .ok r) : r.Exits c := by
  unfold multiBulkHeader at h
  by_cases hm : c.multibulkLen = 0
  · rw [if_pos hm] at h
    by_cases hargv : c.argv.length ≠ 0
    · rw [if_pos hargv] at h
      cases h
    rw [if_neg hargv] at h
    cases hs : strchr c.query 13 with
    | none =>
      rw [hs] at h
      dsimp only at h
      split_ifs at h
      · cases h
        exact .inr ⟨rfl, .of_text c "too big mbulk count string" 0 (by decide) (by decide)⟩
      · cases h
        exact .inl (.refl c)
    | some newline =>
      rw [hs] at h
      dsimp only at h
      split_ifs at h
      · cases h
        exact .inl (.refl c)
      · have hbad : Failed c (protocolError c (replyAddErr (ascii "Protocol error: invalid multibulk length")) 0) :=
          .of_text c "invalid multibulk length" 0 (by decide) (by decide)
        cases hll : string2llLen (c.query.drop 1) (subSize newline 1) with
        | none =>
          rw [hll] at h
          cases h
          exact .inr ⟨rfl, hbad⟩
        | some ll =>
          rw [hll] at h
          dsimp only at h
          split_ifs at h
          · cases h
            exact .inr ⟨rfl, hbad⟩
          · cases h
            exact .inl fun _ => rfl
          · cases h
            exact fun _ => rfl
  · rw [if_neg hm] at h
    cases h
    exact SameOutput.refl c

theorem processMultiBulkInput_exits {c c' : Client} {st : Status} (h : processMultiBulkInput c = .ok (st, c')) :
    SameOutput c c' ∨ st = .error ∧ Failed c c' := by
  obtain ⟨r₁, h₁, h⟩ := Exec.bind_eq_ok.mp h
  have hx₁ := multiBulkHeader_exits h₁
  cases r₁ with
  | ret st₁ c₁ =>
    cases h
    exact hx₁
  | go b =>
    obtain ⟨c₁, pos₁⟩ := b
    obtain ⟨r₂, h₂, h⟩ := Exec.bind_eq_ok.mp h
    have hx₂ := (bulkLoop_exits h₂).of_sameOutput hx₁
    cases r₂ with
    | ret st₂ c₂ =>
      cases h
      exact hx₂
    | go b =>
      obtain ⟨c₂, pos₂⟩ := b
      cases h
      refine .inl (SameOutput.trans hx₂ ?_)
      split_ifs <;> exact fun _ => rfl

/-- The exits of the inline parser, the one that does not close among them. -/
theorem processInlineInput_exits {c c' : Client} {st : Status} (ht : c.reqType = .inline)
    (h : processInlineInput c = (st, c')) :
    SameOutput c c' ∨ (st = .error ∧ Failed c c') ∨
      (st = .error ∧ TooBigInline c ∧ c' = replyAll c (protocolErrorCalls (ascii "too big inline request"))) := by
  unfold processInlineInput at h
  cases hs : strchr c.query 10 with
  | none =>
    rw [hs] at h
    dsimp only at h
    split_ifs at h with hbig
    · obtain ⟨rfl, rfl⟩ := Prod.mk.inj h
      have hcut : replyAddErr (ascii "Protocol error: too big inline request") =
          protocolErrorCalls (ascii "too big inline request") := by decide
      exact .inr (.inr ⟨rfl, ⟨ht, hs, hbig⟩, by rw [hcut]⟩)
    · obtain ⟨rfl, rfl⟩ := Prod.mk.inj h
      exact .inl (.refl c)
  | some newline =>
    rw [hs] at h
    dsimp only at h
    split at h
    · obtain ⟨rfl, rfl⟩ := Prod.mk.inj h
      exact .inr (.inl ⟨rfl, .of_text c "unbalanced quotes in request" 0 (by decide) (by decide)⟩)
    · obtain ⟨rfl, rfl⟩ := Prod.mk.inj h
      exact .inl fun _ => rfl

theorem processInput_exits {c c' : Client} {st : Status} (h : processInput c = .ok (st, c')) :
    SameOutput c c' ∨ (st = .error ∧ Failed c c') ∨
      (st = .error ∧ TooBigInline c ∧ c' = replyAll c (protocolErrorCalls (ascii "too big inline request"))) := by
  unfold processInput at h
  cases ht : c.reqType with
  | unset =>
    rw [ht] at h
    cases h
  | multibulk =>
    rw [ht] at h
    exact (processMultiBulkInput_exits h).imp_right .inl
  | inline =>
    rw [ht] at h
    exact processInlineInput_exits ht (Except.ok.inj h)

/-! ## Turns of the loop -/

/-- A turn of the loop of `process_user_input`: the client that the parser was given, what it
made of it, and the client after the command, if one was read. `sent` is what the socket had
accepted until then. -/
structure Turn where
  sent : Bytes
  head : Client
  status : Status
  parsed : Client
  after : Client

namespace Turn

/-- The parser added to the output. -/
def reports (t : Turn) : Bool := unsent t.parsed ≠ unsent t.head

/-- The command is QUIT. -/
def quits (t : Turn) : Bool := t.status = .ok && isQuit (t.parsed.argv.map StrEnc.bytes)

/-- The parser closed the client, and what it added is one error line. -/
def Closes (t : Turn) : Prop :=
  t.parsed.closeAfterReply = true ∧ ∃ text, OneLine text ∧
    unsent t.parsed = unsent t.head ++ (ascii "-ERR Protocol error: " ++ text ++ ascii "\r\n")

/-- The turn after which nothing may follow. -/
def Ends (t : Turn) : Prop := t.quits ∨ t.reports ∧ ¬ TooBigInline t.head

end Turn

theorem Failed.spec {c c' : Client} (h : Failed c c') (hi : c.OutInv) (ho : c.closeAfterReply = false) :
    c'.OutInv ∧ c'.closeAfterReply = true ∧ ∃ text, OneLine text ∧
      unsent c' = unsent c ++ accepted c'.fd false (ascii "-ERR Protocol error: " ++ text ++ ascii "\r\n") := by
  obtain ⟨c₁, text, pos, hs, ht, rfl⟩ := h
  have ha := replyAll_spec (hs.outInv hi) (protocolErrorCalls text)
  refine ⟨⟨ha.inv.buf_le, ha.inv.replied, ha.inv.sent⟩, rfl, text, ht, ?_⟩
  have hsplit : ascii "-ERR Protocol error: " = ascii "-ERR " ++ ascii "Protocol error: " := by decide
  have hpay : (protocolErrorCalls text).flatMap ReplyCall.payload =
      ascii "-ERR Protocol error: " ++ text ++ ascii "\r\n" := by
    rw [hsplit]
    simp [protocolErrorCalls, replyAddErrLen, ReplyCall.payload]
  have hfd : (protocolError c₁ (protocolErrorCalls text) pos).fd = c₁.fd := ha.fd
  calc unsent (protocolError c₁ (protocolErrorCalls text) pos)
      = unsent (replyAll c₁ (protocolErrorCalls text)) := rfl
    _ = unsent c ++ accepted c₁.fd false (ascii "-ERR Protocol error: " ++ text ++ ascii "\r\n") := by
        rw [ha.unsent, hs.unsent, hs.close, ho, hpay]
    _ = _ := by rw [hfd]

/-- A parser call adds to the output only when it fails, and then closes the client unless
it reports a too big inline request. -/
theorem processInput_reports {c c' : Client} {st : Status} (h : processInput c = .ok (st, c')) (hi : c.OutInv)
    (ho : c.closeAfterReply = false) (sent : Bytes) :
    c'.OutInv ∧ (unsent c' ≠ unsent c → st = .error ∧ (¬ TooBigInline c → Turn.Closes ⟨sent, c, st, c', c'⟩)) := by
  rcases processInput_exits h with hs | ⟨rfl, hf⟩ | ⟨rfl, hbig, rfl⟩
  · exact ⟨hs.outInv hi, fun hne => absurd hs.unsent hne⟩
  · obtain ⟨hi', hclose, text, htext, hu⟩ := hf.spec hi ho
    refine ⟨hi', fun hne => ⟨rfl, fun _ => ⟨hclose, text, htext, ?_⟩⟩⟩
    by_cases hfd : 0 < c'.fd
    · rw [hu, accepted, if_pos ⟨hfd, by simp⟩]
    · rw [accepted, if_neg (fun hpos => hfd hpos.1), List.append_nil] at hu
      exact absurd hu hne
  · exact ⟨(replyAll_spec hi _).inv, fun _ => ⟨rfl, fun hsmall => absurd hbig hsmall⟩⟩

section Session
variable {σ : Type} (exec : σ → List StrEnc → σ × List ReplyCall)

theorem executeRequest_output (s : σ) {c : Client} (hi : c.OutInv) :
    (executeRequest (cmdProcess exec) s c).2.OutInv ∧
      (isQuit (c.argv.map StrEnc.bytes) → (executeRequest (cmdProcess exec) s c).2.closeAfterReply = true) := by
  by_cases hargv : c.argv.length = 0
  · have hnil : c.argv = [] := List.length_eq_zero_iff.mp hargv
    rw [executeRequest, if_pos hargv, hnil]
    refine ⟨⟨hi.buf_le, hi.replied, hi.sent⟩, fun hq => ?_⟩
    exact absurd hq (by decide)
  by_cases hquit : strcaseEq ((c.argv.map StrEnc.bytes).headD []) (ascii "quit")
  · have ha := replyAll_spec hi [.obj Shared.ok]
    rw [executeRequest_quit exec s hargv hquit]
    exact ⟨⟨ha.inv.buf_le, ha.inv.replied, ha.inv.sent⟩, fun _ => rfl⟩
  · have ha := replyAll_spec hi (exec s c.argv).2
    rw [executeRequest_exec exec s hargv hquit]
    exact ⟨⟨ha.inv.buf_le, ha.inv.replied, ha.inv.sent⟩, fun hq => absurd hq hquit⟩

/-- The turns that `process_user_input` makes. -/
def userTurns (sent : Bytes) : ℕ → σ → Client → List Turn
  | 0, _, _ => []
  | fuel + 1, s, c =>
    if c.query.length = 0 ∨ c.closeAfterReply then []
    else
      match processInput (setReqType c) with
      | .error _ => []
      | .ok (.error, c') => [⟨sent, setReqType c, .error, c', c'⟩]
      | .ok (.ok, c') =>
        let r := executeRequest (cmdProcess exec) s c'
        ⟨sent, setReqType c, .ok, c', r.2⟩ :: userTurns sent fuel r.1 r.2

/-- Every report closes, and a turn that ends the connection is the last one: the client is
as that turn left it. -/
structure TurnsOk (sent : Bytes) (ts : List Turn) (c : Client) : Prop where
  sent : ∀ t ∈ ts, t.sent = sent
  closes : ∀ t ∈ ts, ¬ TooBigInline t.head → t.reports → t.Closes
  last : ∀ pre t post, ts = pre ++ t :: post → t.Ends → post = [] ∧ c.closeAfterReply = true ∧ unsent c = unsent t.after

theorem TurnsOk.nil (sent : Bytes) (c : Client) : TurnsOk sent [] c :=
  ⟨by simp, by simp, by simp⟩

theorem userTurns_closing (sent : Bytes) (fuel : ℕ) (s : σ) {c : Client} (h : c.closeAfterReply = true) :
    userTurns exec sent fuel s c = [] := by
  cases fuel with
  | zero => rfl
  | succ fuel => rw [userTurns, if_pos (.inr h)]

theorem processUserInput_closing {fuel : ℕ} (s : σ) {c : Client} (hf : c.query.length < fuel)
    (h : c.closeAfterReply = true) : processUserInput (cmdProcess exec) fuel s c = .ok (s, c) := by
  cases fuel with
  | zero => omega
  | succ fuel =>
    have hstep : userStep (cmdProcess exec) s c = .ok (.stop s c) := by
      unfold userStep
      split_ifs <;> rfl
    rw [processUserInput, hstep]
    rfl

theorem processUserInput_turns (sent : Bytes) {fuel : ℕ} (s : σ) {c : Client} (h : c.LoopInv) (hi : c.OutInv)
    (hf : c.query.length < fuel) :
    ∃ s' c', processUserInput (cmdProcess exec) fuel s c = .ok (s', c') ∧ c'.IdleInv ∧ c'.OutInv ∧
      TurnsOk sent (userTurns exec sent fuel s c) c' := by
  induction fuel generalizing s c with
  | zero => omega
  | succ fuel ih =>
    by_cases hq : c.query.length = 0
    · refine ⟨s, c, ?_, h.idleInv (.inl hq), hi, ?_⟩
      · rw [processUserInput, userStep, if_pos hq]
        rfl
      · rw [userTurns, if_pos (.inl hq)]
        exact .nil sent c
    by_cases hc : c.closeAfterReply = true
    · refine ⟨s, c, processUserInput_closing exec s hf hc, h.idleInv (.inr (.inl hc)), hi, ?_⟩
      rw [userTurns_closing exec sent _ s hc]
      exact .nil sent c
    have ho : (setReqType c).closeAfterReply = false := by simpa using hc
    have hi₁ : (setReqType c).OutInv := by
      unfold setReqType
      split
      · exact ⟨hi.buf_le, hi.replied, hi.sent⟩
      · exact hi
    rw [processUserInput, userStep, if_neg hq, if_neg hc, userTurns, if_neg (by simp [hq, hc])]
    rcases processInput_spec h (Nat.pos_of_ne_zero hq) hc with ⟨c₁, hr, hidle⟩ | ⟨c₁, hr, hd⟩
    · obtain ⟨hout, hrep⟩ := processInput_reports hr hi₁ ho sent
      have hcl : ¬ TooBigInline (setReqType c) → (⟨sent, setReqType c, .error, c₁, c₁⟩ : Turn).reports →
          (⟨sent, setReqType c, .error, c₁, c₁⟩ : Turn).Closes :=
        fun hsmall ht => (hrep (by simpa [Turn.reports] using ht)).2 hsmall
      rw [hr]
      refine ⟨s, c₁, rfl, hidle, hout, ⟨by simp, by simpa using hcl, ?_⟩⟩
      intro pre t post he hend
      obtain ⟨rfl, rfl, rfl⟩ : pre = [] ∧ t = ⟨sent, setReqType c, .error, c₁, c₁⟩ ∧ post = [] := by
        cases pre with
        | nil =>
          obtain ⟨h₁, h₂⟩ := List.cons.inj he
          exact ⟨rfl, h₁.symm, h₂.symm⟩
        | cons a pre =>
          have := congrArg List.length he
          simp at this
      rcases hend with hquit | ⟨ht, hsmall⟩
      · simp [Turn.quits] at hquit
      · exact ⟨rfl, (hcl hsmall ht).1, rfl⟩
    · obtain ⟨hout, hrep⟩ := processInput_reports hr hi₁ ho sent
      obtain ⟨hl, hlt⟩ := executeRequest_spec exec s (setReqType_loopInv h) hd
      rw [setReqType_query] at hlt
      obtain ⟨hout₂, hquit₂⟩ := executeRequest_output exec s hout
      obtain ⟨s', c', hrun, hidle, hout', hok⟩ :=
        ih (executeRequest (cmdProcess exec) s c₁).1 hl hout₂ (by omega)
      have hsilent : ¬ (⟨sent, setReqType c, .ok, c₁, (executeRequest (cmdProcess exec) s c₁).2⟩ : Turn).reports :=
        fun ht => by simpa using (hrep (by simpa [Turn.reports] using ht)).1
      rw [hr]
      refine ⟨s', c', hrun, hidle, hout', ⟨?_, ?_, ?_⟩⟩
      · simpa using hok.sent
      · intro t hm
        rcases List.mem_cons.mp hm with rfl | hm
        · exact fun _ ht => absurd ht hsilent
        · exact hok.closes t hm
      · intro pre t post he hend
        cases pre with
        | cons a pre => exact hok.last pre t post (List.cons.inj he).2 hend
        | nil =>
          obtain ⟨rfl, hpost⟩ := List.cons.inj he
          rcases hend with hquit | ⟨ht, -⟩
          · have hclosed := hquit₂ (by simpa [Turn.quits] using hquit)
            rw [processUserInput_closing exec _ (by omega) hclosed] at hrun
            obtain ⟨-, rfl⟩ := Prod.mk.inj (Except.ok.inj hrun)
            exact ⟨by rw [← hpost, userTurns_closing exec sent fuel _ hclosed], hclosed, rfl⟩
          · exact absurd ht hsilent

/-- The turns of one read. -/
def readTurns (sent : Bytes) (s : σ) (c : Client) : ReadOutcome → List Turn
  | .data bs =>
    if bs.length = 0 ∨ protoQueryMaxLen < (received c bs).query.length then []
    else userTurns exec sent ((received c bs).query.length + 1) s (received c bs)
  | _ => []

/-- A connection: the state behind the commands, the client unless freed, what its socket has
accepted, and every turn made so far. -/
structure Session (σ : Type) where
  state : σ
  client : Option Client
  sent : Bytes
  turns : List Turn

def Session.start (s : σ) (fd : ℤ) : Session σ := ⟨s, some (rrClientCreate fd), [], []⟩

/-- What can happen to a connection: a read, a write, its flag for pending writes cleared, and
commands of other clients. -/
inductive SessionOp (σ : Type) where
  | read (out : ReadOutcome)
  | write (handlerInstalled : Bool) (outs : List WriteOutcome)
  | written
  | others (s : σ)

def Session.step (s : Session σ) : SessionOp σ → Exec (Session σ)
  | .others st => pure { s with state := st }
  | .read out =>
    match s.client with
    | none => pure s
    | some c => do
      match ← handleReadFromClient (cmdProcess exec) s.state c out with
      | none => pure { s with client := none }
      | some (st, c') => pure ⟨st, some c', s.sent, s.turns ++ readTurns exec s.sent s.state c out⟩
  | .write handlerInstalled outs =>
    match s.client with
    | none => pure s
    | some c =>
      let r := replyWriteToClient c handlerInstalled outs
      pure { s with client := r.client, sent := s.sent ++ r.sent }
  | .written => pure { s with client := s.client.map fun c => { c with pendingWrite := false } }

/-- A whole run of a connection. -/
def Session.run (s : Session σ) : List (SessionOp σ) → Exec (Session σ)
  | [] => pure s
  | op :: ops => do
    let s ← s.step exec op
    s.run ops

/-- Nothing was added to the output since a turn. -/
def Session.FrozenSince (s : Session σ) (t : Turn) : Prop :=
  s.sent <+: t.sent ++ unsent t.after ∧
    ∀ c, s.client = some c → s.sent ++ unsent c = t.sent ++ unsent t.after

/-- Every report closes the client, there is at most one, and neither a turn nor a reply byte
follows it or QUIT. -/
structure Session.ErrorsClose (s : Session σ) : Prop where
  closes : ∀ t ∈ s.turns, t.reports → t.Closes
  once : s.turns.countP Turn.reports ≤ 1
  last : ∀ pre t post, s.turns = pre ++ t :: post → t.reports ∨ t.quits → post = [] ∧ s.FrozenSince t

/-- What holds whether or not an inline request was too big. -/
structure Session.Inv (s : Session σ) : Prop where
  client : ∀ c, s.client = some c → c.IdleInv ∧ c.OutInv
  closes : ∀ t ∈ s.turns, ¬ TooBigInline t.head → t.reports → t.Closes
  last : ∀ pre t post, s.turns = pre ++ t :: post → t.Ends →
    post = [] ∧ s.FrozenSince t ∧ ∀ c, s.client = some c → c.closeAfterReply = true

theorem Session.start_inv (s : σ) (fd : ℤ) : (Session.start s fd).Inv := by
  refine ⟨fun c hc => ?_, by simp [Session.start], by simp [Session.start]⟩
  obtain rfl : rrClientCreate fd = c := Option.some.inj hc
  exact ⟨rrClientCreate_idleInv fd, rrClientCreate_outInv fd⟩

/-- An entry of a list with more appended is a new or an old one. -/
theorem mem_split {α : Type} {xs ys pre post : List α} {t : α} (h : xs ++ ys = pre ++ t :: post) :
    (∃ mid, ys = mid ++ t :: post) ∨ ∃ mid, xs = pre ++ t :: mid ∧ post = mid ++ ys := by
  rcases List.append_eq_append_iff.mp h with ⟨mid, -, hy⟩ | ⟨mid, hx, hy⟩
  · exact .inl ⟨mid, hy⟩
  · cases mid with
    | nil => exact .inl ⟨[], hy.symm⟩
    | cons a mid =>
      obtain ⟨rfl, rfl⟩ := List.cons.inj hy
      exact .inr ⟨mid, hx, rfl⟩

/-- A read of a closing client makes no turn; otherwise its turns follow the earlier ones. -/
theorem Session.read_inv {s : Session σ} (h : s.Inv) {c : Client} (hc : s.client = some c) (bs : Bytes)
    (h0 : ¬ bs.length = 0) (hl : ¬ (received c bs).query.length > protoQueryMaxLen) :
    ∃ st c', processUserInput (cmdProcess exec) ((received c bs).query.length + 1) s.state (received c bs) =
        .ok (st, c') ∧
      Session.Inv ⟨st, some c', s.sent, s.turns ++ readTurns exec s.sent s.state c (.data bs)⟩ := by
  obtain ⟨hidle, hout⟩ := h.client c hc
  obtain ⟨st, c', hrun, hidle', hout', hok⟩ := processUserInput_turns exec s.sent s.state
    (received_loopInv hidle.toLoopInv (not_lt.mp hl)) ⟨hout.buf_le, hout.replied, hout.sent⟩ (Nat.lt_succ_self _)
  have hturns : readTurns exec s.sent s.state c (.data bs) =
      userTurns exec s.sent ((received c bs).query.length + 1) s.state (received c bs) := by
    rw [readTurns, if_neg (by simp only [not_or]; exact ⟨h0, hl⟩)]
  rw [← hturns] at hok
  refine ⟨st, c', hrun, ⟨?_, ?_, ?_⟩⟩
  · intro c₁ hc₁
    obtain rfl : c' = c₁ := Option.some.inj hc₁
    exact ⟨hidle', hout'⟩
  · intro t hm
    rcases List.mem_append.mp hm with hm | hm
    · exact h.closes t hm
    · exact hok.closes t hm
  · intro pre t post he hend
    rcases mem_split he with ⟨mid, hnew⟩ | ⟨mid, hold, hpost⟩
    · obtain ⟨hpost, hclose, hu⟩ := hok.last mid t post hnew hend
      have hsent : t.sent = s.sent := hok.sent t (by rw [hnew]; simp)
      refine ⟨hpost, ⟨⟨unsent t.after, by rw [hsent]⟩, ?_⟩, ?_⟩
      · intro c₁ hc₁
        obtain rfl : c' = c₁ := Option.some.inj hc₁
        rw [hsent, hu]
      · intro c₁ hc₁
        obtain rfl : c' = c₁ := Option.some.inj hc₁
        exact hclose
    · obtain ⟨hmid, hfrozen, hclosed⟩ := h.last pre t mid hold hend
      have hclosing : (received c bs).closeAfterReply = true := hclosed c hc
      have hnone : readTurns exec s.sent s.state c (.data bs) = [] := by
        rw [hturns, userTurns_closing exec _ _ _ hclosing]
      rw [processUserInput_closing exec s.state (Nat.lt_succ_self _) hclosing] at hrun
      obtain ⟨-, rfl⟩ := Prod.mk.inj (Except.ok.inj hrun)
      refine ⟨by rw [hpost, hmid, hnone]; rfl, ⟨hfrozen.1, ?_⟩, ?_⟩
      · intro c₁ hc₁
        obtain rfl : received c bs = c₁ := Option.some.inj hc₁
        exact hfrozen.2 c hc
      · intro c₁ hc₁
        obtain rfl : received c bs = c₁ := Option.some.inj hc₁
        exact hclosing

/-- The turns stay and the output moves from the client to its socket. -/
theorem Session.Inv.of_sent {s s' : Session σ} (h : s.Inv) (hturns : s'.turns = s.turns)
    (hsent : s.sent <+: s'.sent ∧ ∀ c, s.client = some c → s'.sent <+: s.sent ++ unsent c)
    (hnone : s.client = none → s'.sent = s.sent)
    (hclient : ∀ c', s'.client = some c' → c'.IdleInv ∧ c'.OutInv ∧
      ∃ c, s.client = some c ∧ c'.closeAfterReply = c.closeAfterReply ∧ s'.sent ++ unsent c' = s.sent ++ unsent c) :
    s'.Inv := by
  refine ⟨fun c' hc' => ⟨(hclient c' hc').1, (hclient c' hc').2.1⟩, ?_, ?_⟩
  · rw [hturns]
    exact h.closes
  · rw [hturns]
    intro pre t post he hend
    obtain ⟨hpost, hfrozen, hclosed⟩ := h.last pre t post he hend
    refine ⟨hpost, ⟨?_, ?_⟩, ?_⟩
    · cases hc : s.client with
      | none =>
        rw [hnone hc]
        exact hfrozen.1
      | some c =>
        rw [← hfrozen.2 c hc]
        exact hsent.2 c hc
    · intro c' hc'
      obtain ⟨-, -, c, hc, -, hu⟩ := hclient c' hc'
      rw [hu]
      exact hfrozen.2 c hc
    · intro c' hc'
      obtain ⟨-, -, c, hc, hclose, -⟩ := hclient c' hc'
      rw [hclose]
      exact hclosed c hc

theorem Session.step_inv {s : Session σ} (h : s.Inv) (op : SessionOp σ) :
    ∃ s', s.step exec op = .ok s' ∧ s'.Inv := by
  cases hc : s.client with
  | none =>
    have hsame : ∀ s' : Session σ, s'.turns = s.turns → s'.sent = s.sent → s'.client = none → s'.Inv := by
      intro s' ht hs hn
      refine h.of_sent ht ⟨by rw [hs], by simp [hc]⟩ (fun _ => hs) ?_
      simp [hn]
    cases op with
    | read out => exact ⟨s, by simp [Session.step, hc], h⟩
    | write handlerInstalled outs => exact ⟨s, by simp [Session.step, hc], h⟩
    | written => exact ⟨_, rfl, hsame _ rfl rfl (by simp [hc])⟩
    | others st => exact ⟨_, rfl, hsame _ rfl rfl hc⟩
  | some c =>
    obtain ⟨hidle, hout⟩ := h.client c hc
    have hfreed : Session.Inv { s with client := none } :=
      h.of_sent rfl ⟨List.prefix_rfl, fun _ _ => List.prefix_append _ _⟩ (fun _ => rfl) (by simp)
    cases op with
    | read out =>
      cases out with
      | again =>
        refine ⟨⟨s.state, some c, s.sent, s.turns ++ []⟩, by simp [Session.step, hc, handleReadFromClient, readTurns], ?_⟩
        rw [List.append_nil, ← hc]
        exact h
      | fail => exact ⟨_, by simp [Session.step, hc, handleReadFromClient], hfreed⟩
      | data bs =>
        simp only [Session.step, hc, handleReadFromClient]
        split_ifs with h0 hl
        · exact ⟨_, rfl, hfreed⟩
        · exact ⟨_, rfl, hfreed⟩
        · obtain ⟨st, c', hrun, hinv⟩ := Session.read_inv exec h hc bs h0 hl
          rw [hrun]
          exact ⟨_, rfl, hinv⟩
    | write handlerInstalled outs =>
      refine ⟨_, by simp only [Session.step, hc]; rfl, ?_⟩
      rcases replyWriteToClient_spec hout handlerInstalled outs with ⟨c', hcl, hd⟩ | ⟨hcl, hpre, -⟩
      · refine h.of_sent rfl ⟨List.prefix_append _ _, ?_⟩ (by simp [hc]) ?_
        · intro c₁ hc₁
          obtain rfl : c = c₁ := Option.some.inj (hc.symm.trans hc₁)
          rw [← hd.unsent, List.prefix_append_right_inj]
          exact List.prefix_append _ _
        · intro c₁ hc₁
          obtain rfl : c' = c₁ := Option.some.inj (hcl.symm.trans hc₁)
          exact ⟨hidle.congr (.replyWriteToClient hcl), hd.inv, c, hc, hd.close, by rw [List.append_assoc, hd.unsent]⟩
      · refine h.of_sent rfl ⟨List.prefix_append _ _, ?_⟩ (by simp [hc]) (by simp [hcl])
        intro c₁ hc₁
        obtain rfl : c = c₁ := Option.some.inj (hc.symm.trans hc₁)
        rw [List.prefix_append_right_inj]
        exact hpre
    | written =>
      refine ⟨_, rfl, h.of_sent rfl ⟨List.prefix_rfl, fun _ _ => List.prefix_append _ _⟩ (fun _ => rfl) ?_⟩
      intro c' hc'
      obtain rfl : { c with pendingWrite := false } = c' := by simpa [hc] using hc'
      exact ⟨hidle.congr (by constructor <;> rfl), ⟨hout.buf_le, hout.replied, hout.sent⟩, c, hc, rfl, rfl⟩
    | others st =>
      refine ⟨_, rfl, h.of_sent rfl ⟨List.prefix_rfl, fun _ _ => List.prefix_append _ _⟩ (fun _ => rfl) ?_⟩
      intro c' hc'
      exact ⟨(h.client c' hc').1, (h.client c' hc').2, c', hc', rfl, rfl⟩

theorem Session.run_inv {s : Session σ} (h : s.Inv) (ops : List (SessionOp σ)) :
    ∃ s', s.run exec ops = .ok s' ∧ s'.Inv := by
  induction ops generalizing s with
  | nil => exact ⟨s, rfl, h⟩
  | cons op ops ih =>
    obtain ⟨s₁, hstep, h₁⟩ := Session.step_inv exec h op
    obtain ⟨s', hrun, h'⟩ := ih h₁
    exact ⟨s', by rw [Session.run, hstep, Exec.ok_bind, hrun], h'⟩

/-- When each entry of a kind is the last one, there is at most one. -/
theorem countP_le_one {α : Type} {p : α → Bool} {ts : List α}
    (h : ∀ pre t post, ts = pre ++ t :: post → p t → post = []) : ts.countP p ≤ 1 := by
  induction ts with
  | nil => simp
  | cons t ts ih =>
    rw [List.countP_cons]
    split_ifs with hp
    · rw [h [] t ts rfl hp]
      simp
    · exact ih fun pre t' post he => h (t :: pre) t' post (by rw [he]; rfl)

/-- A connection on which no parser call meets a too big inline request: whatever is read in
whatever chunks, an error closes the client in the call that reports it, so it is reported once,
and after it, as after QUIT, nothing is executed and nothing added to the output. -/
theorem protocol_errors_close (s₀ : σ) (fd : ℤ) (ops : List (SessionOp σ))
    (hsmall : ∀ s, (Session.start s₀ fd).run exec ops = .ok s → ∀ t ∈ s.turns, ¬ TooBigInline t.head) :
    ∃ s, (Session.start s₀ fd).run exec ops = .ok s ∧ s.ErrorsClose := by
  obtain ⟨s, hrun, h⟩ := Session.run_inv exec (Session.start_inv s₀ fd) ops
  have hends : ∀ t ∈ s.turns, t.reports ∨ t.quits → t.Ends := by
    intro t hm ht
    rcases ht with ht | ht
    · exact .inr ⟨ht, hsmall s hrun t hm⟩
    · exact .inl ht
  have hlast : ∀ pre t post, s.turns = pre ++ t :: post → t.reports ∨ t.quits → post = [] ∧ s.FrozenSince t := by
    intro pre t post he ht
    obtain ⟨hpost, hfrozen, -⟩ := h.last pre t post he (hends t (by rw [he]; simp) ht)
    exact ⟨hpost, hfrozen⟩
  refine ⟨s, hrun, fun t hm => h.closes t hm (hsmall s hrun t hm), ?_, hlast⟩
  exact countP_le_one fun pre t post he ht => (hlast pre t post he (.inl ht)).1

end Session

instance (c : Client) : Decidable (TooBigInline c) := inferInstanceAs (Decidable (_ ∧ _ ∧ _))

/-- A multibulk count that is no number. -/
theorem protocol_errors_close_bad_count :
    (∀ s, (Session.start () 5).run idleHandler [.read (.data (ascii "*x\r\n"))] = .ok s →
      ∀ t ∈ s.turns, ¬ TooBigInline t.head) ∧
    ∃ s, (Session.start () 5).run idleHandler [.read (.data (ascii "*x\r\n"))] = .ok s ∧ s.ErrorsClose := by
  have hturns : ∀ s, (Session.start () 5).run idleHandler [.read (.data (ascii "*x\r\n"))] = .ok s →
      ∀ t ∈ s.turns, ¬ TooBigInline t.head := by
    intro s hs
    have hall : (match (Session.start () 5).run idleHandler [.read (.data (ascii "*x\r\n"))] with
        | .ok s => s.turns.all fun t => !decide (TooBigInline t.head)
        | .error _ => false) = true := by decide +kernel
    rw [hs] at hall
    simpa using hall
  exact ⟨hturns, protocol_errors_close idleHandler () 5 _ hturns⟩

/-! ## An inline request that is too big -/

/-- A client in the middle of an inline request of `n` letters. -/
def lettersClient (fd : ℤ) (n : ℕ) : Client :=
  { rrClientCreate fd with reqType := .inline, query := List.replicate n 97 }

theorem strchr_replicate (n : ℕ) : strchr (List.replicate n 97) 10 = none := by
  have hc : cStr (List.replicate n 97) = List.replicate n 97 := by
    refine cStr_of_notMem fun h => ?_
    cases List.eq_of_mem_replicate h
  rw [strchr, hc, List.findIdx?_eq_none_iff]
  intro b hb
  rw [List.eq_of_mem_replicate hb]
  decide

/-- One more read of letters: nothing is reported up to the limit, and above it the client
stays open. -/
theorem step_letters {σ : Type} (exec : σ → List StrEnc → σ × List ReplyCall) {s : Session σ} {c : Client} {fd : ℤ}
    {m n : ℕ} (hc : s.client = some c) (hstart : c = rrClientCreate fd ∧ m = 0 ∨ c = lettersClient fd m)
    (hn : 0 < n) (hmax : m + n ≤ protoQueryMaxLen) :
    s.step exec (.read (.data (List.replicate n 97))) =
      .ok ⟨s.state, some (processInlineInput (lettersClient fd (m + n))).2, s.sent, s.turns ++
        [⟨s.sent, lettersClient fd (m + n), .error, (processInlineInput (lettersClient fd (m + n))).2,
          (processInlineInput (lettersClient fd (m + n))).2⟩]⟩ := by
  have hset : setReqType (received c (List.replicate n 97)) = lettersClient fd (m + n) := by
    obtain ⟨n, rfl⟩ : ∃ k, n = k + 1 := ⟨n - 1, by omega⟩
    rcases hstart with ⟨rfl, rfl⟩ | rfl
    · simp [setReqType, received, rrClientCreate, lettersClient, byteAt, List.replicate_succ]
    · simp [setReqType, received, rrClientCreate, lettersClient, List.replicate_append_replicate]
  have hlen : (received c (List.replicate n 97)).query.length = m + n := by
    rw [← setReqType_query, hset]
    simp [lettersClient]
  have hopen : (received c (List.replicate n 97)).closeAfterReply = false := by
    rw [← setReqType_close, hset]
    rfl
  have hfail : (processInlineInput (lettersClient fd (m + n))).1 = .error := by
    rw [processInlineInput, show (lettersClient fd (m + n)).query = List.replicate (m + n) 97 from rfl,
      strchr_replicate]
    dsimp only
    split <;> rfl
  have hparse : processInput (lettersClient fd (m + n)) =
      .ok (.error, (processInlineInput (lettersClient fd (m + n))).2) := by
    rw [← hfail]
    rfl
  have hread : handleReadFromClient (cmdProcess exec) s.state c (.data (List.replicate n 97)) =
      .ok (some (s.state, (processInlineInput (lettersClient fd (m + n))).2)) := by
    rw [handleReadFromClient, if_neg (by simpa using hn.ne'), if_neg (by omega), processUserInput, userStep,
      if_neg (by omega), if_neg (by simp [hopen]), hset, hparse]
    rfl
  have hturns : readTurns exec s.sent s.state c (.data (List.replicate n 97)) =
      [⟨s.sent, lettersClient fd (m + n), .error, (processInlineInput (lettersClient fd (m + n))).2,
          (processInlineInput (lettersClient fd (m + n))).2⟩] := by
    have hfits : ¬ ((List.replicate n (97 : UInt8)).length = 0 ∨
        protoQueryMaxLen < (received c (List.replicate n 97)).query.length) := by
      rw [hlen, List.length_replicate]
      omega
    have hgo : ¬ ((received c (List.replicate n 97)).query.length = 0 ∨
        (received c (List.replicate n 97)).closeAfterReply = true) := by
      rw [hlen, hopen]
      simp only [Bool.false_eq_true, or_false]
      omega
    rw [readTurns, if_neg hfits, userTurns, if_neg hgo, hset, hparse]
  simp only [Session.step, hc, hread, hturns]
  rfl

theorem processInlineInput_letters (fd : ℤ) {n : ℕ} (h : n ≤ protoInlineMaxLen) :
    (processInlineInput (lettersClient fd n)).2 = lettersClient fd n := by
  rw [processInlineInput, show (lettersClient fd n).query = List.replicate n 97 from rfl, strchr_replicate]
  dsimp only
  rw [if_neg (by simpa using h)]

theorem run_letters {s : Session Unit} {c : Client} {fd : ℤ} {m : ℕ} (hc : s.client = some c)
    (hstart : c = rrClientCreate fd ∧ m = 0 ∨ c = lettersClient fd m) {n : ℕ} (hn : 0 < n) (k : ℕ)
    (hle : m + n * k ≤ protoInlineMaxLen) (rest : List (SessionOp Unit)) :
    ∃ (s' : Session Unit) (c' : Client), s.run idleHandler (List.replicate k (.read (.data (List.replicate n 97))) ++ rest) =
        s'.run idleHandler rest ∧
      s'.client = some c' ∧ (c' = rrClientCreate fd ∧ m + n * k = 0 ∨ c' = lettersClient fd (m + n * k)) := by
  have hlim : protoInlineMaxLen = 65536 := rfl
  have hmax : protoQueryMaxLen = 2 ^ 29 := rfl
  induction k generalizing s c m with
  | zero => exact ⟨s, c, rfl, hc, by simpa using hstart⟩
  | succ k ih =>
    have hmul : n * (k + 1) = n + n * k := by ring
    have hstep := step_letters idleHandler hc hstart hn (by omega)
    rw [processInlineInput_letters fd (by omega)] at hstep
    obtain ⟨s', c', hrun, hc', hend⟩ := ih (s := ⟨s.state, some (lettersClient fd (m + n)), s.sent, s.turns ++
        [⟨s.sent, lettersClient fd (m + n), .error, lettersClient fd (m + n), lettersClient fd (m + n)⟩]⟩)
      rfl (.inr rfl) (by omega)
    refine ⟨s', c', ?_, hc', ?_⟩
    · rw [List.replicate_succ, List.cons_append, Session.run, hstep, Exec.ok_bind, hrun]
    · rw [hmul, ← Nat.add_assoc]
      exact hend

/-- Five full reads without a line end: the error is reported and the client left open. -/
theorem protocol_errors_too_big_inline :
    ∃ s, (Session.start () 5).run idleHandler (List.replicate 5 (.read (.data (List.replicate 16384 97)))) = .ok s ∧
      ¬ s.ErrorsClose := by
  have hlim : protoInlineMaxLen = 65536 := rfl
  have hmax : protoQueryMaxLen = 2 ^ 29 := rfl
  obtain ⟨s, c, hrun, hc, hstart⟩ := run_letters (s := Session.start () 5) rfl (.inl ⟨rfl, rfl⟩) (n := 16384)
    (by omega) 4 (by omega) [.read (.data (List.replicate 16384 97))]
  have hstep := step_letters idleHandler hc hstart (n := 16384) (by omega) (by omega)
  refine ⟨_, hrun.trans (by rw [Session.run, hstep, Exec.ok_bind]; rfl), fun hclose => ?_⟩
  have hinv : (lettersClient 5 (0 + 16384 * 4 + 16384)).OutInv := by
    have h := rrClientCreate_outInv 5
    exact ⟨h.buf_le, h.replied, h.sent⟩
  have hbig : (processInlineInput (lettersClient 5 (0 + 16384 * 4 + 16384))).2 =
      replyAll (lettersClient 5 (0 + 16384 * 4 + 16384))
        (replyAddErr (ascii "Protocol error: too big inline request")) := by
    rw [processInlineInput, show (lettersClient 5 (0 + 16384 * 4 + 16384)).query =
      List.replicate (0 + 16384 * 4 + 16384) 97 from rfl, strchr_replicate]
    dsimp only
    rw [if_pos (by simp only [List.length_replicate]; omega)]
  have ha := replyAll_spec hinv (replyAddErr (ascii "Protocol error: too big inline request"))
  have hpay : accepted 5 false
      ((replyAddErr (ascii "Protocol error: too big inline request")).flatMap ReplyCall.payload) ≠ [] := by decide
  have hadds : unsent (replyAll (lettersClient 5 (0 + 16384 * 4 + 16384))
      (replyAddErr (ascii "Protocol error: too big inline request"))) ≠
      unsent (lettersClient 5 (0 + 16384 * 4 + 16384)) := by
    rw [ha.unsent]
    intro he
    exact hpay (List.append_cancel_left (he.trans (List.append_nil _).symm))
  have hopen := (SameInput.replyAll (lettersClient 5 (0 + 16384 * 4 + 16384))
    (replyAddErr (ascii "Protocol error: too big inline request"))).closeAfterReply
  have ht := hclose.closes ⟨s.sent, lettersClient 5 (0 + 16384 * 4 + 16384), .error,
    replyAll (lettersClient 5 (0 + 16384 * 4 + 16384)) (replyAddErr (ascii "Protocol error: too big inline request")),
    replyAll (lettersClient 5 (0 + 16384 * 4 + 16384)) (replyAddErr (ascii "Protocol error: too big inline request"))⟩
    (by rw [hbig]; simp) (decide_eq_true hadds)
  rw [Turn.Closes, hopen] at ht
  cases ht.1

end RhinoRox
