import RhinoRox.RequestRoundTrip

/-!
# Inline requests

`process_inline_input` takes a line that ends in LF alone as well as one that ends in CR LF,
but always discards two bytes for the line end. What follows a bare LF in the buffer loses its
first byte, so the lines are read back exactly when no read continues past a bare LF.
-/

namespace RhinoRox

/-- A line and whether CR LF or LF alone ends it. -/
structure InlineLine where
  text : Bytes
  crlf : Bool

namespace InlineLine

def encode (l : InlineLine) : Bytes := l.text ++ if l.crlf then [13, 10] else [10]

/-- The lines a client may send. -/
structure Ok (l : InlineLine) : Prop where
  short : l.text.length ≤ protoInlineMaxLen
  noNul : 0 ∉ l.text
  noCr : 13 ∉ l.text
  noLf : 10 ∉ l.text
  balanced : (sdssplitargs l.text).isSome = true
  noStar : l.text.head? ≠ some 42

/-- The arguments on a line that are not empty. -/
def args (l : InlineLine) : List Bytes := ((sdssplitargs l.text).getD []).filter fun a => a.length ≠ 0

theorem encode_length_pos (l : InlineLine) : 0 < l.encode.length := by
  rw [encode]
  split <;> simp

theorem encode_length_le {l : InlineLine} (h : l.Ok) : l.encode.length ≤ protoInlineMaxLen + 2 := by
  have hs := h.short
  rw [encode]
  split <;> simp <;> omega

end InlineLine

def encodeLines (ls : List InlineLine) : Bytes := ls.flatMap InlineLine.encode

@[simp] theorem encodeLines_cons (l : InlineLine) (ls : List InlineLine) :
    encodeLines (l :: ls) = l.encode ++ encodeLines ls := rfl

/-- The requests on lines; a line with no argument makes none. -/
def lineRequests (ls : List InlineLine) : List (List Bytes) := (ls.map InlineLine.args).filter fun r => r ≠ []

/-- The request is QUIT. -/
def isQuit (r : List Bytes) : Bool := strcaseEq (r.headD []) (ascii "quit")

/-! ## One line -/

section Line
variable {c : Client} {l : InlineLine} {future rest : Bytes}

/-- The text before the LF of a line. -/
theorem InlineLine.exists_beforeLf (h : l.Ok) : ∃ pre, l.encode = pre ++ [10] ∧ 10 ∉ pre ∧ 0 ∉ pre ∧
    pre.length = l.text.length + l.crlf.toNat := by
  cases hc : l.crlf with
  | true =>
    refine ⟨l.text ++ [13], by simp [encode, hc], ?_, ?_, by simp⟩
    · simpa using h.noLf
    · simpa using h.noNul
  | false => exact ⟨l.text, by simp [encode, hc], h.noLf, h.noNul, by simp⟩

/-- The length of the text, once the LF was found. -/
theorem querylen_eq (h : l.Ok) {u : Bytes} (hq : c.query = l.encode ++ u) :
    (if l.text.length + l.crlf.toNat ≠ 0 ∧ byteAt c.query (l.text.length + l.crlf.toNat - 1) = 13 then
      l.text.length + l.crlf.toNat - 1 else l.text.length + l.crlf.toNat) = l.text.length := by
  cases hc : l.crlf with
  | true =>
    have hbyte : byteAt c.query l.text.length = 13 := by
      rw [hq, InlineLine.encode, hc]
      simp [byteAt]
    simp [hbyte]
  | false =>
    rw [if_neg]
    · simp
    · rintro ⟨hne, hbyte⟩
      have hlt : l.text.length - 1 < l.text.length := by
        simp at hne
        have := List.length_pos_of_ne_nil hne
        omega
      have hmem : byteAt c.query (l.text.length - 1) ∈ l.text := by
        rw [hq, InlineLine.encode, List.append_assoc, byteAt, List.getD_append _ _ _ _ hlt,
          List.getD_eq_getElem _ _ hlt]
        exact List.getElem_mem hlt
      simp only [Bool.toNat_false, Nat.add_zero] at hbyte
      rw [hbyte] at hmem
      exact h.noCr hmem

/-- What `process_inline_input` does with a line: it waits for more, or it takes the line and
two bytes for its end. -/
theorem processInlineInput_line (h : l.Ok) (htext : c.query ++ future = l.encode ++ rest)
    (hsize : c.query.length < 2 ^ 30) :
    (c.query.length < l.encode.length ∧ ∃ c', processInlineInput c = (.error, c') ∧ SameInput c c') ∨
    (∃ u n, c.query = l.encode ++ u ∧ u ++ future = rest ∧
      processInlineInput c = (.ok, { c with
        query := u.drop (1 - l.crlf.toNat), argvSize := n, argv := l.args.map StrEnc.raw })) := by
  obtain ⟨pre, henc, h10, h0, hlen⟩ := InlineLine.exists_beforeLf h
  by_cases hlt : c.query.length < l.encode.length
  · -- less than the line has arrived, so no LF is seen
    obtain ⟨w, hw⟩ : ∃ w, l.encode = c.query ++ w := by
      rcases List.append_eq_append_iff.mp htext with ⟨w, hw, -⟩ | ⟨w, hw, -⟩
      · exact ⟨w, hw⟩
      · rw [hw, List.length_append] at hlt
        omega
    have hnone : strchr c.query 10 = none := by
      refine strchr_eq_none fun hm => h10 ?_
      have hpre : c.query <+: pre := by
        rw [henc] at hw hlt
        refine List.prefix_of_prefix_length_le ⟨w, hw.symm⟩ (List.prefix_append pre [10]) ?_
        simp at hlt
        omega
      exact hpre.subset hm
    refine .inl ⟨hlt, ?_⟩
    rw [processInlineInput, hnone]
    dsimp only
    split
    · exact ⟨_, rfl, SameInput.replyAll _ _⟩
    · exact ⟨c, rfl, .refl c⟩
  · obtain ⟨u, hq, hu⟩ := exists_rest_of_length htext (not_lt.mp hlt)
    have hfind : strchr c.query 10 = some (l.text.length + l.crlf.toNat) := by
      rw [hq, henc, List.append_assoc, ← hlen]
      exact strchr_append h10 h0 (by decide)
    have htake : c.query.take l.text.length = l.text := by
      rw [hq, InlineLine.encode, List.append_assoc]
      exact List.take_left
    have hdrop : c.query.drop (l.text.length + 2) = u.drop (1 - l.crlf.toNat) := by
      rw [hq, InlineLine.encode, List.append_assoc, ← List.drop_drop, List.drop_left]
      cases l.crlf <;> simp
    obtain ⟨argv, hargv⟩ := Option.isSome_iff_exists.mp h.balanced
    have hl := h.short
    have hinl : protoInlineMaxLen = 65536 := rfl
    refine .inr ⟨u, if argv.length ≠ 0 then argv.length else c.argvSize, hq, hu, ?_⟩
    rw [processInlineInput, hfind]
    dsimp only
    rw [querylen_eq h hq, htake, hargv]
    dsimp only
    rw [sdsrange_from (by omega) (by omega), hdrop, InlineLine.args, hargv]
    rfl

end Line

/-! ## Turns of the loop -/

section Turns
variable {σ : Type} (exec : σ → List StrEnc → σ × List ReplyCall)

/-- `cmd_process` with a log of the requests it is given. -/
def recorded : CmdProc (Log σ) := fun s argv =>
  let r := cmdProcess exec s.state argv
  ⟨⟨r.state, s.requests ++ [argv.map StrEnc.bytes], s.calls ++ r.calls⟩, r.calls, r.status, r.closing⟩

/-- A command is logged; afterwards the client is reset or, after QUIT, closing. -/
theorem executeRequest_recorded (s : Log σ) (c : Client) :
    ∃ s' c', executeRequest (recorded exec) s c = (s', c') ∧ c'.query = c.query ∧
      s'.requests = s.requests ++ [c.argv.map StrEnc.bytes].filter (fun r => r ≠ []) ∧
      (isQuit (c.argv.map StrEnc.bytes) = true ∧ c'.closeAfterReply = true ∨
        isQuit (c.argv.map StrEnc.bytes) = false ∧ c'.closeAfterReply = c.closeAfterReply ∧ c'.IsReset) := by
  by_cases hargv : c.argv = []
  · refine ⟨s, rrClientReset c, by simp [executeRequest, hargv], rfl, by simp [hargv], .inr ⟨?_, rfl, ?_⟩⟩
    · rw [hargv]
      decide
    · exact ⟨rfl, rfl, rfl, rfl⟩
  have hlen : ¬ c.argv.length = 0 := by simpa using hargv
  have hlog : [c.argv.map StrEnc.bytes].filter (fun r => r ≠ []) = [c.argv.map StrEnc.bytes] := by
    simp [hargv]
  rw [hlog]
  cases hquit : isQuit (c.argv.map StrEnc.bytes) with
  | true =>
    have hq : strcaseEq ((c.argv.map StrEnc.bytes).headD []) (ascii "quit") = true := hquit
    have hs := SameInput.replyAll c [.obj Shared.ok]
    refine ⟨⟨s.state, s.requests ++ [c.argv.map StrEnc.bytes], s.calls ++ [.obj Shared.ok]⟩,
      { replyAll c [.obj Shared.ok] with closeAfterReply := true }, ?_, hs.query, rfl, .inl ⟨rfl, rfl⟩⟩
    rw [executeRequest, if_neg hlen, recorded, cmdProcess, if_pos hq]
    rfl
  | false =>
    have hq : ¬ strcaseEq ((c.argv.map StrEnc.bytes).headD []) (ascii "quit") = true := by
      rw [show strcaseEq ((c.argv.map StrEnc.bytes).headD []) (ascii "quit") = false from hquit]
      decide
    have hs := SameInput.replyAll c (exec s.state c.argv).2
    refine ⟨⟨(exec s.state c.argv).1, s.requests ++ [c.argv.map StrEnc.bytes],
      s.calls ++ (exec s.state c.argv).2⟩, rrClientReset (replyAll c (exec s.state c.argv).2), ?_, hs.query, rfl,
      .inr ⟨rfl, hs.closeAfterReply, rfl, rfl, rfl, rfl⟩⟩
    rw [executeRequest, if_neg hlen, recorded, cmdProcess, if_neg hq]
    rfl

/-- The buffer and what is still to come start with a line. -/
structure AtLine (c : Client) (future : Bytes) (l : InlineLine) (rest : Bytes) : Prop where
  reqType : c.reqType = .unset ∨ c.reqType = .inline
  multibulkLen : c.multibulkLen = 0
  bulkLen : c.bulkLen = -1
  argv : c.argv = []
  text : c.query ++ future = l.encode ++ rest

variable {c : Client} {l : InlineLine} {future rest : Bytes} {reqs : List (List Bytes)}

theorem AtLine.setReqType (h : AtLine c future l rest) (hl : l.Ok) (hne : c.query ≠ []) :
    setReqType c = { c with reqType := .inline } := by
  have hbyte : byteAt c.query 0 ≠ 42 := by
    obtain ⟨x, q, hq⟩ := List.exists_cons_of_ne_nil hne
    have hhead : l.encode.head? = some x := by
      have hx := congrArg List.head? h.text
      rw [hq, List.cons_append, List.head?_cons, List.head?_append_of_ne_nil] at hx
      · exact hx.symm
      · exact List.ne_nil_of_length_pos l.encode_length_pos
    rw [hq, byteAt_cons_zero]
    rintro rfl
    cases htext : l.text with
    | nil =>
      rw [InlineLine.encode, htext] at hhead
      cases hc : l.crlf <;> simp [hc] at hhead
    | cons y t =>
      rw [InlineLine.encode, htext, List.cons_append, List.head?_cons] at hhead
      exact hl.noStar (by rw [htext, List.head?_cons, hhead])
  rw [RhinoRox.setReqType]
  rcases h.reqType with ht | ht
  · rw [if_pos ht, if_neg hbyte]
  · rw [if_neg (by simp [ht]), ← ht]

/-- A turn of the loop at a line. -/
theorem lineTurn (s : Log σ) (hl : l.Ok) (h : AtLine c future l rest) (ho : c.closeAfterReply = false)
    (hsize : c.query.length ≤ l.encode.length + protoIobufLen) :
    (∃ c', userStep (recorded exec) s c = .ok (.stop s c') ∧ AtLine c' future l rest ∧
      c'.closeAfterReply = false ∧ c'.query.length < l.encode.length) ∨
    (∃ u s' c', c.query = l.encode ++ u ∧ u ++ future = rest ∧
      userStep (recorded exec) s c = .ok (.next s' c') ∧ c'.query = u.drop (1 - l.crlf.toNat) ∧
      s'.requests = s.requests ++ lineRequests [l] ∧
      (isQuit l.args = true ∧ c'.closeAfterReply = true ∨
        isQuit l.args = false ∧ c'.closeAfterReply = false ∧ c'.IsReset)) := by
  have hlen := InlineLine.encode_length_le hl
  have hinl : protoInlineMaxLen = 65536 := rfl
  have hio : protoIobufLen = 16384 := rfl
  rw [userStep]
  by_cases hq : c.query = []
  · rw [if_pos (by simp [hq])]
    exact .inl ⟨c, rfl, h, ho, by rw [hq]; exact l.encode_length_pos⟩
  rw [if_neg (by simpa using hq), if_neg (by simp [ho]), h.setReqType hl hq]
  rcases processInlineInput_line (c := { c with reqType := .inline }) hl h.text (by dsimp only; omega) with
    ⟨hlt, c', hr, hs⟩ | ⟨u, n, hquery, hu, hr⟩
  · refine .inl ⟨c', ?_, ⟨.inr hs.reqType, hs.multibulkLen.trans h.multibulkLen, hs.bulkLen.trans h.bulkLen,
      hs.argv.trans h.argv, by rw [hs.query]; exact h.text⟩, hs.closeAfterReply.trans ho, ?_⟩
    · simp [processInput, hr]
    · rw [hs.query]
      exact hlt
  · obtain ⟨s', c', he, hquery', hlog, hend⟩ := executeRequest_recorded exec s
      { c with reqType := .inline, query := u.drop (1 - l.crlf.toNat), argvSize := n, argv := l.args.map StrEnc.raw }
    have hbytes : (l.args.map StrEnc.raw).map StrEnc.bytes = l.args := by
      rw [List.map_map]
      exact List.map_id _
    dsimp only at hlog hend
    rw [hbytes] at hlog hend
    refine .inr ⟨u, s', c', hquery, hu, ?_, hquery', hlog, ?_⟩
    · simp only [processInput, hr, Exec.pure_eq, Exec.ok_bind]
      rw [if_neg (by decide), he]
    · rw [ho] at hend
      exact hend

/-- A turn of the loop at an encoded request. -/
theorem bulkTurn (s : Log σ) (hok : ∀ r ∈ reqs, RequestOk r) (h : Busy c future reqs)
    (ho : c.closeAfterReply = false) :
    (∃ c', userStep (recorded exec) s c = .ok (.stop s c') ∧ Waiting c' future reqs ∧
      c'.closeAfterReply = false) ∨
    (∃ r reqs' s' c', reqs = r :: reqs' ∧ userStep (recorded exec) s c = .ok (.next s' c') ∧
      c'.query.length < c.query.length ∧ s'.requests = s.requests ++ [r] ∧
      (isQuit r = true ∧ c'.closeAfterReply = true ∨
        isQuit r = false ∧ c'.closeAfterReply = false ∧ Busy c' future reqs')) := by
  rw [userStep]
  by_cases hq : c.query = []
  · rw [if_pos (by simp [hq])]
    exact .inl ⟨c, rfl, h.waiting hq, ho⟩
  have hsame : ∀ {d : Client}, (∀ e, d.withInput e = c.withInput e) → d.closeAfterReply = false := by
    intro d hd
    calc d.closeAfterReply = (d.withInput c).closeAfterReply := rfl
      _ = (c.withInput c).closeAfterReply := by rw [hd]
      _ = false := ho
  rw [if_neg (by simpa using hq), if_neg (by simp [ho])]
  rcases processInput_busy (fun r hm => (hok r hm).accepted) h hq with ⟨c', hr, hw, hc⟩ |
    ⟨r, reqs', c₁, rfl, hr, hargv, -, htext, hlt, hsmall, hc⟩
  · exact .inl ⟨c', by simp [hr], hw, hsame hc⟩
  · obtain ⟨s', c', he, hquery, hlog, hend⟩ := executeRequest_recorded exec s c₁
    have hne : r ≠ [] := List.ne_nil_of_length_pos (hok r List.mem_cons_self).pos
    rw [hargv] at hlog hend
    refine .inr ⟨r, reqs', s', c', rfl, ?_, by rw [hquery]; exact hlt, ?_, ?_⟩
    · rw [hr, Exec.ok_bind]
      simp only [ne_eq, not_true_eq_false, if_false, he]
      rfl
    · rw [hlog]
      simp [hne]
    · rcases hend with hend | ⟨hquit, hclose, hreset⟩
      · exact .inl hend
      · exact .inr ⟨hquit, hclose.trans (hsame hc), .request reqs' (.inl hreset.reqType) hreset.multibulkLen
          hreset.bulkLen hreset.argv (by rw [hquery]; exact htext) (by rw [hquery]; exact hsmall)⟩

end Turns

/-! ## A whole stream -/

/-- The states a client goes through while chunks arrive: between two reads or, with `true`,
at the head of the loop of `process_user_input`. The numbers count the chunks that were read
and the turns of the loop that took a request. -/
inductive Visit {σ : Type} (proc : CmdProc σ) (chunks : List Bytes) (s₀ : σ) (c₀ : Client) :
    Bool → ℕ → ℕ → σ → Client → Prop where
  | start : Visit proc chunks s₀ c₀ false 0 0 s₀ c₀
  | read {j k : ℕ} {s : σ} {c : Client} {bs : Bytes} (h : Visit proc chunks s₀ c₀ false j k s c)
      (chunk : chunks[j]? = some bs) (small : (received c bs).query.length ≤ protoQueryMaxLen) :
      Visit proc chunks s₀ c₀ true (j + 1) k s (received c bs)
  | next {j k : ℕ} {s s' : σ} {c c' : Client} (h : Visit proc chunks s₀ c₀ true j k s c)
      (run : userStep proc s c = .ok (.next s' c')) : Visit proc chunks s₀ c₀ true j (k + 1) s' c'
  | stop {j k : ℕ} {s s' : σ} {c c' : Client} (h : Visit proc chunks s₀ c₀ true j k s c)
      (run : userStep proc s c = .ok (.stop s' c')) : Visit proc chunks s₀ c₀ false j k s' c'

/-- Where a client is in a stream of lines and encoded requests. -/
inductive Stage (lines : List InlineLine) (reqs : List (List Bytes)) (chunks : List Bytes) :
    Bool → ℕ → ℕ → Client → Prop where
  | closing (b : Bool) (j k : ℕ) (c : Client) (closing : c.closeAfterReply = true)
      (quit : (lines.length < k ∧ ∃ r ∈ reqs, isQuit r = true) ∨ ∃ l ∈ lines.take k, isQuit l.args = true) :
      Stage lines reqs chunks b j k c
  | lineWaiting (j k : ℕ) (c : Client) (l : InlineLine) (ls : List InlineLine) (drop : lines.drop k = l :: ls)
      (opened : c.closeAfterReply = false) (noQuit : ∀ l ∈ lines.take k, isQuit l.args = false)
      (input : AtLine c (chunks.drop j).flatten l (encodeLines ls ++ encodeRequests reqs))
      (short : c.query.length < l.encode.length) : Stage lines reqs chunks false j k c
  | line (j k : ℕ) (c : Client) (l : InlineLine) (ls : List InlineLine) (drop : lines.drop k = l :: ls)
      (opened : c.closeAfterReply = false) (noQuit : ∀ l ∈ lines.take k, isQuit l.args = false)
      (input : AtLine c (chunks.drop (j + 1)).flatten l (encodeLines ls ++ encodeRequests reqs))
      (size : c.query.length ≤ l.encode.length + protoIobufLen)
      (late : (encodeLines ls ++ encodeRequests reqs).length < (chunks.drop j).flatten.length) :
      Stage lines reqs chunks true (j + 1) k c
  | bulkWaiting (j k : ℕ) (c : Client) (past : lines.length ≤ k) (opened : c.closeAfterReply = false)
      (input : Waiting c (chunks.drop j).flatten (reqs.drop (k - lines.length))) :
      Stage lines reqs chunks false j k c
  | bulk (j k : ℕ) (c : Client) (past : lines.length ≤ k) (opened : c.closeAfterReply = false)
      (input : Busy c (chunks.drop j).flatten (reqs.drop (k - lines.length))) :
      Stage lines reqs chunks true j k c

/-- The requests handed over in the first `k` turns. -/
def handedAfter (lines : List InlineLine) (reqs : List (List Bytes)) (k : ℕ) : List (List Bytes) :=
  lineRequests (lines.take k) ++ reqs.take (k - lines.length)

section Stages
variable {lines ls : List InlineLine} {reqs : List (List Bytes)} {chunks : List Bytes} {b : Bool} {j k : ℕ}
  {c : Client} {l : InlineLine}

theorem take_succ_of_drop {α : Type} {xs ys : List α} {x : α} (h : xs.drop k = x :: ys) :
    xs.take (k + 1) = xs.take k ++ [x] ∧ xs.drop (k + 1) = ys ∧ k < xs.length := by
  have hx : xs[k]? = some x := by rw [← List.head?_drop, h, List.head?_cons]
  obtain ⟨hk, he⟩ := List.getElem?_eq_some_iff.mp hx
  refine ⟨by rw [List.take_succ_eq_append_getElem hk, he], ?_, hk⟩
  rw [← List.tail_drop, h, List.tail_cons]

theorem handedAfter_line (h : lines.drop k = l :: ls) :
    handedAfter lines reqs (k + 1) = handedAfter lines reqs k ++ lineRequests [l] := by
  obtain ⟨htake, -, hk⟩ := take_succ_of_drop h
  rw [handedAfter, handedAfter, htake, Nat.sub_eq_zero_of_le hk, Nat.sub_eq_zero_of_le hk.le]
  simp [lineRequests]

theorem handedAfter_bulk (hk : lines.length ≤ k) {r : List Bytes} {reqs' : List (List Bytes)}
    (h : reqs.drop (k - lines.length) = r :: reqs') :
    handedAfter lines reqs (k + 1) = handedAfter lines reqs k ++ [r] := by
  obtain ⟨htake, -, -⟩ := take_succ_of_drop h
  rw [handedAfter, handedAfter, List.take_of_length_le hk, List.take_of_length_le (by omega : lines.length ≤ k + 1),
    Nat.sub_add_comm hk, htake, List.append_assoc]

theorem Stage.read (hlines : ∀ l ∈ lines, l.Ok) (hreqs : ∀ r ∈ reqs, RequestOk r)
    (h : Stage lines reqs chunks false j k c) {bs : Bytes} (hchunk : chunks[j]? = some bs) (hne : bs ≠ [])
    (hlen : (bs.length : ℤ) ≤ readlen c) :
    Stage lines reqs chunks true (j + 1) k (received c bs) ∧
      (c.closeAfterReply = false → (received c bs).query.length ≤ protoQueryMaxLen) := by
  have hflat : (chunks.drop j).flatten = bs ++ (chunks.drop (j + 1)).flatten := by
    obtain ⟨hj, rfl⟩ := List.getElem?_eq_some_iff.mp hchunk
    rw [List.drop_eq_getElem_cons hj, List.flatten_cons]
  cases h with
  | closing b j k c hclosing hquit =>
    exact ⟨.closing true (j + 1) k _ hclosing hquit, fun ho => absurd hclosing (by simp [ho])⟩
  | lineWaiting j k c l ls hdrop ho hno hin hshort =>
    have hmem : l ∈ lines := List.mem_of_mem_drop (hdrop ▸ List.mem_cons_self)
    have henc := InlineLine.encode_length_le (hlines l hmem)
    have hread : bs.length ≤ protoIobufLen := by
      rw [readlen, if_neg (by simp [hin.multibulkLen])] at hlen
      exact_mod_cast hlen
    have htotal : (received c bs).query.length = c.query.length + bs.length := by simp [received]
    have htext := congrArg List.length hin.text
    rw [List.length_append, List.length_append] at htext
    refine ⟨.line j k _ l ls hdrop ho hno ⟨hin.reqType, hin.multibulkLen, hin.bulkLen, hin.argv, ?_⟩ ?_ ?_, fun _ => ?_⟩
    · rw [received, List.append_assoc, ← hflat]
      exact hin.text
    · omega
    · omega
    · rw [htotal]
      have hinl : protoInlineMaxLen = 65536 := rfl
      have hio : protoIobufLen = 16384 := rfl
      have hmax : protoQueryMaxLen = 2 ^ 29 := rfl
      omega
  | bulkWaiting j k c hpast ho hw =>
    rw [hflat] at hw
    have hok : ∀ r ∈ reqs.drop (k - lines.length), RequestOk r := fun r hr => hreqs r (List.mem_of_mem_drop hr)
    obtain ⟨hbusy, hmax⟩ := hw.received (fun r hm => (hok r hm).accepted) hne hlen
    exact ⟨.bulk (j + 1) k _ hpast ho (hbusy (hmax hok)), fun _ => hmax hok⟩

/-- The two bytes discarded for the end of the next line, if it is complete, are its end. -/
def TurnExact (lines : List InlineLine) (k : ℕ) (c : Client) : Prop :=
  ∀ l ls u, lines.drop k = l :: ls → c.query = l.encode ++ u → l.crlf = true ∨ u = []

/-- The turn at a line takes the line and two bytes for its end, and the stage is known again
if these are the end of the line. -/
theorem Stage.turn {σ : Type} (exec : σ → List StrEnc → σ × List ReplyCall) (s : Log σ)
    (hlines : ∀ l ∈ lines, l.Ok) (hreqs : ∀ r ∈ reqs, RequestOk r) (h : Stage lines reqs chunks true j k c) :
    (∃ c', userStep (recorded exec) s c = .ok (.stop s c') ∧ Stage lines reqs chunks false j k c') ∨
    (∃ s' c', userStep (recorded exec) s c = .ok (.next s' c') ∧ c'.query.length < c.query.length ∧
      (s.requests = handedAfter lines reqs k → s'.requests = handedAfter lines reqs (k + 1)) ∧
      (∀ l ls, lines.drop k = l :: ls → ∃ u, c.query = l.encode ++ u ∧
        u ++ (chunks.drop j).flatten = encodeLines ls ++ encodeRequests reqs ∧
        c'.query = u.drop (1 - l.crlf.toNat)) ∧
      (TurnExact lines k c → Stage lines reqs chunks true j (k + 1) c')) := by
  cases h with
  | closing b j k c hclosing hquit =>
    refine .inl ⟨c, ?_, .closing false j k c hclosing hquit⟩
    rw [userStep, if_pos hclosing, ite_self]
    rfl
  | line j k c l ls hdrop ho hno hin hsize hlate =>
    have hl : l.Ok := hlines l (List.mem_of_mem_drop (hdrop ▸ List.mem_cons_self))
    rcases lineTurn exec s hl hin ho hsize with ⟨c', hr, hin', ho', hshort⟩ |
      ⟨u, s', c', hquery, hu, hr, hquery', hlog, hend⟩
    · exact .inl ⟨c', hr, .lineWaiting (j + 1) k c' l ls hdrop ho' hno hin' hshort⟩
    obtain ⟨htake, hdrop', hk⟩ := take_succ_of_drop hdrop
    have hlt : c'.query.length < c.query.length := by
      have := l.encode_length_pos
      rw [hquery', hquery, List.length_drop, List.length_append]
      omega
    refine .inr ⟨s', c', hr, hlt, ?_, ?_, ?_⟩
    · intro hs
      rw [hlog, hs, handedAfter_line hdrop]
    · intro l' ls' he
      obtain ⟨rfl, rfl⟩ := List.cons.inj (hdrop.symm.trans he)
      exact ⟨u, hquery, hu, hquery'⟩
    · intro hexact
      have hrest : c'.query ++ (chunks.drop (j + 1)).flatten = encodeLines ls ++ encodeRequests reqs := by
        rw [hquery', ← hu]
        rcases hexact l ls u hdrop hquery with hc | rfl
        · simp [hc]
        · simp
      rcases hend with ⟨hquit, hclose⟩ | ⟨hquit, hclose, hreset⟩
      · refine .closing true (j + 1) (k + 1) c' hclose (.inr ⟨l, ?_, hquit⟩)
        rw [htake]
        simp
      have hio : protoIobufLen = 16384 := rfl
      have hsmall : c'.query.length ≤ protoIobufLen := by
        rw [hquery, List.length_append] at hsize
        rw [hquery', List.length_drop]
        omega
      have hno' : ∀ l ∈ lines.take (k + 1), isQuit l.args = false := by
        intro l' hl'
        rw [htake, List.mem_append, List.mem_singleton] at hl'
        rcases hl' with hl' | rfl
        · exact hno l' hl'
        · exact hquit
      cases ls with
      | nil =>
        have hlen : lines.length ≤ k + 1 := List.drop_eq_nil_iff.mp hdrop'
        refine .bulk (j + 1) (k + 1) c' hlen hclose (.request _ (.inl hreset.reqType) hreset.multibulkLen
          hreset.bulkLen hreset.argv ?_ (hsmall.trans (by decide)))
        rw [hrest, Nat.sub_eq_zero_of_le (by omega : k + 1 ≤ lines.length)]
        rfl
      | cons l' ls =>
        rw [encodeLines_cons, List.append_assoc] at hrest hlate
        refine .line j (k + 1) c' l' ls hdrop' hclose hno' ⟨.inl hreset.reqType, hreset.multibulkLen,
          hreset.bulkLen, hreset.argv, hrest⟩ (by omega) ?_
        rw [List.length_append] at hlate
        omega
  | bulk j k c hpast ho hbusy =>
    have hok : ∀ r ∈ reqs.drop (k - lines.length), RequestOk r := fun r hr => hreqs r (List.mem_of_mem_drop hr)
    rcases bulkTurn exec s hok hbusy ho with ⟨c', hr, hw, ho'⟩ | ⟨r, reqs', s', c', hdrop, hr, hlt, hlog, hend⟩
    · exact .inl ⟨c', hr, .bulkWaiting j k c' hpast ho' hw⟩
    refine .inr ⟨s', c', hr, hlt, ?_, ?_, fun _ => ?_⟩
    · intro hs
      rw [hlog, hs, handedAfter_bulk hpast hdrop]
    · intro l ls he
      rw [List.drop_eq_nil_of_le hpast] at he
      cases he
    · rcases hend with ⟨hquit, hclose⟩ | ⟨-, hclose, hbusy'⟩
      · have hmem : r ∈ reqs := List.mem_of_mem_drop (hdrop ▸ List.mem_cons_self)
        exact .closing true j (k + 1) c' hclose (.inl ⟨by omega, r, hmem, hquit⟩)
      · refine .bulk j (k + 1) c' (by omega) hclose ?_
        rw [Nat.sub_add_comm hpast, (take_succ_of_drop hdrop).2.1]
        exact hbusy'

end Stages

section Stream
variable {σ : Type} (exec : σ → List StrEnc → σ × List ReplyCall) (s₀ : σ) (fd : ℤ) (lines : List InlineLine)
  (reqs : List (List Bytes)) (chunks : List Bytes)

/-- The states of a new client that gets the chunks. -/
abbrev LineVisit : Bool → ℕ → ℕ → Log σ → Client → Prop :=
  Visit (recorded exec) chunks ⟨s₀, [], []⟩ (rrClientCreate fd)

/-- Every chunk is non-empty and no longer than the length asked of `read`. -/
def ChunksFit : Prop :=
  ∀ j k s c bs, LineVisit exec s₀ fd chunks false j k s c → chunks[j]? = some bs →
    bs ≠ [] ∧ (bs.length : ℤ) ≤ readlen c

/-- Every turn takes one line with its end and nothing behind it, the requests handed over
after `k` turns are those of the first `k` lines, and unless there is a QUIT all requests
are handed over. -/
structure LinesRead : Prop where
  exact : ∀ j k s c s' c', LineVisit exec s₀ fd chunks true j k s c → k < lines.length →
    userStep (recorded exec) s c = .ok (.next s' c') →
    c'.query ++ (chunks.drop j).flatten = encodeLines (lines.drop (k + 1)) ++ encodeRequests reqs
  handed : ∀ b j k s c, LineVisit exec s₀ fd chunks b j k s c → s.requests = handedAfter lines reqs k
  complete : ∃ r, feed (recorded exec) ⟨s₀, [], []⟩ (rrClientCreate fd) chunks = .ok r ∧
    ((∀ q ∈ lineRequests lines ++ reqs, isQuit q = false) →
      ∃ s c, r = some (s, c) ∧ s.requests = lineRequests lines ++ reqs ∧ c.query = [])

/-- No read continues past a bare LF, up to a QUIT. -/
def LfEndsChunk : Prop :=
  ∀ k l, lines[k]? = some l → l.crlf = false → (∀ l' ∈ lines.take k, isQuit l'.args = false) →
    ∃ j, (chunks.take j).flatten = encodeLines (lines.take (k + 1))

variable {exec s₀ fd lines reqs chunks}

theorem Visit.pos {b : Bool} {j k : ℕ} {s : Log σ} {c : Client} (h : LineVisit exec s₀ fd chunks b j k s c)
    (hb : b = true) : 1 ≤ j := by
  induction h with
  | start => cases hb
  | read _ _ _ _ => omega
  | next _ _ ih => exact ih hb
  | stop _ _ _ => cases hb

theorem stage_start (hsplit : chunks.flatten = encodeLines lines ++ encodeRequests reqs) :
    Stage lines reqs chunks false 0 0 (rrClientCreate fd) := by
  cases hl : lines with
  | nil =>
    rw [hl] at hsplit
    exact .bulkWaiting 0 0 _ (Nat.zero_le _) rfl (.idle _ rfl ⟨rfl, rfl, rfl, rfl⟩ hsplit)
  | cons l ls =>
    rw [hl, encodeLines_cons, List.append_assoc] at hsplit
    exact .lineWaiting 0 0 _ l ls rfl rfl (by simp) ⟨.inl rfl, rfl, rfl, rfl, hsplit⟩ l.encode_length_pos

variable (hlines : ∀ l ∈ lines, l.Ok) (hreqs : ∀ r ∈ reqs, RequestOk r)
  (hsplit : chunks.flatten = encodeLines lines ++ encodeRequests reqs) (hfit : ChunksFit exec s₀ fd chunks)
  (hexact : ∀ j k s c s' c', LineVisit exec s₀ fd chunks true j k s c → Stage lines reqs chunks true j k c →
    userStep (recorded exec) s c = .ok (.next s' c') → TurnExact lines k c)

include hlines hreqs hsplit hfit hexact

theorem Visit.stage {b : Bool} {j k : ℕ} {s : Log σ} {c : Client} (h : LineVisit exec s₀ fd chunks b j k s c) :
    Stage lines reqs chunks b j k c ∧ s.requests = handedAfter lines reqs k := by
  induction h with
  | start => exact ⟨stage_start hsplit, by simp [handedAfter, lineRequests]⟩
  | read h hchunk _ ih =>
    obtain ⟨hne, hlen⟩ := hfit _ _ _ _ _ h hchunk
    exact ⟨(ih.1.read hlines hreqs hchunk hne hlen).1, ih.2⟩
  | next h run ih =>
    rcases ih.1.turn exec _ hlines hreqs with ⟨c', hr, -⟩ | ⟨s', c', hr, -, hlog, -, hstage⟩
    · rw [hr] at run
      cases run
    · have hturn := hexact _ _ _ _ _ _ h ih.1 hr
      rw [hr] at run
      cases run
      exact ⟨hstage hturn, hlog ih.2⟩
  | stop h run ih =>
    rcases ih.1.turn exec _ hlines hreqs with ⟨c', hr, hstage⟩ | ⟨s', c', hr, -⟩
    · rw [hr] at run
      cases run
      exact ⟨hstage, ih.2⟩
    · rw [hr] at run
      cases run

theorem Visit.processUserInput {j k : ℕ} {s : Log σ} {c : Client}
    (h : LineVisit exec s₀ fd chunks true j k s c) {fuel : ℕ} (hfuel : c.query.length < fuel) :
    ∃ k' s' c', RhinoRox.processUserInput (recorded exec) fuel s c = .ok (s', c') ∧
      LineVisit exec s₀ fd chunks false j k' s' c' := by
  induction fuel generalizing k s c with
  | zero => omega
  | succ fuel ih =>
    have hstage := (h.stage hlines hreqs hsplit hfit hexact).1
    rw [RhinoRox.processUserInput]
    rcases hstage.turn exec s hlines hreqs with ⟨c', hr, -⟩ | ⟨s', c', hr, hlt, -⟩
    · exact ⟨k, s, c', by rw [hr]; rfl, h.stop hr⟩
    · rw [hr, Exec.ok_bind]
      exact ih (h.next hr) (by omega)

/-- The whole run: it ends in a state between reads, unless the client is freed while closing. -/
theorem Visit.feed {j k : ℕ} {s : Log σ} {c : Client} (h : LineVisit exec s₀ fd chunks false j k s c) :
    ∃ r j' k' s' c', RhinoRox.feed (recorded exec) s c (chunks.drop j) = .ok r ∧
      LineVisit exec s₀ fd chunks false j' k' s' c' ∧
      (r = some (s', c') ∧ chunks.length ≤ j' ∨ r = none ∧ c'.closeAfterReply = true) := by
  induction hn : chunks.length - j generalizing j k s c with
  | zero =>
    rw [List.drop_eq_nil_of_le (by omega)]
    exact ⟨_, j, k, s, c, rfl, h, .inl ⟨rfl, by omega⟩⟩
  | succ n ih =>
    have hj : j < chunks.length := by omega
    have hchunk : chunks[j]? = some chunks[j] := List.getElem?_eq_getElem hj
    obtain ⟨hne, hlen⟩ := hfit _ _ _ _ _ h hchunk
    obtain ⟨-, hsmall⟩ := (h.stage hlines hreqs hsplit hfit hexact).1.read hlines hreqs hchunk hne hlen
    rw [List.drop_eq_getElem_cons hj, RhinoRox.feed, handleReadFromClient,
      if_neg (by simpa using hne)]
    by_cases hmax : (received c chunks[j]).query.length > protoQueryMaxLen
    · rw [if_pos hmax]
      refine ⟨none, j, k, s, c, rfl, h, .inr ⟨rfl, ?_⟩⟩
      by_contra hopen
      exact absurd hmax (not_lt.mpr (hsmall (by simpa using hopen)))
    · rw [if_neg hmax]
      obtain ⟨k', s', c', hr, hv⟩ := (h.read hchunk (not_lt.mp hmax)).processUserInput hlines hreqs hsplit hfit
        hexact (Nat.lt_succ_self _)
      obtain ⟨r, j₂, k₂, s₂, c₂, hr', hv', hend⟩ := ih hv (by omega)
      exact ⟨r, j₂, k₂, s₂, c₂, by simp [hr, hr'], hv', hend⟩

omit hlines hreqs hsplit hfit hexact in
/-- A run that took `k` requests went through every smaller number. -/
theorem Visit.earlier {b : Bool} {j k : ℕ} {s : Log σ} {c : Client} (h : LineVisit exec s₀ fd chunks b j k s c)
    {i : ℕ} (hi : i < k) : ∃ j s c s' c', LineVisit exec s₀ fd chunks true j i s c ∧
      userStep (recorded exec) s c = .ok (.next s' c') := by
  induction h with
  | start => omega
  | read _ _ _ ih => exact ih hi
  | next h run ih =>
    rcases Nat.lt_succ_iff_lt_or_eq.mp hi with hi | rfl
    · exact ih hi
    · exact ⟨_, _, _, _, _, h, run⟩
  | stop _ _ ih => exact ih hi

/-- At the end a QUIT was met or every request was handed over. -/
theorem Visit.finished {j k : ℕ} {s : Log σ} {c : Client} (h : LineVisit exec s₀ fd chunks false j k s c)
    (hend : chunks.length ≤ j ∨ c.closeAfterReply = true) :
    ((lines.length < k ∧ ∃ r ∈ reqs, isQuit r = true) ∨ ∃ l ∈ lines.take k, isQuit l.args = true) ∨
      (lines.length ≤ k ∧ reqs.length ≤ k - lines.length ∧ c.query = [] ∧ c.closeAfterReply = false) := by
  have hstage := (h.stage hlines hreqs hsplit hfit hexact).1
  cases hstage with
  | closing b j k c hclosing hquit => exact .inl hquit
  | lineWaiting j k c l ls hdrop ho hno hin hshort =>
    have htext := congrArg List.length hin.text
    rw [List.drop_eq_nil_of_le (hend.resolve_right (by simp [ho])), List.flatten_nil, List.append_nil,
      List.length_append] at htext
    omega
  | bulkWaiting j k c hpast ho hw =>
    rw [List.drop_eq_nil_of_le (hend.resolve_right (by simp [ho]))] at hw
    obtain ⟨hnil, hq, -⟩ := Waiting.finished hw
    exact .inr ⟨hpast, List.drop_eq_nil_iff.mp hnil, hq, ho⟩

omit hexact hsplit hfit in
theorem LinesRead.turnExact (h : LinesRead exec s₀ fd lines reqs chunks) (j k : ℕ) (s : Log σ) (c : Client)
    (s' : Log σ) (c' : Client) (hv : LineVisit exec s₀ fd chunks true j k s c)
    (hstage : Stage lines reqs chunks true j k c) (run : userStep (recorded exec) s c = .ok (.next s' c')) :
    TurnExact lines k c := by
  intro l ls u hdrop hquery
  obtain ⟨-, hdrop', hk⟩ := take_succ_of_drop hdrop
  have hrest := h.exact j k s c s' c' hv hk run
  rcases hstage.turn exec s hlines hreqs with ⟨c₁, hr, -⟩ | ⟨s₁, c₁, hr, -, -, hline, -⟩
  · rw [hr] at run
    cases run
  rw [hr] at run
  cases run
  obtain ⟨u', hquery', hu, hc⟩ := hline l ls hdrop
  obtain rfl := List.append_cancel_left (hquery.symm.trans hquery')
  rw [hdrop', ← hu, hc] at hrest
  have hlen := congrArg List.length (List.append_cancel_right hrest)
  rw [List.length_drop] at hlen
  cases hcr : l.crlf with
  | true => exact .inl rfl
  | false =>
    rw [hcr] at hlen
    exact .inr (List.eq_nil_of_length_eq_zero (by simp at hlen; omega))

omit hexact in
/-- If all lines are read exactly, every bare LF that is reached ends its chunk. -/
theorem LinesRead.lfEndsChunk (h : LinesRead exec s₀ fd lines reqs chunks) : LfEndsChunk lines chunks := by
  intro k l hl hlf hno
  have hexact := h.turnExact hlines hreqs
  obtain ⟨hk, hget⟩ := List.getElem?_eq_some_iff.mp hl
  have hdrop : lines.drop k = l :: lines.drop (k + 1) := by rw [List.drop_eq_getElem_cons hk, hget]
  obtain ⟨r, j₁, k₁, s₁, c₁, -, hv₁, hend⟩ :=
    Visit.feed hlines hreqs hsplit hfit hexact (.start : LineVisit exec s₀ fd chunks _ _ _ _ _)
  -- the run gets past the line, since only a QUIT before it could stop it
  have hlt : k < k₁ := by
    rcases hv₁.finished hlines hreqs hsplit hfit hexact (hend.imp And.right And.right) with
      (⟨hlt, -⟩ | ⟨l', hl', hquit⟩) | ⟨hle, -⟩
    · omega
    · by_contra hge
      have := hno l' ((List.take_subset_take_left lines (not_lt.mp hge)) hl')
      rw [hquit] at this
      cases this
    · omega
  obtain ⟨j, s, c, s', c', hv, hr⟩ := hv₁.earlier hlt
  have hstage := (hv.stage hlines hreqs hsplit hfit hexact).1
  have hturn := hexact j k s c s' c' hv hstage hr
  rcases hstage.turn exec s hlines hreqs with ⟨c₂, hr₂, -⟩ | ⟨s₂, c₂, -, -, -, hline, -⟩
  · rw [hr] at hr₂
    cases hr₂
  obtain ⟨u, hquery, hu, -⟩ := hline l _ hdrop
  have hnil : u = [] := (hturn l _ u hdrop hquery).resolve_left (by simp [hlf])
  subst hnil
  rw [List.nil_append] at hu
  have hall : (chunks.take j).flatten ++ (chunks.drop j).flatten =
      encodeLines (lines.take (k + 1)) ++ (chunks.drop j).flatten := by
    rw [← List.flatten_append, List.take_append_drop, hsplit, hu, ← List.append_assoc, encodeLines, encodeLines,
      encodeLines, ← List.flatMap_append, List.take_append_drop]
  exact ⟨j, List.append_cancel_right hall⟩

omit hlines hreqs hfit hexact in
/-- If every bare LF ends its chunk, nothing follows it in the buffer when it is taken. -/
theorem LfEndsChunk.turnExact (h : LfEndsChunk lines chunks) {j k : ℕ} {s s' : Log σ} {c c' : Client}
    (hstage : Stage lines reqs chunks true j k c) (run : userStep (recorded exec) s c = .ok (.next s' c')) :
    TurnExact lines k c := by
  intro l ls u hdrop hquery
  cases hstage with
  | closing b j k c hclosing hquit =>
    rw [userStep, if_pos hclosing, ite_self] at run
    cases run
  | bulk j k c hpast ho hbusy =>
    rw [List.drop_eq_nil_of_le hpast] at hdrop
    cases hdrop
  | line j k c l' ls' hdrop' ho hno hin hsize hlate =>
    obtain ⟨rfl, rfl⟩ := List.cons.inj (hdrop'.symm.trans hdrop)
    obtain ⟨-, hdrop₁, hk⟩ := take_succ_of_drop hdrop
    cases hcr : l'.crlf with
    | true => exact .inl rfl
    | false =>
      have hget : lines[k]? = some l' := by rw [← List.head?_drop, hdrop, List.head?_cons]
      obtain ⟨i, hi⟩ := h k l' hget hcr hno
      -- what is left behind the line is what is left behind the chunk that ends with it
      have hrest : (chunks.drop i).flatten = encodeLines ls' ++ encodeRequests reqs := by
        have hall : (chunks.take i).flatten ++ (chunks.drop i).flatten =
            (chunks.take i).flatten ++ (encodeLines ls' ++ encodeRequests reqs) := by
          rw [← List.flatten_append, List.take_append_drop, hsplit, hi, ← List.append_assoc, ← hdrop₁, encodeLines,
            encodeLines, encodeLines, ← List.flatMap_append, List.take_append_drop]
        exact List.append_cancel_left hall
      have hmono : ∀ {a b : ℕ}, a ≤ b → (chunks.drop b).flatten.length ≤ (chunks.drop a).flatten.length :=
        fun hab => (List.drop_sublist_drop_left chunks hab).flatten.length_le
      have hle : j + 1 ≤ i := by
        by_contra hlt
        have := hmono (show i ≤ j by omega)
        rw [hrest] at this
        omega
      have hfuture := hmono hle
      have htext := congrArg List.length hin.text
      rw [hquery, List.append_assoc, List.length_append, List.length_append, List.length_append, ← hrest] at htext
      exact .inr (List.eq_nil_of_length_eq_zero (by omega))

omit hexact in
theorem LfEndsChunk.linesRead (h : LfEndsChunk lines chunks) : LinesRead exec s₀ fd lines reqs chunks := by
  have hexact : ∀ j k s c s' c', LineVisit exec s₀ fd chunks true j k s c → Stage lines reqs chunks true j k c →
      userStep (recorded exec) s c = .ok (.next s' c') → TurnExact lines k c :=
    fun j k s c s' c' _ hstage run => h.turnExact hsplit hstage run
  refine ⟨?_, fun b j k s c hv => (hv.stage hlines hreqs hsplit hfit hexact).2, ?_⟩
  · intro j k s c s' c' hv hk run
    have hstage := (hv.stage hlines hreqs hsplit hfit hexact).1
    have hturn := hexact j k s c s' c' hv hstage run
    rcases hstage.turn exec s hlines hreqs with ⟨c₁, hr, -⟩ | ⟨s₁, c₁, hr, -, -, hline, -⟩
    · rw [hr] at run
      cases run
    rw [hr] at run
    cases run
    obtain ⟨u, hquery, hu, hc⟩ := hline _ _ (List.drop_eq_getElem_cons hk)
    rw [← hu, hc]
    rcases hturn _ _ u (List.drop_eq_getElem_cons hk) hquery with hcr | rfl
    · simp [hcr]
    · simp
  · obtain ⟨r, j, k, s, c, hr, hv, hend⟩ :=
      Visit.feed hlines hreqs hsplit hfit hexact (.start : LineVisit exec s₀ fd chunks _ _ _ _ _)
    refine ⟨r, hr, fun hno => ?_⟩
    have hline : ∀ l ∈ lines, isQuit l.args = false := by
      intro l hl
      by_cases hargs : l.args = []
      · rw [hargs]
        decide
      · refine hno _ (List.mem_append_left _ ?_)
        simp only [lineRequests, List.mem_filter, List.mem_map]
        exact ⟨⟨l, hl, rfl⟩, by simpa using hargs⟩
    rcases hv.finished hlines hreqs hsplit hfit hexact (hend.imp And.right And.right) with
      (⟨-, q, hq, hquit⟩ | ⟨l, hl, hquit⟩) | ⟨hle, hle', hq, ho⟩
    · rw [hno q (List.mem_append_right _ hq)] at hquit
      cases hquit
    · rw [hline l (List.mem_of_mem_take hl)] at hquit
      cases hquit
    · rcases hend with ⟨rfl, -⟩ | ⟨-, hclosing⟩
      · refine ⟨s, c, rfl, ?_, hq⟩
        rw [(hv.stage hlines hreqs hsplit hfit hexact).2, handedAfter, List.take_of_length_le hle,
          List.take_of_length_le hle']
      · rw [ho] at hclosing
        cases hclosing

end Stream

/-- Lines and encoded requests in any chunks are read back, each line with its own end and
nothing else, exactly when no read continues past a bare LF. -/
theorem inline_requests_iff {σ : Type} (exec : σ → List StrEnc → σ × List ReplyCall) (s₀ : σ) (fd : ℤ)
    (lines : List InlineLine) (reqs : List (List Bytes)) (chunks : List Bytes) (hlines : ∀ l ∈ lines, l.Ok)
    (hreqs : ∀ r ∈ reqs, RequestOk r) (hsplit : chunks.flatten = encodeLines lines ++ encodeRequests reqs)
    (hfit : ChunksFit exec s₀ fd chunks) :
    LinesRead exec s₀ fd lines reqs chunks ↔ LfEndsChunk lines chunks :=
  ⟨fun h => h.lfEndsChunk hlines hreqs hsplit hfit, fun h => h.linesRead hlines hreqs hsplit hfit⟩

theorem chunksFit_single {σ : Type} (exec : σ → List StrEnc → σ × List ReplyCall) (s₀ : σ) (fd : ℤ) {bs : Bytes}
    (hne : bs ≠ []) (hlen : bs.length ≤ protoIobufLen) : ChunksFit exec s₀ fd [bs] := by
  intro j k s c bs' hv hchunk
  obtain ⟨rfl, rfl⟩ : j = 0 ∧ bs' = bs := by
    cases j with
    | zero => exact ⟨rfl, (Option.some.inj hchunk).symm⟩
    | succ j => cases hchunk
  refine ⟨hne, ?_⟩
  cases hv with
  | start =>
    rw [readlen, if_neg (by simp [rrClientCreate])]
    exact_mod_cast hlen
  | stop h _ =>
    have := h.pos rfl
    omega

theorem pingLine_ok (crlf : Bool) : InlineLine.Ok ⟨ascii "PING", crlf⟩ := by
  cases crlf <;> constructor <;> decide +kernel

/-- A handler that does nothing. -/
def idleHandler (s : Unit) (_ : List StrEnc) : Unit × List ReplyCall := (s, [])

/-- One read with a line that ends in CR LF and a line that ends in LF. -/
theorem inline_requests_iff_two_lines :
    LinesRead idleHandler () 5 [⟨ascii "PING", true⟩, ⟨ascii "PING", false⟩] [] [ascii "PING\r\nPING\n"] := by
  refine (inline_requests_iff idleHandler () 5 _ [] _ ?_ (by simp) (by decide)
    (chunksFit_single _ _ _ (by decide) (by decide))).mpr ?_
  · intro l hl
    simp only [List.mem_cons, List.not_mem_nil, or_false] at hl
    rcases hl with rfl | rfl <;> exact pingLine_ok _
  · intro k l hl hlf _
    match k with
    | 0 =>
      cases hl
      cases hlf
    | 1 => exact ⟨1, by decide⟩
    | k + 2 => cases hl

/-- Two lines that end in LF in one read: the second one arrives as `ING`. -/
theorem inline_requests_bare_lf :
    (∀ l ∈ [(⟨ascii "PING", false⟩ : InlineLine), ⟨ascii "PING", false⟩], l.Ok) ∧
    ChunksFit idleHandler () 5 [ascii "PING\nPING\n"] ∧
    (feed (recorded idleHandler) ⟨(), [], []⟩ (rrClientCreate 5) [ascii "PING\nPING\n"]).map
      (fun r => r.map fun r => r.1.requests) = .ok (some [[ascii "PING"], [ascii "ING"]]) ∧
    ¬ LinesRead idleHandler () 5 [⟨ascii "PING", false⟩, ⟨ascii "PING", false⟩] [] [ascii "PING\nPING\n"] := by
  have hlines : ∀ l ∈ [(⟨ascii "PING", false⟩ : InlineLine), ⟨ascii "PING", false⟩], l.Ok := by
    intro l hl
    simp only [List.mem_cons, List.not_mem_nil, or_false] at hl
    rcases hl with rfl | rfl <;> exact pingLine_ok _
  have hfit : ChunksFit idleHandler () 5 [ascii "PING\nPING\n"] := chunksFit_single _ _ _ (by decide) (by decide)
  refine ⟨hlines, hfit, by decide +kernel, fun h => ?_⟩
  obtain ⟨j, hj⟩ := h.lfEndsChunk hlines (by simp) (by decide) hfit 0 _ rfl rfl (by simp)
  cases j with
  | zero =>
    revert hj
    decide
  | succ j =>
    revert hj
    simp only [List.take_succ_cons, List.take_nil]
    decide

end RhinoRox
