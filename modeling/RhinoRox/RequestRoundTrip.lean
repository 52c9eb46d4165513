import RhinoRox.ParserSafety
import RhinoRox.Resp

/-!
# Encoded requests are read back in every chunking

The bytes in the query buffer followed by those still on the way are, at each point of
the parser, the encoding of what is left to read.
-/

namespace RhinoRox

theorem strchr_append {pre rest : Bytes} {b : UInt8} (hb : b ∉ pre) (h0 : 0 ∉ pre) (hz : b ≠ 0) :
    strchr (pre ++ b :: rest) b = some pre.length := by
  have hc : cStr (pre ++ b :: rest) = pre ++ b :: cStr rest := by
    simp only [cStr]
    rw [List.takeWhile_append_of_pos, List.takeWhile_cons_of_pos]
    · simpa using hz
    · intro x hx
      simpa using fun h : x = 0 => h0 (h ▸ hx)
  rw [strchr, hc, List.findIdx?_append, List.findIdx?_eq_none_iff.mpr]
  · simp [List.findIdx?_cons]
  · intro x hx
    simpa using fun h : x = b => hb (h ▸ hx)

theorem strchr_eq_none {s : Bytes} {b : UInt8} (hb : b ∉ s) : strchr s b = none := by
  rw [strchr, List.findIdx?_eq_none_iff]
  intro x hx
  have : x ∈ s := (List.takeWhile_prefix _).subset hx
  simpa using fun h : x = b => hb (h ▸ this)

/-- What is available of a line: all of it, or less than its length, in which case the
line end is not seen. -/
theorem line_cases {avail future pre tail : Bytes} (h : avail ++ future = pre ++ 13 :: 10 :: tail)
    (h13 : 13 ∉ pre) (h0 : 0 ∉ pre) :
    (∃ rest, avail = pre ++ 13 :: 10 :: rest ∧ rest ++ future = tail) ∨
    (avail.length < pre.length + 2 ∧
      (strchr avail 13 = none ∨ strchr avail 13 = some pre.length ∧ avail.length = pre.length + 1)) := by
  rcases List.append_eq_append_iff.mp h with ⟨u, hpre, -⟩ | ⟨u, havail, hu⟩
  · refine .inr ⟨by rw [hpre]; simp; omega, .inl (strchr_eq_none fun hm => h13 ?_)⟩
    rw [hpre]
    exact List.mem_append_left _ hm
  · cases u with
    | nil =>
      refine .inr ⟨by rw [havail]; simp, .inl (strchr_eq_none fun hm => h13 ?_)⟩
      simpa [havail] using hm
    | cons x u =>
      obtain ⟨rfl, hu₁⟩ : 13 = x ∧ 10 :: tail = u ++ future := by simpa using hu
      cases u with
      | nil =>
        refine .inr ⟨by rw [havail]; simp, .inr ⟨?_, by rw [havail]; simp⟩⟩
        rw [havail]
        exact strchr_append h13 h0 (by decide)
      | cons y u =>
        obtain ⟨rfl, hu₂⟩ : 10 = y ∧ tail = u ++ future := by simpa using hu₁
        exact .inl ⟨u, havail, hu₂.symm⟩

/-- The first byte and the digits of a header line. -/
def headerText (b : UInt8) (n : ℕ) : Bytes := b :: decimalText n

theorem headerLine_eq (b : UInt8) (n : ℕ) : headerLine b n = headerText b n ++ [13, 10] := rfl

theorem headerText_notMem {b x : UInt8} {n : ℕ} (hb : x ≠ b) (hx : x < 48) : x ∉ headerText b n := by
  intro h
  rcases List.mem_cons.mp h with rfl | h
  · exact hb rfl
  · have := (mem_decimalText h).1
    exact absurd hx (UInt8.not_lt.mpr this)

theorem headerText_length_le {b : UInt8} {n : ℕ} (h : n < 10 ^ 9) : (headerText b n).length ≤ 10 := by
  have := decimalText_length_le h
  simp [headerText]
  omega

/-- The number in a complete header line. -/
theorem string2llLen_headerText {b : UInt8} {n : ℕ} (hn : n < 10 ^ 9) (rest : Bytes) :
    string2llLen ((headerText b n ++ rest).drop 1) (subSize (headerText b n).length 1) = some (n : ℤ) := by
  have hlen := decimalText_length_le hn
  rw [subSize_of_le (by simp [headerText]) (by simp [headerText]; omega)]
  simp only [headerText, List.cons_append, List.drop_succ_cons, List.drop_zero, List.length_cons,
    Nat.add_sub_cancel, string2llLen, List.length_append, Nat.le_add_right, if_true,
    List.take_left']
  exact string2ll_decimalText (by omega)

/-- The arguments that requests may have. -/
def ArgOk (a : Bytes) : Prop := a.length ≤ 512 * 1024 * 1024 - 2

structure RequestOk (r : List Bytes) : Prop where
  pos : 1 ≤ r.length
  le : r.length ≤ 1024 * 1024
  args : ∀ a ∈ r, ArgOk a

/-- The requests whose count and lengths `process_multi_bulk_input` accepts. -/
structure RequestAccepted (r : List Bytes) : Prop where
  pos : 1 ≤ r.length
  le : r.length ≤ 1024 * 1024
  args : ∀ a ∈ r, a.length ≤ 512 * 1024 * 1024

theorem RequestOk.accepted {r : List Bytes} (h : RequestOk r) : RequestAccepted r :=
  ⟨h.pos, h.le, fun a ha => (h.args a ha).trans (Nat.sub_le _ _)⟩

/-- The text still to come for the arguments of a request, with the bulk length of the
first one already read or not. -/
def Pending (bulkLen : ℤ) (rest : List Bytes) (tail text : Bytes) : Prop :=
  bulkLen = -1 ∧ text = encodeArgs rest ++ tail ∨
    ∃ a args, rest = a :: args ∧ bulkLen = a.length ∧ text = a ++ 13 :: 10 :: (encodeArgs args ++ tail)

/-- In the loop over the arguments: `done` was read, `rest` is to be read, `future` has not
arrived yet and `tail` follows the request. -/
structure Reading (c : Client) (pos : ℕ) (done rest : List Bytes) (future tail : Bytes) : Prop where
  pos_le : pos ≤ c.query.length
  query_le : c.query.length ≤ protoQueryMaxLen
  multibulk : c.reqType = .multibulk
  count : c.multibulkLen = rest.length
  argv : c.argv.map StrEnc.bytes = done
  argvSize : c.argvSize = done.length + rest.length
  args : ∀ a ∈ rest, a.length ≤ 512 * 1024 * 1024
  read : ∀ a ∈ done, ArgOk a
  size : c.query.length ≤ protoInlineMaxLen ∨
    pos = 0 ∧ (protoMbulkBigArg : ℤ) ≤ c.bulkLen ∧ c.query.length ≤ c.bulkLen + 2
  text : Pending c.bulkLen rest tail (c.query.drop pos ++ future)

/-- The output side and the descriptor of a client with the input side of another. -/
def Client.withInput (c d : Client) : Client :=
  { c with
    reqType := d.reqType
    multibulkLen := d.multibulkLen
    bulkLen := d.bulkLen
    query := d.query
    argv := d.argv
    argvSize := d.argvSize }

/-- The next argument is incomplete behind `pos`. -/
def ShortAt (c : Client) (pos : ℕ) (rest : List Bytes) : Prop :=
  ∃ a args, rest = a :: args ∧
    (c.bulkLen = -1 ∧ c.query.length - pos < (headerText 36 a.length).length + 2 ∨
      c.bulkLen = a.length ∧ c.query.length - pos < a.length + 2)

section Bulk
variable {c : Client} {pos : ℕ} {done rest : List Bytes} {future tail : Bytes}

theorem exists_rest_of_length {avail future text tail : Bytes} (h : avail ++ future = text ++ tail)
    (hl : text.length ≤ avail.length) : ∃ rest, avail = text ++ rest ∧ rest ++ future = tail := by
  rcases List.append_eq_append_iff.mp h with ⟨u, htext, hu⟩ | ⟨u, havail, hu⟩
  · have hnil : u = [] := by
      have := congrArg List.length htext
      simp only [List.length_append] at this
      exact List.eq_nil_of_length_eq_zero (by omega)
    subst hnil
    exact ⟨[], by simpa using htext.symm, by simpa using hu⟩
  · exact ⟨u, havail, hu.symm⟩

/-- Reading a bulk length of an encoded request. -/
theorem readBulkLen_reading {a : Bytes} {args : List Bytes}
    (h : Reading c pos done (a :: args) future tail) :
    (readBulkLen c pos = .stop c pos ∧ ShortAt c pos (a :: args)) ∨
    (∃ c' pos', readBulkLen c pos = .next c' pos' ∧ Reading c' pos' done (a :: args) future tail ∧
      c'.bulkLen = a.length ∧ ∀ d, c'.withInput d = c.withInput d) := by
  have hmax : protoQueryMaxLen = 2 ^ 29 := rfl
  have hinl : protoInlineMaxLen = 65536 := rfl
  have hbigc : protoMbulkBigArg = 32768 := rfl
  have hq := h.query_le
  have hp := h.pos_le
  have ha := h.args a List.mem_cons_self
  rcases h.text with ⟨hb, ht⟩ | ⟨a', args', he, hb, ht⟩
  · have hsize : c.query.length ≤ protoInlineMaxLen := by
      rcases h.size with hs | hs
      · exact hs
      · omega
    have hline : c.query.drop pos ++ future =
        headerText 36 a.length ++ 13 :: 10 :: (a ++ 13 :: 10 :: (encodeArgs args ++ tail)) := by
      simpa [encodeArg, headerLine_eq] using ht
    rw [readBulkLen, if_pos hb]
    rcases line_cases hline (headerText_notMem (by decide) (by decide))
        (headerText_notMem (by decide) (by decide)) with ⟨text, havail, hrest⟩ | ⟨hlt, hnone | ⟨hsome, hlen⟩⟩
    · have hfind : strchr (c.query.drop pos) 13 = some (headerText 36 a.length).length := by
        rw [havail]
        exact strchr_append (headerText_notMem (by decide) (by decide))
          (headerText_notMem (by decide) (by decide)) (by decide)
      have hlen : c.query.length - pos = (headerText 36 a.length).length + 2 + text.length := by
        have := congrArg List.length havail
        simp only [List.length_drop, List.length_append, List.length_cons] at this
        omega
      have hbyte : byteAt c.query pos = 36 := by
        have h36 : (c.query.drop pos)[0]? = some 36 := by
          rw [havail]
          rfl
        rw [List.getElem?_drop, Nat.add_zero] at h36
        simp [byteAt, List.getD_eq_getElem?_getD, h36]
      have hnum : string2llLen (c.query.drop (pos + 1)) (subSize (headerText 36 a.length).length 1) =
          some (a.length : ℤ) := by
        rw [← List.drop_drop, havail]
        exact string2llLen_headerText (by omega) _
      have hdrop : c.query.drop (pos + (headerText 36 a.length).length + 2) = text := by
        rw [Nat.add_assoc, ← List.drop_drop, havail]
        simp [List.drop_append]
      rw [hfind]
      dsimp only
      rw [toInt32_of_lt (by omega) (by omega), if_neg (by omega), if_neg (by simp [hbyte]), hnum]
      dsimp only
      rw [if_neg (by omega)]
      have hpend : Pending a.length (a :: args) tail (text ++ future) :=
        .inr ⟨a, args, rfl, rfl, hrest⟩
      by_cases hbig : (a.length : ℤ) ≥ protoMbulkBigArg
      · rw [if_pos hbig, sdsrange_from (by omega) (by omega), hdrop]
        refine .inr ⟨_, _, rfl, ⟨Nat.zero_le _, ?_, h.multibulk, h.count, h.argv, h.argvSize, h.args,
          h.read, .inl ?_, ?_⟩, rfl, fun _ => rfl⟩
        · dsimp only
          omega
        · dsimp only
          omega
        · simpa using hpend
      · rw [if_neg hbig]
        refine .inr ⟨_, _, rfl, ⟨?_, hq, h.multibulk, h.count, h.argv, h.argvSize, h.args,
          h.read, .inl hsize, ?_⟩, rfl, fun _ => rfl⟩
        · dsimp only
          omega
        · simpa [hdrop] using hpend
    · rw [hnone]
      dsimp only
      rw [if_neg (by omega)]
      exact .inl ⟨rfl, a, args, rfl, .inl ⟨hb, by simpa using hlt⟩⟩
    · rw [hsome]
      dsimp only
      rw [List.length_drop] at hlen
      rw [toInt32_of_lt (by omega) (by omega), if_pos (by omega)]
      exact .inl ⟨rfl, a, args, rfl, .inl ⟨hb, by simpa using hlt⟩⟩
  · obtain ⟨rfl, rfl⟩ : a = a' ∧ args = args' := by simpa using he
    refine .inr ⟨c, pos, ?_, h, hb, fun _ => rfl⟩
    rw [readBulkLen, if_neg (by omega)]

/-- Reading an argument of an encoded request. -/
theorem readBulkArg_reading {a : Bytes} {args : List Bytes}
    (h : Reading c pos done (a :: args) future tail) (hb : c.bulkLen = a.length) :
    (readBulkArg c pos = .ok (.stop c pos) ∧ ShortAt c pos (a :: args)) ∨
    (∃ c' pos', readBulkArg c pos = .ok (.next c' pos') ∧
      Reading c' pos' (done ++ [a]) args future tail ∧ ∀ d, c'.withInput d = c.withInput d) := by
  have hmax : protoQueryMaxLen = 2 ^ 29 := rfl
  have hbigc : protoMbulkBigArg = 32768 := rfl
  have hinl : protoInlineMaxLen = 65536 := rfl
  have hq := h.query_le
  have hp := h.pos_le
  have ha := h.args a List.mem_cons_self
  have htext : c.query.drop pos ++ future = (a ++ [13, 10]) ++ (encodeArgs args ++ tail) := by
    rcases h.text with ⟨hb', -⟩ | ⟨a', args', he, -, ht⟩
    · omega
    · obtain ⟨rfl, rfl⟩ : a = a' ∧ args = args' := by simpa using he
      simpa using ht
  have hargs : ∀ x ∈ args, x.length ≤ 512 * 1024 * 1024 := fun x hx => h.args x (List.mem_cons_of_mem _ hx)
  have hcount := h.count
  have hsz := h.argvSize
  have hdone : c.argv.length = done.length := by rw [← h.argv, List.length_map]
  rw [List.length_cons] at hcount hsz
  have hpush : ∀ o : StrEnc, pushArg c o = .ok { c with argv := c.argv ++ [o] } := by
    intro o
    rw [pushArg, if_pos (by omega)]
    rfl
  have hbs : bulkSize c = a.length + 2 := by
    rw [bulkSize, hb, Int.emod_eq_of_lt (by omega) (by omega)]
    omega
  rw [readBulkArg, hbs, subSize_of_le hp (by omega)]
  by_cases hs : c.query.length - pos < a.length + 2
  · rw [if_pos hs]
    exact .inl ⟨rfl, a, args, rfl, .inr ⟨hb, hs⟩⟩
  rw [if_neg hs]
  have hread : ∀ x ∈ done ++ [a], ArgOk x := by
    intro x hx
    rcases List.mem_append.mp hx with hx | hx
    · exact h.read x hx
    · rw [List.mem_singleton.mp hx, ArgOk]
      omega
  obtain ⟨text, hd, hf⟩ := exists_rest_of_length htext (by simp; omega)
  have hlen : c.query.length - pos = a.length + 2 + text.length := by
    have := congrArg List.length hd
    simp only [List.length_drop, List.length_append, List.length_cons, List.length_nil] at this
    omega
  rw [toInt32_of_lt (by omega) (by omega)]
  by_cases hbig : pos = 0 ∧ c.bulkLen ≥ protoMbulkBigArg ∧ (c.query.length : ℤ) = c.bulkLen + 2
  · obtain ⟨h0, hge, heq⟩ := hbig
    rw [if_pos ⟨h0, hge, heq⟩, hpush]
    subst h0
    have hnil : text = [] := List.eq_nil_of_length_eq_zero (by omega)
    subst hnil
    have hquery : c.query = a ++ [13, 10] := by simpa using hd
    refine .inr ⟨_, _, rfl, ⟨Nat.zero_le _, by simp, h.multibulk, ?_, ?_, ?_, hargs, hread, .inl (by simp), ?_⟩,
      fun _ => rfl⟩
    · dsimp only
      omega
    · simp [h.argv, hquery]
    · simp only [List.length_append, List.length_singleton]
      omega
    · exact .inl ⟨rfl, by simpa using hf⟩
  · rw [if_neg hbig, hpush]
    have hpos : pos + (c.bulkLen + 2).toNat = pos + (a.length + 2) := by rw [hb]; omega
    have hdrop : c.query.drop (pos + (a.length + 2)) = text := by
      rw [← List.drop_drop, hd]
      simp
    rw [Exec.ok_bind, hpos]
    refine .inr ⟨_, _, rfl, ⟨?_, hq, h.multibulk, ?_, ?_, ?_, hargs, hread, .inl ?_, ?_⟩, fun _ => rfl⟩
    · dsimp only
      omega
    · dsimp only
      omega
    · simp only [List.map_append, List.map_cons, List.map_nil, createStringObject_bytes, h.argv, hd]
      simp [hb]
    · simp only [List.length_append, List.length_singleton]
      omega
    · rcases h.size with hsize | ⟨h0, hge, hle⟩
      · exact hsize
      · exact absurd ⟨h0, hge, by omega⟩ hbig
    · exact .inl ⟨rfl, by rw [hdrop]; exact hf⟩

theorem bulkStep_reading {a : Bytes} {args : List Bytes}
    (h : Reading c pos done (a :: args) future tail) :
    (∃ c' pos', bulkStep c pos = .ok (.stop c' pos') ∧ Reading c' pos' done (a :: args) future tail ∧
      ShortAt c' pos' (a :: args) ∧ ∀ d, c'.withInput d = c.withInput d) ∨
    (∃ c' pos', bulkStep c pos = .ok (.next c' pos') ∧
      Reading c' pos' (done ++ [a]) args future tail ∧ ∀ d, c'.withInput d = c.withInput d) := by
  rw [bulkStep, if_neg (not_lt.mpr h.pos_le)]
  rcases readBulkLen_reading h with ⟨hr, hs⟩ | ⟨c₁, pos₁, hr, h₁, hb, ho⟩
  · rw [hr]
    exact .inl ⟨c, pos, rfl, h, hs, fun _ => rfl⟩
  · rw [hr]
    dsimp only
    rcases readBulkArg_reading h₁ hb with ⟨ha, hs⟩ | ⟨c₂, pos₂, ha, h₂, ho₂⟩
    · exact .inl ⟨c₁, pos₁, ha, h₁, hs, ho⟩
    · exact .inr ⟨c₂, pos₂, ha, h₂, fun d => (ho₂ d).trans (ho d)⟩

/-- The loop over the arguments reads them all or stops at an incomplete one. -/
theorem bulkLoop_reading (h : Reading c pos done rest future tail) :
    ∃ c' pos', bulkLoop rest.length c pos = .ok (.go (c', pos')) ∧ (∀ d, c'.withInput d = c.withInput d) ∧
      ((∃ done' rest', Reading c' pos' done' rest' future tail ∧ done' ++ rest' = done ++ rest ∧
          ShortAt c' pos' rest') ∨
        Reading c' pos' (done ++ rest) [] future tail) := by
  induction rest generalizing c pos done with
  | nil => exact ⟨c, pos, rfl, fun _ => rfl, .inr (by simpa using h)⟩
  | cons a args ih =>
    rw [List.length_cons, bulkLoop]
    rcases bulkStep_reading h with ⟨c', pos', hr, h', hs, ho⟩ | ⟨c₁, pos₁, hr, h₁, ho⟩
    · rw [hr]
      exact ⟨c', pos', rfl, ho, .inl ⟨done, a :: args, h', rfl, hs⟩⟩
    · rw [hr, Exec.ok_bind]
      obtain ⟨c', pos', hl, ho', hd⟩ := ih h₁
      refine ⟨c', pos', hl, fun d => (ho' d).trans (ho d), ?_⟩
      simpa using hd

end Bulk

/-- The parser's fields after a reset. -/
structure Client.IsReset (c : Client) : Prop where
  reqType : c.reqType = .unset
  multibulkLen : c.multibulkLen = 0
  bulkLen : c.bulkLen = -1
  argv : c.argv = []

/-- Between reads: nothing buffered, a partial header line, or a partial argument. The
list holds the requests that were not executed yet. -/
inductive Waiting (c : Client) (future : Bytes) : List (List Bytes) → Prop where
  | idle (reqs : List (List Bytes)) (query : c.query = []) (reset : c.IsReset)
      (text : future = encodeRequests reqs) : Waiting c future reqs
  | header (r : List Bytes) (reqs : List (List Bytes)) (multibulk : c.reqType = .multibulk)
      (count : c.multibulkLen = 0) (bulkLen : c.bulkLen = -1) (argv : c.argv = [])
      (text : c.query ++ future = encodeRequests (r :: reqs))
      (short : c.query.length < (headerText 42 r.length).length + 2) : Waiting c future (r :: reqs)
  | args (done rest : List Bytes) (reqs : List (List Bytes))
      (reading : Reading c 0 done rest future (encodeRequests reqs)) (short : ShortAt c 0 rest) :
      Waiting c future ((done ++ rest) :: reqs)

/-- At the head of the loop over the query buffer: at a request, or inside one. -/
inductive Busy (c : Client) (future : Bytes) : List (List Bytes) → Prop where
  | request (reqs : List (List Bytes)) (reqType : c.reqType = .unset ∨ c.reqType = .multibulk ∧ c.query ≠ [])
      (count : c.multibulkLen = 0) (bulkLen : c.bulkLen = -1) (argv : c.argv = [])
      (text : c.query ++ future = encodeRequests reqs) (small : c.query.length ≤ protoInlineMaxLen) :
      Busy c future reqs
  | args (done rest : List Bytes) (reqs : List (List Bytes)) (nonempty : rest ≠ [])
      (reading : Reading c 0 done rest future (encodeRequests reqs)) : Busy c future ((done ++ rest) :: reqs)

section Requests
variable {c : Client} {future : Bytes} {reqs : List (List Bytes)}

theorem RequestAccepted.length_lt {r : List Bytes} (h : RequestAccepted r) : r.length < 10 ^ 9 := by
  have := h.le
  omega

/-- The header of an encoded request: incomplete, or its arguments are next. -/
theorem multiBulkHeader_request {r : List Bytes} (hr : RequestAccepted r) (ht : c.reqType = .multibulk)
    (hm : c.multibulkLen = 0) (hb : c.bulkLen = -1) (hargv : c.argv = [])
    (htext : c.query ++ future = encodeRequests (r :: reqs)) (hsmall : c.query.length ≤ protoInlineMaxLen) :
    (multiBulkHeader c = .ok (.ret .error c) ∧ c.query.length < (headerText 42 r.length).length + 2) ∨
    (∃ c' pos, multiBulkHeader c = .ok (.go (c', pos)) ∧
      Reading c' pos [] r future (encodeRequests reqs) ∧ ∀ d, c'.withInput d = c.withInput d) := by
  have hmax : protoQueryMaxLen = 2 ^ 29 := rfl
  have hinl : protoInlineMaxLen = 65536 := rfl
  have hr1 := hr.pos
  have hr2 := hr.le
  have hline : c.query ++ future =
      headerText 42 r.length ++ 13 :: 10 :: (encodeArgs r ++ encodeRequests reqs) := by
    simpa [encodeRequest, headerLine_eq] using htext
  rw [multiBulkHeader, if_pos hm, if_neg (by simp [hargv])]
  rcases line_cases hline (headerText_notMem (by decide) (by decide))
      (headerText_notMem (by decide) (by decide)) with ⟨text, havail, hrest⟩ | ⟨hlt, hnone | ⟨hsome, hlen⟩⟩
  · have hfind : strchr c.query 13 = some (headerText 42 r.length).length := by
      rw [havail]
      exact strchr_append (headerText_notMem (by decide) (by decide))
        (headerText_notMem (by decide) (by decide)) (by decide)
    have hlen : c.query.length = (headerText 42 r.length).length + 2 + text.length := by
      have := congrArg List.length havail
      simp only [List.length_append, List.length_cons] at this
      omega
    have hnum : string2llLen (c.query.drop 1) (subSize (headerText 42 r.length).length 1) =
        some (r.length : ℤ) := by
      rw [havail]
      exact string2llLen_headerText hr.length_lt _
    have hdrop : c.query.drop ((headerText 42 r.length).length + 2) = text := by
      rw [havail]
      simp [List.drop_append]
    rw [hfind]
    dsimp only
    rw [toInt32_of_lt (by omega) (by omega), if_neg (by omega), hnum]
    dsimp only
    rw [if_neg (by omega), if_neg (by omega)]
    refine .inr ⟨_, _, rfl, ⟨?_, ?_, ht, ?_, ?_, ?_, hr.args, by simp, .inl hsmall, .inl ⟨hb, ?_⟩⟩, fun _ => rfl⟩
    · dsimp only
      omega
    · dsimp only
      omega
    · exact Int.toNat_natCast _
    · simp [hargv]
    · simp
    · rw [hdrop]
      exact hrest
  · rw [hnone]
    dsimp only
    rw [if_neg (by omega)]
    exact .inl ⟨rfl, hlt⟩
  · rw [hsome]
    dsimp only
    rw [toInt32_of_lt (by omega) (by omega), if_pos (by omega)]
    exact .inl ⟨rfl, hlt⟩

theorem Reading.trim {pos : ℕ} {done rest : List Bytes} {tail : Bytes}
    (h : Reading c pos done rest future tail) (hs : ShortAt c pos rest) :
    Reading { c with query := c.query.drop pos } 0 done rest future tail ∧
      ShortAt { c with query := c.query.drop pos } 0 rest := by
  have hmax : protoQueryMaxLen = 2 ^ 29 := rfl
  have hbigc : protoMbulkBigArg = 32768 := rfl
  have hinl : protoInlineMaxLen = 65536 := rfl
  have hq := h.query_le
  obtain ⟨a, args, he, hcase⟩ := hs
  have ha : a.length ≤ 512 * 1024 * 1024 := h.args a (he ▸ List.mem_cons_self)
  have hhl := headerText_length_le (b := 36) (show a.length < 10 ^ 9 by omega)
  refine ⟨⟨Nat.zero_le _, ?_, h.multibulk, h.count, h.argv, h.argvSize, h.args, h.read, ?_, h.text⟩, a, args, he, ?_⟩
  · simp only [List.length_drop]
    omega
  · simp only [List.length_drop]
    rcases hcase with ⟨hb, hl⟩ | ⟨hb, hl⟩
    · exact .inl (by omega)
    · rcases Nat.lt_or_ge a.length protoMbulkBigArg with hlt | hge
      · exact .inl (by omega)
      · exact .inr ⟨trivial, by rw [hb]; omega, by rw [hb]; omega⟩
  · simpa only [List.length_drop, Nat.sub_zero] using hcase

/-- The arguments of an encoded request, from the head of the loop over them to the end of
`process_multi_bulk_input`. -/
theorem finish_reading {pos : ℕ} {done rest : List Bytes} {tail : Bytes}
    (h : Reading c pos done rest future tail) :
    ∃ c₁ pos₁ st c', bulkLoop c.multibulkLen c pos = .ok (.go (c₁, pos₁)) ∧
      finishMultiBulk c₁ pos₁ = (st, c') ∧ (∀ d, c'.withInput d = c.withInput d) ∧
      ((∃ done' rest', st = .error ∧ Reading c' 0 done' rest' future tail ∧
          done' ++ rest' = done ++ rest ∧ ShortAt c' 0 rest') ∨
        (st = .ok ∧ c'.argv.map StrEnc.bytes = done ++ rest ∧ (∀ a ∈ done ++ rest, ArgOk a) ∧
          c'.query ++ future = tail ∧ c'.query.length ≤ protoInlineMaxLen)) := by
  obtain ⟨c₁, pos₁, hl, ho, hd⟩ := bulkLoop_reading h
  rw [h.count]
  rcases hd with ⟨done', rest', hr, he, hs⟩ | hr
  · obtain ⟨hr', hs'⟩ := hr.trim hs
    have hne : c₁.multibulkLen ≠ 0 := by
      obtain ⟨a, args, hcons, -⟩ := hs
      rw [hr.count, hcons]
      simp
    refine ⟨c₁, pos₁, _, _, hl, finishMultiBulk_spec hr.query_le hr.pos_le, ho, .inl ⟨done', rest', ?_, hr', he, hs'⟩⟩
    exact if_neg hne
  · obtain ⟨hb, ht⟩ : c₁.bulkLen = -1 ∧ c₁.query.drop pos₁ ++ future = tail := by
      rcases hr.text with ⟨hb, ht⟩ | ⟨a, args, he, -⟩
      · exact ⟨hb, by simpa [encodeArgs] using ht⟩
      · exact absurd he (by simp)
    have hsize : c₁.query.length ≤ protoInlineMaxLen := by
      rcases hr.size with hs | ⟨-, hge, -⟩
      · exact hs
      · rw [hb] at hge
        simp [protoMbulkBigArg] at hge
    refine ⟨c₁, pos₁, _, _, hl, finishMultiBulk_spec hr.query_le hr.pos_le, ho, .inr ⟨?_, hr.argv, hr.read, ht, ?_⟩⟩
    · exact if_pos (by simpa using hr.count)
    · simp only [List.length_drop]
      omega

theorem encodeRequest_length_pos (r : List Bytes) : 0 < (encodeRequest r).length := by
  simp [encodeRequest, headerLine]

/-- The arguments after the header was read: they are incomplete, or they are all in `argv`
and the buffer, shorter than before, starts with the next request. -/
theorem processMultiBulkInput_reading {c₁ : Client} {pos : ℕ} {done rest : List Bytes}
    (hheader : multiBulkHeader c = .ok (.go (c₁, pos)))
    (hread : Reading c₁ pos done rest future (encodeRequests reqs)) (ho : ∀ d, c₁.withInput d = c.withInput d)
    (hlonger : (encodeRequests reqs).length < (c.query ++ future).length) :
    (∃ c', processMultiBulkInput c = .ok (.error, c') ∧ Waiting c' future ((done ++ rest) :: reqs) ∧
      ∀ d, c'.withInput d = c.withInput d) ∨
    (∃ c', processMultiBulkInput c = .ok (.ok, c') ∧ c'.argv.map StrEnc.bytes = done ++ rest ∧
      (∀ a ∈ done ++ rest, ArgOk a) ∧ c'.query ++ future = encodeRequests reqs ∧ c'.query.length < c.query.length ∧
      c'.query.length ≤ protoInlineMaxLen ∧ ∀ d, c'.withInput d = c.withInput d) := by
  obtain ⟨c₂, pos₂, st, c', hloop, hfinish, ho', hd⟩ := finish_reading hread
  have hrun : processMultiBulkInput c = .ok (st, c') := by
    rw [processMultiBulkInput, hheader, Exec.ok_bind]
    dsimp only
    rw [hloop, Exec.ok_bind]
    dsimp only
    rw [hfinish, Exec.pure_eq]
  rw [hrun]
  rcases hd with ⟨done', rest', rfl, hread', he, hs⟩ | ⟨rfl, hargv', hread', htext', hsmall'⟩
  · refine .inl ⟨c', rfl, ?_, fun d => (ho' d).trans (ho d)⟩
    rw [← he]
    exact .args done' rest' reqs hread' hs
  · refine .inr ⟨c', rfl, hargv', hread', htext', ?_, hsmall', fun d => (ho' d).trans (ho d)⟩
    have hlen := congrArg List.length htext'
    rw [List.length_append] at hlen hlonger
    omega

/-- What the parser makes of the next request: it is incomplete, or its arguments are
in `argv` and the buffer starts with the next request. -/
theorem processInput_busy (hok : ∀ r ∈ reqs, RequestAccepted r) (h : Busy c future reqs) (hne : c.query ≠ []) :
    (∃ c', processInput (setReqType c) = .ok (.error, c') ∧ Waiting c' future reqs ∧
      ∀ d, c'.withInput d = c.withInput d) ∨
    (∃ r reqs' c', reqs = r :: reqs' ∧ processInput (setReqType c) = .ok (.ok, c') ∧
      c'.argv.map StrEnc.bytes = r ∧ (∀ a ∈ r, ArgOk a) ∧ c'.query ++ future = encodeRequests reqs' ∧
      c'.query.length < c.query.length ∧ c'.query.length ≤ protoInlineMaxLen ∧
      ∀ d, c'.withInput d = c.withInput d) := by
  cases h with
  | request reqs ht hm hb hargv htext hsmall =>
    cases reqs with
    | nil =>
      have : c.query = [] := (List.append_eq_nil_iff.mp htext).1
      exact absurd this hne
    | cons r reqs =>
      have hr := hok r List.mem_cons_self
      have h42 : byteAt c.query 0 = 42 := by
        obtain ⟨x, q, hq⟩ := List.exists_cons_of_ne_nil hne
        rw [hq] at htext ⊢
        have : x = 42 := by
          have := congrArg List.head? htext
          simpa [encodeRequest, headerLine] using this
        simpa using this
      have hset : setReqType c = { c with reqType := .multibulk } := by
        unfold setReqType
        rcases ht with ht | ⟨ht, -⟩
        · rw [if_pos ht, if_pos h42]
        · rw [if_neg (by simp [ht]), ← ht]
      rw [hset, processInput]
      rcases multiBulkHeader_request (c := { c with reqType := .multibulk }) hr rfl hm hb hargv htext hsmall with
        ⟨hh, hlt⟩ | ⟨c₁, pos, hh, hread, ho⟩
      · dsimp only
        rw [processMultiBulkInput, hh]
        exact .inl ⟨_, rfl, .header r reqs rfl hm hb hargv htext hlt, fun _ => rfl⟩
      · have hlonger : (encodeRequests reqs).length < (c.query ++ future).length := by
          have hpos := encodeRequest_length_pos r
          rw [htext, encodeRequests_cons, List.length_append]
          omega
        rcases processMultiBulkInput_reading hh hread ho hlonger with hwait | ⟨c', hrun, hparsed⟩
        · exact .inl hwait
        · exact .inr ⟨r, reqs, c', rfl, hrun, hparsed⟩
  | args done rest reqs hrest hread =>
    have hset : setReqType c = c := by rw [setReqType, if_neg (by simp [hread.multibulk])]
    have hcount : c.multibulkLen ≠ 0 := by
      rw [hread.count]
      simpa using hrest
    have hheader : multiBulkHeader c = .ok (.go (c, 0)) := by rw [multiBulkHeader, if_neg hcount, Exec.pure_eq]
    have hlonger : (encodeRequests reqs).length < (c.query ++ future).length := by
      obtain ⟨a, args, rfl⟩ := List.exists_cons_of_ne_nil hrest
      rcases hread.text with ⟨-, ht⟩ | ⟨a', args', -, -, ht⟩
      · rw [List.drop_zero] at ht
        rw [ht]
        simp [encodeArg, headerLine]
        omega
      · rw [List.drop_zero] at ht
        rw [ht]
        simp
        omega
    rw [hset, processInput, hread.multibulk]
    rcases processMultiBulkInput_reading hheader hread (fun _ => rfl) hlonger with hwait | ⟨c', hrun, hparsed⟩
    · exact .inl hwait
    · exact .inr ⟨_, reqs, c', rfl, hrun, hparsed⟩

/-- With an empty buffer the client waits. -/
theorem Busy.waiting (h : Busy c future reqs) (hq : c.query = []) : Waiting c future reqs := by
  cases h with
  | request reqs ht hm hb hargv htext hsmall =>
    have hu : c.reqType = .unset := ht.resolve_right fun hne => hne.2 hq
    exact .idle reqs hq ⟨hu, hm, hb, hargv⟩ (by simpa [hq] using htext)
  | args done rest reqs hrest hread =>
    obtain ⟨a, args, rfl⟩ := List.exists_cons_of_ne_nil hrest
    refine .args done (a :: args) reqs hread ⟨a, args, rfl, ?_⟩
    rcases hread.text with ⟨hb, -⟩ | ⟨a', args', he, hb, -⟩
    · exact .inl ⟨hb, by simp [hq]⟩
    · obtain ⟨rfl, -⟩ : a = a' ∧ args = args' := by simpa using he
      exact .inr ⟨hb, by simp [hq]⟩

theorem prepareClientToWrite_withInput (c d : Client) :
    prepareClientToWrite (c.withInput d) =
      ((prepareClientToWrite c).1, (prepareClientToWrite c).2.withInput d) := by
  have hp : clientHasPendingReplies (c.withInput d) = clientHasPendingReplies c := rfl
  simp only [prepareClientToWrite, hp]
  change (if c.fd ≤ 0 then _ else if !clientHasPendingReplies c && !c.pendingWrite then _ else _) = _
  split_ifs <;> rfl

theorem replyAddSdsEncoded_withInput (c d : Client) (s : Bytes) :
    replyAddSdsEncoded (c.withInput d) s = (replyAddSdsEncoded c s).withInput d := by
  have hbuf : addReplyToBuffer (c.withInput d) s =
      ((addReplyToBuffer c s).1, (addReplyToBuffer c s).2.withInput d) := by
    unfold addReplyToBuffer
    change (if c.closeAfterReply then _ else if c.reply.length > 0 then _
      else if s.length > subSize protoReplyMaxLen c.buf.length then _ else _) = _
    dsimp only
    split_ifs <;> rfl
  have hlist : ∀ c : Client, addReplyToList (c.withInput d) s = (addReplyToList c s).withInput d := by
    intro c
    unfold addReplyToList
    change (if c.closeAfterReply then _ else if c.reply.length = 0 then _
      else if (c.reply.getLastD []).length + s.length ≤ protoReplyMaxLen then _ else _) = _
    dsimp only
    split_ifs <;> rfl
  unfold replyAddSdsEncoded
  rw [hbuf]
  generalize addReplyToBuffer c s = r
  obtain ⟨_ | _, c₁⟩ := r
  · rfl
  · exact hlist c₁

/-- Replying does not look at the input side. -/
theorem replyAll_withInput (c d : Client) (calls : List ReplyCall) :
    replyAll (c.withInput d) calls = (replyAll c calls).withInput d := by
  induction calls generalizing c with
  | nil => rfl
  | cons call calls ih =>
    have hrun : call.run (c.withInput d) = (call.run c).withInput d := by
      rw [ReplyCall.run_eq, ReplyCall.run_eq, prepareClientToWrite_withInput]
      generalize prepareClientToWrite c = r
      obtain ⟨_ | _, c₁⟩ := r
      · exact replyAddSdsEncoded_withInput c₁ d call.payload
      · rfl
    calc replyAll (c.withInput d) (call :: calls) = replyAll ((call.run c).withInput d) calls := by
          rw [← hrun]; rfl
      _ = (replyAll (call.run c) calls).withInput d := ih _

end Requests

section Feed
variable {σ : Type} (handler : σ → List StrEnc → σ × List ReplyCall)

/-- The log of a connection: the state behind the handler, the argument vectors handed to
it and the replies it made. -/
structure Log (σ : Type) where
  state : σ
  requests : List (List Bytes)
  calls : List ReplyCall

/-- A handler that succeeds on every command, with a log of what it was given. -/
def logged : CmdProc (Log σ) := fun s argv =>
  let r := handler s.state argv
  ⟨⟨r.1, s.requests ++ [argv.map StrEnc.bytes], s.calls ++ r.2⟩, r.2, .ok, false⟩

/-- Give chunks to a client one after the other. -/
def feed (proc : CmdProc σ) (s : σ) (c : Client) : List Bytes → Exec (Option (σ × Client))
  | [] => pure (some (s, c))
  | bs :: chunks => do
    match ← handleReadFromClient proc s c (.data bs) with
    | none => pure none
    | some (s, c) => feed proc s c chunks

/-- Every chunk is non-empty and no longer than the length asked of `read`. -/
def Admissible (proc : CmdProc σ) (s : σ) (c : Client) : List Bytes → Prop
  | [] => True
  | bs :: chunks => bs ≠ [] ∧ (bs.length : ℤ) ≤ readlen c ∧
    ∀ s' c', handleReadFromClient proc s c (.data bs) = .ok (some (s', c')) → Admissible proc s' c' chunks

/-- The output of a client is that of a fresh one after the logged replies. -/
def Answered (fd : ℤ) (s : Log σ) (c : Client) : Prop :=
  c.withInput (rrClientCreate fd) = replyAll (rrClientCreate fd) s.calls

theorem Answered.opened {fd : ℤ} {s : Log σ} {c : Client} (h : Answered fd s c) : c.closeAfterReply = false := by
  calc c.closeAfterReply = (c.withInput (rrClientCreate fd)).closeAfterReply := rfl
    _ = (replyAll (rrClientCreate fd) s.calls).closeAfterReply := by rw [h]
    _ = false := (SameInput.replyAll _ _).closeAfterReply

theorem Answered.congr {fd : ℤ} {s : Log σ} {c c' : Client} (h : Answered fd s c)
    (ho : ∀ d, c'.withInput d = c.withInput d) : Answered fd s c' := (ho _).trans h

theorem Answered.execute {fd : ℤ} {s : Log σ} {c : Client} (h : Answered fd s c) (argv : List StrEnc) :
    Answered fd (logged handler s argv).state (rrClientReset (replyAll c (logged handler s argv).calls)) := by
  have hreset : ∀ d : Client, (rrClientReset d).withInput (rrClientCreate fd) = d.withInput (rrClientCreate fd) :=
    fun _ => rfl
  rw [Answered, hreset, ← replyAll_withInput, h]
  simp [logged, replyAll]

variable {c : Client} {future : Bytes} {reqs : List (List Bytes)} {fd : ℤ}

theorem userStep_busy (s : Log σ) (hok : ∀ r ∈ reqs, RequestAccepted r) (h : Busy c future reqs)
    (ha : Answered fd s c) :
    (∃ c', userStep (logged handler) s c = .ok (.stop s c') ∧ Waiting c' future reqs ∧ Answered fd s c') ∨
    (∃ r reqs' s' c', reqs = r :: reqs' ∧ userStep (logged handler) s c = .ok (.next s' c') ∧
      s'.requests = s.requests ++ [r] ∧ RequestOk r ∧ Busy c' future reqs' ∧ Answered fd s' c' ∧
      c'.query.length < c.query.length) := by
  rw [userStep]
  by_cases hq : c.query = []
  · rw [if_pos (by simp [hq])]
    exact .inl ⟨c, rfl, h.waiting hq, ha⟩
  · rw [if_neg (by simpa using hq), if_neg (by simp [ha.opened])]
    rcases processInput_busy hok h hq with ⟨c', hr, hw, ho⟩ | ⟨r, reqs', c', rfl, hr, hargv, hread, htext, hlt, hsmall, ho⟩
    · rw [hr]
      exact .inl ⟨c', rfl, hw, ha.congr ho⟩
    · rw [hr]
      have hacc := hok r List.mem_cons_self
      have hne : c'.argv.length ≠ 0 := by
        have hpos := hacc.pos
        rw [← hargv, List.length_map] at hpos
        omega
      have hexec : executeRequest (logged handler) s c' = ((logged handler s c'.argv).state,
          rrClientReset (replyAll c' (logged handler s c'.argv).calls)) := by
        rw [executeRequest, if_neg hne]
        rfl
      have hs := SameInput.replyAll c' (logged handler s c'.argv).calls
      refine .inr ⟨r, reqs', (logged handler s c'.argv).state,
        rrClientReset (replyAll c' (logged handler s c'.argv).calls), rfl, ?_, ?_,
        ⟨hacc.pos, hacc.le, hread⟩, ?_, (ha.congr ho).execute handler c'.argv, ?_⟩
      · rw [Exec.ok_bind]
        simp only [ne_eq, not_true_eq_false, if_false, hexec]
        rfl
      · simp only [logged, hargv]
      · refine .request reqs' (.inl rfl) rfl rfl rfl ?_ ?_
        · simpa only [rrClientReset, hs.query] using htext
        · simpa only [rrClientReset, hs.query] using hsmall
      · simpa only [rrClientReset, hs.query] using hlt

theorem processUserInput_busy (s : Log σ) (hok : ∀ r ∈ reqs, RequestAccepted r) (h : Busy c future reqs)
    (ha : Answered fd s c) {fuel : ℕ} (hf : c.query.length < fuel) :
    ∃ s' c' reqs', processUserInput (logged handler) fuel s c = .ok (s', c') ∧
      s'.requests ++ reqs' = s.requests ++ reqs ∧ (∀ r ∈ reqs, r ∈ reqs' ∨ RequestOk r) ∧ reqs' <:+ reqs ∧
      Waiting c' future reqs' ∧ Answered fd s' c' := by
  induction fuel generalizing s c reqs with
  | zero => omega
  | succ fuel ih =>
    rw [processUserInput]
    rcases userStep_busy handler s hok h ha with ⟨c', hr, hw, ha'⟩ | ⟨r, reqs', s', c', rfl, hr, hlog, hread, hb, ha', hlt⟩
    · rw [hr]
      exact ⟨s, c', reqs, rfl, rfl, fun r hm => .inl hm, List.suffix_rfl, hw, ha'⟩
    · rw [hr, Exec.ok_bind]
      obtain ⟨s₂, c₂, reqs₂, hr₂, hlog₂, hread₂, hsuf, hw₂, ha₂⟩ :=
        ih s' (fun r hm => hok r (List.mem_cons_of_mem _ hm)) hb ha' (by omega)
      refine ⟨s₂, c₂, reqs₂, hr₂, ?_, ?_, hsuf.trans (List.suffix_cons r reqs'), hw₂, ha₂⟩
      · rw [hlog₂, hlog]
        simp
      · intro q hq
        rcases List.mem_cons.mp hq with rfl | hq
        · exact .inr hread
        · exact hread₂ q hq

/-- A waiting client gets what it asked for: it goes on reading if the buffer does not become too
long, and it does not if no argument is longer than those that fit. -/
theorem Waiting.received (hok : ∀ r ∈ reqs, RequestAccepted r) {bs : Bytes} (h : Waiting c (bs ++ future) reqs)
    (hne : bs ≠ []) (hlen : (bs.length : ℤ) ≤ readlen c) :
    ((RhinoRox.received c bs).query.length ≤ protoQueryMaxLen → Busy (received c bs) future reqs) ∧
      ((∀ r ∈ reqs, RequestOk r) → (RhinoRox.received c bs).query.length ≤ protoQueryMaxLen) := by
  have hmax : protoQueryMaxLen = 2 ^ 29 := rfl
  have hbigc : protoMbulkBigArg = 32768 := rfl
  have hinl : protoInlineMaxLen = 65536 := rfl
  have hio : protoIobufLen = 16384 := rfl
  have hpos : 0 < bs.length := List.length_pos_of_ne_nil hne
  have hlength : (RhinoRox.received c bs).query.length = c.query.length + bs.length := by
    simp [RhinoRox.received]
  have hle : c.bulkLen = -1 → bs.length ≤ 16384 := by
    intro hb
    rw [readlen, if_neg (by simp [hb])] at hlen
    omega
  cases h with
  | idle reqs hq hr ht =>
    have hb := hle hr.bulkLen
    have h0 : c.query.length = 0 := by simp [hq]
    refine ⟨fun _ => .request reqs (.inl hr.reqType) hr.multibulkLen hr.bulkLen hr.argv ?_ (by omega), fun _ => by omega⟩
    simpa [RhinoRox.received, hq] using ht
  | header r reqs ht hm hb hargv htext hs =>
    have hbs := hle hb
    have hhl := headerText_length_le (b := 42) (hok r List.mem_cons_self).length_lt
    refine ⟨fun _ => .request _ (.inr ⟨ht, ?_⟩) hm hb hargv ?_ (by omega), fun _ => by omega⟩
    · simp [RhinoRox.received, hne]
    · simpa [RhinoRox.received] using htext
  | args done rest reqs hread hs =>
    obtain ⟨a, args, rfl, hcase⟩ := hs
    have ha := hread.args a List.mem_cons_self
    have hhl := headerText_length_le (b := 36) (show a.length < 10 ^ 9 by omega)
    have hq := hread.query_le
    have htext : Pending c.bulkLen (a :: args) (encodeRequests reqs)
        ((RhinoRox.received c bs).query.drop 0 ++ future) := by
      simpa [RhinoRox.received] using hread.text
    have hbusy : ((RhinoRox.received c bs).query.length ≤ protoInlineMaxLen ∨
          0 = 0 ∧ (protoMbulkBigArg : ℤ) ≤ c.bulkLen ∧
            ((RhinoRox.received c bs).query.length : ℤ) ≤ c.bulkLen + 2) →
        (RhinoRox.received c bs).query.length ≤ protoQueryMaxLen →
        Busy (RhinoRox.received c bs) future ((done ++ a :: args) :: reqs) := fun hsize hle =>
      .args done (a :: args) reqs (by simp) ⟨Nat.zero_le _, hle, hread.multibulk, hread.count, hread.argv,
        hread.argvSize, hread.args, hread.read, hsize, htext⟩
    rcases hcase with ⟨hb, hlt⟩ | ⟨hb, hlt⟩
    · have hbs := hle hb
      exact ⟨hbusy (.inl (by omega)), fun _ => by omega⟩
    · rcases Nat.lt_or_ge a.length protoMbulkBigArg with hsmall | hbig
      · rw [readlen, if_neg (by rw [hb]; omega)] at hlen
        exact ⟨hbusy (.inl (by omega)), fun _ => by omega⟩
      · have hcount : c.multibulkLen ≠ 0 := by
          rw [hread.count]
          simp
        have hbs : bulkSize c = a.length + 2 := by
          rw [bulkSize, hb, Int.emod_eq_of_lt (by omega) (by omega)]
          omega
        rw [readlen, if_pos ⟨hread.multibulk, hcount, by omega, by omega⟩, hbs,
          subSize_of_le (by omega) (by omega), toInt32_of_lt (by omega) (by omega)] at hlen
        have hrem : bs.length ≤ a.length + 2 - c.query.length := by
          dsimp only at hlen
          split_ifs at hlen <;> omega
        refine ⟨hbusy (.inr ⟨rfl, by omega, by omega⟩), fun hfit => ?_⟩
        have hfits : ArgOk a := (hfit _ List.mem_cons_self).args a (by simp)
        unfold ArgOk at hfits
        omega

/-- A read either makes the buffer too long, which closes the connection, or hands over what is
complete. -/
theorem handleReadFromClient_accepted (s : Log σ) (hok : ∀ r ∈ reqs, RequestAccepted r) {bs : Bytes}
    (h : Waiting c (bs ++ future) reqs) (ha : Answered fd s c) (hne : bs ≠ [])
    (hlen : (bs.length : ℤ) ≤ readlen c) :
    ((received c bs).query.length > protoQueryMaxLen ∧
      handleReadFromClient (logged handler) s c (.data bs) = .ok none) ∨
    ∃ s' c' reqs', handleReadFromClient (logged handler) s c (.data bs) = .ok (some (s', c')) ∧
      s'.requests ++ reqs' = s.requests ++ reqs ∧ (∀ r ∈ reqs, r ∈ reqs' ∨ RequestOk r) ∧ reqs' <:+ reqs ∧
      Waiting c' future reqs' ∧ Answered fd s' c' := by
  have hbs : ¬ bs.length = 0 := by simpa using hne
  rw [handleReadFromClient, if_neg hbs]
  by_cases hlong : (received c bs).query.length > protoQueryMaxLen
  · rw [if_pos hlong]
    exact .inl ⟨hlong, rfl⟩
  · have hb := (h.received hok hne hlen).1 (not_lt.mp hlong)
    have ha' : Answered fd s (received c bs) := ha
    obtain ⟨s', c', reqs', hr, hrest⟩ := processUserInput_busy handler s hok hb ha' (Nat.lt_succ_self _)
    rw [if_neg hlong, hr]
    exact .inr ⟨s', c', reqs', rfl, hrest⟩

/-- A stream is cut off, or all of it is read. -/
theorem feed_accepted (s : Log σ) (hok : ∀ r ∈ reqs, RequestAccepted r) (chunks : List Bytes)
    (h : Waiting c chunks.flatten reqs) (ha : Answered fd s c)
    (hadm : Admissible (logged handler) s c chunks) :
    (¬ (∀ r ∈ reqs, RequestOk r) ∧ feed (logged handler) s c chunks = .ok none) ∨
    ∃ s' c' reqs', feed (logged handler) s c chunks = .ok (some (s', c')) ∧
      s'.requests ++ reqs' = s.requests ++ reqs ∧ (∀ r ∈ reqs, r ∈ reqs' ∨ RequestOk r) ∧ Waiting c' [] reqs' ∧
      Answered fd s' c' := by
  induction chunks generalizing s c reqs with
  | nil => exact .inr ⟨s, c, reqs, rfl, rfl, fun r hm => .inl hm, h, ha⟩
  | cons bs chunks ih =>
    obtain ⟨hne, hlen, hadm'⟩ := hadm
    rcases handleReadFromClient_accepted handler s hok h ha hne hlen with ⟨hlong, hr⟩ |
      ⟨s₁, c₁, reqs₁, hr, hlog, hread, hsuf, hw, ha₁⟩
    · refine .inl ⟨fun hfit => ?_, by simp [feed, hr]⟩
      exact absurd ((h.received hok hne hlen).2 hfit) (not_le.mpr hlong)
    · rcases ih s₁ (fun r hm => hok r (hsuf.subset hm)) hw ha₁ (hadm' s₁ c₁ hr) with ⟨hlong, hr₂⟩ |
        ⟨s₂, c₂, reqs₂, hr₂, hlog₂, hread₂, hw₂, ha₂⟩
      · exact .inl ⟨fun hfit => hlong fun r hm => hfit r (hsuf.subset hm), by simp [feed, hr, hr₂]⟩
      · refine .inr ⟨s₂, c₂, reqs₂, by simp [feed, hr, hr₂], hlog₂.trans hlog, fun r hm => ?_, hw₂, ha₂⟩
        rcases hread r hm with hm | hm
        · exact hread₂ r hm
        · exact .inr hm

/-- At the end of the stream nothing is left over. -/
theorem Waiting.finished (h : Waiting c [] reqs) : reqs = [] ∧ c.query = [] ∧ c.IsReset := by
  cases h with
  | idle reqs hq hr ht =>
    cases reqs with
    | nil => exact ⟨rfl, hq, hr⟩
    | cons r reqs =>
      have hpos := encodeRequest_length_pos r
      have hlen := congrArg List.length ht
      rw [encodeRequests_cons, List.length_append, List.length_nil] at hlen
      omega
  | header r reqs ht hm hb hargv htext hs =>
    have hlen := congrArg List.length htext
    simp only [encodeRequests_cons, encodeRequest, headerLine_eq, List.length_append, List.length_nil,
      List.length_cons] at hlen
    omega
  | args done rest reqs hread hs =>
    obtain ⟨a, args, rfl, hcase⟩ := hs
    rcases hread.text with ⟨hb, ht⟩ | ⟨a', args', he, hb, ht⟩
    · have hlen := congrArg List.length ht
      simp only [encodeArgs_cons, encodeArg, headerLine_eq, List.length_append, List.length_nil,
        List.length_cons, List.drop_zero] at hlen
      omega
    · obtain ⟨rfl, rfl⟩ : a = a' ∧ args = args' := by simpa using he
      have hlen := congrArg List.length ht
      simp only [List.length_append, List.length_nil, List.length_cons, List.drop_zero] at hlen
      omega

/-- Encoded requests arriving in any chunks are handed over one by one and unchanged, the
only replies are those of the handler, and the parser ends as it started. -/
theorem requests_round_trip (s : σ) (fd : ℤ) (reqs : List (List Bytes)) (hok : ∀ r ∈ reqs, RequestOk r)
    (chunks : List Bytes) (hsplit : chunks.flatten = encodeRequests reqs)
    (hadm : Admissible (logged handler) ⟨s, [], []⟩ (rrClientCreate fd) chunks) :
    ∃ s' c, feed (logged handler) ⟨s, [], []⟩ (rrClientCreate fd) chunks = .ok (some (s', c)) ∧
      s'.requests = reqs ∧ Answered fd s' c ∧ ¬ c.closeAfterReply ∧ c.query = [] ∧ c.reqType = .unset ∧
      c.multibulkLen = 0 ∧ c.bulkLen = -1 ∧ c.argv = [] := by
  have hw : Waiting (rrClientCreate fd) chunks.flatten reqs :=
    .idle reqs rfl ⟨rfl, rfl, rfl, rfl⟩ hsplit
  rcases feed_accepted handler ⟨s, [], []⟩ (fun r hm => (hok r hm).accepted) chunks hw
      (show Answered fd (⟨s, [], []⟩ : Log σ) (rrClientCreate fd) from rfl) hadm with ⟨hlong, -⟩ |
    ⟨s', c, reqs', hr, hlog, -, hw', ha⟩
  · exact absurd hok hlong
  obtain ⟨rfl, hq, hreset⟩ := hw'.finished
  exact ⟨s', c, hr, by simpa using hlog, ha, by simp [ha.opened], hq, hreset.reqType, hreset.multibulkLen,
    hreset.bulkLen, hreset.argv⟩

/-- A handler that answers every command with `+OK`. -/
def okHandler (s : Unit) (_ : List StrEnc) : Unit × List ReplyCall := (s, [.obj Shared.ok])

theorem requests_round_trip_two_requests :
    ∃ s' c, feed (logged okHandler) ⟨(), [], []⟩ (rrClientCreate 5)
        [encodeRequests [[ascii "GET", [0, 13, 10]], [ascii "PING"]]] = .ok (some (s', c)) ∧
      s'.requests = [[ascii "GET", [0, 13, 10]], [ascii "PING"]] ∧ Answered 5 s' c ∧
      ¬ c.closeAfterReply ∧ c.query = [] ∧ c.reqType = .unset ∧ c.multibulkLen = 0 ∧ c.bulkLen = -1 ∧
      c.argv = [] := by
  have hget : ascii "GET" = [71, 69, 84] := by decide
  have hping : ascii "PING" = [80, 73, 78, 71] := by decide
  refine requests_round_trip okHandler () 5 [[ascii "GET", [0, 13, 10]], [ascii "PING"]] ?_ _ (by simp) ?_
  · intro r hr
    rcases List.mem_cons.mp hr with rfl | hr
    · exact ⟨by decide, by decide, by simp [ArgOk, hget]⟩
    · rw [List.mem_singleton.mp hr]
      exact ⟨by decide, by decide, by simp [ArgOk, hping]⟩
  · refine ⟨?_, ?_, fun _ _ _ => trivial⟩
    · simp [encodeRequest, headerLine]
    · simp [readlen, rrClientCreate, protoIobufLen, encodeRequests, encodeRequest, encodeArgs, encodeArg,
        headerLine, decimalText, hget, hping]

/-! ## The limit of the query buffer -/

/-- A waiting client asks for at least one byte. -/
theorem Waiting.readlen_pos (h : Waiting c future reqs) : 1 ≤ readlen c := by
  have hio : protoIobufLen = 16384 := rfl
  have hunset : c.bulkLen = -1 → readlen c = protoIobufLen := by
    intro hb
    rw [readlen, if_neg (by simp [hb])]
  cases h with
  | idle reqs hq hr ht => simp [hunset hr.bulkLen, hio]
  | header r reqs ht hm hb hargv htext hs => simp [hunset hb, hio]
  | args done rest reqs hread hs =>
    obtain ⟨a, args, rfl, ⟨hb, -⟩ | ⟨hb, hlt⟩⟩ := hs
    · simp [hunset hb, hio]
    · have ha := hread.args a List.mem_cons_self
      have hbs : bulkSize c = a.length + 2 := by
        rw [bulkSize, hb, Int.emod_eq_of_lt (by omega) (by omega)]
        omega
      rw [readlen, hbs, subSize_of_le (by omega) (by omega), toInt32_of_lt (by omega) (by omega)]
      split_ifs
      · dsimp only
        split_ifs <;> omega
      · omega

/-- Bytes may always arrive one by one. -/
theorem admissible_bytewise (s : Log σ) (hok : ∀ r ∈ reqs, RequestAccepted r) (text : Bytes)
    (h : Waiting c text reqs) (ha : Answered fd s c) :
    Admissible (logged handler) s c (text.map fun b => [b]) := by
  induction text generalizing s c reqs with
  | nil => trivial
  | cons b text ih =>
    have hlen : (([b] : Bytes).length : ℤ) ≤ readlen c := by simpa using h.readlen_pos
    refine ⟨by simp, hlen, fun s' c' hr => ?_⟩
    have hw : Waiting c ([b] ++ text) reqs := h
    rcases handleReadFromClient_accepted handler s hok hw ha (by simp) hlen with
      ⟨-, hr'⟩ | ⟨s₁, c₁, reqs₁, hr', -, -, hsuf, hw₁, ha₁⟩
    · cases hr'.symm.trans hr
    · obtain ⟨rfl, rfl⟩ : s₁ = s' ∧ c₁ = c' := by simpa using hr'.symm.trans hr
      exact ih s₁ (fun r hm => hok r (hsuf.subset hm)) hw₁ ha₁

/-- However requests are split into reads, the connection is not closed before all are executed. -/
def NeverCutOff (s : σ) (fd : ℤ) (reqs : List (List Bytes)) : Prop :=
  ∀ chunks : List Bytes, chunks.flatten = encodeRequests reqs →
    Admissible (logged handler) ⟨s, [], []⟩ (rrClientCreate fd) chunks →
    ∃ s' c, feed (logged handler) ⟨s, [], []⟩ (rrClientCreate fd) chunks = .ok (some (s', c)) ∧ s'.requests = reqs

/-- An argument that is read was in the buffer with the two bytes of its line end, so one that does
not fit ends the connection. -/
theorem exists_cutOff (s : σ) (fd : ℤ) {reqs : List (List Bytes)} (hok : ∀ r ∈ reqs, RequestAccepted r)
    (h : ¬ ∀ r ∈ reqs, RequestOk r) :
    ∃ chunks : List Bytes, chunks.flatten = encodeRequests reqs ∧
      Admissible (logged handler) ⟨s, [], []⟩ (rrClientCreate fd) chunks ∧
      feed (logged handler) ⟨s, [], []⟩ (rrClientCreate fd) chunks = .ok none := by
  have ha : Answered fd (⟨s, [], []⟩ : Log σ) (rrClientCreate fd) := rfl
  have hw : Waiting (rrClientCreate fd) (encodeRequests reqs) reqs := .idle reqs rfl ⟨rfl, rfl, rfl, rfl⟩ rfl
  have hadm := admissible_bytewise handler ⟨s, [], []⟩ hok (encodeRequests reqs) hw ha
  have hflat : ((encodeRequests reqs).map fun b => [b]).flatten = encodeRequests reqs := by
    rw [← List.flatMap_def, List.flatMap_singleton']
  refine ⟨_, hflat, hadm, ?_⟩
  rcases feed_accepted handler ⟨s, [], []⟩ hok _ (hflat.symm ▸ hw) ha hadm with ⟨-, hnone⟩ |
    ⟨s₁, c₁, reqs₁, -, -, hread, hw₁, -⟩
  · exact hnone
  · obtain ⟨rfl, -⟩ := hw₁.finished
    exact absurd (fun r hr => (hread r hr).resolve_left (by simp)) h

/-- Accepted requests survive the limit of the query buffer exactly when none of their arguments
is longer than the limit less the two bytes of its line end. -/
theorem query_limit_iff (s : σ) (fd : ℤ) {reqs : List (List Bytes)} (hok : ∀ r ∈ reqs, RequestAccepted r) :
    NeverCutOff handler s fd reqs ↔ ∀ r ∈ reqs, ∀ a ∈ r, a.length ≤ 512 * 1024 * 1024 - 2 := by
  constructor
  · intro h r hr
    by_contra hlong
    obtain ⟨chunks, hsplit, hadm, hnone⟩ := exists_cutOff handler s fd hok fun hfits => hlong (hfits r hr).args
    obtain ⟨s', c, hfeed, -⟩ := h chunks hsplit hadm
    cases hnone.symm.trans hfeed
  · intro h chunks hsplit hadm
    have hfits : ∀ r ∈ reqs, RequestOk r := fun r hr => ⟨(hok r hr).pos, (hok r hr).le, h r hr⟩
    have hw : Waiting (rrClientCreate fd) chunks.flatten reqs := .idle reqs rfl ⟨rfl, rfl, rfl, rfl⟩ hsplit
    rcases feed_accepted handler ⟨s, [], []⟩ hok chunks hw
        (show Answered fd (⟨s, [], []⟩ : Log σ) (rrClientCreate fd) from rfl) hadm with ⟨hlong, -⟩ |
      ⟨s', c, reqs', hr, hlog, -, hw', -⟩
    · exact absurd hfits hlong
    · obtain ⟨rfl, -⟩ := hw'.finished
      exact ⟨s', c, hr, by simpa using hlog⟩

theorem query_limit_iff_ping : NeverCutOff okHandler () 5 [[ascii "PING"]] := by
  have hlen : (ascii "PING").length = 4 := by decide
  refine (query_limit_iff okHandler () 5 fun r hr => ?_).mpr fun r hr a ha => ?_
  · rw [List.mem_singleton.mp hr]
    exact ⟨by decide, by decide, by simp [hlen]⟩
  · rw [List.mem_singleton.mp hr] at ha
    rw [List.mem_singleton.mp ha, hlen]
    decide

/-- A value of 512 MB, the longest that is accepted. -/
def longestValue : Bytes := List.replicate (512 * 1024 * 1024) 97

theorem longestValue_length : longestValue.length = 512 * 1024 * 1024 := List.length_replicate

/-- The connection is closed in the middle of the value. -/
theorem query_limit_too_small :
    RequestAccepted [ascii "SET", ascii "key", longestValue] ∧
      (∃ chunks : List Bytes, chunks.flatten = encodeRequests [[ascii "SET", ascii "key", longestValue]] ∧
        Admissible (logged okHandler) ⟨(), [], []⟩ (rrClientCreate 5) chunks ∧
        feed (logged okHandler) ⟨(), [], []⟩ (rrClientCreate 5) chunks = .ok none) ∧
      ¬ NeverCutOff okHandler () 5 [[ascii "SET", ascii "key", longestValue]] := by
  have hset : (ascii "SET").length = 3 := by decide
  have hkey : (ascii "key").length = 3 := by decide
  have hok : RequestAccepted [ascii "SET", ascii "key", longestValue] := by
    refine ⟨by simp, by simp, fun a ha => ?_⟩
    rcases List.mem_cons.mp ha with rfl | ha
    · omega
    rcases List.mem_cons.mp ha with rfl | ha
    · omega
    · rw [List.mem_singleton.mp ha, longestValue_length]
  have hlong : ¬ ∀ r ∈ [[ascii "SET", ascii "key", longestValue]], RequestOk r := by
    intro h
    have harg : ArgOk longestValue := (h _ List.mem_cons_self).args longestValue (by simp)
    rw [ArgOk, longestValue_length] at harg
    omega
  have hcut := exists_cutOff okHandler () 5 (fun r hr => List.mem_singleton.mp hr ▸ hok) hlong
  refine ⟨hok, hcut, fun h => ?_⟩
  obtain ⟨chunks, hsplit, hadm, hnone⟩ := hcut
  obtain ⟨s', c, hfeed, -⟩ := h chunks hsplit hadm
  cases hnone.symm.trans hfeed

end Feed

end RhinoRox
