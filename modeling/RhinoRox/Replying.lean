import RhinoRox.Client

/-!
# Replies, from `rr_replying.c`

Appending to the static buffer or the reply list, and sending both. The composite
replies are given as the calls of `reply_add_obj`, `reply_add_str` and `reply_add_sds`
that they make.
-/

namespace RhinoRox

/-- Whether the caller may queue output, with the flag for pending writes set. -/
def prepareClientToWrite (c : Client) : Status × Client :=
  if c.fd ≤ 0 then (.error, c)
  else if !clientHasPendingReplies c && !c.pendingWrite then (.ok, { c with pendingWrite := true })
  else (.ok, c)

def addReplyToBuffer (c : Client) (s : Bytes) : Status × Client :=
  let available := subSize protoReplyMaxLen c.buf.length
  if c.closeAfterReply then (.ok, c)
  else if c.reply.length > 0 then (.error, c)
  else if s.length > available then (.error, c)
  else (.ok, { c with buf := c.buf ++ s })

/-- `listAddNodeTail` on the reply list. -/
def listAddNodeTail (l : List Bytes) (s : Bytes) : List Bytes := l ++ [s]

/-- Append to the last node. -/
def listCatLast (l : List Bytes) (s : Bytes) : List Bytes :=
  l.dropLast ++ [l.getLastD [] ++ s]

/-- Append to the last node when possible, else to a new one. -/
def addReplyToList (c : Client) (s : Bytes) : Client :=
  if c.closeAfterReply then c
  else
    let c := { c with repliedLen := c.repliedLen + s.length }
    if c.reply.length = 0 then { c with reply := listAddNodeTail c.reply s }
    else if (c.reply.getLastD []).length + s.length ≤ protoReplyMaxLen then
      { c with reply := listCatLast c.reply s }
    else { c with reply := listAddNodeTail c.reply s }

/-- `o->ptr` is copied. -/
def addReplyObjectToList (c : Client) (s : Bytes) : Client := addReplyToList c s

/-- The node takes over `s`. -/
def addReplySdsToList (c : Client) (s : Bytes) : Client := addReplyToList c s

def addReplyStrToList (c : Client) (s : Bytes) : Client := addReplyToList c s

/-- The string contents of an object that is not integer-encoded. -/
def replyAddSdsEncoded (c : Client) (s : Bytes) : Client :=
  match addReplyToBuffer c s with
  | (.ok, c) => c
  | (.error, c) => addReplyObjectToList c s

def replyAddObj (c : Client) (obj : StrEnc) : Client :=
  match prepareClientToWrite c with
  | (.error, c) => c
  | (.ok, c) =>
    match obj with
    | .raw s | .embstr s => replyAddSdsEncoded c s
    | .int n =>
      if c.reply.length = 0 ∧ subSize protoReplyMaxLen c.buf.length ≥ 32 then
        match addReplyToBuffer c ((ll2string 32 n.toInt).getD []) with
        | (.ok, c) => c
        | (.error, c) => replyAddSdsEncoded c (getDecodedObject obj).bytes
      else replyAddSdsEncoded c (getDecodedObject obj).bytes

def replyAddStr (c : Client) (s : Bytes) : Client :=
  match prepareClientToWrite c with
  | (.error, c) => c
  | (.ok, c) =>
    match addReplyToBuffer c s with
    | (.ok, c) => c
    | (.error, c) => addReplyStrToList c s

def replyAddSds (c : Client) (s : Bytes) : Client :=
  match prepareClientToWrite c with
  | (.error, c) => c
  | (.ok, c) =>
    match addReplyToBuffer c s with
    | (.ok, c) => c
    | (.error, c) => addReplySdsToList c s

/-- A call of one of the three basic functions. -/
inductive ReplyCall where
  | obj (o : StrEnc)
  | str (s : Bytes)
  | sds (s : Bytes)
  deriving DecidableEq

/-- The bytes that the call is asked to append. -/
def ReplyCall.payload : ReplyCall → Bytes
  | .obj o => o.bytes
  | .str s | .sds s => s

def ReplyCall.run (c : Client) : ReplyCall → Client
  | .obj o => replyAddObj c o
  | .str s => replyAddStr c s
  | .sds s => replyAddSds c s

/-- A sequence of reply calls. -/
def replyAll (c : Client) (calls : List ReplyCall) : Client := calls.foldl ReplyCall.run c

namespace Shared

def crlf : StrEnc := .raw (ascii "\r\n")
def ok : StrEnc := .raw (ascii "+OK\r\n")
def err : StrEnc := .raw (ascii "-ERR\r\n")
def pong : StrEnc := .raw (ascii "+PONG\r\n")
def czero : StrEnc := .raw (ascii ":0\r\n")
def cone : StrEnc := .raw (ascii ":1\r\n")
def nullbulk : StrEnc := .raw (ascii "$-1\r\n")
def wrongtypeerr : StrEnc :=
  .raw (ascii "-WRONGTYPE Operation against a key holding the wrong kind of value\r\n")

/-- Shared headers exist for lengths below 32. -/
def bulkhdrLen : ℕ := 32

def mbulkhdr (n : ℕ) : StrEnc := .raw (ascii "*" ++ ll2stringDigits n ++ ascii "\r\n")
def bulkhdr (n : ℕ) : StrEnc := .raw (ascii "$" ++ ll2stringDigits n ++ ascii "\r\n")

end Shared

def replyAddErrLen (s : Bytes) : List ReplyCall :=
  [.str (ascii "-ERR "), .str s, .str (ascii "\r\n")]

/-- `s` is the formatted text; line ends in it are replaced. -/
def replyAddErrFormat (s : Bytes) : List ReplyCall :=
  replyAddErrLen (s.map fun b => if b = 13 ∨ b = 10 then 32 else b)

def replyAddErr (err : Bytes) : List ReplyCall := replyAddErrLen (cStr err)

def replyAddStatusLen (s : Bytes) : List ReplyCall :=
  [.str (ascii "+"), .str s, .str (ascii "\r\n")]

def replyAddStatus (status : Bytes) : List ReplyCall := replyAddStatusLen (cStr status)

/-- Output of a prefix, an integer and a line end. The buffer of 128 bytes holds the text
of every `long long`. -/
def replyAddLonglongWithPrefix (ll : ℤ) (pre : UInt8) : List ReplyCall :=
  if pre = 42 ∧ ll < Shared.bulkhdrLen ∧ ll ≥ 0 then [.obj (Shared.mbulkhdr ll.toNat)]
  else if pre = 36 ∧ ll < Shared.bulkhdrLen ∧ ll ≥ 0 then [.obj (Shared.bulkhdr ll.toNat)]
  else [.str (pre :: (integerText ll ++ ascii "\r\n"))]

def replyAddLonglong (ll : ℤ) : List ReplyCall := replyAddLonglongWithPrefix ll 58

def replyAddMultiBulkLen (length : ℕ) : List ReplyCall :=
  if length < Shared.bulkhdrLen then [.obj (Shared.mbulkhdr length)]
  else replyAddLonglongWithPrefix length 42

/-- The loop that counts the digits of the integer. -/
def bulkLenLoop (n : ℤ) (len : ℕ) : ℕ → ℕ
  | 0 => len
  | fuel + 1 =>
    let n := n.tdiv 10
    if n ≠ 0 then bulkLenLoop n (len + 1) fuel else len

/-- The length announced for an object; `-n` wraps around. -/
def bulkLen : StrEnc → ℕ
  | .raw s | .embstr s => s.length
  | .int n => if n < 0 then bulkLenLoop (-n).toInt 2 20 else bulkLenLoop n.toInt 1 20

def replyAddBulkLen (obj : StrEnc) : List ReplyCall :=
  if bulkLen obj < Shared.bulkhdrLen then [.obj (Shared.bulkhdr (bulkLen obj))]
  else replyAddLonglongWithPrefix (bulkLen obj) 36

def replyAddBulkObj (obj : StrEnc) : List ReplyCall :=
  replyAddBulkLen obj ++ [.obj obj, .obj Shared.crlf]

def replyAddBulkCbuf (p : Bytes) : List ReplyCall :=
  replyAddLonglongWithPrefix p.length 36 ++ [.str p, .obj Shared.crlf]

def replyAddBulkSds (s : Bytes) : List ReplyCall :=
  [.sds (ascii "$" ++ ll2stringDigits s.length ++ ascii "\r\n"), .sds s, .obj Shared.crlf]

def replyAddBulkCstr : Option Bytes → List ReplyCall
  | none => [.obj Shared.nullbulk]
  | some s => replyAddBulkCbuf (cStr s)

def replyAddBulkLonglong (ll : ℤ) : List ReplyCall :=
  replyAddBulkCbuf ((ll2string 64 ll).getD [])

/-- What a `write` call returns: a number of bytes, of those offered at most, together
with whether the memory limit leaves it to `NET_MAX_WRITES_PER_EVENT` to stop; `EAGAIN`;
another error. -/
inductive WriteOutcome where
  | wrote (n : ℕ) (underMemory : Bool)
  | again
  | fail
  deriving DecidableEq, Repr

/-- What is sent first: the buffer, or the list head once the buffer is empty. -/
def front (c : Client) : Bytes := if c.buf.length > 0 then c.buf else c.reply.headD []

/-- The bytes offered to `write`. -/
def offered (c : Client) : Bytes := (front c).drop c.bufSentLen

/-- The client after some of the offered bytes were sent. -/
def sentSome (c : Client) (nwritten : ℕ) : Client :=
  let sent := c.bufSentLen + nwritten
  if c.buf.length > 0 then
    if toInt32 sent = c.buf.length then { c with buf := [], bufSentLen := 0 }
    else { c with bufSentLen := sent }
  else
    let objlen := (c.reply.headD []).length
    if sent = objlen then
      { c with reply := c.reply.tail, bufSentLen := 0, repliedLen := c.repliedLen - objlen }
    else { c with bufSentLen := sent }

theorem sentSome_reply_length (c : Client) (n : ℕ) :
    (sentSome c n).reply.length ≤ c.reply.length := by
  unfold sentSome
  dsimp only
  split_ifs <;> simp

/-- The loop of `reply_write_to_client`: the client, the bytes sent and whether a write
failed. A call that runs out of outcomes meets `EAGAIN`. -/
def replyWriteLoop (c : Client) (totwritten : ℕ) (outs : List WriteOutcome) : Client × Bytes × Bool :=
  if !clientHasPendingReplies c then (c, [], false)
  else if c.buf.length = 0 ∧ (c.reply.headD []).length = 0 ∧ 0 < c.reply.length then
    replyWriteLoop { c with reply := c.reply.tail } totwritten outs
  else
    match outs with
    | [] | .again :: _ => (c, [], false)
    | .fail :: _ => (c, [], true)
    | .wrote n underMemory :: outs =>
      let nwritten := min n (offered c).length
      if nwritten = 0 then (c, [], false)
      else if totwritten + nwritten > netMaxWritesPerEvent ∧ underMemory then
        (sentSome c nwritten, (offered c).take nwritten, false)
      else
        let (c', bs, failed) := replyWriteLoop (sentSome c nwritten) (totwritten + nwritten) outs
        (c', (offered c).take nwritten ++ bs, failed)
termination_by outs.length + c.reply.length
decreasing_by
  · simp only [List.length_tail]
    omega
  · have := sentSome_reply_length c (min n (offered c).length)
    simp only [List.length_cons]
    omega

/-- What `reply_write_to_client` leaves: the client unless it was freed, the bytes sent,
and whether the write event was removed. -/
structure WriteReturn where
  client : Option Client
  sent : Bytes
  eventDel : Bool

def WriteReturn.status (r : WriteReturn) : Status := if r.client.isSome then .ok else .error

def replyWriteToClient (c : Client) (handlerInstalled : Bool) (outs : List WriteOutcome) : WriteReturn :=
  let (c, sent, failed) := replyWriteLoop c 0 outs
  if failed then ⟨none, sent, false⟩
  else if !clientHasPendingReplies c then
    let c := { c with bufSentLen := 0 }
    if c.closeAfterReply then ⟨none, sent, handlerInstalled⟩ else ⟨some c, sent, handlerInstalled⟩
  else ⟨some c, sent, false⟩

end RhinoRox
