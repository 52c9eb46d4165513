import RhinoRox.Replying
import RhinoRox.Sds

/-!
# Reading requests, from `rr_server.c`

The inline and multibulk parsers, the loop over the query buffer and the read callback.
The function that executes a command is a parameter: it sees the argument vector and
answers with a status, reply calls and whether the client is to be closed.
-/

namespace RhinoRox

/-- The result of executing one command. -/
structure CmdResult (σ : Type) where
  state : σ
  calls : List ReplyCall
  status : Status
  closing : Bool

/-- What `cmd_process` does with the arguments of a client. -/
abbrev CmdProc (σ : Type) := σ → List StrEnc → CmdResult σ

/-- `set_protocol_error`. -/
def setProtocolError (c : Client) (pos : ℕ) : Client :=
  { c with closeAfterReply := true, query := sdsrange c.query pos (-1) }

/-- A protocol error is reported and the query buffer trimmed. -/
def protocolError (c : Client) (calls : List ReplyCall) (pos : ℕ) : Client :=
  setProtocolError (replyAll c calls) pos

def processInlineInput (c : Client) : Status × Client :=
  match strchr c.query 10 with
  | none =>
    if c.query.length > protoInlineMaxLen then
      (.error, replyAll c (replyAddErr (ascii "Protocol error: too big inline request")))
    else (.error, c)
  | some newline =>
    let querylen := if newline ≠ 0 ∧ byteAt c.query (newline - 1) = 13 then newline - 1 else newline
    match sdssplitargs (c.query.take querylen) with
    | none =>
      (.error, protocolError c (replyAddErr (ascii "Protocol error: unbalanced quotes in request")) 0)
    | some argv =>
      (.ok,
        { c with
          query := sdsrange c.query (querylen + 2 : ℕ) (-1)
          argvSize := if argv.length ≠ 0 then argv.length else c.argvSize
          argv := (argv.filter fun a => a.length ≠ 0).map StrEnc.raw })

/-- `string2ll` on a buffer and a length. A length beyond the terminator never parses,
since the terminator is not a digit. -/
def string2llLen (s : Bytes) (slen : ℕ) : Option ℤ :=
  if slen ≤ s.length then string2ll (s.take slen) else none

/-- Whether a part of `process_multi_bulk_input` returns from the function or goes on. -/
inductive Flow (β : Type) where
  | ret (status : Status) (c : Client)
  | go (b : β)

/-- The part before the loop: the number of arguments. -/
def multiBulkHeader (c : Client) : Exec (Flow (Client × ℕ)) :=
  if c.multibulkLen = 0 then
    if c.argv.length ≠ 0 then throw .assertion
    else
      match strchr c.query 13 with
      | none =>
        if c.query.length > protoInlineMaxLen then
          pure (.ret .error
            (protocolError c (replyAddErr (ascii "Protocol error: too big mbulk count string")) 0))
        else pure (.ret .error c)
      | some newline =>
        if (newline : ℤ) > toInt32 c.query.length - 2 then pure (.ret .error c)
        else
          match string2llLen (c.query.drop 1) (subSize newline 1) with
          | none =>
            pure (.ret .error
              (protocolError c (replyAddErr (ascii "Protocol error: invalid multibulk length")) 0))
          | some ll =>
            if ll > 1024 * 1024 then
              pure (.ret .error
                (protocolError c (replyAddErr (ascii "Protocol error: invalid multibulk length")) 0))
            else if ll ≤ 0 then
              pure (.ret .ok { c with query := sdsrange c.query (newline + 2 : ℕ) (-1) })
            else pure (.go ({ c with multibulkLen := ll.toNat, argvSize := ll.toNat }, newline + 2))
  else pure (.go (c, 0))

/-- One turn of the loop: return, break, or continue at a new position. -/
inductive BulkStep where
  | ret (status : Status) (c : Client)
  | stop (c : Client) (pos : ℕ)
  | next (c : Client) (pos : ℕ)

/-- Read the bulk length if unknown. -/
def readBulkLen (c : Client) (pos : ℕ) : BulkStep :=
  if c.bulkLen = -1 then
    match strchr (c.query.drop pos) 13 with
    | none =>
      if c.query.length > protoInlineMaxLen then
        .ret .error (protocolError c (replyAddErr (ascii "Protocol error: too big bulk count string")) 0)
      else .stop c pos
    | some offset =>
      if ((pos + offset : ℕ) : ℤ) > toInt32 c.query.length - 2 then .stop c pos
      else if byteAt c.query pos ≠ 36 then
        .ret .error (protocolError c (replyAddErrFormat
          (ascii "Protocol error: expected '$', got '" ++ [byteAt c.query pos] ++ ascii "'")) pos)
      else
        match string2llLen (c.query.drop (pos + 1)) (subSize offset 1) with
        | none =>
          .ret .error (protocolError c (replyAddErr (ascii "Protocol error: invalid bulk length")) pos)
        | some ll =>
          if ll < 0 ∨ ll > 512 * 1024 * 1024 then
            .ret .error (protocolError c (replyAddErr (ascii "Protocol error: invalid bulk length")) pos)
          else if ll ≥ protoMbulkBigArg then
            .next { c with query := sdsrange c.query (pos + offset + 2 : ℕ) (-1), bulkLen := ll } 0
          else .next { c with bulkLen := ll } (pos + offset + 2)
  else .next c pos

/-- `(unsigned)(c->bulk_len + 2)`. -/
def bulkSize (c : Client) : ℕ := ((c.bulkLen + 2) % 2 ^ 32).toNat

/-- `c->argv[c->argc++] = o`. -/
def pushArg (c : Client) (o : StrEnc) : Exec Client :=
  if c.argv.length < c.argvSize then pure { c with argv := c.argv ++ [o] } else throw .outOfBounds

/-- Read the bulk argument. A buffer that holds just the argument is taken over as it is. -/
def readBulkArg (c : Client) (pos : ℕ) : Exec BulkStep :=
  if subSize c.query.length pos < bulkSize c then pure (.stop c pos)
  else if pos = 0 ∧ c.bulkLen ≥ protoMbulkBigArg ∧ toInt32 c.query.length = c.bulkLen + 2 then do
    let c ← pushArg c (.raw (c.query.take (c.query.length - 2)))
    pure (.next { c with query := [], bulkLen := -1, multibulkLen := c.multibulkLen - 1 } 0)
  else do
    let c' ← pushArg c (createStringObject ((c.query.drop pos).take c.bulkLen.toNat))
    pure (.next { c' with bulkLen := -1, multibulkLen := c.multibulkLen - 1 }
      (pos + (c.bulkLen + 2).toNat))

/-- One turn of the loop of `process_multi_bulk_input`; `pos` stays inside the buffer. -/
def bulkStep (c : Client) (pos : ℕ) : Exec BulkStep :=
  if c.query.length < pos then throw .outOfBounds
  else
    match readBulkLen c pos with
    | .next c pos => readBulkArg c pos
    | step => pure step

/-- The loop itself, `n` being `multibulk_len`. -/
def bulkLoop : ℕ → Client → ℕ → Exec (Flow (Client × ℕ))
  | 0, c, pos => pure (.go (c, pos))
  | n + 1, c, pos => do
    match ← bulkStep c pos with
    | .ret status c => pure (.ret status c)
    | .stop c pos => pure (.go (c, pos))
    | .next c pos => bulkLoop n c pos

/-- Trim to `pos`; done when no argument is missing. -/
def finishMultiBulk (c : Client) (pos : ℕ) : Status × Client :=
  let c := if pos ≠ 0 then { c with query := sdsrange c.query pos (-1) } else c
  (if c.multibulkLen = 0 then .ok else .error, c)

def processMultiBulkInput (c : Client) : Exec (Status × Client) := do
  match ← multiBulkHeader c with
  | .ret status c => pure (status, c)
  | .go (c, pos) =>
    match ← bulkLoop c.multibulkLen c pos with
    | .ret status c => pure (status, c)
    | .go (c, pos) => pure (finishMultiBulk c pos)

/-- Determine the request type when unknown. -/
def setReqType (c : Client) : Client :=
  if c.reqType = .unset then
    { c with reqType := if byteAt c.query 0 = 42 then .multibulk else .inline }
  else c

/-- One of the two parsers. -/
def processInput (c : Client) : Exec (Status × Client) :=
  match c.reqType with
  | .inline => pure (processInlineInput c)
  | .multibulk => processMultiBulkInput c
  | .unset => throw .assertion

section Loop
variable {σ : Type} (proc : CmdProc σ)

/-- Execute the command that was read; the client is only reset when it was executed. -/
def executeRequest (s : σ) (c : Client) : σ × Client :=
  if c.argv.length = 0 then (s, rrClientReset c)
  else
    let r := proc s c.argv
    let c := replyAll c r.calls
    let c := if r.closing then { c with closeAfterReply := true } else c
    (r.state, if r.status = .ok then rrClientReset c else c)

/-- One turn of the loop of `process_user_input`: break or continue. -/
inductive UserStep (σ : Type) where
  | stop (s : σ) (c : Client)
  | next (s : σ) (c : Client)

def userStep (s : σ) (c : Client) : Exec (UserStep σ) :=
  if c.query.length = 0 then pure (.stop s c)
  else if c.closeAfterReply then pure (.stop s c)
  else do
    let (status, c) ← processInput (setReqType c)
    if status ≠ .ok then pure (.stop s c)
    else
      let (s, c) := executeRequest proc s c
      pure (.next s c)

/-- `process_user_input`, with a bound on the number of turns. -/
def processUserInput : ℕ → σ → Client → Exec (σ × Client)
  | 0, _, _ => throw .divergence
  | fuel + 1, s, c => do
    match ← userStep proc s c with
    | .stop s c => pure (s, c)
    | .next s c => processUserInput fuel s c

/-- The number of bytes asked of `read`. -/
def readlen (c : Client) : ℤ :=
  if c.reqType = .multibulk ∧ c.multibulkLen ≠ 0 ∧ c.bulkLen ≠ -1 ∧ c.bulkLen ≥ protoMbulkBigArg then
    let remaining := toInt32 (subSize (bulkSize c) c.query.length)
    if remaining < protoIobufLen then remaining else protoIobufLen
  else protoIobufLen

/-- What a `read` call returns: bytes (none at the end of the stream), `EAGAIN`, another
error. -/
inductive ReadOutcome where
  | data (bs : Bytes)
  | again
  | fail

/-- The client with a chunk appended to its buffer. -/
def received (c : Client) (bs : Bytes) : Client := { c with query := c.query ++ bs }

/-- `handle_read_from_client`; `none` when the client was freed. Every turn of the loop
but the last shortens the buffer, so its length bounds the number of turns. -/
def handleReadFromClient (s : σ) (c : Client) : ReadOutcome → Exec (Option (σ × Client))
  | .again => pure (some (s, c))
  | .fail => pure none
  | .data bs =>
    if bs.length = 0 then pure none
    else if (received c bs).query.length > protoQueryMaxLen then pure none
    else do
      let r ← processUserInput proc ((received c bs).query.length + 1) s (received c bs)
      pure (some r)

end Loop

/-- `cmd_process` with QUIT handled separately; `exec` looks the command up and runs it. -/
def cmdProcess {σ : Type} (exec : σ → List StrEnc → σ × List ReplyCall) : CmdProc σ := fun s argv =>
  if strcaseEq ((argv.map StrEnc.bytes).headD []) (ascii "quit") then
    ⟨s, [.obj Shared.ok], .error, true⟩
  else
    let (s', calls) := exec s argv
    ⟨s', calls, .ok, false⟩

end RhinoRox
