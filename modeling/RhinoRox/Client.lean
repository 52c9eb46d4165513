import RhinoRox.Numbers

/-!
# String objects and the client structure

The encodings of a string object (`robj.c`) and the fields of `rr_client_t` that parsing
and replying use. `argc` is the length of `argv` and `buf_offset` the length of `buf`.
-/

namespace RhinoRox

/-- Encoding and contents of a string object. The pointer of an integer-encoded object
is the integer itself. -/
inductive StrEnc where
  | raw (s : Bytes)
  | embstr (s : Bytes)
  | int (n : Int64)
  deriving DecidableEq

namespace StrEnc

/-- The bytes that the object stands for. -/
def bytes : StrEnc → Bytes
  | raw s | embstr s => s
  | int n => decimal n

@[simp] theorem bytes_raw (s : Bytes) : (raw s).bytes = s := rfl
@[simp] theorem bytes_embstr (s : Bytes) : (embstr s).bytes = s := rfl
@[simp] theorem bytes_int (n : Int64) : (int n).bytes = decimal n := rfl

end StrEnc

/-- `createStringObject` embeds strings of at most 44 bytes. -/
def createStringObject (s : Bytes) : StrEnc := if s.length ≤ 44 then .embstr s else .raw s

@[simp] theorem createStringObject_bytes (s : Bytes) : (createStringObject s).bytes = s := by
  unfold createStringObject
  split <;> rfl

/-- `getDecodedObject`. -/
def getDecodedObject : StrEnc → StrEnc
  | .raw s => .raw s
  | .embstr s => .embstr s
  | .int n => createStringObject (cStr ((ll2string 32 n.toInt).getD []))

@[simp] theorem getDecodedObject_bytes (o : StrEnc) : (getDecodedObject o).bytes = o.bytes := by
  cases o with
  | raw s => rfl
  | embstr s => rfl
  | int n =>
    rw [getDecodedObject, createStringObject_bytes]
    exact cStr_of_notMem (zero_notMem_decimal n)

def protoReplyMaxLen : ℕ := 16 * 1024
def protoQueryMaxLen : ℕ := 512 * 1024 * 1024
def protoIobufLen : ℕ := 16 * 1024
def protoInlineMaxLen : ℕ := 1024 * 64
def protoMbulkBigArg : ℕ := 1024 * 32
def netMaxWritesPerEvent : ℕ := 1024 * 64

/-- `req_type`, unset until the first byte of a request. -/
inductive ReqType where
  | unset | multibulk | inline
  deriving DecidableEq, Repr

structure Client where
  fd : ℤ
  reqType : ReqType
  multibulkLen : ℕ
  bulkLen : ℤ
  query : Bytes
  reply : List Bytes
  pendingWrite : Bool
  closeAfterReply : Bool
  argv : List StrEnc
  argvSize : ℕ
  repliedLen : ℕ
  bufSentLen : ℕ
  buf : Bytes

/-- `rr_client_create`. -/
def rrClientCreate (fd : ℤ) : Client where
  fd := fd
  reqType := .unset
  multibulkLen := 0
  bulkLen := -1
  query := []
  reply := []
  pendingWrite := false
  closeAfterReply := false
  argv := []
  argvSize := 0
  repliedLen := 0
  bufSentLen := 0
  buf := []

/-- `rr_client_reset` with `free_client_argv`: the array itself is kept. -/
def rrClientReset (c : Client) : Client :=
  { c with reqType := .unset, multibulkLen := 0, bulkLen := -1, argv := [] }

def clientHasPendingReplies (c : Client) : Bool := !c.buf.isEmpty || !c.reply.isEmpty

end RhinoRox
