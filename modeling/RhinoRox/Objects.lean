import RhinoRox.FtsSearch
import RhinoRox.Replying

/-!
# Objects and reference counts, from `robj.c`

Objects are values with an address; strings never change once they are stored, and a
collection is referred to by its key only. The counts of the live objects are kept apart.
An operation on an object that is not live is a fault. The shared integers have the
addresses below `OBJ_SHARED_INTEGERS`, and their count never changes.
-/

namespace RhinoRox

/-- `hq_item_t`; the score is the bit pattern of a `double`. -/
structure HqItem where
  score : UInt64
  obj : StrObj
  deriving DecidableEq

/-- Type, encoding and contents of an object. -/
inductive ObjVal where
  | string (enc : StrEnc)
  | hash (dict : DictT StrObj)
  | heapq (heap : Minheap HqItem)
  | fts (fts : Fts)

structure Robj where
  addr : ℕ
  val : ObjVal

def StrObj.toRobj (o : StrObj) : Robj := ⟨o.addr, .string o.enc⟩

/-- The reference counts of the live objects. -/
abbrev Refs := Finmap fun _ : ℕ => ℤ

def objSharedIntegers : ℕ := 10000

/-- `shared.integers[n]`. -/
def sharedInteger (n : ℕ) : StrObj := ⟨n, .int (Int64.ofNat n)⟩

/-- The parts of the environment that commands depend on: allocation, `strtod`, the
contribution of a term to a score, the text of INFO and the configuration. -/
structure ServerEnv (G : Type) where
  malloc : Finset ℕ → ℕ
  malloc_fresh : ∀ s, malloc s ∉ s
  malloc_private : ∀ s, objSharedIntegers ≤ malloc s
  fts : FtsEnv
  bm25 : Bm25 G
  strtod : Bytes → UInt64 × ℕ × Bool × Bool
  ofLong : Int64 → UInt64
  info : Bytes
  maxMemory : ℕ
  lazyfreeServerDel : Bool

variable {G : Type} (env : ServerEnv G)

/-- `createObject`: a new address with one reference. -/
def createObject (refs : Refs) : ℕ × Refs :=
  let a := env.malloc refs.keys
  (a, refs.insert a 1)

/-- `o->refcount`. -/
def refcount (refs : Refs) (a : ℕ) : Exec ℤ :=
  if a < objSharedIntegers then pure (2 ^ 31 - 1)
  else
    match refs.lookup a with
    | none => throw .freedMemory
    | some n => pure n

def incrRefCount (refs : Refs) (a : ℕ) : Exec Refs := do
  let n ← refcount refs a
  if a < objSharedIntegers then pure refs else pure (refs.insert a (n + 1))

/-- `decrRefCount`, with `free` for what happens to the contents of the last reference. -/
def decrRefCountWith (free : Refs → Exec Refs) (refs : Refs) (a : ℕ) : Exec Refs := do
  let n ← refcount refs a
  if a < objSharedIntegers then pure refs
  else if n = 1 then do
    let refs ← free refs
    pure (refs.erase a)
  else pure (refs.insert a (n - 1))

/-- `decrRefCount` of a string. -/
def decrString (refs : Refs) (o : StrObj) : Exec Refs := decrRefCountWith pure refs o.addr

def decrStrings (refs : Refs) : List StrObj → Exec Refs
  | [] => pure refs
  | o :: os => do
    let refs ← decrString refs o
    decrStrings refs os

/-- The calls on titles and texts that the functions of `rr_fts.c` make. -/
def applyRefOps (refs : Refs) : List RefOp → Exec Refs
  | [] => pure refs
  | .incr o :: ops => do
    let refs ← incrRefCount refs o.addr
    applyRefOps refs ops
  | .decr o :: ops => do
    let refs ← decrString refs o
    applyRefOps refs ops

/-- The memory of a heap slot read as an object: the upper half of the score is the
reference count. -/
def slotRefcount (i : HqItem) : ℤ := toInt32 (i.score.toNat / 2 ^ 32)

/-- `minheap_free`: the callback is applied to the slots themselves. Only a slot whose
memory looks like the last reference is freed, and it is no allocation. -/
def freeHeapqObject : List (Option HqItem) → Exec Unit
  | [] => pure ()
  | none :: _ => throw .uninitialised
  | some i :: items => if slotRefcount i = 1 then throw .wildPointer else freeHeapqObject items

def freeObject (refs : Refs) : ObjVal → Exec Refs
  | .string _ => pure refs
  | .hash dict => do
    let values ← dictFree dict
    decrStrings refs values
  | .heapq heap => do
    freeHeapqObject (heap.array.elm.take heap.len)
    pure refs
  | .fts fts => do
    let log ← ftsFree fts
    applyRefOps refs log

def decrRefCount (refs : Refs) (o : Robj) : Exec Refs :=
  decrRefCountWith (fun refs => freeObject refs o.val) refs o.addr

def decrRefCounts (refs : Refs) : List Robj → Exec Refs
  | [] => pure refs
  | o :: os => do
    let refs ← decrRefCount refs o
    decrRefCounts refs os

def objEncodingEmbstrSizeLimit : ℕ := 44

/-- The part of `tryObjectEncoding` that finds an integer: the object that replaces `o`. -/
def encodeInteger (refs : Refs) (o : StrObj) (value : Int64) : Exec (StrObj × Refs) :=
  if env.maxMemory = 0 ∧ 0 ≤ value.toInt ∧ value.toInt < objSharedIntegers then do
    let refs ← decrString refs o
    let shared := sharedInteger value.toInt.toNat
    let refs ← incrRefCount refs shared.addr
    pure (shared, refs)
  else pure ({ o with enc := .int value }, refs)

/-- The part of `tryObjectEncoding` for other strings. -/
def encodeEmbstr (refs : Refs) (o : StrObj) : Exec (StrObj × Refs) :=
  match o.enc with
  | .raw s =>
    if s.length ≤ objEncodingEmbstrSizeLimit then do
      let (a, refs) := createObject env refs
      let refs ← decrString refs o
      pure (⟨a, .embstr s⟩, refs)
    else pure (o, refs)
  | _ => pure (o, refs)

def tryObjectEncoding (refs : Refs) (o : StrObj) : Exec (StrObj × Refs) :=
  if !sdsEncodedObject o.enc then pure (o, refs)
  else do
    let n ← refcount refs o.addr
    if n > 1 then pure (o, refs)
    else if o.enc.bytes.length ≤ 21 then
      match string2l o.enc.bytes with
      | some value => encodeInteger env refs o value
      | none => encodeEmbstr env refs o
    else encodeEmbstr env refs o

/-! ## Numbers in arguments -/

/-- `strtoll(s, &eptr, 10)`: the value, the text at `eptr`, and whether it is out of range. -/
def strtoll (s : Bytes) : ℤ × Bytes × Bool :=
  let t := s.dropWhile isspace
  let negative := t.head? = some 45
  let t := if t.head? = some 45 ∨ t.head? = some 43 then t.drop 1 else t
  let digits := t.takeWhile fun c => decide (48 ≤ c ∧ c ≤ 57)
  if digits = [] then (0, s, false)
  else
    let n : ℕ := digits.foldl (fun n c => n * 10 + (c.toNat - 48)) 0
    let v : ℤ := if negative then -n else n
    if v < -2 ^ 63 then (-2 ^ 63, t.drop digits.length, true)
    else if v > 2 ^ 63 - 1 then (2 ^ 63 - 1, t.drop digits.length, true)
    else (v, t.drop digits.length, false)

def getLongLongFromObject (o : StrEnc) : Option ℤ :=
  match o with
  | .raw s | .embstr s =>
    let (value, eptr, erange) := strtoll (cStr s)
    if isspace (byteAt (cStr s) 0) ∨ eptr ≠ [] ∨ erange then none else some value
  | .int n => some n.toInt

/-- `getLongFromObjectOrReply` without a message: the value, or the error reply. -/
def getLongFromObjectOrReply (o : StrEnc) : ℤ ⊕ List ReplyCall :=
  match getLongLongFromObject o with
  | some n => .inl n
  | none => .inr (replyAddErr (ascii "value is not an integer or out of range"))

/-- Sign and magnitude of a `double` that is not a NaN, as its order key. -/
def doubleKey (x : UInt64) : ℤ := if x.toNat < 2 ^ 63 then x.toNat else 2 ^ 63 - x.toNat

def isnan (x : UInt64) : Bool := 2047 * 2 ^ 52 < x.toNat % 2 ^ 63

def hugeVal : ℤ := 2047 * 2 ^ 52

/-- `strtod` returns the value, the offset of `eptr` and whether `errno` is `ERANGE` or `EINVAL`. -/
def getDoubleFromObject (o : StrEnc) : Option UInt64 :=
  match o with
  | .raw s | .embstr s =>
    let (value, eptr, erange, einval) := env.strtod (cStr s)
    let v := doubleKey value
    if isspace (byteAt (cStr s) 0) ∨ byteAt (cStr s) eptr ≠ 0 ∨
        (erange ∧ (v = hugeVal ∨ v = -hugeVal ∨ v = 0)) ∨ einval ∨ isnan value then none
    else some value
  | .int n => some (env.ofLong n)

def getDoubleFromObjectOrReply (o : StrEnc) : UInt64 ⊕ List ReplyCall :=
  match getDoubleFromObject env o with
  | some x => .inl x
  | none => .inr (replyAddErr (ascii "value is not a valid float"))

def hqCmp (l r : HqItem) : ℤ :=
  if doubleKey l.score < doubleKey r.score then -1
  else if doubleKey l.score > doubleKey r.score then 1
  else 0

/-! ## New collections -/

inductive ObjType where
  | string | hash | heapq | fts
  deriving DecidableEq, Repr

def ObjVal.type : ObjVal → ObjType
  | .string _ => .string
  | .hash _ => .hash
  | .heapq _ => .heapq
  | .fts _ => .fts

def createHashObject : ObjVal := .hash (dictSetFreecb dictCreate)

def createHeapqObject : ObjVal := .heapq (minheapCreate 8 hqCmp)

def createFTSObject : ObjVal := .fts ftsCreate

end RhinoRox
