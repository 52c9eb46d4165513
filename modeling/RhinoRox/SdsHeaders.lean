import RhinoRox.BufferWrites
import RhinoRox.Numbers
import RhinoRox.Tokenizer

/-!
# Dynamic strings in memory, from `sds.h` and `sds.c`

A string is a header and the bytes from its first to the end of the allocation. The contents of
memory that the allocator hands out are arbitrary, and a write past the end of an allocation is a
fault.
-/

namespace RhinoRox.SdsMemory

open Buffers

/-- The type in the three lower bits of the flags. -/
inductive HdrType where
  | type5 | type8 | type16 | type32 | type64
  deriving DecidableEq, Repr

/-- The width of the field `len`. -/
def HdrType.bits : HdrType → ℕ
  | .type5 => 5 | .type8 => 8 | .type16 => 16 | .type32 => 32 | .type64 => 64

/-- A type 5 header holds its length in the upper five bits of the flags and has no field `alloc`.
`buf` are the bytes behind the header up to the end of the allocation. -/
structure Sdshdr where
  type : HdrType
  len : ℕ
  alloc : ℕ
  buf : Bytes
  deriving Repr

/-- `rr_malloc`: a block of any contents, or the end of the process. The sizes that one call of a
function below asks for grow, so that one answer for each size is no restriction. -/
structure Malloc where
  block : ℕ → Option Bytes
  size : ∀ n bs, block n = some bs → bs.length = n

def Malloc.get (m : Malloc) (size : ℕ) : Exec Bytes :=
  match m.block (size % 2 ^ 64) with
  | none => .error .exit
  | some bs => .ok bs

def sdsMaxPrealloc : ℕ := 1024 * 1024

def sdsHdrSize : HdrType → ℕ
  | .type5 => 1 | .type8 => 3 | .type16 => 5 | .type32 => 9 | .type64 => 17

def sdsReqType (stringSize : ℕ) : HdrType :=
  if stringSize < 32 then .type5
  else if stringSize < 0xff then .type8
  else if stringSize < 0xffff then .type16
  else if stringSize < 0xffffffff then .type32
  else .type64

/-- The type for a string that grows: type 5 cannot remember empty space. -/
def growType (size : ℕ) : HdrType := if sdsReqType size = .type5 then .type8 else sdsReqType size

namespace Sdshdr

def sdslen (s : Sdshdr) : ℕ := s.len

def sdsavail (s : Sdshdr) : ℕ :=
  match s.type with
  | .type5 => 0
  | .type32 => (s.alloc + 2 ^ 32 - s.len) % 2 ^ 32
  | _ => subSize s.alloc s.len

def sdssetlen (s : Sdshdr) (newlen : ℕ) : Sdshdr := { s with len := newlen % 2 ^ s.type.bits }

def sdsinclen (s : Sdshdr) (inc : ℕ) : Sdshdr := { s with len := (s.len + inc) % 2 ^ s.type.bits }

def sdsalloc (s : Sdshdr) : ℕ := if s.type = .type5 then s.len else s.alloc

def sdssetalloc (s : Sdshdr) (newlen : ℕ) : Sdshdr :=
  if s.type = .type5 then s else { s with alloc := newlen % 2 ^ s.type.bits }

def sdsAllocSize (s : Sdshdr) : ℕ := sdsHdrSize s.type + s.sdsalloc + 1

/-- `memcpy(s + i, data, …)`. -/
def write (s : Sdshdr) (i : ℕ) (data : Bytes) : Exec Sdshdr :=
  if i + data.length ≤ s.buf.length then .ok { s with buf := writeAt s.buf i data } else .error .outOfBounds

/-- The `n` bytes from `s + i` on. -/
def read (s : Sdshdr) (i n : ℕ) : Exec Bytes :=
  if i + n ≤ s.buf.length then .ok ((s.buf.drop i).take n) else .error .outOfBounds

/-- The terminator behind the last byte, and the length. -/
def terminate (s : Sdshdr) (len : ℕ) : Exec Sdshdr := do
  let s ← s.write len [0]
  pure (s.sdssetlen len)

end Sdshdr

/-! ## Creation -/

/-- The bytes that `memcpy` takes from `init`. -/
def initBytes : Option Bytes → ℕ → Exec Bytes
  | none, _ => pure []
  | some init, n => if n ≤ init.length then pure (init.take n) else .error .outOfBounds

/-- `sdsnewlen(init, initlen)`; `none` stands for `NULL`, which asks for zero bytes. -/
def sdsnewlen (m : Malloc) (init : Option Bytes) (initlen : ℕ) : Exec Sdshdr := do
  -- empty strings are usually created in order to append
  let type := if initlen = 0 then .type8 else sdsReqType initlen
  let block ← m.get (sdsHdrSize type + initlen + 1)
  let block := if init.isNone then List.replicate block.length 0 else block
  let s : Sdshdr := Sdshdr.sdssetlen ⟨type, 0, 0, block.drop (sdsHdrSize type)⟩ initlen
  let s := s.sdssetalloc initlen
  let s ← s.write 0 (← initBytes init initlen)
  s.write initlen [0]

def sdsdup (m : Malloc) (s : Sdshdr) : Exec Sdshdr := sdsnewlen m (some s.buf) s.sdslen

/-! ## Space -/

/-- What `sdsMakeRoomFor` and `sdsRemoveFreeSpace` do once the new type and size are chosen. -/
def reallocate (m : Malloc) (s : Sdshdr) (type : HdrType) (newlen : ℕ) : Exec Sdshdr := do
  let block ← m.get (sdsHdrSize type + newlen + 1)
  let fresh := block.drop (sdsHdrSize type)
  if s.type = type then
    -- `realloc` keeps the header and the bytes that fit
    let kept := s.buf.take fresh.length
    pure (Sdshdr.sdssetalloc { s with buf := kept ++ fresh.drop kept.length } newlen)
  else
    let copied ← s.read 0 (s.sdslen + 1)
    let s' ← Sdshdr.write ⟨type, 0, 0, fresh⟩ 0 copied
    pure ((s'.sdssetlen s.sdslen).sdssetalloc newlen)

/-- The size to allocate for a string of `len` bytes. -/
def preallocate (len : ℕ) : ℕ := if len < sdsMaxPrealloc then len * 2 else (len + sdsMaxPrealloc) % 2 ^ 64

def sdsMakeRoomFor (m : Malloc) (s : Sdshdr) (addlen : ℕ) : Exec Sdshdr :=
  if s.sdsavail ≥ addlen then pure s
  else
    let newlen := preallocate ((s.sdslen + addlen) % 2 ^ 64)
    reallocate m s (growType newlen) newlen

def sdsRemoveFreeSpace (m : Malloc) (s : Sdshdr) : Exec Sdshdr := reallocate m s (sdsReqType s.sdslen) s.sdslen

/-- The assertion of `sdsIncrLen`. The fields of 8 and 16 bits are compared as `int`. -/
def incrFits (s : Sdshdr) (incr : ℤ) : Bool :=
  match s.type with
  | .type5 => (0 < incr && s.len + incr < 32) || (incr < 0 && -incr ≤ s.len)
  | .type8 | .type16 => (0 ≤ incr && incr ≤ (s.alloc : ℤ) - s.len) || (incr < 0 && -incr ≤ s.len)
  | .type32 | .type64 => (0 ≤ incr && incr ≤ s.sdsavail) || (incr < 0 && -incr ≤ s.len)

def sdsIncrLen (s : Sdshdr) (incr : ℤ) : Exec Sdshdr :=
  if incrFits s incr then s.terminate (s.len + incr).toNat else .error .assertion

/-! ## Contents -/

def sdsclear (s : Sdshdr) : Exec Sdshdr := s.terminate 0

/-- `strlen(s)` is an `int` here. -/
def sdsupdatelen (s : Sdshdr) : Exec Sdshdr :=
  if 0 ∈ s.buf then pure (s.sdssetlen ((toInt32 (cStr s.buf).length) % 2 ^ 64).toNat) else .error .outOfBounds

def sdsgrowzero (m : Malloc) (s : Sdshdr) (len : ℕ) : Exec Sdshdr :=
  let curlen := s.sdslen
  if len ≤ curlen then pure s
  else do
    let s ← sdsMakeRoomFor m s (len - curlen)
    let s ← s.write curlen (List.replicate (len - curlen + 1) 0)
    pure (s.sdssetlen len)

def sdscatlen (m : Malloc) (s : Sdshdr) (t : Bytes) : Exec Sdshdr := do
  let curlen := s.sdslen
  let s ← sdsMakeRoomFor m s t.length
  let s ← s.write curlen t
  s.terminate (curlen + t.length)

def sdscat (m : Malloc) (s : Sdshdr) (t : Bytes) : Exec Sdshdr := sdscatlen m s (cStr t)

/-- The string, with room for `len` bytes in all. -/
def roomForCopy (m : Malloc) (s : Sdshdr) (len : ℕ) : Exec Sdshdr :=
  if s.sdsalloc < len then sdsMakeRoomFor m s (len - s.sdslen) else pure s

def sdscpylen (m : Malloc) (s : Sdshdr) (t : Bytes) : Exec Sdshdr := do
  let s ← roomForCopy m s t.length
  let s ← s.write 0 t
  s.terminate t.length

/-- The loop over `sp`, then the loop over `ep`; `e` is the number of bytes up to `ep`. -/
def trimBack (cset buf : Bytes) (sp : ℕ) : ℕ → ℕ
  | 0 => 0
  | e + 1 => if sp < e ∧ inCset cset (byteAt buf e) then trimBack cset buf sp e else e + 1

def trimFront (cset buf : Bytes) (len : ℕ) : ℕ := ((buf.take len).takeWhile (inCset cset)).length

/-- `memmove(s, s + start, n)` and the end behind it. -/
def keepSlice (s : Sdshdr) (start n : ℕ) : Exec Sdshdr := do
  let kept ← s.read start n
  let s ← s.write 0 kept
  s.terminate n

def sdstrim (s : Sdshdr) (cset : Bytes) : Exec Sdshdr :=
  let sp := trimFront cset s.buf s.sdslen
  let e := trimBack cset s.buf sp s.sdslen
  keepSlice s sp (if sp ≥ e then 0 else e - sp)

/-- The start and the length of the range that `sdsrange` keeps. -/
def rangeBounds (len : ℕ) (start stop : ℤ) : ℤ × ℤ :=
  let start := if start < 0 then max 0 (toInt32 (len + start)) else start
  let stop := if stop < 0 then max 0 (toInt32 (len + stop)) else stop
  let newlen := if start > stop then 0 else stop - start + 1
  if newlen ≠ 0 then
    if start ≥ toInt32 len then (start, 0)
    else if stop ≥ toInt32 len then (start, if start > toInt32 (len - 1) then 0 else toInt32 (len - 1) - start + 1)
    else (start, newlen)
  else (0, newlen)

def sdsrange (s : Sdshdr) (start stop : ℤ) : Exec Sdshdr :=
  if s.sdslen = 0 then pure s
  else
    let (start, newlen) := rangeBounds s.sdslen start stop
    if start ≠ 0 ∧ newlen ≠ 0 then keepSlice s start.toNat newlen.toNat else s.terminate newlen.toNat

/-- `toupper`. -/
def toupper (c : UInt8) : UInt8 := if 97 ≤ c ∧ c ≤ 122 then c - 32 else c

/-- A loop that replaces each of the first `n` bytes. -/
def mapBytes (s : Sdshdr) (n : ℕ) (f : UInt8 → UInt8) : Exec Sdshdr := do
  let bs ← s.read 0 n
  s.write 0 (bs.map f)

/-- The length is an `int`. -/
def sdstolower (s : Sdshdr) : Exec Sdshdr := mapBytes s (toInt32 s.sdslen).toNat tolower

def sdstoupper (s : Sdshdr) : Exec Sdshdr := mapBytes s (toInt32 s.sdslen).toNat toupper

/-- The byte that `sdsmapchars` puts in place of `c`: the first of `from` that is `c` decides. -/
def mapchar (src dst : Bytes) (c : UInt8) : UInt8 := ((src.zip dst).lookup c).getD c

def sdsmapchars (s : Sdshdr) (src dst : Bytes) : Exec Sdshdr := mapBytes s s.sdslen (mapchar src dst)

/-! ## Formats -/

/-- The size of the buffer that is large enough for `vsnprintf`, whose output is `out`. -/
def printfBuffer (m : Malloc) (out : Bytes) : ℕ → ℕ → Exec ℕ
  | 0, _ => .error .divergence
  | fuel + 1, buflen =>
    -- the last byte but one is zero before the call; the output is cut off at `buflen - 1` bytes
    if buflen - 2 < out.length ∧ byteAt out (buflen - 2) ≠ 0 then do
      let buf ← m.get (buflen * 2)
      if buf.length < buflen * 2 then .error .outOfBounds else printfBuffer m out fuel (buflen * 2)
    else pure buflen

/-- The first buffer: a static one, or one from the heap for a long format. -/
def firstBuffer (m : Malloc) (fmtlen : ℕ) : Exec ℕ :=
  if fmtlen * 2 > 1024 then do
    let _ ← m.get (fmtlen * 2)
    pure (fmtlen * 2)
  else pure 1024

/-- `sdscatvprintf` with a format of `fmtlen` bytes that prints `out`. -/
def sdscatvprintf (m : Malloc) (s : Sdshdr) (fmtlen : ℕ) (out : Bytes) : Exec Sdshdr := do
  let buflen ← firstBuffer m fmtlen
  let buflen ← printfBuffer m out (out.length + 1) buflen
  sdscat m s (out.take (buflen - 1))

/-- The digits that `sdsull2str` writes before it reverses them. -/
def digitsFromRight (v : ℕ) : Bytes := digitChar (v % 10) :: if v / 10 = 0 then [] else digitsFromRight (v / 10)
termination_by v
decreasing_by omega

def sdsull2str (v : ℕ) : Bytes := (digitsFromRight v).reverse

def sdsll2str (value : ℤ) : Bytes := (digitsFromRight value.natAbs ++ if value < 0 then [45] else []).reverse

/-- An argument of `sdscatfmt`: `%s` and `%S`, `%i` and `%I`, `%u` and `%U`. -/
inductive FmtArg where
  | str (s : Bytes)
  | int (v : ℤ)
  | uint (v : ℕ)

def makeRoomIfLess (m : Malloc) (s : Sdshdr) (l : ℕ) : Exec Sdshdr :=
  if s.sdsavail < l then sdsMakeRoomFor m s l else pure s

/-- The bytes `str` written at `i`, which is an `int`. -/
def put (str : Bytes) (s : Sdshdr) (i : ℕ) : Exec (Sdshdr × ℕ) :=
  if i + str.length < 2 ^ 31 then do
    let s ← s.write i str
    pure (s.sdsinclen str.length, i + str.length)
  else .error .outOfBounds

def putChecked (m : Malloc) (checked : Bool) (str : Bytes) (s : Sdshdr) (i : ℕ) : Exec (Sdshdr × ℕ) := do
  let s ← if checked then makeRoomIfLess m s str.length else pure s
  put str s i

/-- `%` followed by `next`: what is written, with room made if `true`, and the arguments left. -/
def fmtSpec (next : UInt8) (args : List FmtArg) : Option (Bytes × Bool × List FmtArg) :=
  if next = 115 then -- %s
    match args with
    | .str t :: args => some (cStr t, true, args)
    | _ => none
  else if next = 83 then -- %S
    match args with
    | .str t :: args => some (t, true, args)
    | _ => none
  else if next = 105 ∨ next = 73 then -- %i, %I
    match args with
    | .int v :: args => some (sdsll2str v, true, args)
    | _ => none
  else if next = 117 ∨ next = 85 then -- %u, %U
    match args with
    | .uint v :: args => some (sdsull2str v, true, args)
    | _ => none
  else some ([next], false, args)

/-- The loop of `sdscatfmt` over the format. A `%` at the end makes it read past the format, and an
argument of the wrong type is undefined. -/
def catfmtLoop (m : Malloc) : Bytes → List FmtArg → Sdshdr → ℕ → Exec (Sdshdr × ℕ)
  | [], _, s, i => pure (s, i)
  | [37], _, _, _ => .error .outOfBounds
  | 37 :: next :: fmt, args, s, i => do
    let s ← makeRoomIfLess m s 1
    match fmtSpec next args with
    | none => .error .uninitialised
    | some (str, checked, args) =>
      let (s, i) ← putChecked m checked str s i
      catfmtLoop m fmt args s i
  | c :: fmt, args, s, i => do
    let s ← makeRoomIfLess m s 1
    let (s, i) ← put [c] s i
    catfmtLoop m fmt args s i

def sdscatfmt (m : Malloc) (s : Sdshdr) (fmt : Bytes) (args : List FmtArg) : Exec Sdshdr := do
  let (s, i) ← catfmtLoop m fmt args s s.sdslen
  s.write i [0]

/-! ## Escapes -/

/-- `isprint`. -/
def isprint (c : UInt8) : Bool := 32 ≤ c && c ≤ 126

def hexChar (d : UInt8) : UInt8 := if d < 10 then 48 + d else 87 + d

/-- What `sdscatrepr` appends for a byte, and whether through `sdscatprintf` with a format of that
length. -/
def reprByte (c : UInt8) : Bytes × Option ℕ :=
  if c = 92 ∨ c = 34 then ([92, c], some 3)
  else if c = 10 then ([92, 110], none)
  else if c = 13 then ([92, 114], none)
  else if c = 9 then ([92, 116], none)
  else if c = 7 then ([92, 97], none)
  else if c = 8 then ([92, 98], none)
  else if isprint c then ([c], some 2)
  else ([92, 120, hexChar (c / 16), hexChar (c % 16)], some 6)

def catReprByte (m : Malloc) (s : Sdshdr) (c : UInt8) : Exec Sdshdr :=
  match (reprByte c).2 with
  | none => sdscatlen m s (reprByte c).1
  | some fmtlen => sdscatvprintf m s fmtlen (reprByte c).1

def sdscatrepr (m : Malloc) (s : Sdshdr) (p : Bytes) : Exec Sdshdr := do
  let s ← sdscatlen m s [34]
  let s ← p.foldlM (catReprByte m) s
  sdscatlen m s [34]

end RhinoRox.SdsMemory
