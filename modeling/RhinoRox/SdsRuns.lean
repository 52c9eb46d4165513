import RhinoRox.LabelledRuns
import RhinoRox.SdsFormats

/-!
# Runs of operations on a string

A string in memory is a string of bytes: whatever the operations on it, in any order, and whatever
the allocator hands out, it stays inside its allocation and its bytes are those that the operations
on bytes give.
-/

namespace RhinoRox.SdsMemory

open Buffers LabelledRuns

/-- `handle_read_from_client` reads `data` into the space that it made for `readlen` bytes. -/
def readInto (m : Malloc) (s : Sdshdr) (readlen : ℕ) (data : Bytes) : Exec Sdshdr := do
  let qlen := s.sdslen
  let s ← sdsMakeRoomFor m s readlen
  let s ← s.write qlen data
  sdsIncrLen s data.length

/-- An operation on a string. `cutRight k` is `sdsIncrLen` with `-k`. -/
inductive Op where
  | makeRoomFor (addlen : ℕ)
  | removeFreeSpace
  | readInto (readlen : ℕ) (data : Bytes)
  | cutRight (k : ℕ)
  | growzero (len : ℕ)
  | catlen (t : Bytes)
  | catprintf (fmtlen : ℕ) (out : Bytes)
  | catfmt (fmt : Bytes) (args : List FmtArg)
  | catrepr (p : Bytes)
  | cpylen (t : Bytes)
  | trim (cset : Bytes)
  | range (start stop : ℤ)
  | clear
  | updatelen
  | tolower
  | toupper
  | mapchars (src dst : Bytes)

namespace Op

def exec (m : Malloc) (s : Sdshdr) : Op → Exec Sdshdr
  | makeRoomFor addlen => sdsMakeRoomFor m s addlen
  | removeFreeSpace => sdsRemoveFreeSpace m s
  | readInto readlen data => SdsMemory.readInto m s readlen data
  | cutRight k => sdsIncrLen s (-k)
  | growzero len => sdsgrowzero m s len
  | catlen t => sdscatlen m s t
  | catprintf fmtlen out => sdscatvprintf m s fmtlen out
  | catfmt fmt args => sdscatfmt m s fmt args
  | catrepr p => sdscatrepr m s p
  | cpylen t => sdscpylen m s t
  | trim cset => sdstrim s cset
  | range start stop => sdsrange s start stop
  | clear => sdsclear s
  | updatelen => sdsupdatelen s
  | tolower => sdstolower s
  | toupper => sdstoupper s
  | mapchars src dst => sdsmapchars s src dst

/-- What the operation does to the bytes. -/
def apply (bs : Bytes) : Op → Bytes
  | makeRoomFor _ | removeFreeSpace => bs
  | readInto _ data => bs ++ data
  | cutRight k => bs.take (bs.length - k)
  | growzero len => bs ++ List.replicate (len - bs.length) 0
  | catlen t => bs ++ t
  | catprintf _ out => bs ++ cStr out
  | catfmt fmt args => bs ++ (fmtText fmt args).getD []
  | catrepr p => bs ++ repr p
  | cpylen t => t
  | trim cset => RhinoRox.sdstrim bs cset
  | range start stop => RhinoRox.sdsrange bs start stop
  | clear => []
  | updatelen => cStr bs
  | tolower => RhinoRox.sdstolower bs
  | toupper => bs.map SdsMemory.toupper
  | mapchars src dst => bs.map (mapchar src dst)

/-- What a caller has to see to. Lengths are those of objects in memory, and below `2 ^ 31` where the
source counts in `int`. -/
def Allowed (bs : Bytes) : Op → Prop
  | makeRoomFor addlen => bs.length + addlen < 2 ^ 63
  | removeFreeSpace => bs.length < 2 ^ 63
  | readInto readlen data => 0 < data.length ∧ data.length ≤ readlen ∧ bs.length + readlen < 2 ^ 63
  | cutRight k => 0 < k ∧ k ≤ bs.length
  | growzero len => len < 2 ^ 63
  | catlen t => bs.length + t.length < 2 ^ 63
  | catprintf fmtlen out => fmtlen < 2 ^ 62 ∧ bs.length + out.length < 2 ^ 62
  | catfmt fmt args => (fmtText fmt args).isSome ∧ bs.length + ((fmtText fmt args).getD []).length < 2 ^ 31
  | catrepr p => bs.length + 4 * p.length + 2 < 2 ^ 62
  | cpylen t => bs.length + t.length < 2 ^ 63
  | trim _ | range _ _ | clear => True
  | updatelen | tolower | toupper => bs.length < 2 ^ 31
  | mapchars src dst => src.length = dst.length

end Op

variable {s s' s₀ : Sdshdr} {bs data init : Bytes} {ops : List Op}

/-- An operation that is allowed and returns, with any allocator. -/
inductive Step : Sdshdr → Op → Sdshdr → Prop where
  | op {s s' : Sdshdr} {bs : Bytes} {op : Op} (m : Malloc) (hs : s.Holds bs) (ha : op.Allowed bs)
      (run : op.exec m s = .ok s') : Step s op s'

/-- An allocator that has memory for everything, and sets it to zero. -/
def Malloc.zeros : Malloc where
  block n := some (List.replicate n 0)
  size n bs h := by
    obtain rfl := Option.some.inj h
    exact List.length_replicate

end RhinoRox.SdsMemory
