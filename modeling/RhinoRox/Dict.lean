import RhinoRox.ByteStrings
import RhinoRox.CritBitTree
import Mathlib.Data.Prod.Lex

/-!
# The crit-bit dictionary of `rr_dict.c`

The tree, the walks over it and the operations of the public interface. A node without
a value is internal, and following its `NULL` child array is a fault. Values handed to
the registered free callback are returned in the order of the calls.
-/

namespace RhinoRox

/-- `byte_idx` and `bit_idx` of an internal node. Bit numbers count from the low end,
so a later position in the same byte has the smaller `bitIdx`. -/
structure CritPos where
  byteIdx : ℕ
  bitIdx : ℕ
  deriving DecidableEq, Repr

namespace CritPos

def toLexPair (p : CritPos) : ℕ ×ₗ ℕᵒᵈ := toLex (p.byteIdx, OrderDual.toDual p.bitIdx)

theorem toLexPair_injective : Function.Injective toLexPair := by
  rintro ⟨a, b⟩ ⟨c, d⟩ h
  have hp := toLex_inj.mp h
  rw [Prod.mk.injEq, OrderDual.toDual_inj] at hp
  simpa using hp

instance : LinearOrder CritPos := LinearOrder.lift' toLexPair toLexPair_injective

theorem lt_iff {p q : CritPos} :
    p < q ↔ p.byteIdx < q.byteIdx ∨ p.byteIdx = q.byteIdx ∧ q.bitIdx < p.bitIdx := by
  change toLexPair p < toLexPair q ↔ _
  simp [toLexPair, Prod.Lex.toLex_lt_toLex]

theorem byteIdx_le {p q : CritPos} (h : p ≤ q) : p.byteIdx ≤ q.byteIdx := by
  rcases h.lt_or_eq with h | rfl
  · rcases lt_iff.mp h with h | h
    · exact h.le
    · exact h.1.le
  · exact le_rfl

end CritPos

/-- A `Dict` slot: unset, a leaf with its key and value, or an internal node. -/
abbrev Dict (α : Type) := CritBitTree.Tree CritPos Bytes α

structure DictT (α : Type) where
  dict : Dict α
  size : ℕ
  freeCb : Bool
  deriving DecidableEq, Repr

variable {α : Type}

/-- `EMPTY_NODE`. -/
def emptyNode : Dict α → Bool
  | .empty => true
  | _ => false

/-- The child selected at a node; short keys read as zero bytes past their end. -/
def direction (key : Bytes) (p : CritPos) : Bool :=
  if p.byteIdx < key.length then (byteAt key p.byteIdx).toNat.testBit p.bitIdx else false

/-- Get the closest key to this in a non-empty dict. -/
def closest (key : Bytes) : Dict α → Exec (Bytes × α)
  | .empty => throw .nullPointer
  | .leaf s v => pure (s, v)
  | .node p a b => if direction key p then closest key b else closest key a

def dictCreate : DictT α := ⟨.empty, 0, false⟩

def dictSetFreecb (d : DictT α) : DictT α := { d with freeCb := true }

def dictLength (d : DictT α) : ℕ := d.size

def dictEmpty (d : DictT α) : Bool := d.size == 0

def dictGet (d : DictT α) (k : Bytes) : Exec (Option α) :=
  let key := cStr k
  if emptyNode d.dict then pure none
  else do
    let (s, v) ← closest key d.dict
    pure (if s = key then some v else none)

def dictContains (d : DictT α) (k : Bytes) : Exec Bool := do
  let v ← dictGet d k
  pure v.isSome

/-- The scan for the first byte in which a stored key and the new one differ, the
terminators included; `none` when they are the same string. -/
def firstDiff : Bytes → Bytes → Option ℕ
  | [], [] => none
  | a :: s, b :: t => if a = b then (firstDiff s t).map (· + 1) else some 0
  | _, _ => some 0

/-- The scan for the highest differing bit. -/
def highBit (diff : UInt8) : ℕ := Nat.log2 diff.toNat

/-- `n->v = value` at the leaf the walk reaches. -/
def overwrite (key : Bytes) (v : α) : Dict α → Exec (Dict α)
  | .empty => throw .nullPointer
  | .leaf s _ => pure (.leaf s v)
  | .node p a b =>
    if direction key p then do
      let b' ← overwrite key v b
      pure (.node p a b')
    else do
      let a' ← overwrite key v a
      pure (.node p a' b)

/-- The new internal node with the displaced slot on the other side. -/
def newNode (key : Bytes) (v : α) (p : CritPos) (n : Dict α) : Dict α :=
  if (byteAt key p.byteIdx).toNat.testBit p.bitIdx then .node p n (.leaf key v)
  else .node p (.leaf key v) n

/-- Find where to insert: not the closest, but the first which differs. -/
def insertWalk (key : Bytes) (v : α) (p : CritPos) : Dict α → Exec (Dict α)
  | .empty => throw .nullPointer
  | .leaf s w => pure (newNode key v p (.leaf s w))
  | .node q a b =>
    if p.byteIdx < q.byteIdx then pure (newNode key v p (.node q a b))
    else if q.byteIdx = p.byteIdx ∧ q.bitIdx < p.bitIdx then pure (newNode key v p (.node q a b))
    else if direction key q then do
      let b' ← insertWalk key v p b
      pure (.node q a b')
    else do
      let a' ← insertWalk key v p a
      pure (.node q a' b)

/-- Returns whether the pair was stored, the dict, and the values given to the callback. -/
def dictSet (d : DictT α) (k : Bytes) (value : Option α) : Exec (Bool × DictT α × List α) :=
  match value with
  | none => pure (false, d, [])
  | some v =>
    let key := cStr k
    if emptyNode d.dict then
      pure (true, { d with dict := .leaf key v, size := d.size + 1 }, [])
    else do
      let (s, old) ← closest key d.dict
      match firstDiff s key with
      | none =>
        let t ← overwrite key v d.dict
        pure (true, { d with dict := t }, if d.freeCb then [old] else [])
      | some byteIdx =>
        let bitIdx := highBit (byteAt s byteIdx ^^^ byteAt key byteIdx)
        let t ← insertWalk key v ⟨byteIdx, bitIdx⟩ d.dict
        pure (true, { d with dict := t, size := d.size + 1 }, [])

/-- Raise the other node as the parent; the last leaf leaves an unset slot. -/
def unlinkLeaf (key : Bytes) : Dict α → Exec (Dict α)
  | .empty => throw .nullPointer
  | .leaf _ _ => pure .empty
  | .node p a b =>
    if direction key p then
      if b.isLeaf then pure a
      else do
        let b' ← unlinkLeaf key b
        pure (.node p a b')
    else
      if a.isLeaf then pure b
      else do
        let a' ← unlinkLeaf key a
        pure (.node p a' b)

def dictDel (d : DictT α) (k : Bytes) : Exec (Option α × DictT α) :=
  let key := cStr k
  if emptyNode d.dict then pure (none, d)
  else do
    let (s, v) ← closest key d.dict
    if s = key then do
      let t ← unlinkLeaf key d.dict
      pure (some v, { d with dict := t, size := d.size - 1 })
    else pure (none, d)

/-- The values of all leaves, in the order `clear` visits them. -/
def clear : Dict α → Exec (List α)
  | .empty => throw .nullPointer
  | .leaf _ v => pure [v]
  | .node _ a b => do
    let l ← clear a
    let r ← clear b
    pure (l ++ r)

def dictClear (d : DictT α) : Exec (DictT α × List α) :=
  if emptyNode d.dict then pure ({ d with dict := .empty, size := 0 }, [])
  else do
    let vs ← clear d.dict
    pure ({ d with dict := .empty, size := 0 }, if d.freeCb then vs else [])

/-- `dict_free`: the values given to the callback. -/
def dictFree (d : DictT α) : Exec (List α) := do
  let (_, vs) ← dictClear d
  pure vs

/-- The holder of the pointer `dict_get` returned writes through it. -/
def dictModify (d : DictT α) (k : Bytes) (v : α) : Exec (DictT α) := do
  let t ← overwrite (cStr k) v d.dict
  pure { d with dict := t }

end RhinoRox
