import RhinoRox.ByteStrings
import RhinoRox.LinkedSegments

/-!
# Doubly linked lists

`adlist.c` over a heap of nodes and of the records of lists. The calls of the `free` method of a
list are recorded. `zmalloc` does not return when there is no memory (`rr_malloc.c`); iterators are
values.
-/

namespace RhinoRox.Adlist

open LinkedSegments

variable {α : Type}

/-- The methods of a list. Whether there is a `free` method is all that is seen of it here. -/
structure Methods (α : Type) where
  dup : Option (α → Option α)
  free : Bool
  «match» : Option (α → α → Bool)

structure AdList (α : Type) extends Methods α where
  head : Option ℕ
  tail : Option ℕ
  len : ℕ

structure Heap (α : Type) where
  nodes : Memory α
  lists : Finmap fun _ : ℕ => AdList α
  /-- The values that `free` methods were called with. -/
  freed : List α

/-- A choice of addresses of 64 bits that are not in use; `none` when there is no memory. -/
structure Allocator where
  malloc : Finset ℕ → Option ℕ
  fresh : ∀ s a, malloc s = some a → a ∉ s ∧ 0 < a ∧ a < 2 ^ 64

def Methods.unset : Methods α := ⟨none, false, none⟩

namespace Heap

def empty : Heap α := ⟨∅, ∅, []⟩

/-- Follow a pointer to a node. -/
def node (h : Heap α) : Option ℕ → Exec (Node α)
  | none => throw .nullPointer
  | some a => match h.nodes.lookup a with
    | none => throw .freedMemory
    | some n => pure n

/-- Follow a pointer to a list. -/
def list (h : Heap α) (l : ℕ) : Exec (AdList α) :=
  match h.lists.lookup l with
  | none => throw .freedMemory
  | some list => pure list

def setNode (h : Heap α) (a : ℕ) (n : Node α) : Heap α := { h with nodes := h.nodes.insert a n }

def setList (h : Heap α) (l : ℕ) (list : AdList α) : Heap α := { h with lists := h.lists.insert l list }

def setPrev (h : Heap α) : Option ℕ → Option ℕ → Exec (Heap α)
  | none, _ => throw .nullPointer
  | some a, prev => do
    let n ← h.node (some a)
    pure (h.setNode a { n with prev := prev })

def setNext (h : Heap α) : Option ℕ → Option ℕ → Exec (Heap α)
  | none, _ => throw .nullPointer
  | some a, next => do
    let n ← h.node (some a)
    pure (h.setNode a { n with next := next })

/-- `if (a != NULL) a->prev = prev`. -/
def linkPrev (h : Heap α) (a prev : Option ℕ) : Exec (Heap α) := if a.isSome then h.setPrev a prev else pure h

/-- `if (a != NULL) a->next = next`. -/
def linkNext (h : Heap α) (a next : Option ℕ) : Exec (Heap α) := if a.isSome then h.setNext a next else pure h

/-- `if (list->free) list->free(value)`. -/
def freeValue (h : Heap α) (free : Bool) (value : α) : Heap α :=
  if free then { h with freed := h.freed ++ [value] } else h

def zfreeNode (h : Heap α) (a : ℕ) : Heap α := { h with nodes := h.nodes.erase a }

def zmalloc (m : Allocator) (h : Heap α) : Exec ℕ :=
  match m.malloc (h.nodes.keys ∪ h.lists.keys) with
  | none => throw .exit
  | some a => pure a

end Heap

/-! ## Lists -/

/-- `list->len++` and `list->len--`. -/
def AdList.grow (list : AdList α) : AdList α := { list with len := (list.len + 1) % 2 ^ 64 }
def AdList.shrink (list : AdList α) : AdList α := { list with len := subSize list.len 1 }

def listCreate (m : Allocator) (h : Heap α) : Exec (Heap α × ℕ) := do
  let l ← h.zmalloc m
  pure (h.setList l { Methods.unset with head := none, tail := none, len := 0 }, l)

/-- `listSetDupMethod`, `listSetFreeMethod` and `listSetMatchMethod`. -/
def listSetMethods (h : Heap α) (l : ℕ) (methods : Methods α) : Exec (Heap α) := do
  let list ← h.list l
  pure (h.setList l { list with toMethods := methods })

/-- The loop of `listRelease`. -/
def releaseNodes (free : Bool) : ℕ → Option ℕ → Heap α → Exec (Heap α)
  | 0, _, h => pure h
  | _ + 1, none, _ => throw .nullPointer
  | len + 1, some current, h => do
    let n ← h.node (some current)
    releaseNodes free len n.next ((h.freeValue free n.value).zfreeNode current)

def listRelease (h : Heap α) (l : ℕ) : Exec (Heap α) := do
  let list ← h.list l
  let h ← releaseNodes list.free list.len list.head h
  pure { h with lists := h.lists.erase l }

def listAddNodeHead (m : Allocator) (h : Heap α) (l : ℕ) (value : α) : Exec (Heap α × ℕ) := do
  let node ← h.zmalloc m
  let list ← h.list l
  if list.len = 0 then
    pure ((h.setNode node ⟨none, none, value⟩).setList l { list with head := some node, tail := some node }.grow, node)
  else
    let h ← (h.setNode node ⟨none, list.head, value⟩).setPrev list.head (some node)
    pure (h.setList l { list with head := some node }.grow, node)

def listAddNodeTail (m : Allocator) (h : Heap α) (l : ℕ) (value : α) : Exec (Heap α × ℕ) := do
  let node ← h.zmalloc m
  let list ← h.list l
  if list.len = 0 then
    pure ((h.setNode node ⟨none, none, value⟩).setList l { list with head := some node, tail := some node }.grow, node)
  else
    let h ← (h.setNode node ⟨list.tail, none, value⟩).setNext list.tail (some node)
    pure (h.setList l { list with tail := some node }.grow, node)

def listInsertNode (m : Allocator) (h : Heap α) (l oldNode : ℕ) (value : α) (after : Bool) : Exec (Heap α × ℕ) := do
  let a ← h.zmalloc m
  let old ← h.node (some oldNode)
  let list ← h.list l
  let node : Node α := if after then ⟨some oldNode, old.next, value⟩ else ⟨old.prev, some oldNode, value⟩
  let list :=
    if after then if list.tail = some oldNode then { list with tail := some a } else list
    else if list.head = some oldNode then { list with head := some a } else list
  let h ← (h.setNode a node).linkNext node.prev (some a)
  let h ← h.linkPrev node.next (some a)
  pure (h.setList l list.grow, a)

/-- A node without predecessor, or without successor, is not the first, or the last, any more. -/
def AdList.cutHead (list : AdList α) (n : Node α) : AdList α := if n.prev.isSome then list else { list with head := n.next }
def AdList.cutTail (list : AdList α) (n : Node α) : AdList α := if n.next.isSome then list else { list with tail := n.prev }

/-- `node->next` is read again after the first assignment. -/
def listDelNode (h : Heap α) (l a : ℕ) : Exec (Heap α) := do
  let list ← h.list l
  let n ← h.node (some a)
  let h ← h.linkNext n.prev n.next
  let list := list.cutHead n
  let n ← h.node (some a)
  let h ← h.linkPrev n.next n.prev
  let list := list.cutTail n
  pure (((h.freeValue list.free n.value).zfreeNode a).setList l list.shrink)

/-- `listNodeValue(node) = value`. -/
def setNodeValue (h : Heap α) (a : ℕ) (value : α) : Exec (Heap α) := do
  let n ← h.node (some a)
  pure (h.setNode a { n with value := value })

/-- Rotate the list removing the tail node and inserting it to the head. -/
def listRotate (h : Heap α) (l : ℕ) : Exec (Heap α) := do
  let list ← h.list l
  if list.len ≤ 1 then pure h
  else
    let tail ← h.node list.tail
    let h ← h.setNext tail.prev none
    let h ← h.setPrev list.head list.tail
    let h ← h.setPrev list.tail none
    let h ← h.setNext list.tail list.head
    pure (h.setList l { list with tail := tail.prev, head := list.tail })

/-! ## Iterators -/

/-- `AL_START_HEAD` and `AL_START_TAIL`. -/
inductive Direction where
  | head
  | tail
  deriving DecidableEq

structure ListIter where
  next : Option ℕ
  direction : Direction

/-- The pointer that an iterator follows. -/
def Direction.follow (n : Node α) : Direction → Option ℕ
  | head => n.next
  | tail => n.prev

/-- `listGetIterator`, `listRewind` and `listRewindTail`. -/
def listGetIterator (h : Heap α) (l : ℕ) (direction : Direction) : Exec ListIter := do
  let list ← h.list l
  pure ⟨match direction with
    | .head => list.head
    | .tail => list.tail, direction⟩

def listNext (h : Heap α) (iter : ListIter) : Exec (Option ℕ × ListIter) :=
  match iter.next with
  | none => pure (none, iter)
  | some current => do
    let n ← h.node (some current)
    pure (some current, { iter with next := iter.direction.follow n })

/-- `while ((node = listNext(iter)) != NULL)` with a body that may stop the loop. The heap is a part
of the state; `fuel` bounds the number of turns. -/
def whileNext {S β : Type} (heap : S → Heap α) (body : ℕ → S → Exec (S ⊕ β)) : ℕ → ListIter → S → Exec (S ⊕ β)
  | 0, _, _ => throw .divergence
  | fuel + 1, iter, s => do
    match ← listNext (heap s) iter with
    | (none, _) => pure (.inl s)
    | (some node, iter) =>
      match ← body node s with
      | .inr b => pure (.inr b)
      | .inl s => whileNext heap body fuel iter s

/-- No walk over nodes that are in order takes more turns. -/
def Heap.fuel (h : Heap α) : ℕ := h.nodes.keys.card + 1

/-- The value of a copied node; `none` if it cannot be copied. -/
def Methods.copy (methods : Methods α) (value : α) : Option α :=
  match methods.dup with
  | some dup => dup value
  | none => some value

/-- One turn of the loop of `listDup`. A copy that cannot be completed is released. -/
def dupBody (m : Allocator) (methods : Methods α) (copy node : ℕ) (h : Heap α) : Exec (Heap α ⊕ Heap α) := do
  let n ← h.node (some node)
  match methods.copy n.value with
  | none => do
    let h ← listRelease h copy
    pure (.inr h)
  | some value => do
    let r ← listAddNodeTail m h copy value
    pure (.inl r.1)

def listDup (m : Allocator) (h : Heap α) (orig : ℕ) : Exec (Heap α × Option ℕ) := do
  let (h, copy) ← listCreate m h
  let list ← h.list orig
  let h ← listSetMethods h copy list.toMethods
  let iter ← listGetIterator h orig .head
  match ← whileNext id (dupBody m list.toMethods copy) h.fuel iter h with
  | .inl h => pure (h, some copy)
  | .inr h => pure (h, none)

/-- What a list compares a value and a key with. -/
def Methods.matches [DecidableEq α] (methods : Methods α) (value key : α) : Bool :=
  match methods.match with
  | some f => f value key
  | none => decide (key = value)

/-- One turn of the loop of `listSearchKey`. -/
def searchBody [DecidableEq α] (methods : Methods α) (key : α) (node : ℕ) (h : Heap α) : Exec (Heap α ⊕ ℕ) := do
  let n ← h.node (some node)
  pure (if methods.matches n.value key then .inr node else .inl h)

def listSearchKey [DecidableEq α] (h : Heap α) (l : ℕ) (key : α) : Exec (Option ℕ) := do
  let list ← h.list l
  let iter ← listGetIterator h l .head
  match ← whileNext id (searchBody list.toMethods key) h.fuel iter h with
  | .inl _ => pure none
  | .inr node => pure (some node)

/-- `while (index-- && n) n = ...`. -/
def walk (h : Heap α) (direction : Direction) : ℕ → Option ℕ → Exec (Option ℕ)
  | 0, n => pure n
  | _ + 1, none => pure none
  | index + 1, some a => do
    let n ← h.node (some a)
    walk h direction index (direction.follow n)

/-- `listIndex` of a `long`. -/
def listIndex (h : Heap α) (l : ℕ) (index : ℤ) : Exec (Option ℕ) := do
  let list ← h.list l
  if index < 0 then walk h .tail (toInt64 (toInt64 (-index) - 1)).toNat list.tail
  else walk h .head index.toNat list.head

end RhinoRox.Adlist
