import RhinoRox.Objects
import RhinoRox.Replying

/-!
# The keyspace, from `rr_db.c`

A database with the reference counts of all objects and the queue of objects that the
background thread will release.
-/

namespace RhinoRox

structure Keyspace where
  dict : DictT Robj
  refs : Refs
  tasks : List Robj

/-- `rr_db_create`. -/
def rrDbCreate : Keyspace := ⟨dictSetFreecb dictCreate, ∅, []⟩

variable {G : Type} (env : ServerEnv G)

/-- The object of a key. The callers read what it returns, so it must be live. -/
def rrDbLookup (db : Keyspace) (key : StrObj) : Exec (Option Robj) := do
  let k ← key.enc.ptr
  let o ← dictGet db.dict k
  match o with
  | none => pure none
  | some o => do
    let _ ← refcount db.refs o.addr
    pure (some o)

def rrDbAdd (db : Keyspace) (key : StrObj) (val : Robj) : Exec (Bool × Keyspace) := do
  let k ← key.enc.ptr
  let (stored, dict, freed) ← dictSet db.dict k (some val)
  let refs ← decrRefCounts db.refs freed
  pure (stored, { db with dict := dict, refs := refs })

def rrDbSetKey (db : Keyspace) (key : StrObj) (val : Robj) : Exec (Bool × Keyspace) := do
  let (stored, db) ← rrDbAdd db key val
  if stored then do
    let refs ← incrRefCount db.refs val.addr
    pure (true, { db with refs := refs })
  else pure (false, db)

def rrDbDelSync (db : Keyspace) (key : StrObj) : Exec (Bool × Keyspace) := do
  let k ← key.enc.ptr
  let (val, dict) ← dictDel db.dict k
  match val with
  | none => pure (false, { db with dict := dict })
  | some val => do
    let refs ← decrRefCount db.refs val
    pure (true, { db with dict := dict, refs := refs })

def getLazyfreeEffort : ObjVal → ℕ
  | .hash dict => dictLength dict
  | _ => 1

def lazyfreeThreshold : ℕ := 64

def rrDbDelAsync (db : Keyspace) (key : StrObj) : Exec (Bool × Keyspace) := do
  let k ← key.enc.ptr
  let (val, dict) ← dictDel db.dict k
  match val with
  | none => pure (false, { db with dict := dict })
  | some val =>
    if getLazyfreeEffort val.val > lazyfreeThreshold then
      pure (true, { db with dict := dict, tasks := db.tasks ++ [val] })
    else do
      let refs ← decrRefCount db.refs val
      pure (true, { db with dict := dict, refs := refs })

def rrDbDel (db : Keyspace) (key : StrObj) : Exec (Bool × Keyspace) :=
  if env.lazyfreeServerDel then rrDbDelAsync db key else rrDbDelSync db key

/-- The object of a key, created with the contents `val` if there is none. -/
def rrDbLookupOrCreate (db : Keyspace) (key : StrObj) (val : ObjVal) : Exec (Robj × Keyspace) := do
  let o ← rrDbLookup db key
  match o with
  | some o => pure (o, db)
  | none => do
    let (a, refs) := createObject env db.refs
    let (_, db) ← rrDbAdd { db with refs := refs } key ⟨a, val⟩
    pure (⟨a, val⟩, db)

/-- The contents of an object changed in place. -/
def setContents (db : Keyspace) (key : StrObj) (o : Robj) : Exec Keyspace := do
  let k ← key.enc.ptr
  let dict ← dictModify db.dict k o
  pure { db with dict := dict }

/-- The background thread releases the first object of its queue. -/
def lazyFree (db : Keyspace) : Exec Keyspace :=
  match db.tasks with
  | [] => pure db
  | o :: tasks => do
    let refs ← decrRefCount db.refs o
    pure { db with refs := refs, tasks := tasks }

end RhinoRox
