import RhinoRox.Client
import RhinoRox.Tokenizer
import RhinoRox.TallyList

/-!
# Full text search, from `rr_fts.c`: documents and the index

Documents live in memory under the addresses that posting items hold; an access to a freed
document is a fault. Titles and texts are string objects: their reference counts are the
caller's, and every call that changes one is returned. Both `assert`s of `fts_index_del`
are faults when they fail.
-/

namespace RhinoRox

/-- A string object and its address. -/
structure StrObj where
  addr : ℕ
  enc : StrEnc
  deriving DecidableEq

/-- `sdsEncodedObject`. -/
def sdsEncodedObject : StrEnc → Bool
  | .raw _ | .embstr _ => true
  | .int _ => false

/-- `o->ptr` used as a string. The integer of an integer-encoded object is no address. -/
def StrEnc.ptr : StrEnc → Exec Bytes
  | .raw s | .embstr s => pure s
  | .int n => throw (if n = 0 then .nullPointer else .wildPointer)

theorem StrEnc.ptr_of_sds {o : StrEnc} (h : sdsEncodedObject o = true) : o.ptr = .ok o.bytes := by
  cases o with
  | raw s => rfl
  | embstr s => rfl
  | int n => simp [sdsEncodedObject] at h

theorem StrEnc.ptr_of_not_sds {o : StrEnc} (h : sdsEncodedObject o = false) :
    ∃ e, o.ptr = .error e ∧ e ≠ .freedMemory := by
  cases o with
  | raw s => cases h
  | embstr s => cases h
  | int n =>
    refine ⟨_, rfl, ?_⟩
    split <;> simp

/-- A call of `incrRefCount` or `decrRefCount`. -/
inductive RefOp where
  | incr (o : StrObj)
  | decr (o : StrObj)
  deriving DecidableEq

/-- `fts_doc_t`. -/
structure FtsDoc where
  title : StrObj
  doc : StrObj
  len : ℤ
  deriving DecidableEq

/-- `index_item_t`: the address of the document and the term frequency. -/
structure IndexItem where
  doc : ℕ
  tf : ℤ
  deriving DecidableEq, Repr

/-- `fts_t`, with the memory its documents are in. -/
structure Fts where
  docs : DictT ℕ
  index : DictT (List IndexItem)
  len : ℤ
  mem : Finmap fun _ : ℕ => FtsDoc

/-- The allocator, as far as the results of the code could depend on it: a free address for
a document, and what a new stemmer holds. -/
structure FtsEnv where
  malloc : Finset ℕ → ℕ
  malloc_fresh : ∀ s, malloc s ∉ s
  createStemmer : Fts → Stemmer

def ftsCreate : Fts where
  docs := dictSetFreecb dictCreate
  index := dictSetFreecb dictCreate
  len := 0
  mem := ∅

/-- Read the document behind a pointer. -/
def ftsDocLoad (fts : Fts) (doc : ℕ) : Exec FtsDoc :=
  match fts.mem.lookup doc with
  | none => throw .freedMemory
  | some d => pure d

def ftsDocCreate (env : FtsEnv) (fts : Fts) (title doc : StrObj) : ℕ × Fts × List RefOp :=
  let fd := env.malloc fts.mem.keys
  (fd, { fts with mem := fts.mem.insert fd ⟨title, doc, 0⟩ }, [.incr title, .incr doc])

def ftsDocFree (fts : Fts) (doc : ℕ) : Exec (Fts × List RefOp) := do
  let d ← ftsDocLoad fts doc
  pure ({ fts with mem := fts.mem.erase doc }, [.decr d.title, .decr d.doc])

/-- The calls that `dict_set` makes on the values it replaces. -/
def ftsDocFreeAll (fts : Fts) : List ℕ → Exec (Fts × List RefOp)
  | [] => pure (fts, [])
  | doc :: docs => do
    let (fts, log) ← ftsDocFree fts doc
    let (fts, log') ← ftsDocFreeAll fts docs
    pure (fts, log ++ log')

/-- `listSearchKey` with `fts_doc_match`. -/
def listSearchKey (idx : List IndexItem) (doc : ℕ) : Option IndexItem :=
  idx.find? fun i => decide (i.doc = doc)

/-- Count one more occurrence in a posting list; a new item goes to the head. -/
def postingAdd (idx : List IndexItem) (doc : ℕ) : List IndexItem :=
  match listSearchKey idx doc with
  | some _ => TallyList.updateFirst IndexItem.doc doc (fun i => some { i with tf := i.tf + 1 }) idx
  | none => ⟨doc, 1⟩ :: idx

/-- Count one occurrence less, and delete the node of an item with none left. -/
def postingDel (idx : List IndexItem) (doc : ℕ) : Exec (List IndexItem) :=
  match listSearchKey idx doc with
  | none => throw .assertion
  | some _ =>
    pure (TallyList.updateFirst IndexItem.doc doc
      (fun i => if i.tf - 1 = 0 then none else some { i with tf := i.tf - 1 }) idx)

/-- One pass of the loop of `fts_index_add`. -/
def indexAddTerm (index : DictT (List IndexItem)) (doc : ℕ) (term : Bytes) :
    Exec (DictT (List IndexItem)) :=
  if term.length = 0 then pure index
  else do
    let idx ← dictGet index term
    match idx with
    | some idx => dictModify index term (postingAdd idx doc)
    | none => do
      let (_, index, _) ← dictSet index term (some [])
      dictModify index term (postingAdd [] doc)

def indexAddLoop (index : DictT (List IndexItem)) (doc : ℕ) : List Bytes → Exec (DictT (List IndexItem))
  | [] => pure index
  | term :: terms => do
    let index ← indexAddTerm index doc term
    indexAddLoop index doc terms

/-- One pass of the loop of `fts_index_del`. -/
def indexDelTerm (index : DictT (List IndexItem)) (doc : ℕ) (term : Bytes) :
    Exec (DictT (List IndexItem)) :=
  if term.length = 0 then pure index
  else do
    let idx ← dictGet index term
    match idx with
    | none => throw .assertion
    | some idx => do
      let idx ← postingDel idx doc
      dictModify index term idx

def indexDelLoop (index : DictT (List IndexItem)) (doc : ℕ) : List Bytes → Exec (DictT (List IndexItem))
  | [] => pure index
  | term :: terms => do
    let index ← indexDelTerm index doc term
    indexDelLoop index doc terms

def ftsIndexAdd (env : FtsEnv) (fts : Fts) (doc : ℕ) : Exec (Bool × Fts) := do
  let d ← ftsDocLoad fts doc
  let s ← d.doc.enc.ptr
  let r ← sdsTokenize (env.createStemmer fts) s
  match r with
  | none => pure (false, fts)
  | some (terms, nonstopwords) => do
    let index ← indexAddLoop fts.index doc terms
    pure (true,
      { fts with
        index := index
        mem := fts.mem.insert doc { d with len := nonstopwords }
        len := fts.len + nonstopwords })

def ftsIndexDel (env : FtsEnv) (fts : Fts) (doc : ℕ) : Exec Fts := do
  let d ← ftsDocLoad fts doc
  let s ← d.doc.enc.ptr
  let r ← sdsTokenize (env.createStemmer fts) s
  match r with
  | none => pure fts
  | some (terms, _) => do
    let index ← indexDelLoop fts.index doc terms
    pure { fts with index := index, len := fts.len - d.len }

def ftsDel (env : FtsEnv) (fts : Fts) (title : StrObj) : Exec (Bool × Fts × List RefOp) := do
  let t ← title.enc.ptr
  let (doc, docs) ← dictDel fts.docs t
  let fts := { fts with docs := docs }
  match doc with
  | none => pure (false, fts, [])
  | some doc => do
    let fts ← ftsIndexDel env fts doc
    let (fts, log) ← ftsDocFree fts doc
    pure (true, fts, log)

/-- The part of `fts_add` after an old document of the title is gone. -/
def ftsAddNew (env : FtsEnv) (fts : Fts) (title doc : StrObj) : Exec (Bool × Fts × List RefOp) := do
  let (fd, fts, log) := ftsDocCreate env fts title doc
  let t ← title.enc.ptr
  let (stored, docs, freed) ← dictSet fts.docs t (some fd)
  let (fts, log₁) ← ftsDocFreeAll { fts with docs := docs } freed
  if stored then do
    let (indexed, fts) ← ftsIndexAdd env fts fd
    if indexed then pure (true, fts, log ++ log₁)
    else do
      let (old, docs) ← dictDel fts.docs t
      match old with
      | none => throw .nullPointer
      | some old => do
        let (fts, log₂) ← ftsDocFree { fts with docs := docs } old
        pure (false, fts, log ++ log₁ ++ log₂)
  else do
    let (fts, log₂) ← ftsDocFree fts fd
    pure (false, fts, log ++ log₁ ++ log₂)

def ftsAdd (env : FtsEnv) (fts : Fts) (title doc : StrObj) : Exec (Bool × Fts × List RefOp) := do
  let t ← title.enc.ptr
  let present ← dictContains fts.docs t
  if present then do
    let (_, fts, log) ← ftsDel env fts title
    let (added, fts, log') ← ftsAddNew env fts title doc
    pure (added, fts, log ++ log')
  else ftsAddNew env fts title doc

def ftsGet (fts : Fts) (title : StrObj) : Exec (Option ℕ) := do
  let t ← title.enc.ptr
  dictGet fts.docs t

def ftsSize (fts : Fts) : ℕ := dictLength fts.docs

/-- `fts_free`: the calls on the documents that are left. -/
def ftsFree (fts : Fts) : Exec (List RefOp) := do
  let docs ← dictFree fts.docs
  let (_, log) ← ftsDocFreeAll fts docs
  pure log

end RhinoRox
