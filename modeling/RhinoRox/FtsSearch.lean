import RhinoRox.Fts
import RhinoRox.DictIteration
import RhinoRox.Minheap
import Mathlib.Algebra.Group.Defs

/-!
# Full text search, from `rr_fts.c`: scores and ranking

The contribution of one posting item to the score of its document is a parameter: a value
of an ordered group that depends on what the formula of `calculate_bm25` reads.
-/

namespace RhinoRox

variable {G : Type}

/-- `fts_doc_score_t`. -/
structure DocScore (G : Type) where
  doc : ℕ
  score : G
  deriving DecidableEq, Repr

/-- `tf * idf` as a function of `idx->tf`, `dl`, `list_size`, `doc_size` and `fts->len`. -/
abbrev Bm25 (G : Type) := ℤ → ℤ → ℕ → ℕ → ℤ → G

section Scores
variable [AddCommGroup G] (bm25 : Bm25 G) (fts : Fts)

/-- One pass of the loop of `calculate_bm25`. -/
def bm25Item (listSize docSize : ℕ) (scores : DictT (DocScore G)) (idx : IndexItem) :
    Exec (DictT (DocScore G)) := do
  let d ← ftsDocLoad fts idx.doc
  let t ← d.title.enc.ptr
  let x := bm25 idx.tf d.len listSize docSize fts.len
  let fds ← dictGet scores t
  match fds with
  | some fds => dictModify scores t { fds with score := fds.score + x }
  | none => do
    let (_, scores, _) ← dictSet scores t (some ⟨idx.doc, 0⟩)
    dictModify scores t ⟨idx.doc, 0 + x⟩

def bm25Loop (listSize docSize : ℕ) (scores : DictT (DocScore G)) :
    List IndexItem → Exec (DictT (DocScore G))
  | [] => pure scores
  | idx :: indices => do
    let scores ← bm25Item bm25 fts listSize docSize scores idx
    bm25Loop listSize docSize scores indices

/-- The number of documents, and 1 if there is none. -/
def docSize (fts : Fts) : ℕ := if ftsSize fts = 0 then 1 else ftsSize fts

def calculateBm25 (indices : List IndexItem) (scores : DictT (DocScore G)) : Exec (DictT (DocScore G)) :=
  bm25Loop bm25 fts indices.length (docSize fts) scores indices

/-- One pass of the loop of `search_with_bm25_score`: the scores and the terms queried. -/
def searchTerm (scores : DictT (DocScore G)) (queried : DictT Unit) (term : Bytes) :
    Exec (DictT (DocScore G) × DictT Unit) :=
  if term.length = 0 then pure (scores, queried)
  else do
    let seen ← dictContains queried term
    if seen then pure (scores, queried)
    else do
      let (_, queried, _) ← dictSet queried term (some ())
      let idx ← dictGet fts.index term
      match idx with
      | none => pure (scores, queried)
      | some idx => do
        let scores ← calculateBm25 bm25 fts idx scores
        pure (scores, queried)

def searchLoop (scores : DictT (DocScore G)) (queried : DictT Unit) :
    List Bytes → Exec (DictT (DocScore G))
  | [] => pure scores
  | term :: terms => do
    let (scores, queried) ← searchTerm bm25 fts scores queried term
    searchLoop scores queried terms

def searchWithBm25Score (env : FtsEnv) (query : StrObj) : Exec (DictT (DocScore G)) := do
  let q ← query.enc.ptr
  let r ← sdsTokenize (env.createStemmer fts) q
  match r with
  | none => pure (dictSetFreecb dictCreate)
  | some (terms, _) => searchLoop bm25 fts (dictSetFreecb dictCreate) dictCreate terms

end Scores

/-- Higher scores stay at the beginning of the heap. -/
def ftsCmp [LinearOrder G] (l r : DocScore G) : ℤ :=
  if l.score > r.score then -1
  else if l.score < r.score then 1
  else 0

/-- The loop of `fts_search`. -/
def pushAll (heap : Minheap (DocScore G)) : List (DocScore G) → Exec (Minheap (DocScore G))
  | [] => pure heap
  | x :: xs => do
    let heap ← minheapPush heap x
    pushAll heap xs

/-- The value stored in `*size` and the iterator. -/
def ftsSearch [AddCommGroup G] [LinearOrder G] (bm25 : Bm25 G) (fts : Fts) (env : FtsEnv) (query : StrObj) :
    Exec (ℕ × Minheap (DocScore G)) := do
  let scores ← searchWithBm25Score bm25 fts env query
  let size := dictLength scores
  let it ← dictIterCreate scores
  let kvs ← dictIterAll it
  let heap ← pushAll (minheapCreate size ftsCmp) (kvs.map Prod.snd)
  pure (size, heap)

def ftsIterHasnext (it : Minheap (DocScore G)) : Bool := minheapLen it > 0

def ftsIterNext (it : Minheap (DocScore G)) : Exec (Option (DocScore G) × Minheap (DocScore G)) := minheapPop it

/-- `while (fts_iter_hasnext(it)) fts_iter_next(it)`, with fuel. -/
def ftsIterRun : ℕ → Minheap (DocScore G) → Exec (List (DocScore G))
  | 0, it => if ftsIterHasnext it then throw .divergence else pure []
  | n + 1, it =>
    if ftsIterHasnext it then do
      let (x, it) ← ftsIterNext it
      match x with
      | none => throw .nullPointer
      | some x => do
        let xs ← ftsIterRun n it
        pure (x :: xs)
    else pure []

/-- The iterator run to exhaustion. -/
def ftsIterAll (it : Minheap (DocScore G)) : Exec (List (DocScore G)) := ftsIterRun (minheapLen it) it

end RhinoRox
