import RhinoRox.Contents
import RhinoRox.Store

/-!
# The keyspace as a store

What a keyspace stands for: the bytes of its strings, the maps behind its tries, the items of its
heaps without their order in the array and the documents of its sets.
-/

namespace RhinoRox

open FiniteMaps

/-! ## Values -/

def StrObj.text (o : StrObj) : Bytes := o.enc.bytes

def HqItem.plain (i : HqItem) : UInt64 × Bytes := (i.score, i.obj.text)

def FtsDoc.plain (d : FtsDoc) : Store.Doc := ⟨d.title.text, d.doc.text⟩

/-- The documents of a set by their titles. -/
def Fts.table (fts : Fts) : Store.Table Store.Doc :=
  mapValues (fun a => ((fts.mem.lookup a).map FtsDoc.plain).getD ⟨[], []⟩) fts.docs.toMap

def ObjVal.value : ObjVal → Store.Value
  | .string enc => .string enc.bytes
  | .hash dict => .trie (mapValues StrObj.text dict.toMap)
  | .heapq heap => .queue (heap.toMultiset.map HqItem.plain)
  | .fts f => .documents f.table

def Keyspace.store (db : Keyspace) : Store.State := mapValues (fun o => o.val.value) db.dict.toMap

theorem Keyspace.lookup_store (db : Keyspace) (k : Bytes) :
    db.store.lookup k = (db.dict.toMap.lookup k).map fun o => o.val.value := lookup_mapValues _ _ _

theorem Keyspace.store_congr {db db' : Keyspace} (h : db'.dict = db.dict) : db'.store = db.store := by
  rw [store, h, store]

/-! ## Listings -/

theorem DictT.Inv.lists {α : Type} {d : DictT α} (h : d.Inv) : Lists d.entries d.toMap where
  mem_iff _ _ := h.lookup_iff.symm
  sorted := h.sorted

/-! ## Sets of documents -/

section Documents
variable {fts fts' : Fts}

theorem Fts.Inv.lookup_table (h : fts.Inv) (t : Bytes) : fts.table.lookup t = (fts.find t).map FtsDoc.plain := by
  rw [Fts.table, lookup_mapValues]
  rcases ha : fts.docs.toMap.lookup t with _ | a
  · rw [h.find_eq_none.mpr ha]
    rfl
  · obtain ⟨d, hd, -, hf⟩ := h.find_of_docs ha
    rw [hf, Option.map_some, hd]
    rfl

theorem Fts.keys_table (fts : Fts) : fts.table.keys = fts.docs.toMap.keys := keys_mapValues _ _

theorem Fts.Inv.card_table (h : fts.Inv) : fts.table.keys.card = ftsSize fts := by
  rw [Fts.keys_table, h.docs.card_keys]
  rfl

/-- A set that differs from another one in one title. -/
theorem Fts.Inv.table_update (h : fts.Inv) (h' : fts'.Inv) {t : Bytes} {d : Option FtsDoc}
    (hf : fts'.find = Function.update fts.find t d) : fts'.table = put fts.table t (d.map FtsDoc.plain) := by
  apply eq_put
  · rw [h'.lookup_table, hf, Function.update_self]
  · intro j hj
    rw [h'.lookup_table, h.lookup_table, hf, Function.update_of_ne hj]

theorem ftsCreate_table : ftsCreate.table = ∅ := rfl

variable {G : Type} (ρ : Store.Rules G) (hterms : ρ.terms = termsOf)
include hterms

theorem terms_plain (d : FtsDoc) : ρ.terms d.plain.text = d.terms := by
  rw [hterms]
  rfl

theorem sharesTerm_iff (q : Bytes) (d : FtsDoc) :
    Store.SharesTerm ρ q d.plain ↔ ∃ t ∈ termsOf q, t ∈ d.terms := by
  simp only [Store.SharesTerm, terms_plain ρ hterms, hterms, Finset.Nonempty, Finset.mem_inter, List.mem_toFinset]

/-- The length of the posting list of a term. -/
theorem Fts.Inv.frequency_table (h : fts.Inv) (t : Bytes) :
    Store.frequency ρ fts.table t = (posting fts.index t).length := by
  have hsum := h.posting_length t
  rw [h.sum_find] at hsum
  rw [← Nat.cast_inj (R := ℤ), hsum, Store.frequency, Fts.keys_table, Finset.card_filter, Nat.cast_sum]
  refine Finset.sum_congr rfl fun k _ => ?_
  rw [h.lookup_table]
  cases fts.find k with
  | none => simp
  | some d =>
    simp only [Option.map_some, Option.any_some, Option.getD_some, terms_plain ρ hterms, decide_eq_true_eq,
      List.mem_toFinset]
    split <;> rfl

theorem Fts.Inv.totalLength_table (h : fts.Inv) : Store.totalLength ρ fts.table = fts.len := by
  have hsum : fts.len = ∑ a ∈ fts.mem.keys, ((fts.mem.lookup a).map FtsDoc.len).getD 0 := h.len_eq
  rw [hsum, h.sum_find, Store.totalLength, Fts.keys_table]
  refine Finset.sum_congr rfl fun k _ => ?_
  rw [h.lookup_table]
  cases hd : fts.find k with
  | none => rfl
  | some d =>
    obtain ⟨a, -, hmem, -⟩ := h.find_eq_some hd
    simp only [Option.map_some, Option.getD_some, terms_plain ρ hterms]
    exact (h.indexed a d hmem).len.symm

/-- The score of a document is a function of the texts of the set. -/
theorem Fts.Inv.score_table [AddCommGroup G] (h : fts.Inv) (q : Bytes) {a : ℕ} {d : FtsDoc} (hd : fts.mem.lookup a = some d) :
    Store.score ρ fts.table q d.plain = scoreOf ρ.bm25 fts (termsOf q).toFinset d := by
  have hsize : max 1 fts.table.keys.card = docSize fts := by
    rw [h.card_table, docSize]
    split <;> omega
  have hlen : (d.terms.length : ℤ) = d.len := (h.indexed a d hd).len.symm
  have hterm : (termsOf q).toFinset ∩ d.terms.toFinset = (termsOf q).toFinset.filter (· ∈ d.terms) := by
    ext t
    rw [Finset.mem_inter, Finset.mem_filter, List.mem_toFinset (l := d.terms)]
  rw [Store.score, scoreOf, terms_plain ρ hterms, hterms, hterm]
  refine Finset.sum_congr rfl fun t _ => ?_
  rw [contribution, h.frequency_table ρ hterms, h.totalLength_table ρ hterms, hsize, hlen]

end Documents

/-! ## Searches -/

section Searches
variable {G : Type} {fts : Fts}

/-- The key and the contents of the document of a search result. -/
def Fts.resultDoc (fts : Fts) (x : DocScore G) : Bytes × Store.Doc :=
  ((fts.mem.lookup x.doc).map fun d => (d.key, d.plain)).getD ([], ⟨[], []⟩)

theorem resultDoc_eq {x : DocScore G} {d : FtsDoc} (hd : fts.mem.lookup x.doc = some d) :
    fts.resultDoc x = (d.key, d.plain) := by
  rw [Fts.resultDoc, hd]
  rfl

/-- What the iterator of a search returns is a ranking of the documents. -/
theorem Ranked.ranking [AddCommGroup G] [LinearOrder G] {ρ : Store.Rules G} (hterms : ρ.terms = termsOf) (h : fts.Inv)
    {q : Bytes} {size : ℕ} {xs : List (DocScore G)} (hr : Ranked ρ.bm25 fts q size xs) :
    Store.Ranking ρ fts.table q (xs.map fts.resultDoc) := by
  have hmem : ∀ x ∈ xs, ∃ d, fts.mem.lookup x.doc = some d ∧ fts.docs.toMap.lookup d.key = some x.doc ∧
      Store.SharesTerm ρ q d.plain ∧ x.score = Store.score ρ fts.table q d.plain := by
    intro x hx
    obtain ⟨title, d, hdocs, hd, hshare, hscore⟩ := (hr.mem_iff x).mp hx
    exact ⟨d, hd, h.docs_of_mem _ _ hd, (sharesTerm_iff ρ hterms q d).mpr hshare,
      hscore.trans (h.score_table ρ hterms q hd).symm⟩
  refine ⟨?_, fun k d' => ?_, ?_⟩
  · rw [List.map_map]
    refine List.Nodup.map_on (fun x hx y hy he => ?_) (List.Nodup.of_map _ hr.once)
    obtain ⟨d, hd, hdx, -⟩ := hmem x hx
    obtain ⟨e, hd', hdy, -⟩ := hmem y hy
    simp only [Function.comp_apply, resultDoc_eq hd, resultDoc_eq hd'] at he
    rw [he, hdy] at hdx
    exact List.inj_on_of_nodup_map hr.once hx hy (Option.some.inj hdx).symm
  · rw [List.mem_map, h.lookup_table]
    constructor
    · rintro ⟨x, hx, he⟩
      obtain ⟨d, hd, hdocs, hshare, -⟩ := hmem x hx
      rw [resultDoc_eq hd] at he
      obtain ⟨rfl, rfl⟩ := Prod.mk.inj he
      exact ⟨by rw [Fts.find, hdocs, Option.bind_some, hd, Option.map_some], hshare⟩
    · rintro ⟨hl, hshare⟩
      obtain ⟨d, hf, rfl⟩ := Option.map_eq_some_iff.mp hl
      obtain ⟨a, hdocs, hd, hk⟩ := h.find_eq_some hf
      refine ⟨⟨a, scoreOf ρ.bm25 fts (termsOf q).toFinset d⟩, (hr.mem_iff _).mpr ⟨k, d, hdocs, hd, ?_, rfl⟩, ?_⟩
      · exact (sharesTerm_iff ρ hterms q d).mp hshare
      · rw [resultDoc_eq (x := ⟨a, scoreOf ρ.bm25 fts (termsOf q).toFinset d⟩) hd, hk]
  · rw [List.pairwise_map]
    refine hr.order.imp_of_mem fun {x y} hx hy hle => ?_
    obtain ⟨d, hd, -, -, hscore⟩ := hmem x hx
    obtain ⟨e, hd', -, -, hscore'⟩ := hmem y hy
    rw [resultDoc_eq hd, resultDoc_eq hd']
    rw [hscore, hscore'] at hle
    exact hle

end Searches

end RhinoRox
