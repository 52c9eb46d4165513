import RhinoRox.AlikeRuns
import Mathlib.Data.List.Sort

/-!
# What the keyspace contains

The contents of a value are what commands can see of it. Addresses are left out, a
dictionary is the map it stores, and a set of documents is the map from titles to
documents. A heap keeps the order of its slots, which decides between equal scores.
-/

namespace RhinoRox

/-! ## Dictionaries -/

/-- Two options that a pair of functions does not tell apart. -/
theorem option_map_cases {α β γ : Type} {f : α → γ} {g : β → γ} {x : Option α} {y : Option β}
    (h : x.map f = y.map g) : (x = none ∧ y = none) ∨ ∃ a b, x = some a ∧ y = some b ∧ f a = g b := by
  cases x with
  | none =>
    cases y with
    | none => exact .inl ⟨rfl, rfl⟩
    | some b => cases h
  | some a =>
    cases y with
    | none => cases h
    | some b => exact .inr ⟨a, b, rfl, rfl, Option.some.inj h⟩

namespace DictT
variable {α β γ : Type} {d : DictT α} {d' : DictT β} {f : α → γ} {g : β → γ}

theorem Inv.mem_view (h : d.Inv) (f : α → γ) {k : Bytes} {w : γ} :
    (k, w) ∈ d.entries.map (Prod.map id f) ↔ (d.toMap.lookup k).map f = some w := by
  rw [Option.map_eq_some_iff, List.mem_map]
  constructor
  · rintro ⟨⟨k', v⟩, hmem, he⟩
    obtain ⟨rfl, rfl⟩ := Prod.mk.inj he
    exact ⟨v, h.lookup_iff.mpr hmem, rfl⟩
  · rintro ⟨v, hl, rfl⟩
    exact ⟨(k, v), h.lookup_iff.mp hl, rfl⟩

theorem Inv.sorted_view (h : d.Inv) (f : α → γ) :
    (d.entries.map (Prod.map id f)).Pairwise fun e e' => e.1 < e'.1 := List.pairwise_map.mpr h.sorted

/-- Dictionaries with the same lookups have the same entries in the same order. -/
theorem Inv.entries_view (h : d.Inv) (h' : d'.Inv) (hsame : ∀ k, (d.toMap.lookup k).map f = (d'.toMap.lookup k).map g) :
    d.entries.map (Prod.map id f) = d'.entries.map (Prod.map id g) := by
  have hirrefl : Std.Irrefl fun e e' : Bytes × γ => e.1 < e'.1 := ⟨fun e => List.lt_irrefl e.1⟩
  have hanti : Std.Antisymm fun e e' : Bytes × γ => e.1 < e'.1 := ⟨fun e e' hlt hgt => absurd hgt (List.lt_asymm hlt)⟩
  refine (h.sorted_view f).eq_of_mem_iff (h'.sorted_view g) ?_
  rintro ⟨k, w⟩
  rw [h.mem_view, h'.mem_view, hsame k]

theorem Inv.length_view (h : d.Inv) (h' : d'.Inv) (hsame : ∀ k, (d.toMap.lookup k).map f = (d'.toMap.lookup k).map g) :
    dictLength d = dictLength d' := by
  have hlen := congrArg List.length (h.entries_view h' hsame)
  rw [List.length_map, List.length_map, ← h.size_eq, ← h'.size_eq] at hlen
  exact hlen

theorem withPrefix_view (pre : Bytes) :
    (d.withPrefix pre).map (Prod.map id f) = (d.entries.map (Prod.map id f)).filter fun e => pre.isPrefixOf e.1 := by
  rw [withPrefix, List.filter_map]
  rfl

theorem view_insert (hsame : ∀ k, (d.toMap.lookup k).map f = (d'.toMap.lookup k).map g) {e : DictT α} {e' : DictT β}
    {k : Bytes} {v : α} {v' : β} (hm : e.toMap = d.toMap.insert k v) (hm' : e'.toMap = d'.toMap.insert k v')
    (hv : f v = g v') (j : Bytes) : (e.toMap.lookup j).map f = (e'.toMap.lookup j).map g := by
  rw [hm, hm']
  by_cases hj : j = k
  · rw [hj, Finmap.lookup_insert, Finmap.lookup_insert, Option.map_some, Option.map_some, hv]
  · rw [Finmap.lookup_insert_of_ne _ hj, Finmap.lookup_insert_of_ne _ hj, hsame j]

theorem view_erase (hsame : ∀ k, (d.toMap.lookup k).map f = (d'.toMap.lookup k).map g) {e : DictT α} {e' : DictT β}
    {k : Bytes} (hm : e.toMap = d.toMap.erase k) (hm' : e'.toMap = d'.toMap.erase k) (j : Bytes) :
    (e.toMap.lookup j).map f = (e'.toMap.lookup j).map g := by
  rw [hm, hm']
  by_cases hj : j = k
  · rw [hj, Finmap.lookup_erase, Finmap.lookup_erase]
    rfl
  · rw [Finmap.lookup_erase_ne hj, Finmap.lookup_erase_ne hj, hsame j]

end DictT

/-! ## Values -/

def HqItem.contents (i : HqItem) : UInt64 × StrEnc := (i.score, i.obj.enc)

/-- `hq_cmp` of the contents. -/
def contentsCmp (l r : UInt64 × StrEnc) : ℤ :=
  if doubleKey l.1 < doubleKey r.1 then -1
  else if doubleKey l.1 > doubleKey r.1 then 1
  else 0

structure DocContents where
  title : StrEnc
  doc : StrEnc
  len : ℤ
  deriving DecidableEq

def FtsDoc.contents (d : FtsDoc) : DocContents := ⟨d.title.enc, d.doc.enc, d.len⟩

inductive Contents where
  | string (enc : StrEnc)
  | hash (fields : Bytes → Option StrEnc)
  | heapq (heap : Minheap (UInt64 × StrEnc))
  | fts (documents : Bytes → Option DocContents)

def ObjVal.contents : ObjVal → Contents
  | .string enc => .string enc
  | .hash dict => .hash fun f => (dict.toMap.lookup f).map StrObj.enc
  | .heapq heap => .heapq (heap.map HqItem.contents contentsCmp)
  | .fts f => .fts fun t => (f.find t).map FtsDoc.contents

/-- The contents of the values of all keys. -/
def Keyspace.contents (db : Keyspace) (k : Bytes) : Option Contents :=
  (db.dict.toMap.lookup k).map fun o => o.val.contents

theorem toMultiset_map {α β : Type} (f : α → β) (comp' : β → β → ℤ) (h : Minheap α) :
    (h.map f comp').toMultiset = h.toMultiset.map f := by
  rw [Minheap.toMultiset, Minheap.toMultiset, Multiset.map_coe, ← List.reduceOption_map, List.map_take]
  rfl

section Values
variable {val val' : ObjVal} (h : val.contents = val'.contents)
include h

theorem contents_type : val.type = val'.type := by
  cases val <;> cases val' <;> first | rfl | cases h

/-- The scores of a heap decide whether it can be released. -/
theorem contents_wild : val.Wild ↔ val'.Wild := by
  have hheap (heap : Minheap HqItem) : (ObjVal.heapq heap).Wild ↔
      ∃ x ∈ (heap.map HqItem.contents contentsCmp).toMultiset, toInt32 (x.1.toNat / 2 ^ 32) = 1 := by
    rw [toMultiset_map]
    simp only [Multiset.mem_map, exists_exists_and_eq_and]
    rfl
  cases val with
  | heapq heap =>
    cases val' with
    | heapq heap' => rw [hheap, hheap, Contents.heapq.inj h]
    | _ => cases h
  | _ =>
    cases val' with
    | heapq heap' => cases h
    | _ => exact Iff.rfl

end Values

/-! ## Document sets -/

namespace Fts
variable {fts fts' : Fts}

/-- Two sets with the same documents. -/
def SameDocuments (fts fts' : Fts) : Prop :=
  ∀ t, (fts.find t).map FtsDoc.contents = (fts'.find t).map FtsDoc.contents

/-- A sum over the addresses of the documents is one over their titles. -/
theorem Inv.sum_find (h : fts.Inv) (g : FtsDoc → ℤ) :
    ∑ a ∈ fts.mem.keys, ((fts.mem.lookup a).map g).getD 0 =
      ∑ t ∈ fts.docs.toMap.keys, ((fts.find t).map g).getD 0 := by
  rw [← h.sum_docs fun a => ((fts.mem.lookup a).map g).getD 0]
  refine Finset.sum_congr rfl fun t _ => ?_
  rw [find]
  cases fts.docs.toMap.lookup t <;> rfl

section Same
variable (h : fts.Inv) (h' : fts'.Inv) (hsame : SameDocuments fts fts')
include h h' hsame

theorem SameDocuments.keys : fts.docs.toMap.keys = fts'.docs.toMap.keys := by
  ext t
  have hiff : fts.docs.toMap.lookup t = none ↔ fts'.docs.toMap.lookup t = none := by
    rw [← h.find_eq_none, ← h'.find_eq_none, ← Option.map_eq_none_iff, hsame t, Option.map_eq_none_iff]
  rw [Finmap.lookup_eq_none, Finmap.lookup_eq_none] at hiff
  rw [Finmap.mem_keys, Finmap.mem_keys]
  exact not_iff_not.mp hiff

theorem SameDocuments.size : ftsSize fts = ftsSize fts' := by
  rw [ftsSize, ftsSize, dictLength, dictLength, ← h.docs.card_keys, ← h'.docs.card_keys, hsame.keys h h']

theorem SameDocuments.sum_eq {g : FtsDoc → ℤ} (hg : ∀ d d' : FtsDoc, d.contents = d'.contents → g d = g d') :
    ∑ a ∈ fts.mem.keys, ((fts.mem.lookup a).map g).getD 0 =
      ∑ a ∈ fts'.mem.keys, ((fts'.mem.lookup a).map g).getD 0 := by
  rw [h.sum_find g, h'.sum_find g, hsame.keys h h']
  refine Finset.sum_congr rfl fun t _ => ?_
  obtain ⟨hn, hn'⟩ | ⟨d, d', hd, hd', heq⟩ := option_map_cases (hsame t)
  · rw [hn, hn']
  · rw [hd, hd', Option.map_some, Option.map_some, hg d d' heq]

theorem SameDocuments.len : fts.len = fts'.len := by
  rw [h.len_eq, h'.len_eq]
  exact hsame.sum_eq h h' fun d d' heq => congrArg DocContents.len heq

end Same

/-- The number of documents with a term is the length of its posting list. -/
theorem Inv.posting_length (h : fts.Inv) (t : Bytes) :
    ((posting fts.index t).length : ℤ) =
      ∑ a ∈ fts.mem.keys, ((fts.mem.lookup a).map fun d => if t ∈ d.terms then (1 : ℤ) else 0).getD 0 := by
  have hp := h.index.tally t
  have hkeys : ((posting fts.index t).map IndexItem.doc).toFinset =
      fts.mem.keys.filter fun a => 0 < occurrences fts.mem t a := by
    ext a
    rw [List.mem_toFinset, hp.mem_keys, Finset.mem_filter, iff_and_self, Finmap.mem_keys]
    intro hpos
    by_contra hno
    rw [occurrences, Finmap.lookup_eq_none.mpr hno] at hpos
    exact lt_irrefl _ hpos
  rw [← List.length_map IndexItem.doc, ← List.toFinset_card_of_nodup hp.nodup, hkeys, Finset.card_filter, Nat.cast_sum]
  refine Finset.sum_congr rfl fun a ha => ?_
  obtain ⟨d, hd⟩ := Finmap.mem_iff.mp (Finmap.mem_keys.mp ha)
  rw [occurrences, hd, Option.map_some, Option.getD_some]
  by_cases hmem : t ∈ d.terms
  · simp [hmem, List.count_pos_iff]
  · simp [hmem, List.count_eq_zero_of_not_mem hmem]

theorem terms_contents {d d' : FtsDoc} (h : d.contents = d'.contents) : d.terms = d'.terms := by
  have hdoc : d.doc.enc = d'.doc.enc := congrArg DocContents.doc h
  rw [FtsDoc.terms, FtsDoc.terms, hdoc]

/-- The score of a document depends on the documents of the set only. -/
theorem SameDocuments.score {G : Type} [AddCommGroup G] (bm25 : Bm25 G) (h : fts.Inv) (h' : fts'.Inv)
    (hsame : SameDocuments fts fts') (terms : Finset Bytes) {d d' : FtsDoc} (hd : d.contents = d'.contents) :
    scoreOf bm25 fts terms d = scoreOf bm25 fts' terms d' := by
  have hposting (t : Bytes) : (posting fts.index t).length = (posting fts'.index t).length := by
    have hsum := hsame.sum_eq h h' (g := fun d => if t ∈ d.terms then (1 : ℤ) else 0) fun d d' heq => by
      rw [terms_contents heq]
    rw [← h.posting_length, ← h'.posting_length] at hsum
    exact_mod_cast hsum
  have hlen : d.len = d'.len := congrArg DocContents.len hd
  rw [scoreOf, scoreOf, terms_contents hd]
  refine Finset.sum_congr rfl fun t _ => ?_
  rw [contribution, contribution, terms_contents hd, hlen, hposting, docSize, docSize, hsame.size h h', hsame.len h h']

end Fts

/-! ## Searches -/

section Searches
variable {G : Type}

/-- What a search result shows: the score and the document. -/
def Fts.found (fts : Fts) (x : DocScore G) : G × Option DocContents :=
  (x.score, (fts.mem.lookup x.doc).map FtsDoc.contents)

/-- `fts_cmp` of what is shown. -/
def foundCmp [LinearOrder G] (l r : G × Option DocContents) : ℤ :=
  if l.1 > r.1 then -1
  else if l.1 < r.1 then 1
  else 0

section Heap
variable [LinearOrder G] {fts fts' : Fts}

theorem foundCmp_found {heap : Minheap (DocScore G)} (hcomp : heap.comp = ftsCmp) (x y : DocScore G) :
    foundCmp (fts.found x) (fts.found y) = heap.comp x y := by
  rw [hcomp]
  rfl

/-- Two heaps of results that show the same. -/
structure SameFound (fts fts' : Fts) (heap heap' : Minheap (DocScore G)) : Prop where
  comp : heap.comp = ftsCmp
  comp' : heap'.comp = ftsCmp
  map_eq : heap.map fts.found foundCmp = heap'.map fts'.found foundCmp

theorem pushAll_found {heap heap' : Minheap (DocScore G)} (h : SameFound fts fts' heap heap')
    {xs xs' : List (DocScore G)} (hxs : xs.map fts.found = xs'.map fts'.found) :
    Alike (SameFound fts fts') (pushAll heap xs) (pushAll heap' xs') := by
  induction xs generalizing heap heap' xs' with
  | nil =>
    obtain rfl := List.map_eq_nil_iff.mp hxs.symm
    exact .pure h
  | cons x xs ih =>
    obtain ⟨x', xs', rfl, hx, hxs⟩ := List.map_eq_cons_iff.mp hxs.symm
    have hpush : (minheapPush heap x).map (Minheap.map fts.found foundCmp) =
        (minheapPush heap' x').map (Minheap.map fts'.found foundCmp) := by
      rw [← minheapPush_map (foundCmp_found h.comp), ← minheapPush_map (foundCmp_found h.comp'), h.map_eq, hx]
    refine .bind (.of_map hpush) fun h₁ h₁' hr hr' hmap => ih ⟨?_, ?_, hmap⟩ hxs.symm
    · exact (minheapPush_comp hr).trans h.comp
    · exact (minheapPush_comp hr').trans h.comp'

theorem ftsIterRun_found (n : ℕ) {it it' : Minheap (DocScore G)} (h : SameFound fts fts' it it') :
    Alike (fun xs xs' => xs.map fts.found = xs'.map fts'.found) (ftsIterRun n it) (ftsIterRun n it') := by
  have hnext {it it' : Minheap (DocScore G)} (h : SameFound fts fts' it it') :
      ftsIterHasnext it = ftsIterHasnext it' := by
    rw [ftsIterHasnext, minheapLen, Minheap.len_of_map h.map_eq]
    rfl
  induction n generalizing it it' with
  | zero =>
    rw [ftsIterRun, ftsIterRun, hnext h]
    split
    · exact .error rfl rfl
    · exact .pure rfl
  | succ n ih =>
    rw [ftsIterRun, ftsIterRun, hnext h]
    split
    · have hpop : (minheapPop it).map (fun r => (r.1.map fts.found, r.2.map fts.found foundCmp)) =
          (minheapPop it').map fun r => (r.1.map fts'.found, r.2.map fts'.found foundCmp) := by
        rw [← minheapPop_map (foundCmp_found h.comp), ← minheapPop_map (foundCmp_found h.comp'), h.map_eq]
      refine .bind (.of_map hpop) ?_
      rintro ⟨x, it₁⟩ ⟨x', it₁'⟩ hr hr' heq
      obtain ⟨hx, hmap⟩ := Prod.mk.inj heq
      have h₁ : SameFound fts fts' it₁ it₁' :=
        ⟨(minheapPop_comp hr).trans h.comp, (minheapPop_comp hr').trans h.comp', hmap⟩
      obtain ⟨rfl, rfl⟩ | ⟨y, y', rfl, rfl, hy⟩ := option_map_cases hx
      · exact .error rfl rfl
      · refine .bind (ih h₁) fun ys ys' _ _ hys => .pure ?_
        rw [List.map_cons, List.map_cons, hy, hys]
    · exact .pure rfl

end Heap

section Scores
variable [AddCommGroup G] (bm25 : Bm25 G) {fts fts' : Fts} (h : fts.Inv) (h' : fts'.Inv)
  (hsame : fts.SameDocuments fts')
include h h' hsame

/-- The dictionaries of scores show the same documents with the same scores. -/
theorem Fts.SameDocuments.scores {terms : Finset Bytes} {scores scores' : DictT (DocScore G)}
    (hs : ScoresAre fts scores (scoreAt bm25 fts terms)) (hs' : ScoresAre fts' scores' (scoreAt bm25 fts' terms))
    (k : Bytes) : (scores.toMap.lookup k).map fts.found = (scores'.toMap.lookup k).map fts'.found := by
  rw [hs.lookup, hs'.lookup]
  obtain ⟨hn, hn'⟩ | ⟨d, d', hd, hd', heq⟩ := option_map_cases (hsame k)
  · rw [h.find_eq_none.mp hn, h'.find_eq_none.mp hn']
    rfl
  · obtain ⟨a, ha, hmem, -⟩ := h.find_eq_some hd
    obtain ⟨a', ha', hmem', -⟩ := h'.find_eq_some hd'
    simp only [ha, ha', Option.bind_some, scoreAt, hmem, hmem', Fts.terms_contents heq]
    split
    · simp [Fts.found, hmem, hmem', heq, hsame.score bm25 h h' terms heq]
    · rfl

theorem Fts.SameDocuments.search [LinearOrder G] (env env' : FtsEnv) {query query' : StrObj}
    (hq : sdsEncodedObject query.enc = true) (henc : query.enc = query'.enc) :
    Alike (fun r r' => r.1 = r'.1 ∧ SameFound fts fts' r.2 r'.2) (ftsSearch bm25 fts env query)
      (ftsSearch bm25 fts' env' query') := by
  obtain ⟨scores, hr, hs⟩ := searchWithBm25Score_spec bm25 h env hq
  obtain ⟨scores', hr', hs'⟩ := searchWithBm25Score_spec bm25 h' env' (henc ▸ hq)
  rw [← henc] at hs'
  have hview := hsame.scores bm25 h h' hs hs'
  obtain ⟨it, hit, hall⟩ := dictIterCreate_spec hs.inv
  obtain ⟨it', hit', hall'⟩ := dictIterCreate_spec hs'.inv
  have hxs : (scores.entries.map Prod.snd).map fts.found = (scores'.entries.map Prod.snd).map fts'.found := by
    have he := congrArg (List.map Prod.snd) (hs.inv.entries_view hs'.inv hview)
    rw [List.map_map, List.map_map] at he
    rw [List.map_map, List.map_map]
    exact he
  have hlen := hs.inv.length_view hs'.inv hview
  simp only [ftsSearch, hr, hr', Exec.ok_bind, hit, hit', hall, hall']
  have hnew : SameFound fts fts' (minheapCreate (dictLength scores) (ftsCmp : DocScore G → DocScore G → ℤ))
      (minheapCreate (dictLength scores') ftsCmp) := by
    refine ⟨rfl, rfl, ?_⟩
    rw [hlen]
    simp [Minheap.map, minheapCreate, ArrayT.map, arrayCreate]
  exact .bind (pushAll_found hnew hxs) fun heap heap' _ _ hheap => .pure ⟨hlen, hheap⟩

end Scores

end Searches

end RhinoRox
