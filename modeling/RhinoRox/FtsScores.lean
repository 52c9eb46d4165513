import RhinoRox.FtsSearch
import RhinoRox.FtsIndexExact

/-!
# The score dictionary

After the terms of a set have been looked up, the dictionary of scores holds exactly the
documents in which one of them occurs, each with the sum of the contributions of those.
-/

namespace RhinoRox

variable {G : Type} [AddCommGroup G] (bm25 : Bm25 G) (fts : Fts)

/-- What a term contributes to the score of a document. -/
def contribution (d : FtsDoc) (t : Bytes) : G :=
  bm25 (d.terms.count t) d.len (posting fts.index t).length (docSize fts) fts.len

/-- One contribution for each term of the set that occurs in the document. -/
def scoreOf (terms : Finset Bytes) (d : FtsDoc) : G :=
  ∑ t ∈ terms.filter (· ∈ d.terms), contribution bm25 fts d t

/-- The score of the document at an address, if a term of the set occurs in it. -/
def scoreAt (terms : Finset Bytes) (a : ℕ) : Option (DocScore G) :=
  match fts.mem.lookup a with
  | none => none
  | some d => if (terms.filter (· ∈ d.terms)).Nonempty then some ⟨a, scoreOf bm25 fts terms d⟩ else none

/-- The dictionary maps the title of each document to `f` of its address. -/
structure ScoresAre (scores : DictT (DocScore G)) (f : ℕ → Option (DocScore G)) : Prop where
  inv : scores.Inv
  lookup : ∀ k, scores.toMap.lookup k = (fts.docs.toMap.lookup k).bind f

variable {bm25 fts} {scores : DictT (DocScore G)} {terms : Finset Bytes}

theorem Fts.Inv.docs_injective (h : fts.Inv) {k k' : Bytes} {a : ℕ} (hk : fts.docs.toMap.lookup k = some a)
    (hk' : fts.docs.toMap.lookup k' = some a) : k = k' := by
  obtain ⟨d, hd, hkey⟩ := h.mem_of_docs k a hk
  obtain ⟨d', hd', hkey'⟩ := h.mem_of_docs k' a hk'
  rw [hd] at hd'
  obtain rfl := Option.some.inj hd'
  exact hkey.symm.trans hkey'

theorem scoreAt_insert_self {t : Bytes} (ht : t ∉ terms) {a : ℕ} {d : FtsDoc} (hd : fts.mem.lookup a = some d)
    (hmem : t ∈ d.terms) :
    scoreAt bm25 fts (insert t terms) a =
      some ⟨a, ((scoreAt bm25 fts terms a).map DocScore.score).getD 0 + contribution bm25 fts d t⟩ := by
  have hfilter : (insert t terms).filter (· ∈ d.terms) = insert t (terms.filter (· ∈ d.terms)) := by
    rw [Finset.filter_insert, if_pos hmem]
  have hnot : t ∉ terms.filter (· ∈ d.terms) := fun h => ht (Finset.mem_filter.mp h).1
  simp only [scoreAt, hd, scoreOf, hfilter, Finset.insert_nonempty, if_true, Finset.sum_insert hnot]
  split
  · rw [Option.map_some, Option.getD_some, add_comm]
  · rename_i he
    rw [Finset.not_nonempty_iff_eq_empty.mp he]
    simp

theorem scoreAt_insert_of_notMem {t : Bytes} {a : ℕ} {d : FtsDoc} (hd : fts.mem.lookup a = some d)
    (hmem : t ∉ d.terms) : scoreAt bm25 fts (insert t terms) a = scoreAt bm25 fts terms a := by
  have hfilter : (insert t terms).filter (· ∈ d.terms) = terms.filter (· ∈ d.terms) := by
    rw [Finset.filter_insert, if_neg hmem]
  simp only [scoreAt, hd, scoreOf, hfilter]

theorem scoreAt_doc {a : ℕ} {x : DocScore G} (h : scoreAt bm25 fts terms a = some x) : x.doc = a := by
  unfold scoreAt at h
  split at h
  · cases h
  · split_ifs at h
    obtain rfl := Option.some.inj h
    rfl

omit [AddCommGroup G] in
/-- Storing a value under the title of one document. -/
theorem ScoresAre.insert {f : ℕ → Option (DocScore G)} {scores' : DictT (DocScore G)} (h : fts.Inv)
    (hs : ScoresAre fts scores f) {a : ℕ} {d : FtsDoc} (hd : fts.mem.lookup a = some d) (hi : scores'.Inv)
    {x : DocScore G} (hm : scores'.toMap = scores.toMap.insert d.key x) :
    ScoresAre fts scores' (Function.update f a (some x)) := by
  have hda := h.docs_of_mem a d hd
  refine ⟨hi, fun k => ?_⟩
  by_cases hk : k = d.key
  · rw [hm, hk, Finmap.lookup_insert, hda, Option.bind_some, Function.update_self]
  · rw [hm, Finmap.lookup_insert_of_ne _ hk, hs.lookup]
    rcases hb : fts.docs.toMap.lookup k with _ | b
    · rfl
    · have hne : b ≠ a := by
        rintro rfl
        exact hk (h.docs_injective hb hda)
      rw [Option.bind_some, Option.bind_some, Function.update_of_ne hne]

theorem bm25Item_spec (bm25 : Bm25 G) {f : ℕ → Option (DocScore G)} (h : fts.Inv) (hs : ScoresAre fts scores f)
    {idx : IndexItem} {d : FtsDoc} (hd : fts.mem.lookup idx.doc = some d)
    (hf : ∀ x, f idx.doc = some x → x.doc = idx.doc) (m n : ℕ) :
    ∃ scores', bm25Item bm25 fts m n scores idx = .ok scores' ∧
      ScoresAre fts scores' (Function.update f idx.doc
        (some ⟨idx.doc, ((f idx.doc).map DocScore.score).getD 0 + bm25 idx.tf d.len m n fts.len⟩)) := by
  have hptr := StrEnc.ptr_of_sds (h.indexed _ d hd).title
  have hget := dictGet_spec hs.inv d.title.enc.bytes
  have hlook : scores.toMap.lookup (cStr d.title.enc.bytes) = f idx.doc := by
    rw [hs.lookup, show cStr d.title.enc.bytes = d.key from rfl, h.docs_of_mem _ d hd, Option.bind_some]
  rw [hlook] at hget
  rcases hx : f idx.doc with _ | x
  · rw [hx] at hget hlook
    obtain ⟨d₁, freed, hr₁, hi₁, hm₁, -, -⟩ := dictSet_spec hs.inv d.title.enc.bytes ⟨idx.doc, 0⟩
    obtain ⟨d₂, hr₂, hi₂, hm₂, -⟩ := dictModify_spec hi₁ (k := d.title.enc.bytes)
      (by rw [hm₁, Finmap.lookup_insert]) ⟨idx.doc, 0 + bm25 idx.tf d.len m n fts.len⟩
    rw [hm₁, Finmap.insert_insert] at hm₂
    refine ⟨d₂, ?_, hs.insert h hd hi₂ hm₂⟩
    simp only [bm25Item, ftsDocLoad_ok hd, Exec.ok_bind, hptr, hget, hr₁, hr₂]
  · rw [hx] at hget hlook
    obtain ⟨d₂, hr₂, hi₂, hm₂, -⟩ := dictModify_spec hs.inv hlook
      ⟨idx.doc, x.score + bm25 idx.tf d.len m n fts.len⟩
    have hdoc := hf x hx
    refine ⟨d₂, ?_, hs.insert h hd hi₂ hm₂⟩
    simp only [bm25Item, ftsDocLoad_ok hd, Exec.ok_bind, hptr, hget, hdoc, hr₂]

omit [AddCommGroup G] in
theorem ScoresAre.congr {f g : ℕ → Option (DocScore G)} (h : fts.Inv) (hs : ScoresAre fts scores f)
    (hfg : ∀ a d, fts.mem.lookup a = some d → f a = g a) : ScoresAre fts scores g := by
  refine ⟨hs.inv, fun k => ?_⟩
  rw [hs.lookup]
  rcases ha : fts.docs.toMap.lookup k with _ | a
  · rfl
  · obtain ⟨d, hd, -⟩ := h.mem_of_docs k a ha
    exact hfg a d hd

/-- While the posting list of `t` is walked, the documents in `done` have their share. -/
def partialScore (bm25 : Bm25 G) (fts : Fts) (terms : Finset Bytes) (t : Bytes) (done : Finset ℕ) (a : ℕ) :
    Option (DocScore G) :=
  if a ∈ done then scoreAt bm25 fts (insert t terms) a else scoreAt bm25 fts terms a

theorem bm25Loop_spec (h : fts.Inv) {t : Bytes} (ht : t ∉ terms) (items : List IndexItem)
    (hitems : ∀ i ∈ items, i ∈ posting fts.index t) (hnodup : (items.map IndexItem.doc).Nodup)
    {done : Finset ℕ} (hdone : ∀ i ∈ items, i.doc ∉ done)
    (hs : ScoresAre fts scores (partialScore bm25 fts terms t done)) :
    ∃ scores', bm25Loop bm25 fts (posting fts.index t).length (docSize fts) scores items = .ok scores' ∧
      ScoresAre fts scores' (partialScore bm25 fts terms t (done ∪ (items.map IndexItem.doc).toFinset)) := by
  induction items generalizing scores done with
  | nil => exact ⟨scores, rfl, by simpa using hs⟩
  | cons i items ih =>
    obtain ⟨-, d, -, hd, hmem, htf⟩ := (h.mem_posting t i.doc i.tf).mp (hitems i (by simp))
    have hi := hdone i (by simp)
    obtain ⟨hnot, hnodup'⟩ := List.nodup_cons.mp hnodup
    have hold : partialScore bm25 fts terms t done i.doc = scoreAt bm25 fts terms i.doc := if_neg hi
    obtain ⟨s₁, hr₁, hs₁⟩ := bm25Item_spec bm25 h hs hd
      (fun x hx => scoreAt_doc (hold ▸ hx)) (posting fts.index t).length (docSize fts)
    have hstep : Function.update (partialScore bm25 fts terms t done) i.doc
        (some ⟨i.doc, ((partialScore bm25 fts terms t done i.doc).map DocScore.score).getD 0 +
          bm25 i.tf d.len (posting fts.index t).length (docSize fts) fts.len⟩) =
        partialScore bm25 fts terms t (insert i.doc done) := by
      funext a
      by_cases ha : a = i.doc
      · rw [ha, Function.update_self, hold, partialScore, if_pos (by simp), htf,
          scoreAt_insert_self ht hd hmem]
        rfl
      · rw [Function.update_of_ne ha, partialScore, partialScore]
        simp [ha]
    rw [hstep] at hs₁
    obtain ⟨s₂, hr₂, hs₂⟩ := ih (fun j hj => hitems j (by simp [hj])) hnodup'
      (fun j hj hmem => by
        rcases Finset.mem_insert.mp hmem with he | hmem
        · exact hnot (he ▸ List.mem_map_of_mem hj)
        · exact hdone j (by simp [hj]) hmem) hs₁
    refine ⟨s₂, by simp [bm25Loop, hr₁, hr₂], ?_⟩
    rwa [List.map_cons, List.toFinset_cons, Finset.union_insert, ← Finset.insert_union]

/-- `calculate_bm25` adds the share of one new term. -/
theorem calculateBm25_spec (h : fts.Inv) {t : Bytes} (ht : t ∉ terms)
    (hs : ScoresAre fts scores (scoreAt bm25 fts terms)) :
    ∃ scores', calculateBm25 bm25 fts (posting fts.index t) scores = .ok scores' ∧
      ScoresAre fts scores' (scoreAt bm25 fts (insert t terms)) := by
  have hp := h.index.tally t
  have hstart : ScoresAre fts scores (partialScore bm25 fts terms t ∅) :=
    hs.congr h fun a d _ => by simp [partialScore]
  obtain ⟨s, hr, hs'⟩ := bm25Loop_spec h ht (posting fts.index t) (fun i hi => hi) hp.nodup
    (by simp) hstart
  refine ⟨s, hr, hs'.congr h fun a d hd => ?_⟩
  rw [Finset.empty_union, partialScore]
  split
  · rfl
  · rename_i hnot
    have hocc : Fts.occurrences fts.mem t a = d.terms.count t := by rw [Fts.occurrences, hd]
    rw [List.mem_toFinset, hp.mem_keys, hocc] at hnot
    refine (scoreAt_insert_of_notMem hd fun hmem => hnot ?_).symm
    exact_mod_cast List.count_pos_iff.mpr hmem

/-- The terms queried so far. -/
structure QueriedAre (queried : DictT Unit) (terms : Finset Bytes) : Prop where
  inv : queried.Inv
  mem_iff : ∀ t, t ∈ queried.toMap ↔ t ∈ terms

theorem searchTerm_spec (h : fts.Inv) {queried : DictT Unit}
    (hs : ScoresAre fts scores (scoreAt bm25 fts terms)) (hq : QueriedAre queried terms) {term : Bytes}
    (hterm : term ≠ []) :
    ∃ scores' queried', searchTerm bm25 fts scores queried term = .ok (scores', queried') ∧
      ScoresAre fts scores' (scoreAt bm25 fts (insert (cStr term) terms)) ∧
      QueriedAre queried' (insert (cStr term) terms) := by
  have hlen : term.length ≠ 0 := by simpa using hterm
  have hseen := dictContains_spec hq.inv term
  by_cases hmem : cStr term ∈ terms
  · rw [Finmap.lookup_isSome.mpr ((hq.mem_iff _).mpr hmem)] at hseen
    refine ⟨scores, queried, by simp [searchTerm, hlen, hseen], ?_, ?_⟩
    · rwa [Finset.insert_eq_of_mem hmem]
    · rwa [Finset.insert_eq_of_mem hmem]
  · have hnone : queried.toMap.lookup (cStr term) = none :=
      Finmap.lookup_eq_none.mpr fun hin => hmem ((hq.mem_iff _).mp hin)
    rw [hnone] at hseen
    obtain ⟨q, freed, hrq, hiq, hmq, -, -⟩ := dictSet_spec hq.inv term ()
    have hq' : QueriedAre q (insert (cStr term) terms) := by
      refine ⟨hiq, fun t => ?_⟩
      rw [hmq, Finmap.mem_insert, Finset.mem_insert, hq.mem_iff]
    obtain ⟨s, hr, hs'⟩ := calculateBm25_spec h hmem hs
    have hget := dictGet_spec h.index.inv term
    rcases hl : fts.index.toMap.lookup (cStr term) with _ | idx
    · have hnil : posting fts.index (cStr term) = [] := by rw [posting, hl]; rfl
      rw [hnil] at hr
      obtain rfl : scores = s := by simpa [calculateBm25, bm25Loop] using hr
      exact ⟨scores, q, by simp [searchTerm, hlen, hseen, hrq, hget, hl], hs', hq'⟩
    · have hidx : posting fts.index (cStr term) = idx := by rw [posting, hl]; rfl
      rw [hidx] at hr
      exact ⟨s, q, by simp [searchTerm, hlen, hseen, hrq, hget, hl, hr], hs', hq'⟩

theorem searchLoop_spec (h : fts.Inv) {queried : DictT Unit}
    (hs : ScoresAre fts scores (scoreAt bm25 fts terms)) (hq : QueriedAre queried terms) (ts : List Bytes) :
    ∃ scores', searchLoop bm25 fts scores queried ts = .ok scores' ∧
      ScoresAre fts scores' (scoreAt bm25 fts
        (terms ∪ ((ts.filter fun t => decide (t ≠ [])).map cStr).toFinset)) := by
  induction ts generalizing scores queried terms with
  | nil => exact ⟨scores, rfl, by simpa using hs⟩
  | cons term ts ih =>
    by_cases hterm : term = []
    · obtain ⟨s, hr, hs'⟩ := ih hs hq
      refine ⟨s, by simpa [searchLoop, searchTerm, hterm] using hr, ?_⟩
      rwa [List.filter_cons_of_neg (by simpa using hterm)]
    · obtain ⟨s₁, q₁, hr₁, hs₁, hq₁⟩ := searchTerm_spec h hs hq hterm
      obtain ⟨s₂, hr₂, hs₂⟩ := ih hs₁ hq₁
      refine ⟨s₂, by simp [searchLoop, hr₁, hr₂], ?_⟩
      rwa [List.filter_cons_of_pos (by simpa using hterm), List.map_cons, List.toFinset_cons,
        Finset.union_insert, ← Finset.insert_union]

/-- The dictionary that `search_with_bm25_score` returns. -/
theorem searchWithBm25Score_spec (bm25 : Bm25 G) (h : fts.Inv) (env : FtsEnv) {query : StrObj}
    (hq : sdsEncodedObject query.enc = true) :
    ∃ scores, searchWithBm25Score bm25 fts env query = .ok scores ∧
      ScoresAre fts scores (scoreAt bm25 fts (termsOf query.enc.bytes).toFinset) := by
  have hempty : ScoresAre fts (dictSetFreecb dictCreate) (scoreAt bm25 fts ∅) := by
    refine ⟨dictSetFreecb_inv dictCreate_inv, fun k => ?_⟩
    rcases ha : fts.docs.toMap.lookup k with _ | a
    · rfl
    · simp only [Option.bind_some, scoreAt, Finset.filter_empty, Finset.not_nonempty_empty, if_false]
      split <;> rfl
  have hnone : QueriedAre dictCreate ∅ := ⟨dictCreate_inv, fun t => by simp [Finmap.notMem_empty]⟩
  rw [searchWithBm25Score, StrEnc.ptr_of_sds hq, Exec.ok_bind, sdsTokenize_spec, Exec.ok_bind]
  rcases hts : rawTerms query.enc.bytes with _ | ts
  · refine ⟨_, rfl, ?_⟩
    rwa [termsOf, hts]
  · obtain ⟨s, hr, hs⟩ := searchLoop_spec h hempty hnone ts
    refine ⟨s, hr, ?_⟩
    rw [Finset.empty_union] at hs
    rwa [termsOf, hts]

end RhinoRox
