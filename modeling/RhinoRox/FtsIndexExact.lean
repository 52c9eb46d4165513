import RhinoRox.FtsDocuments
import Mathlib.Algebra.BigOperators.Ring.Finset
import Mathlib.Data.Finset.Lattice.Fold
import Mathlib.Order.Lattice.Nat

/-!
# The index agrees with the documents

Whatever was added, replaced and deleted before, every posting list holds one item for each
stored document in which its term occurs, with the number of occurrences, and the recorded
lengths are the sums of these numbers.
-/

namespace RhinoRox

/-- What `fts_add` and `fts_del` on string-encoded objects can produce. -/
inductive FtsReachable : Fts → Prop where
  | create : FtsReachable ftsCreate
  | add {fts fts' : Fts} {added : Bool} {log : List RefOp} (h : FtsReachable fts) (env : FtsEnv)
      (title doc : StrObj) (ht : sdsEncodedObject title.enc = true) (hd : sdsEncodedObject doc.enc = true)
      (run : ftsAdd env fts title doc = .ok (added, fts', log)) : FtsReachable fts'
  | del {fts fts' : Fts} {deleted : Bool} {log : List RefOp} (h : FtsReachable fts) (env : FtsEnv)
      (title : StrObj) (ht : sdsEncodedObject title.enc = true)
      (run : ftsDel env fts title = .ok (deleted, fts', log)) : FtsReachable fts'

theorem ftsAdd_inv {fts fts' : Fts} (h : fts.Inv) {env : FtsEnv} {title doc : StrObj} {added : Bool}
    {log : List RefOp} (ht : sdsEncodedObject title.enc = true) (hd : sdsEncodedObject doc.enc = true)
    (run : ftsAdd env fts title doc = .ok (added, fts', log)) : fts'.Inv := by
  obtain ⟨added', fts₁, hr, hadd⟩ := ftsAdd_spec h env ht hd
  rw [hr] at run
  obtain ⟨-, rfl, -⟩ : _ ∧ _ ∧ _ := by simpa using run
  exact hadd.inv

theorem ftsDel_inv {fts fts' : Fts} (h : fts.Inv) {env : FtsEnv} {title : StrObj} {deleted : Bool}
    {log : List RefOp} (ht : sdsEncodedObject title.enc = true)
    (run : ftsDel env fts title = .ok (deleted, fts', log)) : fts'.Inv := by
  have hdel := ftsDel_spec h env ht
  split at hdel
  · rw [hdel] at run
    obtain ⟨-, rfl, -⟩ : _ ∧ _ ∧ _ := by simpa using run
    exact h
  · obtain ⟨fts₁, hr, hinv, -⟩ := hdel
    rw [hr] at run
    obtain ⟨-, rfl, -⟩ : _ ∧ _ ∧ _ := by simpa using run
    exact hinv

theorem FtsReachable.inv {fts : Fts} (h : FtsReachable fts) : fts.Inv := by
  induction h with
  | create => exact ftsCreate_inv
  | add _ env title doc ht hd run ih => exact ftsAdd_inv ih ht hd run
  | del _ env title ht run ih => exact ftsDel_inv ih ht run

namespace Fts
variable {fts : Fts}

/-- The frequency that the index records for a term in the document at an address. -/
def tf (fts : Fts) (t : Bytes) (a : ℕ) : ℤ :=
  ((listSearchKey (posting fts.index t) a).map IndexItem.tf).getD 0

/-- The recorded length of the document of a title. -/
def lenOf (fts : Fts) (title : Bytes) : ℤ := ((fts.docs.toMap.lookup title).map (lenAt fts.mem)).getD 0

theorem Inv.tf_eq (h : fts.Inv) (t : Bytes) (a : ℕ) : fts.tf t a = occurrences fts.mem t a := by
  have hp := h.index.tally t
  rcases hs : listSearchKey (posting fts.index t) a with _ | i
  · rw [tf, hs, hp.find?_eq_none.mp hs]
    rfl
  · have hi := List.mem_of_find?_eq_some hs
    have hk : i.doc = a := by simpa using List.find?_some hs
    rw [tf, hs, Option.map_some, Option.getD_some, hp.weight_eq i hi, hk]

theorem Inv.mem_posting (h : fts.Inv) (t : Bytes) (a : ℕ) (tf : ℤ) :
    ⟨a, tf⟩ ∈ posting fts.index t ↔
      ∃ title d, fts.docs.toMap.lookup title = some a ∧ fts.mem.lookup a = some d ∧ t ∈ d.terms ∧
        tf = d.terms.count t := by
  have hp := h.index.tally t
  constructor
  · intro hi
    have hw : tf = occurrences fts.mem t a := hp.weight_eq _ hi
    have hpos : 0 < tf := hp.pos _ hi
    rcases hd : fts.mem.lookup a with _ | d
    · rw [hw, occurrences, hd] at hpos
      exact absurd hpos (lt_irrefl 0)
    · rw [occurrences, hd] at hw
      refine ⟨d.key, d, h.docs_of_mem a d hd, rfl, ?_, hw⟩
      rw [← List.count_pos_iff]
      dsimp only at hw
      omega
  · rintro ⟨title, d, -, hd, hmem, rfl⟩
    have hocc : occurrences fts.mem t a = d.terms.count t := by rw [occurrences, hd]
    have hpos : 0 < occurrences fts.mem t a := by
      rw [hocc]
      exact_mod_cast List.count_pos_iff.mpr hmem
    obtain ⟨i, hi, rfl⟩ := List.mem_map.mp (hp.mem_keys.mpr hpos)
    have hw := hp.weight_eq i hi
    rw [hocc] at hw
    rwa [← hw]

/-- The titles and the addresses of the stored documents correspond. -/
theorem Inv.sum_docs (h : fts.Inv) (f : ℕ → ℤ) :
    ∑ title ∈ fts.docs.toMap.keys, ((fts.docs.toMap.lookup title).map f).getD 0 =
      ∑ a ∈ fts.mem.keys, f a := by
  symm
  refine Finset.sum_bij (fun a _ => ((fts.mem.lookup a).map FtsDoc.key).getD []) ?_ ?_ ?_ ?_
  · intro a ha
    obtain ⟨d, hd⟩ := Finmap.mem_iff.mp (Finmap.mem_keys.mp ha)
    rw [hd, Finmap.mem_keys, Finmap.mem_iff]
    exact ⟨a, h.docs_of_mem a d hd⟩
  · intro a ha b hb he
    obtain ⟨d, hd⟩ := Finmap.mem_iff.mp (Finmap.mem_keys.mp ha)
    obtain ⟨e, hb⟩ := Finmap.mem_iff.mp (Finmap.mem_keys.mp hb)
    rw [hd, hb] at he
    have hkey : d.key = e.key := he
    have ha' := h.docs_of_mem a d hd
    rw [hkey, h.docs_of_mem b e hb] at ha'
    exact (Option.some.inj ha').symm
  · intro title ht
    obtain ⟨a, ha⟩ := Finmap.mem_iff.mp (Finmap.mem_keys.mp ht)
    obtain ⟨d, hd, hk⟩ := h.mem_of_docs title a ha
    refine ⟨a, Finmap.mem_keys.mpr (Finmap.mem_iff.mpr ⟨d, hd⟩), ?_⟩
    rw [hd, ← hk]
    rfl
  · intro a ha
    obtain ⟨d, hd⟩ := Finmap.mem_iff.mp (Finmap.mem_keys.mp ha)
    rw [hd, Option.map_some, Option.getD_some, h.docs_of_mem a d hd]
    rfl

theorem Inv.card_mem (h : fts.Inv) : fts.mem.keys.card = ftsSize fts := by
  have hs := h.sum_docs fun _ => 1
  have hone : ∀ title ∈ fts.docs.toMap.keys, ((fts.docs.toMap.lookup title).map fun _ => (1 : ℤ)).getD 0 = 1 := by
    intro title ht
    obtain ⟨a, ha⟩ := Finmap.mem_iff.mp (Finmap.mem_keys.mp ht)
    rw [ha]
    rfl
  rw [Finset.sum_congr rfl hone, Finset.sum_const, Finset.sum_const, h.docs.card_keys] at hs
  simpa [ftsSize, dictLength] using hs.symm

theorem Inv.posting_length_le (h : fts.Inv) (t : Bytes) : (posting fts.index t).length ≤ ftsSize fts := by
  have hp := h.index.tally t
  rw [← h.card_mem, ← List.length_map IndexItem.doc, ← List.toFinset_card_of_nodup hp.nodup]
  refine Finset.card_le_card fun a ha => ?_
  rw [List.mem_toFinset, hp.mem_keys] at ha
  rw [Finmap.mem_keys, Finmap.mem_iff]
  rcases hd : fts.mem.lookup a with _ | d
  · rw [occurrences, hd] at ha
    exact absurd ha (lt_irrefl 0)
  · exact ⟨d, rfl⟩

theorem Inv.sum_tf (h : fts.Inv) {a : ℕ} {d : FtsDoc} (hd : fts.mem.lookup a = some d) :
    ∑ t ∈ fts.index.toMap.keys, fts.tf t a = d.len := by
  have htf : ∀ t, fts.tf t a = d.terms.count t := fun t => by rw [h.tf_eq, occurrences, hd]
  have hsub : d.terms.toFinset ⊆ fts.index.toMap.keys := by
    intro t ht
    have hpos : 0 < occurrences fts.mem t a := by
      rw [← h.tf_eq, htf]
      exact_mod_cast List.count_pos_iff.mpr (List.mem_toFinset.mp ht)
    have hkey := (h.index.tally t).mem_keys.mpr hpos
    rw [Finmap.mem_keys, Finmap.mem_iff]
    rcases hl : fts.index.toMap.lookup t with _ | idx
    · simp [posting, hl] at hkey
    · exact ⟨idx, rfl⟩
  rw [(h.indexed a d hd).len, ← FtsDoc.terms]
  simp only [htf]
  rw [← Finset.sum_subset hsub fun t _ ht => by
    rw [List.mem_toFinset] at ht
    exact_mod_cast List.count_eq_zero_of_not_mem ht, ← Nat.cast_sum]
  congr 1
  convert List.sum_toFinset_count_eq_length d.terms

end Fts

/-- The index and the recorded lengths are those of the stored documents. -/
structure IndexExact (fts : Fts) : Prop where
  tokens : ∀ title a, fts.docs.toMap.lookup title = some a → ∃ d, fts.mem.lookup a = some d ∧
    ∀ z, ∃ terms n, sdsTokenize z d.doc.enc.bytes = .ok (some (terms, n)) ∧
      d.terms = (terms.filter fun t => decide (t ≠ [])).map cStr
  items : ∀ t a (tf : ℤ), ⟨a, tf⟩ ∈ posting fts.index t ↔
    ∃ title d, fts.docs.toMap.lookup title = some a ∧ fts.mem.lookup a = some d ∧ t ∈ d.terms ∧
      tf = d.terms.count t
  once : ∀ t, ((posting fts.index t).map IndexItem.doc).Nodup
  docLen : ∀ title a, fts.docs.toMap.lookup title = some a →
    fts.lenOf title = ∑ t ∈ fts.index.toMap.keys, fts.tf t a
  len : fts.len = ∑ title ∈ fts.docs.toMap.keys, fts.lenOf title
  bound : ∀ t, (posting fts.index t).length ≤ ftsSize fts

theorem Fts.Inv.indexExact {fts : Fts} (h : fts.Inv) : IndexExact fts where
  tokens title a hl := by
    obtain ⟨d, hd, -⟩ := h.mem_of_docs title a hl
    refine ⟨d, hd, fun z => ?_⟩
    obtain ⟨ts, hts⟩ := Option.isSome_iff_exists.mp (h.indexed a d hd).terms
    refine ⟨ts, ts.countP fun t => decide (t ≠ []), by rw [sdsTokenize_spec, hts]; rfl, ?_⟩
    rw [FtsDoc.terms, termsOf, hts]
    rfl
  items := h.mem_posting
  once t := (h.index.tally t).nodup
  docLen title a hl := by
    obtain ⟨d, hd, -⟩ := h.mem_of_docs title a hl
    rw [h.sum_tf hd, Fts.lenOf, hl, Option.map_some, Option.getD_some, Fts.lenAt, hd]
    rfl
  len := by
    rw [h.len_eq]
    exact (h.sum_docs _).symm
  bound := h.posting_length_le

/-- The index is exact after any sequence of calls, and no call fails. -/
theorem fts_index_exact {fts : Fts} (h : FtsReachable fts) :
    IndexExact fts ∧
      (∀ env title doc, sdsEncodedObject title.enc = true → sdsEncodedObject doc.enc = true →
        ∃ added fts' log, ftsAdd env fts title doc = .ok (added, fts', log)) ∧
      ∀ env title, sdsEncodedObject title.enc = true →
        ∃ deleted fts' log, ftsDel env fts title = .ok (deleted, fts', log) := by
  refine ⟨h.inv.indexExact, ?_, ?_⟩
  · intro env title doc ht hd
    obtain ⟨added, fts', hr, -⟩ := ftsAdd_spec h.inv env ht hd
    exact ⟨added, fts', _, hr⟩
  · intro env title ht
    have hdel := ftsDel_spec h.inv env ht
    split at hdel
    · exact ⟨false, fts, [], hdel⟩
    · obtain ⟨fts', hr, -⟩ := hdel
      exact ⟨true, fts', _, hr⟩

/-- An allocator that takes the address after the highest one in use. -/
def bumpEnv : FtsEnv where
  malloc s := s.sup id + 1
  malloc_fresh _ hs := absurd (Finset.le_sup (f := id) hs) (Nat.not_succ_le_self _)
  createStemmer _ := ⟨[], 0, 0⟩

theorem fts_index_exact_one_document :
    ∃ fts a, FtsReachable fts ∧ ⟨a, 1⟩ ∈ posting fts.index (ascii "cat") ∧ IndexExact fts := by
  let title : StrObj := ⟨0, .embstr (ascii "pets")⟩
  let doc : StrObj := ⟨1, .embstr (ascii "cats")⟩
  have hsplit : (rawTerms doc.enc.bytes).isSome = true := rawTerms_isSome (by decide)
  have htitle : sdsEncodedObject title.enc = true := rfl
  have hdoc : sdsEncodedObject doc.enc = true := rfl
  obtain ⟨added, fts, hr, hadd⟩ := ftsAdd_spec ftsCreate_inv bumpEnv htitle hdoc
  have hreach : FtsReachable fts := .add .create bumpEnv title doc htitle hdoc hr
  have hfind : fts.find title.key = some ⟨title, doc, (termsOf doc.enc.bytes).length⟩ := by
    rw [hadd.find_eq, Function.update_self, hadd.added_eq, hsplit]
    rfl
  obtain ⟨a, hl, hd, -⟩ := hadd.inv.find_eq_some hfind
  have hexact := (fts_index_exact hreach).1
  refine ⟨fts, a, hreach, (hexact.items _ _ _).mpr ⟨title.key, _, hl, hd, ?_, ?_⟩, hexact⟩
  · change ascii "cat" ∈ termsOf (ascii "cats")
    rw [termsOf_cats]
    simp
  · change (1 : ℤ) = (termsOf (ascii "cats")).count (ascii "cat")
    rw [termsOf_cats]
    decide

end RhinoRox
