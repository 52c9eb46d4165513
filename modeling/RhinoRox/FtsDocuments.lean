import RhinoRox.FtsInvariant

/-!
# Adding and deleting documents

Each call keeps the invariant, returns without a fault and changes the stored documents
as a map from titles to documents would.
-/

namespace RhinoRox

/-- The key under which an object is stored when its text is used as a C string. -/
def StrObj.key (o : StrObj) : Bytes := cStr o.enc.bytes

section Lookup
variable {fts : Fts}

theorem Fts.Inv.find_of_docs (h : fts.Inv) {t : Bytes} {a : ℕ} (hl : fts.docs.toMap.lookup t = some a) :
    ∃ d, fts.mem.lookup a = some d ∧ d.key = t ∧ fts.find t = some d := by
  obtain ⟨d, hd, hk⟩ := h.mem_of_docs t a hl
  exact ⟨d, hd, hk, by simp [Fts.find, hl, hd]⟩

theorem Fts.Inv.find_eq_none (h : fts.Inv) {t : Bytes} :
    fts.find t = none ↔ fts.docs.toMap.lookup t = none := by
  constructor
  · intro hf
    rcases hl : fts.docs.toMap.lookup t with _ | a
    · rfl
    · obtain ⟨d, -, -, hd⟩ := h.find_of_docs hl
      rw [hf] at hd
      cases hd
  · intro hl
    simp [Fts.find, hl]

theorem Fts.Inv.find_eq_some (h : fts.Inv) {t : Bytes} {d : FtsDoc} (hf : fts.find t = some d) :
    ∃ a, fts.docs.toMap.lookup t = some a ∧ fts.mem.lookup a = some d ∧ d.key = t := by
  obtain ⟨a, ha, hd⟩ := Option.bind_eq_some_iff.mp hf
  obtain ⟨d', hd', hk⟩ := h.mem_of_docs t a ha
  rw [hd] at hd'
  obtain rfl := Option.some.inj hd'
  exact ⟨a, ha, hd, hk⟩

theorem ftsDocLoad_ok {a : ℕ} {d : FtsDoc} (h : fts.mem.lookup a = some d) :
    ftsDocLoad fts a = .ok d := by
  simp [ftsDocLoad, h]

theorem ftsDocFree_ok {a : ℕ} {d : FtsDoc} (h : fts.mem.lookup a = some d) :
    ftsDocFree fts a = .ok ({ fts with mem := fts.mem.erase a }, [.decr d.title, .decr d.doc]) := by
  simp [ftsDocFree, ftsDocLoad_ok h]

end Lookup

/-- The state after the document at `a` is gone. -/
theorem Fts.Inv.erase {fts : Fts} (h : fts.Inv) {a : ℕ} {d : FtsDoc} (hd : fts.mem.lookup a = some d)
    {docs : DictT ℕ} {index : DictT (List IndexItem)} (hdocs : docs.Inv) (hcb : docs.freeCb = fts.docs.freeCb)
    (hm : docs.toMap = fts.docs.toMap.erase d.key)
    (hindex : IndexTallies index (Fts.occurrences (fts.mem.erase a))) :
    (Fts.mk docs index (fts.len - d.len) (fts.mem.erase a)).Inv ∧
      (Fts.mk docs index (fts.len - d.len) (fts.mem.erase a)).find = Function.update fts.find d.key none := by
  have hne : ∀ t b, fts.docs.toMap.lookup t = some b → t ≠ d.key → b ≠ a := by
    rintro t b hl hk rfl
    obtain ⟨d', hd', hk'⟩ := h.mem_of_docs t b hl
    rw [hd] at hd'
    obtain rfl := Option.some.inj hd'
    exact hk hk'.symm
  have hkey : ∀ b e, b ≠ a → fts.mem.lookup b = some e → e.key ≠ d.key := by
    intro b e hb he hk
    have h₁ := h.docs_of_mem b e he
    rw [hk, h.docs_of_mem a d hd] at h₁
    exact hb (Option.some.inj h₁).symm
  constructor
  · refine ⟨hdocs, hcb.trans h.freeCb, hindex, ?_, ?_, ?_, ?_⟩
    · intro t b hl
      by_cases ht : t = d.key
      · rw [hm, ht, Finmap.lookup_erase] at hl
        cases hl
      · rw [hm, Finmap.lookup_erase_ne ht] at hl
        rw [Finmap.lookup_erase_ne (hne t b hl ht)]
        exact h.mem_of_docs t b hl
    · intro b e he
      by_cases hb : b = a
      · rw [hb, Finmap.lookup_erase] at he
        cases he
      · rw [Finmap.lookup_erase_ne hb] at he
        rw [hm, Finmap.lookup_erase_ne (hkey b e hb he)]
        exact h.docs_of_mem b e he
    · intro b e he
      by_cases hb : b = a
      · rw [hb, Finmap.lookup_erase] at he
        cases he
      · rw [Finmap.lookup_erase_ne hb] at he
        exact h.indexed b e he
    · rw [sum_lenAt_erase _ hd, h.len_eq]
  · funext t
    by_cases ht : t = d.key
    · rw [ht, Function.update_self, Fts.find, hm, Finmap.lookup_erase]
      rfl
    · rw [Function.update_of_ne ht, Fts.find, Fts.find, hm, Finmap.lookup_erase_ne ht]
      rcases hl : fts.docs.toMap.lookup t with _ | b
      · rfl
      · exact Finmap.lookup_erase_ne (hne t b hl ht)

/-- The state after a document was put at the free address `a`. -/
theorem Fts.Inv.insert {fts : Fts} (h : fts.Inv) {a : ℕ} (ha : fts.mem.lookup a = none) {d : FtsDoc}
    (hd : d.Indexed) (hfree : fts.docs.toMap.lookup d.key = none)
    {docs : DictT ℕ} {index : DictT (List IndexItem)} (hdocs : docs.Inv) (hcb : docs.freeCb = fts.docs.freeCb)
    (hm : docs.toMap = fts.docs.toMap.insert d.key a)
    (hindex : IndexTallies index (Fts.occurrences (fts.mem.insert a d))) :
    (Fts.mk docs index (fts.len + d.len) (fts.mem.insert a d)).Inv ∧
      (Fts.mk docs index (fts.len + d.len) (fts.mem.insert a d)).find =
        Function.update fts.find d.key (some d) := by
  have hne : ∀ t b, fts.docs.toMap.lookup t = some b → b ≠ a := by
    rintro t b hl rfl
    obtain ⟨d', hd', -⟩ := h.mem_of_docs t b hl
    rw [ha] at hd'
    cases hd'
  have hkey : ∀ b e, fts.mem.lookup b = some e → e.key ≠ d.key := by
    intro b e he hk
    have h₁ := h.docs_of_mem b e he
    rw [hk, hfree] at h₁
    cases h₁
  constructor
  · refine ⟨hdocs, hcb.trans h.freeCb, hindex, ?_, ?_, ?_, ?_⟩
    · intro t b hl
      by_cases ht : t = d.key
      · rw [hm, ht, Finmap.lookup_insert] at hl
        obtain rfl := Option.some.inj hl
        exact ⟨d, Finmap.lookup_insert _, ht.symm⟩
      · rw [hm, Finmap.lookup_insert_of_ne _ ht] at hl
        rw [Finmap.lookup_insert_of_ne _ (hne t b hl)]
        exact h.mem_of_docs t b hl
    · intro b e he
      by_cases hb : b = a
      · rw [hb, Finmap.lookup_insert] at he
        obtain rfl := Option.some.inj he
        rw [hm, hb, Finmap.lookup_insert]
      · rw [Finmap.lookup_insert_of_ne _ hb] at he
        rw [hm, Finmap.lookup_insert_of_ne _ (hkey b e he)]
        exact h.docs_of_mem b e he
    · intro b e he
      by_cases hb : b = a
      · rw [hb, Finmap.lookup_insert] at he
        obtain rfl := Option.some.inj he
        exact hd
      · rw [Finmap.lookup_insert_of_ne _ hb] at he
        exact h.indexed b e he
    · rw [sum_lenAt_insert _ ha, h.len_eq]
  · funext t
    by_cases ht : t = d.key
    · rw [ht, Function.update_self, Fts.find, hm, Finmap.lookup_insert]
      exact Finmap.lookup_insert _
    · rw [Function.update_of_ne ht, Fts.find, Fts.find, hm, Finmap.lookup_insert_of_ne _ ht]
      rcases hl : fts.docs.toMap.lookup t with _ | b
      · rfl
      · exact Finmap.lookup_insert_of_ne _ (hne t b hl)

theorem ftsIndexDel_spec {fts : Fts} (h : fts.Inv) (env : FtsEnv) {a : ℕ} {d : FtsDoc}
    (hd : fts.mem.lookup a = some d) (docs : DictT ℕ) :
    ∃ index, ftsIndexDel env { fts with docs := docs } a =
        .ok ⟨docs, index, fts.len - d.len, fts.mem⟩ ∧
      IndexTallies index (Fts.occurrences (fts.mem.erase a)) := by
  have hi := h.indexed a d hd
  obtain ⟨ts, hts⟩ := Option.isSome_iff_exists.mp hi.terms
  have hocc : ∀ t, occ ts t = d.terms.count t := occ_rawTerms hts
  obtain ⟨index, hr, hindex⟩ := indexDelLoop_spec h.index a ts fun t => by
    rw [hocc, Fts.occurrences, hd]
  refine ⟨index, ?_, ?_⟩
  · simp [ftsIndexDel, ftsDocLoad, hd, StrEnc.ptr_of_sds hi.doc, sdsTokenize_spec, hts, hr]
  · rw [occurrences_erase _ hd]
    simpa only [hocc] using hindex

/-- `fts_del` of a title: nothing happens if it is not stored, else the document goes. -/
theorem ftsDel_spec {fts : Fts} (h : fts.Inv) (env : FtsEnv) {title : StrObj}
    (ht : sdsEncodedObject title.enc = true) :
    match fts.find title.key with
    | none => ftsDel env fts title = .ok (false, fts, [])
    | some d => ∃ fts', ftsDel env fts title = .ok (true, fts', [.decr d.title, .decr d.doc]) ∧
        fts'.Inv ∧ fts'.find = Function.update fts.find title.key none := by
  obtain ⟨docs, hr, hi, hm, hcb, hsame⟩ := dictDel_spec h.docs title.enc.bytes
  change dictDel fts.docs title.enc.bytes = .ok (fts.docs.toMap.lookup title.key, docs) at hr
  split
  · rename_i hf
    have hl := h.find_eq_none.mp hf
    obtain rfl := hsame hl
    simp [ftsDel, StrEnc.ptr_of_sds ht, hr, hl]
  · rename_i d hf
    obtain ⟨a, hl, hd, hk⟩ := h.find_eq_some hf
    obtain ⟨index, hr', hindex⟩ := ftsIndexDel_spec h env hd docs
    obtain ⟨hinv, hfind⟩ := h.erase hd hi hcb (hk ▸ hm) hindex
    refine ⟨_, ?_, hinv, hk ▸ hfind⟩
    have hmem : (Fts.mk docs index (fts.len - d.len) fts.mem).mem.lookup a = some d := hd
    have hfree := ftsDocFree_ok hmem
    simp [ftsDel, StrEnc.ptr_of_sds ht, hr, hl, hr', hfree]

theorem FtsEnv.malloc_lookup (env : FtsEnv) (mem : Finmap fun _ : ℕ => FtsDoc) :
    mem.lookup (env.malloc mem.keys) = none := by
  rw [Finmap.lookup_eq_none, ← Finmap.mem_keys]
  exact env.malloc_fresh mem.keys

/-- `fts_index_add` of the document that was just allocated at `a`. -/
theorem ftsIndexAdd_spec {fts : Fts} (h : fts.Inv) (env : FtsEnv) {a : ℕ} (ha : fts.mem.lookup a = none)
    (title : StrObj) {doc : StrObj} (hd : sdsEncodedObject doc.enc = true) (docs : DictT ℕ) :
    match rawTerms doc.enc.bytes with
    | none => ftsIndexAdd env { fts with docs := docs, mem := fts.mem.insert a ⟨title, doc, 0⟩ } a =
        .ok (false, { fts with docs := docs, mem := fts.mem.insert a ⟨title, doc, 0⟩ })
    | some _ => ∃ index, ftsIndexAdd env { fts with docs := docs, mem := fts.mem.insert a ⟨title, doc, 0⟩ } a =
        .ok (true, ⟨docs, index, fts.len + (termsOf doc.enc.bytes).length,
          fts.mem.insert a ⟨title, doc, (termsOf doc.enc.bytes).length⟩⟩) ∧
        IndexTallies index
          (Fts.occurrences (fts.mem.insert a ⟨title, doc, (termsOf doc.enc.bytes).length⟩)) := by
  have hload : ftsDocLoad { fts with docs := docs, mem := fts.mem.insert a ⟨title, doc, 0⟩ } a =
      .ok ⟨title, doc, 0⟩ := ftsDocLoad_ok (Finmap.lookup_insert _)
  split
  · rename_i hts
    simp [ftsIndexAdd, hload, StrEnc.ptr_of_sds hd, sdsTokenize_spec, hts]
  · rename_i ts hts
    obtain ⟨index, hr, hindex⟩ := indexAddLoop_spec h.index a ts
    refine ⟨index, ?_, ?_⟩
    · have hn := countP_rawTerms hts
      simp only [ftsIndexAdd, hload, Exec.ok_bind, StrEnc.ptr_of_sds hd, sdsTokenize_spec, hts,
        Option.map_some, hr, Exec.pure_eq, hn, Finmap.insert_insert]
    · rw [occurrences_insert _ ha]
      have hocc : occ ts = fun t => ((termsOf doc.enc.bytes).count t : ℤ) := funext (occ_rawTerms hts)
      rwa [hocc] at hindex

/-- What adding a document under a title does: the document is stored, or, when its text
is too long to be tokenized, nothing is. -/
structure Added (fts fts' : Fts) (title doc : StrObj) (added : Bool) : Prop where
  inv : fts'.Inv
  added_eq : added = (rawTerms doc.enc.bytes).isSome
  find_eq : fts'.find = Function.update fts.find title.key
    (if added then some ⟨title, doc, (termsOf doc.enc.bytes).length⟩ else none)

/-- The reference counts that adding changes. -/
def addLog (title doc : StrObj) (added : Bool) : List RefOp :=
  if added then [.incr title, .incr doc] else [.incr title, .incr doc, .decr title, .decr doc]

theorem ftsAddNew_spec {fts : Fts} (h : fts.Inv) (env : FtsEnv) {title doc : StrObj}
    (ht : sdsEncodedObject title.enc = true) (hd : sdsEncodedObject doc.enc = true)
    (hfree : fts.find title.key = none) :
    ∃ added fts', ftsAddNew env fts title doc = .ok (added, fts', addLog title doc added) ∧
      Added fts fts' title doc added := by
  have hl := h.find_eq_none.mp hfree
  have ha := env.malloc_lookup fts.mem
  set a := env.malloc fts.mem.keys with hadef
  obtain ⟨docs, freed, hr, hi, hm, hcb, hfreed⟩ := dictSet_spec h.docs title.enc.bytes a
  change docs.toMap = fts.docs.toMap.insert title.key a at hm
  have hnil : freed = [] := by
    rw [hfreed, show fts.docs.toMap.lookup (cStr title.enc.bytes) = none from hl]
    simp
  have hindex := ftsIndexAdd_spec h env ha title hd docs
  split at hindex
  · rename_i hts
    obtain ⟨docs', hr', hi', hm', hcb', -⟩ := dictDel_spec hi title.enc.bytes
    change dictDel docs title.enc.bytes = .ok (docs.toMap.lookup title.key, docs') at hr'
    rw [hm, Finmap.lookup_insert] at hr'
    have hback : docs'.toMap = fts.docs.toMap := by
      rw [hm', hm]
      exact CritBitTree.erase_insert_absent hl a
    refine ⟨false, ⟨docs', fts.index, fts.len, fts.mem⟩, ?_, ?_, by rw [hts]; rfl, ?_⟩
    · simp only [ftsAddNew, ftsDocCreate, ← hadef, StrEnc.ptr_of_sds ht, Exec.ok_bind, hr, hnil,
        ftsDocFreeAll, Exec.pure_eq, if_true, hindex, Bool.false_eq_true, if_false, hr']
      rw [ftsDocFree_ok (d := ⟨title, doc, 0⟩) (Finmap.lookup_insert _)]
      simp only [Exec.ok_bind, CritBitTree.erase_insert_absent ha, addLog]
      rfl
    · refine ⟨hi', (hcb'.trans hcb).trans h.freeCb, h.index, ?_, ?_, h.indexed, h.len_eq⟩
      · rw [hback]
        exact h.mem_of_docs
      · rw [hback]
        exact h.docs_of_mem
    · funext t
      have hsame : (Fts.mk docs' fts.index fts.len fts.mem).find t = fts.find t := by
        rw [Fts.find, Fts.find, hback]
      rw [hsame]
      by_cases hk : t = title.key
      · rw [hk, hfree, Function.update_self]
        rfl
      · rw [Function.update_of_ne hk]
  · rename_i ts hts
    obtain ⟨index, hrun, htally⟩ := hindex
    have hdoc : (FtsDoc.mk title doc (termsOf doc.enc.bytes).length).Indexed :=
      ⟨ht, hd, by rw [hts]; rfl, rfl⟩
    obtain ⟨hinv, hfind⟩ := h.insert ha hdoc hl hi hcb hm htally
    refine ⟨true, _, ?_, hinv, by rw [hts]; rfl, hfind⟩
    simp only [ftsAddNew, ftsDocCreate, ← hadef, StrEnc.ptr_of_sds ht, Exec.ok_bind, hr, hnil,
      ftsDocFreeAll, Exec.pure_eq, if_true, hrun, addLog, List.append_nil]

/-- The reference counts that go with the document an `fts_add` replaces. -/
def replaceLog (old : Option FtsDoc) : List RefOp :=
  match old with
  | none => []
  | some d => [.decr d.title, .decr d.doc]

/-- `fts_add` puts the document under the title, whether there was one or not. -/
theorem ftsAdd_spec {fts : Fts} (h : fts.Inv) (env : FtsEnv) {title doc : StrObj}
    (ht : sdsEncodedObject title.enc = true) (hd : sdsEncodedObject doc.enc = true) :
    ∃ added fts', ftsAdd env fts title doc =
        .ok (added, fts', replaceLog (fts.find title.key) ++ addLog title doc added) ∧
      Added fts fts' title doc added := by
  have hc := dictContains_spec h.docs title.enc.bytes
  change dictContains fts.docs title.enc.bytes = .ok (fts.docs.toMap.lookup title.key).isSome at hc
  have hdel := ftsDel_spec h env ht
  rcases hf : fts.find title.key with _ | d
  · obtain ⟨added, fts', hr, hadd⟩ := ftsAddNew_spec h env ht hd hf
    refine ⟨added, fts', ?_, hadd⟩
    simp [ftsAdd, StrEnc.ptr_of_sds ht, hc, h.find_eq_none.mp hf, hr, replaceLog]
  · rw [hf] at hdel
    obtain ⟨fts₁, hr₁, hinv₁, hfind₁⟩ := hdel
    obtain ⟨added, fts', hr, hadd⟩ := ftsAddNew_spec hinv₁ env ht hd
      (by rw [hfind₁, Function.update_self])
    obtain ⟨a, hl, -, -⟩ := h.find_eq_some hf
    refine ⟨added, fts', ?_, hadd.inv, hadd.added_eq, ?_⟩
    · simp [ftsAdd, StrEnc.ptr_of_sds ht, hc, hl, hr₁, hr, replaceLog]
    · rw [hadd.find_eq, hfind₁, Function.update_idem]

end RhinoRox
