import RhinoRox.Fts
import Mathlib.Algebra.BigOperators.Group.Finset.Basic

/-!
# The invariant of the full text index

The posting list of a term tallies how often the term occurs in each document. Adding
and deleting a document shifts the tally of every term at the address of that document
only, one occurrence at a time.
-/

namespace RhinoRox

open TallyList

/-! ## Posting lists -/

/-- The posting list of a term, empty if there is none. -/
def posting (index : DictT (List IndexItem)) (t : Bytes) : List IndexItem :=
  (index.toMap.lookup t).getD []

/-- A posting list tallies a function on addresses. -/
abbrev PostingTallies : List IndexItem → (ℕ → ℤ) → Prop := Tallies IndexItem.doc IndexItem.tf

theorem postingAdd_tallies {idx : List IndexItem} {c : ℕ → ℤ} (h : PostingTallies idx c) (doc : ℕ) :
    PostingTallies (postingAdd idx doc) (Function.update c doc (c doc + 1)) := by
  unfold postingAdd
  split
  · rename_i i hi
    have hpos : 0 < c doc := by
      refine (h.nonneg doc).lt_of_ne fun h0 => ?_
      rw [listSearchKey, h.find?_eq_none.mpr h0.symm] at hi
      cases hi
    refine h.updateFirst hpos ?_ (by simp)
    rintro x x' rfl hx he
    obtain rfl := Option.some.inj he
    exact ⟨rfl, rfl, by omega⟩
  · rename_i hi
    have h0 : c doc = 0 := h.find?_eq_none.mp hi
    rw [h0]
    exact h.cons (i := ⟨doc, 1⟩) h0 (by simp)

theorem postingDel_tallies {idx : List IndexItem} {c : ℕ → ℤ} (h : PostingTallies idx c) {doc : ℕ}
    (hpos : 0 < c doc) :
    ∃ idx', postingDel idx doc = .ok idx' ∧
      PostingTallies idx' (Function.update c doc (c doc + -1)) := by
  unfold postingDel
  split
  · rename_i hi
    exact absurd (h.find?_eq_none.mp hi) hpos.ne'
  · refine ⟨_, rfl, h.updateFirst hpos ?_ ?_⟩
    · rintro x x' rfl hx he
      split_ifs at he
      obtain rfl := Option.some.inj he
      exact ⟨rfl, rfl, by omega⟩
    · rintro x rfl hx he
      split_ifs at he with h0
      exact h0

/-- The function tallied after `f t` occurrences of each `t` were added at `doc`. -/
def shift (c : Bytes → ℕ → ℤ) (doc : ℕ) (f : Bytes → ℤ) : Bytes → ℕ → ℤ :=
  fun t a => c t a + if a = doc then f t else 0

theorem shift_shift (c : Bytes → ℕ → ℤ) (doc : ℕ) (f g : Bytes → ℤ) :
    shift (shift c doc f) doc g = shift c doc fun t => f t + g t := by
  funext t a
  simp only [shift]
  split <;> ring

@[simp] theorem shift_zero (c : Bytes → ℕ → ℤ) (doc : ℕ) : (shift c doc fun _ => 0) = c := by
  funext t a
  simp [shift]

/-- One occurrence of one term. -/
def single (k : Bytes) (δ : ℤ) : Bytes → ℤ := fun t => if t = k then δ else 0

theorem shift_single_self (c : Bytes → ℕ → ℤ) (doc : ℕ) (k : Bytes) (δ : ℤ) :
    shift c doc (single k δ) k = Function.update (c k) doc (c k doc + δ) := by
  funext a
  by_cases h : a = doc
  · simp [shift, single, h]
  · simp [shift, h]

theorem shift_single_of_ne (c : Bytes → ℕ → ℤ) (doc : ℕ) {k t : Bytes} (δ : ℤ) (h : t ≠ k) :
    shift c doc (single k δ) t = c t := by
  funext a
  simp [shift, single, h]

/-- The index is a dictionary whose posting lists tally `c`. -/
structure IndexTallies (index : DictT (List IndexItem)) (c : Bytes → ℕ → ℤ) : Prop where
  inv : index.Inv
  tally : ∀ t, PostingTallies (posting index t) (c t)

theorem posting_insert {index index' : DictT (List IndexItem)} {k : Bytes} {idx : List IndexItem}
    (h : index'.toMap = index.toMap.insert k idx) (t : Bytes) :
    posting index' t = if t = k then idx else posting index t := by
  rw [posting, h]
  split
  · rename_i he
    rw [he, Finmap.lookup_insert]
    rfl
  · rename_i he
    rw [Finmap.lookup_insert_of_ne _ he]
    rfl

theorem IndexTallies.insert {index index' : DictT (List IndexItem)} {c : Bytes → ℕ → ℤ} {k : Bytes}
    {idx : List IndexItem} {doc : ℕ} {δ : ℤ} (h : IndexTallies index c) (hi : index'.Inv)
    (hm : index'.toMap = index.toMap.insert k idx)
    (ht : PostingTallies idx (Function.update (c k) doc (c k doc + δ))) :
    IndexTallies index' (shift c doc (single k δ)) := by
  refine ⟨hi, fun t => ?_⟩
  rw [posting_insert hm t]
  split
  · rename_i he
    rw [he, shift_single_self]
    exact ht
  · rename_i he
    rw [shift_single_of_ne c doc δ he]
    exact h.tally t

theorem indexAddTerm_spec {index : DictT (List IndexItem)} {c : Bytes → ℕ → ℤ}
    (h : IndexTallies index c) (doc : ℕ) {term : Bytes} (hterm : term ≠ []) :
    ∃ index', indexAddTerm index doc term = .ok index' ∧
      IndexTallies index' (shift c doc (single (cStr term) 1)) := by
  have hlen : term.length ≠ 0 := by simpa using hterm
  have hadd := postingAdd_tallies (h.tally (cStr term)) doc
  rw [posting] at hadd
  rcases hl : index.toMap.lookup (cStr term) with _ | idx
  · obtain ⟨d₁, freed, hr₁, hi₁, hm₁, -, -⟩ := dictSet_spec h.inv term []
    obtain ⟨d₂, hr₂, hi₂, hm₂, -⟩ := dictModify_spec hi₁ (k := term) (w := [])
      (by rw [hm₁, Finmap.lookup_insert]) (postingAdd [] doc)
    rw [hm₁, Finmap.insert_insert] at hm₂
    rw [hl] at hadd
    refine ⟨d₂, ?_, h.insert hi₂ hm₂ hadd⟩
    simp [indexAddTerm, hlen, dictGet_spec h.inv, hl, hr₁, hr₂]
  · obtain ⟨d₂, hr₂, hi₂, hm₂, -⟩ := dictModify_spec h.inv hl (postingAdd idx doc)
    rw [hl] at hadd
    refine ⟨d₂, ?_, h.insert hi₂ hm₂ hadd⟩
    simp [indexAddTerm, hlen, dictGet_spec h.inv, hl, hr₂]

theorem indexDelTerm_spec {index : DictT (List IndexItem)} {c : Bytes → ℕ → ℤ}
    (h : IndexTallies index c) {doc : ℕ} {term : Bytes} (hterm : term ≠ [])
    (hpos : 0 < c (cStr term) doc) :
    ∃ index', indexDelTerm index doc term = .ok index' ∧
      IndexTallies index' (shift c doc (single (cStr term) (-1))) := by
  have hlen : term.length ≠ 0 := by simpa using hterm
  obtain ⟨idx', hr', hdel⟩ := postingDel_tallies (h.tally (cStr term)) hpos
  rw [posting] at hr'
  rcases hl : index.toMap.lookup (cStr term) with _ | idx
  · have hnil := (h.tally (cStr term)).absent doc
    rw [posting, hl] at hnil
    exact absurd (hnil (by simp)) hpos.ne'
  · obtain ⟨d₂, hr₂, hi₂, hm₂, -⟩ := dictModify_spec h.inv hl idx'
    rw [hl] at hr'
    refine ⟨d₂, ?_, h.insert hi₂ hm₂ hdel⟩
    simp [indexDelTerm, hlen, dictGet_spec h.inv, hl, hr₂, show postingDel idx doc = .ok idx' from hr']

/-- How often a key occurs among the terms that are not empty. -/
def occ (terms : List Bytes) (t : Bytes) : ℤ :=
  ((terms.filter fun x => decide (x ≠ [])).map cStr).count t

theorem occ_nonneg (terms : List Bytes) (t : Bytes) : 0 ≤ occ terms t := by
  simp [occ]

@[simp] theorem occ_nil : occ [] = fun _ => 0 := by
  funext t
  simp [occ]

theorem occ_nil_cons (terms : List Bytes) : occ ([] :: terms) = occ terms := by
  funext t
  simp [occ]

theorem occ_cons {term : Bytes} (h : term ≠ []) (terms : List Bytes) (t : Bytes) :
    occ (term :: terms) t = single (cStr term) 1 t + occ terms t := by
  by_cases he : t = cStr term
  · simp [occ, h, single, he, add_comm]
  · simp [occ, h, single, he, Ne.symm he]

theorem indexAddLoop_spec {index : DictT (List IndexItem)} {c : Bytes → ℕ → ℤ}
    (h : IndexTallies index c) (doc : ℕ) (terms : List Bytes) :
    ∃ index', indexAddLoop index doc terms = .ok index' ∧
      IndexTallies index' (shift c doc (occ terms)) := by
  induction terms generalizing index c with
  | nil => exact ⟨index, rfl, by simpa using h⟩
  | cons term terms ih =>
    rw [indexAddLoop]
    by_cases hterm : term = []
    · subst hterm
      rw [occ_nil_cons]
      obtain ⟨d, hr, hd⟩ := ih h
      exact ⟨d, by simpa [indexAddTerm] using hr, hd⟩
    · obtain ⟨d₁, hr₁, hd₁⟩ := indexAddTerm_spec h doc hterm
      obtain ⟨d₂, hr₂, hd₂⟩ := ih hd₁
      rw [shift_shift] at hd₂
      refine ⟨d₂, by simp [hr₁, hr₂], ?_⟩
      rwa [funext (occ_cons hterm terms)]

theorem indexDelLoop_spec {index : DictT (List IndexItem)} {c : Bytes → ℕ → ℤ}
    (h : IndexTallies index c) (doc : ℕ) (terms : List Bytes) (hle : ∀ t, occ terms t ≤ c t doc) :
    ∃ index', indexDelLoop index doc terms = .ok index' ∧
      IndexTallies index' (shift c doc fun t => -occ terms t) := by
  induction terms generalizing index c with
  | nil => exact ⟨index, rfl, by simpa using h⟩
  | cons term terms ih =>
    rw [indexDelLoop]
    by_cases hterm : term = []
    · subst hterm
      rw [occ_nil_cons] at hle ⊢
      obtain ⟨d, hr, hd⟩ := ih h hle
      exact ⟨d, by simpa [indexDelTerm] using hr, hd⟩
    · have hpos : 0 < c (cStr term) doc := by
        have h₁ := hle (cStr term)
        have h₂ := occ_nonneg terms (cStr term)
        rw [occ_cons hterm, single, if_pos rfl] at h₁
        omega
      obtain ⟨d₁, hr₁, hd₁⟩ := indexDelTerm_spec h hterm hpos
      obtain ⟨d₂, hr₂, hd₂⟩ := ih hd₁ fun t => by
        have h₁ := hle t
        rw [occ_cons hterm] at h₁
        simp only [shift, if_true, single] at h₁ ⊢
        split_ifs at h₁ ⊢ <;> omega
      rw [shift_shift] at hd₂
      refine ⟨d₂, by simp [hr₁, hr₂], ?_⟩
      have hneg : (fun t => -occ (term :: terms) t) =
          fun t => single (cStr term) (-1) t + -occ terms t := by
        funext t
        rw [occ_cons hterm]
        simp only [single]
        split_ifs <;> ring
      rwa [hneg]

/-! ## Documents -/

/-- A stored document: string-encoded, short enough to be tokenized, and with the number
of its terms as its length. -/
structure FtsDoc.Indexed (d : FtsDoc) : Prop where
  title : sdsEncodedObject d.title.enc = true
  doc : sdsEncodedObject d.doc.enc = true
  terms : (rawTerms d.doc.enc.bytes).isSome = true
  len : d.len = (termsOf d.doc.enc.bytes).length

/-- The terms of a document under which it is indexed. -/
def FtsDoc.terms (d : FtsDoc) : List Bytes := termsOf d.doc.enc.bytes

/-- The key of a document. -/
def FtsDoc.key (d : FtsDoc) : Bytes := cStr d.title.enc.bytes

theorem occ_rawTerms {s : Bytes} {ts : List Bytes} (h : rawTerms s = some ts) (t : Bytes) :
    occ ts t = (termsOf s).count t := by
  rw [termsOf, h]
  rfl

theorem countP_rawTerms {s : Bytes} {ts : List Bytes} (h : rawTerms s = some ts) :
    (ts.countP fun t => decide (t ≠ [])) = (termsOf s).length := by
  rw [termsOf, h, Option.getD_some, List.length_map, List.countP_eq_length_filter]

namespace Fts

/-- How often a term occurs in the document at an address. -/
def occurrences (mem : Finmap fun _ : ℕ => FtsDoc) (t : Bytes) (a : ℕ) : ℤ :=
  match mem.lookup a with
  | none => 0
  | some d => d.terms.count t

/-- The length of the document at an address. -/
def lenAt (mem : Finmap fun _ : ℕ => FtsDoc) (a : ℕ) : ℤ := ((mem.lookup a).map FtsDoc.len).getD 0

structure Inv (fts : Fts) : Prop where
  docs : fts.docs.Inv
  freeCb : fts.docs.freeCb = true
  index : IndexTallies fts.index (occurrences fts.mem)
  mem_of_docs : ∀ t a, fts.docs.toMap.lookup t = some a → ∃ d, fts.mem.lookup a = some d ∧ d.key = t
  docs_of_mem : ∀ a d, fts.mem.lookup a = some d → fts.docs.toMap.lookup d.key = some a
  indexed : ∀ a d, fts.mem.lookup a = some d → d.Indexed
  len_eq : fts.len = ∑ a ∈ fts.mem.keys, lenAt fts.mem a

/-- The stored document of a title. -/
def find (fts : Fts) (t : Bytes) : Option FtsDoc := (fts.docs.toMap.lookup t).bind fts.mem.lookup

end Fts

theorem ftsCreate_inv : ftsCreate.Inv where
  docs := dictSetFreecb_inv dictCreate_inv
  freeCb := rfl
  index := ⟨dictSetFreecb_inv dictCreate_inv, fun t => ⟨by simp [posting, ftsCreate], by simp [posting, ftsCreate],
    by simp [posting, ftsCreate], by simp [Fts.occurrences, ftsCreate]⟩⟩
  mem_of_docs := by simp [ftsCreate]
  docs_of_mem := by simp [ftsCreate]
  indexed := by simp [ftsCreate]
  len_eq := by simp [ftsCreate]

section Memory
variable (mem : Finmap fun _ : ℕ => FtsDoc)

theorem occurrences_insert {a : ℕ} (h : mem.lookup a = none) (d : FtsDoc) :
    Fts.occurrences (mem.insert a d) = shift (Fts.occurrences mem) a fun t => d.terms.count t := by
  funext t b
  by_cases hb : b = a
  · subst hb
    simp [Fts.occurrences, shift, h]
  · simp [Fts.occurrences, shift, hb, Finmap.lookup_insert_of_ne]

theorem occurrences_erase {a : ℕ} {d : FtsDoc} (h : mem.lookup a = some d) :
    Fts.occurrences (mem.erase a) = shift (Fts.occurrences mem) a fun t => -d.terms.count t := by
  funext t b
  by_cases hb : b = a
  · subst hb
    simp [Fts.occurrences, shift, h]
  · simp [Fts.occurrences, shift, hb, Finmap.lookup_erase_ne]

theorem sum_lenAt_insert {a : ℕ} (h : mem.lookup a = none) (d : FtsDoc) :
    ∑ b ∈ (mem.insert a d).keys, Fts.lenAt (mem.insert a d) b = ∑ b ∈ mem.keys, Fts.lenAt mem b + d.len := by
  have hkeys : (mem.insert a d).keys = insert a mem.keys := by
    ext b
    simp [Finmap.mem_keys, Finmap.mem_insert]
  have hnot : a ∉ mem.keys := by
    rw [Finmap.mem_keys]
    exact Finmap.lookup_eq_none.mp h
  rw [hkeys, Finset.sum_insert hnot, add_comm]
  congr 1
  · refine Finset.sum_congr rfl fun b hb => ?_
    have hne : b ≠ a := fun he => hnot (he ▸ hb)
    rw [Fts.lenAt, Finmap.lookup_insert_of_ne _ hne, Fts.lenAt]
  · simp [Fts.lenAt]

theorem sum_lenAt_erase {a : ℕ} {d : FtsDoc} (h : mem.lookup a = some d) :
    ∑ b ∈ (mem.erase a).keys, Fts.lenAt (mem.erase a) b = ∑ b ∈ mem.keys, Fts.lenAt mem b - d.len := by
  have hins : mem = (mem.erase a).insert a d := by
    apply Finmap.ext_lookup
    intro b
    by_cases hb : b = a
    · subst hb
      rw [h, Finmap.lookup_insert]
    · rw [Finmap.lookup_insert_of_ne _ hb, Finmap.lookup_erase_ne hb]
  have hs := sum_lenAt_insert (mem.erase a) (Finmap.lookup_erase a mem) d
  rw [← hins] at hs
  rw [hs]
  ring

end Memory

end RhinoRox
