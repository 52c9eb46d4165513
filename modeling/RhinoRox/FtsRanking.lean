import RhinoRox.FtsScores
import RhinoRox.MinheapRefinement
import RhinoRox.Numbers
import Mathlib.Data.Nat.Digits.Defs
import Mathlib.Data.Nat.Digits.Lemmas

/-!
# What a search returns

The iterator returns the documents that share a term with the query, each once and best
first, as long as the heap that orders them holds fewer than `2 ^ 31` elements. With more
the narrowing in `array_at` makes the heap follow a `NULL` pointer.
-/

namespace RhinoRox

variable {G : Type}

section Order
variable [LinearOrder G]

theorem ftsCmp_neg {x y : DocScore G} : ftsCmp x y < 0 ↔ y.score < x.score := by
  unfold ftsCmp
  split_ifs with h₁ h₂
  · simpa using h₁
  · simpa using h₂.le
  · simpa using h₁

theorem ftsCmp_pos {x y : DocScore G} : ftsCmp x y > 0 ↔ x.score < y.score := by
  unfold ftsCmp
  split_ifs with h₁ h₂
  · simpa using le_of_lt h₁
  · simpa using h₂
  · simpa using h₂

theorem ftsCmp_nonpos {x y : DocScore G} : ftsCmp x y ≤ 0 ↔ y.score ≤ x.score := by
  rw [← not_lt, ← not_lt, ← ftsCmp_pos, gt_iff_lt]

/-- The comparison of `fts_cmp` is that of scores, inverted. -/
def scoreComparator : Comparator (DocScore G) where
  comp := ftsCmp
  swap x y := by rw [ftsCmp_neg, ftsCmp_pos]
  trans x y z hxy hyz := by
    rw [ftsCmp_nonpos] at *
    exact hyz.trans hxy

end Order

section Heap
variable {c : Comparator (DocScore G)} {heap : Minheap (DocScore G)}

theorem pushAll_spec (hi : heap.Inv c) (xs : List (DocScore G)) (hs : heap.len + xs.length < 2 ^ 31) :
    ∃ heap', pushAll heap xs = .ok heap' ∧ heap'.Inv c ∧
      heap'.toMultiset = (xs : Multiset (DocScore G)) + heap.toMultiset := by
  induction xs generalizing heap with
  | nil => exact ⟨heap, rfl, hi, by simp⟩
  | cons x xs ih =>
    rw [List.length_cons] at hs
    obtain ⟨h₁, hr₁, hi₁, hl₁, hm₁, -⟩ := minheapPush_spec hi (by omega) x
    obtain ⟨h₂, hr₂, hi₂, hm₂⟩ := ih hi₁ (by omega)
    refine ⟨h₂, by simp [pushAll, hr₁, hr₂], hi₂, ?_⟩
    rw [hm₂, hm₁, ← Multiset.cons_coe, Multiset.cons_add, Multiset.add_cons]

/-- A heap that never lost an element fails when it gets its `2 ^ 31`st. -/
theorem pushAll_overflow (hi : heap.Inv c) (hfull : heap.len = heap.array.nelm) (xs : List (DocScore G))
    (hs : 2 ^ 31 ≤ heap.len + xs.length) : pushAll heap xs = .error .nullPointer := by
  have hsmall := hi.array.small
  induction xs generalizing heap with
  | nil =>
    rw [List.length_nil] at hs
    omega
  | cons x xs ih =>
    rw [List.length_cons] at hs
    by_cases hn : heap.len + 1 = 2 ^ 31
    · simp [pushAll, minheapPush_overflow hi.shaped hfull hn x]
    · obtain ⟨h₁, hr₁, hi₁, hl₁, -, hnelm⟩ := minheapPush_spec hi (by omega) x
      have hrest := ih hi₁ (by omega) (by omega) hi₁.array.small
      simp [pushAll, hr₁, hrest]

theorem ftsIterRun_eq_drain (hi : heap.Inv c) {n : ℕ} (hn : heap.len ≤ n) :
    ftsIterRun n heap = drain heap (n + 1) := by
  induction n generalizing heap with
  | zero =>
    have h0 : heap.len = 0 := by omega
    simp [ftsIterRun, ftsIterHasnext, minheapLen, h0, drain, minheapPop_empty h0]
  | succ n ih =>
    rcases Nat.eq_zero_or_pos heap.len with h0 | hpos
    · simp [ftsIterRun, ftsIterHasnext, minheapLen, h0, drain, minheapPop_empty h0]
    · obtain ⟨x, heap', hr, hi', hl, -⟩ := minheapPop_spec hi hpos
      have hdrain : drain heap (n + 1 + 1) = drain heap' (n + 1) >>= fun xs => pure (x :: xs) := by
        conv_lhs => rw [drain]
        simp only [hr, Exec.ok_bind]
      rw [hdrain, ← ih hi' (by omega)]
      simp only [ftsIterRun, ftsIterHasnext, minheapLen, gt_iff_lt, hpos, decide_true, if_true, ftsIterNext,
        hr, Exec.ok_bind]

end Heap

/-! ## The documents found -/

/-- The terms of the document at an address. -/
def Fts.termsAt (fts : Fts) (a : ℕ) : List Bytes := ((fts.mem.lookup a).map FtsDoc.terms).getD []

/-- The addresses of the documents that share a term with a query. -/
def matching (fts : Fts) (q : Bytes) : Finset ℕ :=
  fts.mem.keys.filter fun a => (termsOf q).any fun t => (fts.termsAt a).contains t

theorem mem_matching {fts : Fts} {q : Bytes} {a : ℕ} :
    a ∈ matching fts q ↔ a ∈ fts.mem ∧ ∃ t ∈ termsOf q, t ∈ fts.termsAt a := by
  simp [matching, Finmap.mem_keys]

section Found
variable [AddCommGroup G] {bm25 : Bm25 G} {fts : Fts}

theorem scoreAt_eq_some {q : Bytes} {a : ℕ} {x : DocScore G} :
    scoreAt bm25 fts (termsOf q).toFinset a = some x ↔
      ∃ d, fts.mem.lookup a = some d ∧ (∃ t ∈ termsOf q, t ∈ d.terms) ∧
        x = ⟨a, scoreOf bm25 fts (termsOf q).toFinset d⟩ := by
  unfold scoreAt
  have hne (d : FtsDoc) :
      ((termsOf q).toFinset.filter (· ∈ d.terms)).Nonempty ↔ ∃ t ∈ termsOf q, t ∈ d.terms := by
    simp [Finset.Nonempty]
  rcases fts.mem.lookup a with _ | d
  · simp
  · dsimp only
    split_ifs with h
    · simp [(hne d).mp h, eq_comm]
    · simp only [Option.some.injEq, exists_eq_left', false_iff, not_and]
      exact fun hex => absurd ((hne d).mpr hex) h

variable {scores : DictT (DocScore G)} {q : Bytes}

theorem ScoresAre.mem_values (hs : ScoresAre fts scores (scoreAt bm25 fts (termsOf q).toFinset))
    (x : DocScore G) :
    x ∈ scores.entries.map Prod.snd ↔
      ∃ title d, fts.docs.toMap.lookup title = some x.doc ∧ fts.mem.lookup x.doc = some d ∧
        (∃ t ∈ termsOf q, t ∈ d.terms) ∧ x.score = scoreOf bm25 fts (termsOf q).toFinset d := by
  rw [List.mem_map]
  constructor
  · rintro ⟨⟨title, x⟩, hmem, rfl⟩
    have hl := hs.inv.lookup_iff.mpr hmem
    rw [hs.lookup, Option.bind_eq_some_iff] at hl
    obtain ⟨a, ha, hx⟩ := hl
    obtain ⟨d, hd, hshare, rfl⟩ := scoreAt_eq_some.mp hx
    exact ⟨title, d, ha, hd, hshare, rfl⟩
  · rintro ⟨title, d, ha, hd, hshare, hscore⟩
    refine ⟨(title, x), hs.inv.lookup_iff.mp ?_, rfl⟩
    rw [hs.lookup, ha, Option.bind_some]
    refine scoreAt_eq_some.mpr ⟨d, hd, hshare, ?_⟩
    rw [← hscore]

theorem ScoresAre.values_nodup (h : fts.Inv)
    (hs : ScoresAre fts scores (scoreAt bm25 fts (termsOf q).toFinset)) :
    ((scores.entries.map Prod.snd).map DocScore.doc).Nodup := by
  rw [List.map_map]
  refine List.Nodup.map_on ?_ (List.Nodup.of_map _ hs.inv.nodup)
  rintro ⟨k, x⟩ hx ⟨k', x'⟩ hx' he
  have hdoc : ∀ {k x}, (k, x) ∈ scores.entries → fts.docs.toMap.lookup k = some x.doc := by
    intro k x hmem
    have hl := hs.inv.lookup_iff.mpr hmem
    rw [hs.lookup, Option.bind_eq_some_iff] at hl
    obtain ⟨a, ha, hxa⟩ := hl
    rw [scoreAt_doc hxa, ha]
  have hkk : k = k' := by
    refine h.docs_injective (hdoc hx) ?_
    rw [show x.doc = x'.doc from he]
    exact hdoc hx'
  subst hkk
  have hl := hs.inv.lookup_iff.mpr hx
  rw [hs.inv.lookup_iff.mpr hx'] at hl
  rw [Option.some.inj hl]

theorem ScoresAre.size_eq (h : fts.Inv)
    (hs : ScoresAre fts scores (scoreAt bm25 fts (termsOf q).toFinset)) :
    scores.size = (matching fts q).card := by
  have hset : ((scores.entries.map Prod.snd).map DocScore.doc).toFinset = matching fts q := by
    ext a
    rw [List.mem_toFinset, List.mem_map, mem_matching, Finmap.mem_iff]
    constructor
    · rintro ⟨x, hx, rfl⟩
      obtain ⟨title, d, -, hd, hshare, -⟩ := (hs.mem_values x).mp hx
      exact ⟨⟨d, hd⟩, by rw [Fts.termsAt, hd]; exact hshare⟩
    · rintro ⟨⟨d, hd⟩, hshare⟩
      rw [Fts.termsAt, hd] at hshare
      exact ⟨⟨a, scoreOf bm25 fts (termsOf q).toFinset d⟩,
        (hs.mem_values _).mpr ⟨d.key, d, h.docs_of_mem a d hd, hd, hshare, rfl⟩, rfl⟩
  rw [← hset, List.toFinset_card_of_nodup (hs.values_nodup h), List.length_map, List.length_map,
    hs.inv.size_eq]

end Found

section Ranking
variable [AddCommGroup G] [LinearOrder G] (bm25 : Bm25 G) (fts : Fts)

/-- The answer to a query: its size and the documents in the order of the iterator. -/
structure Ranked (q : Bytes) (size : ℕ) (xs : List (DocScore G)) : Prop where
  size_eq : size = xs.length
  once : (xs.map DocScore.doc).Nodup
  mem_iff : ∀ x, x ∈ xs ↔
    ∃ title d, fts.docs.toMap.lookup title = some x.doc ∧ fts.mem.lookup x.doc = some d ∧
      (∃ t ∈ termsOf q, t ∈ d.terms) ∧ x.score = scoreOf bm25 fts (termsOf q).toFinset d
  order : xs.Pairwise fun x y => y.score ≤ x.score

/-- The search and the iterator run to exhaustion return the ranked answer. -/
def SearchRanked (env : FtsEnv) (query : StrObj) : Prop :=
  ∃ size it xs, ftsSearch bm25 fts env query = .ok (size, it) ∧ ftsIterAll it = .ok xs ∧
    Ranked bm25 fts query.enc.bytes size xs

variable {bm25 fts}

theorem ScoresAre.ranked (h : fts.Inv) {scores : DictT (DocScore G)} {q : Bytes}
    (hs : ScoresAre fts scores (scoreAt bm25 fts (termsOf q).toFinset)) {xs : List (DocScore G)}
    (hperm : xs.Perm (scores.entries.map Prod.snd)) (hord : xs.Pairwise fun x y => ftsCmp x y ≤ 0) :
    Ranked bm25 fts q scores.size xs where
  size_eq := by rw [hs.inv.size_eq, hperm.length_eq, List.length_map]
  once := (hperm.map DocScore.doc).nodup_iff.mpr (hs.values_nodup h)
  mem_iff x := hperm.mem_iff.trans (hs.mem_values x)
  order := hord.imp ftsCmp_nonpos.mp

theorem Fts.Inv.searchRanked (h : fts.Inv) (bm25 : Bm25 G) (env : FtsEnv) {query : StrObj}
    (hq : sdsEncodedObject query.enc = true) (hsmall : (matching fts query.enc.bytes).card < 2 ^ 31) :
    SearchRanked bm25 fts env query := by
  obtain ⟨scores, hr, hs⟩ := searchWithBm25Score_spec bm25 h env hq
  obtain ⟨it, hit, hall⟩ := dictIterCreate_spec hs.inv
  have hlen : (scores.entries.map Prod.snd).length = (matching fts query.enc.bytes).card := by
    rw [List.length_map, ← hs.size_eq h, hs.inv.size_eq]
  have hzero : (minheapCreate scores.size (scoreComparator (G := G)).comp).len = 0 := rfl
  obtain ⟨heap, hpush, hi, hm⟩ := pushAll_spec (minheapCreate_inv (scoreComparator (G := G)) scores.size)
    (scores.entries.map Prod.snd) (by omega)
  rw [minheapCreate_toMultiset, Multiset.add_zero] at hm
  obtain ⟨xs, hdrain, hmx, hord⟩ := drain_spec hi (Nat.lt_succ_self heap.len)
  refine ⟨scores.size, heap, xs, ?_, ?_, ?_⟩
  · simp only [ftsSearch, hr, Exec.ok_bind, hit, hall, dictLength]
    rw [show pushAll (minheapCreate scores.size ftsCmp) (scores.entries.map Prod.snd) = .ok heap from hpush]
    rfl
  · rw [ftsIterAll, minheapLen, ftsIterRun_eq_drain hi le_rfl]
    exact hdrain
  · refine hs.ranked h (Multiset.coe_eq_coe.mp (hmx.trans hm)) ?_
    exact hord.imp Comparator.not_below.mp

theorem Fts.Inv.ftsSearch_overflow (h : fts.Inv) (bm25 : Bm25 G) (env : FtsEnv) {query : StrObj}
    (hq : sdsEncodedObject query.enc = true) (hbig : 2 ^ 31 ≤ (matching fts query.enc.bytes).card) :
    ftsSearch bm25 fts env query = .error .nullPointer := by
  obtain ⟨scores, hr, hs⟩ := searchWithBm25Score_spec bm25 h env hq
  obtain ⟨it, hit, hall⟩ := dictIterCreate_spec hs.inv
  have hlen : (scores.entries.map Prod.snd).length = (matching fts query.enc.bytes).card := by
    rw [List.length_map, ← hs.size_eq h, hs.inv.size_eq]
  have hzero : (minheapCreate scores.size (scoreComparator (G := G)).comp).len = 0 := rfl
  have hover := pushAll_overflow (minheapCreate_inv (scoreComparator (G := G)) scores.size) rfl
    (scores.entries.map Prod.snd) (by omega)
  simp only [ftsSearch, hr, Exec.ok_bind, hit, hall, dictLength]
  rw [show pushAll (minheapCreate scores.size ftsCmp) (scores.entries.map Prod.snd) =
    .error .nullPointer from hover, Exec.error_bind]

theorem Fts.Inv.not_searchRanked (h : fts.Inv) (bm25 : Bm25 G) (env : FtsEnv) {query : StrObj}
    (hq : sdsEncodedObject query.enc = true) (hbig : 2 ^ 31 ≤ (matching fts query.enc.bytes).card) :
    ¬ SearchRanked bm25 fts env query := by
  rintro ⟨size, heap, xs, hsearch, -, -⟩
  rw [h.ftsSearch_overflow bm25 env hq hbig] at hsearch
  cases hsearch

/-- `fts_search` returns the ranked answer exactly when fewer than `2 ^ 31` documents
share a term with the query. -/
theorem fts_search_ranked {fts : Fts} (h : FtsReachable fts) (bm25 : Bm25 G) (env : FtsEnv) (query : StrObj)
    (hq : sdsEncodedObject query.enc = true) :
    SearchRanked bm25 fts env query ↔ (matching fts query.enc.bytes).card < 2 ^ 31 := by
  constructor
  · intro hr
    by_contra hbig
    exact h.inv.not_searchRanked bm25 env hq (not_lt.mp hbig) hr
  · exact h.inv.searchRanked bm25 env hq

end Ranking

/-! ## Many documents that match -/

def numberedTitle (i : ℕ) : Bytes := letter 't' :: (Nat.digits 10 i).map digitChar

theorem numberedTitle_injective : Function.Injective numberedTitle := by
  intro i j h
  have hmap : (Nat.digits 10 i).map digitChar = (Nat.digits 10 j).map digitChar := List.tail_eq_of_cons_eq h
  have hback (n : ℕ) : ((Nat.digits 10 n).map digitChar).map (fun c => c.toNat - 48) = Nat.digits 10 n := by
    rw [List.map_map]
    conv_rhs => rw [← List.map_id (Nat.digits 10 n)]
    refine List.map_congr_left fun d hd => ?_
    have hd10 : d < 10 := Nat.digits_lt_base (by omega) hd
    interval_cases d <;> rfl
  rw [← Nat.digits_inj_iff (b := 10), ← hback i, hmap, hback j]

theorem cStr_numberedTitle (i : ℕ) : cStr (numberedTitle i) = numberedTitle i := by
  refine cStr_of_notMem fun h => ?_
  rcases List.mem_cons.mp h with h | h
  · exact absurd h (by decide)
  · obtain ⟨d, hd, he⟩ := List.mem_map.mp h
    exact digitChar_ne_zero (Nat.digits_lt_base (by omega) hd) he

/-- Any number of documents with the same text can be added. -/
theorem exists_numbered (n : ℕ) :
    ∃ fts, FtsReachable fts ∧
      ∀ i < n, ∃ d, fts.find (numberedTitle i) = some d ∧ ascii "cat" ∈ d.terms := by
  induction n with
  | zero => exact ⟨ftsCreate, .create, by simp⟩
  | succ n ih =>
    obtain ⟨fts, hreach, hfind⟩ := ih
    let title : StrObj := ⟨0, .raw (numberedTitle n)⟩
    let doc : StrObj := ⟨1, .embstr (ascii "cats")⟩
    have hsplit : (rawTerms doc.enc.bytes).isSome = true := rawTerms_isSome (by decide)
    have ht : sdsEncodedObject title.enc = true := rfl
    have hd : sdsEncodedObject doc.enc = true := rfl
    obtain ⟨added, fts', hr, hadd⟩ := ftsAdd_spec hreach.inv bumpEnv ht hd
    refine ⟨fts', .add hreach bumpEnv title doc ht hd hr, fun i hi => ?_⟩
    rw [hadd.find_eq, hadd.added_eq, hsplit, show title.key = numberedTitle n from cStr_numberedTitle n]
    by_cases hin : numberedTitle i = numberedTitle n
    · rw [hin, Function.update_self]
      refine ⟨_, rfl, ?_⟩
      change ascii "cat" ∈ termsOf (ascii "cats")
      rw [termsOf_cats]
      simp
    · rw [Function.update_of_ne hin]
      refine hfind i ?_
      have hne : i ≠ n := fun he => hin (by rw [he])
      omega

theorem le_card_matching {fts : Fts} (h : fts.Inv) {n : ℕ}
    (hfind : ∀ i < n, ∃ d, fts.find (numberedTitle i) = some d ∧ ascii "cat" ∈ d.terms) :
    n ≤ (matching fts (ascii "cats")).card := by
  have haddr : ∀ i < n, ∃ a d, fts.docs.toMap.lookup (numberedTitle i) = some a ∧
      fts.mem.lookup a = some d ∧ ascii "cat" ∈ d.terms := by
    intro i hi
    obtain ⟨d, hd, hmem⟩ := hfind i hi
    obtain ⟨a, hl, hm, -⟩ := h.find_eq_some hd
    exact ⟨a, d, hl, hm, hmem⟩
  rw [← Finset.card_range n]
  refine Finset.card_le_card_of_injOn (fun i => (fts.docs.toMap.lookup (numberedTitle i)).getD 0) ?_ ?_
  · intro i hi
    obtain ⟨a, d, hl, hm, hmem⟩ := haddr i (by simpa using hi)
    simp only [hl, Option.getD_some, Finset.mem_coe, mem_matching, Finmap.mem_iff]
    refine ⟨⟨d, hm⟩, ascii "cat", by rw [termsOf_cats]; simp, ?_⟩
    rw [Fts.termsAt, hm]
    exact hmem
  · intro i hi j hj he
    obtain ⟨a, d, hl, -, -⟩ := haddr i (by simpa using hi)
    obtain ⟨b, e, hl', -, -⟩ := haddr j (by simpa using hj)
    simp only [hl, hl', Option.getD_some] at he
    exact numberedTitle_injective (h.docs_injective hl (he ▸ hl'))

theorem fts_search_ranked_one_document :
    ∃ fts, FtsReachable fts ∧ 1 ≤ (matching fts (ascii "cats")).card ∧
      (SearchRanked (fun tf _ _ _ _ => tf) fts bumpEnv ⟨0, .embstr (ascii "cats")⟩ ↔
        (matching fts (ascii "cats")).card < 2 ^ 31) := by
  obtain ⟨fts, hreach, hfind⟩ := exists_numbered 1
  exact ⟨fts, hreach, le_card_matching hreach.inv hfind, fts_search_ranked hreach _ bumpEnv _ rfl⟩

/-- With `2 ^ 31` documents of the same text there is no answer. -/
theorem fts_search_too_many_documents :
    ∃ fts, FtsReachable fts ∧
      ¬ SearchRanked (fun tf _ _ _ _ => tf) fts bumpEnv ⟨0, .embstr (ascii "cats")⟩ := by
  obtain ⟨fts, hreach, hfind⟩ := exists_numbered (2 ^ 31)
  exact ⟨fts, hreach, hreach.inv.not_searchRanked _ bumpEnv rfl (le_card_matching hreach.inv hfind)⟩

end RhinoRox
