import RhinoRox.Sds
import RhinoRox.Stopwords
import RhinoRox.StemmerBounds

/-!
# Tokenizing a text

`sdssplitlen` and `sdstrim` of `sds.c` and `sds_tokenize` of `rr_fts.c`. The contents of
the stemmer that `create_stemmer` allocates are arbitrary, and every word is stemmed with
what the words before it left there.
-/

namespace RhinoRox

/-- The loop of `sdssplitlen` for a separator of one byte; `token` are the bytes from
`start` on. -/
def splitLoop (sep : UInt8) (token : Bytes) : Bytes → List Bytes
  | [] => [token]
  | c :: s => if c = sep then token :: splitLoop sep [] s else splitLoop sep (token ++ [c]) s

/-- `sdssplitlen(s, len, sep, 1, &count)`; `none` when it returns `NULL`. -/
def sdssplitlen (s : Bytes) (len : ℤ) (sep : UInt8) : Option (List Bytes) :=
  if len < 0 then none
  else if len = 0 then some []
  else some (splitLoop sep [] (s.take len.toNat))

/-- `strchr(cset, c) != NULL`; the terminator is found too. -/
def inCset (cset : Bytes) (c : UInt8) : Bool := c = 0 || cset.contains c

def sdstrim (s cset : Bytes) : Bytes :=
  ((s.dropWhile (inCset cset)).reverse.dropWhile (inCset cset)).reverse

def puncs : Bytes := ascii ",.:;?!"

/-- One pass of the loop of `sds_tokenize`: the term, empty for a stop word, the stemmer,
and whether the word counts. -/
def tokenizeWord (z : Stemmer) (word : Bytes) : Exec (Bytes × Stemmer × Bool) := do
  let term := sdstolower (sdstrim word puncs)
  if term.length = 0 then pure ([], z, false)
  else
    let stop ← rrStopwordsCheck term
    if stop then pure ([], z, false)
    else
      let (k, term', z') := stem z term (term.length - 1)
      pure (if k < term.length - 1 then term'.take (k + 1).toNat else term', z', true)

def tokenizeLoop (z : Stemmer) (nonstopwords : ℕ) : List Bytes → Exec (List Bytes × ℕ)
  | [] => pure ([], nonstopwords)
  | word :: words => do
    let (term, z', counts) ← tokenizeWord z word
    let (terms, n) ← tokenizeLoop z' (if counts then nonstopwords + 1 else nonstopwords) words
    pure (term :: terms, n)

/-- The text split at spaces. Its length is passed as an `int`. -/
def splitWords (s : Bytes) : Option (List Bytes) := sdssplitlen s (toInt32 s.length) 32

/-- The terms of the words, and how many words are not stop words; `none` stands for `NULL`. -/
def tokenizeWords (z : Stemmer) : Option (List Bytes) → Exec (Option (List Bytes × ℕ))
  | none => pure none
  | some words => do
    let r ← tokenizeLoop z 0 words
    pure (some r)

def sdsTokenize (z : Stemmer) (s : Bytes) : Exec (Option (List Bytes × ℕ)) :=
  tokenizeWords z (splitWords s)

/-! ## Terms of a text -/

/-- The stem of a lower-case word. -/
def stemmed (w : Bytes) : Bytes :=
  let r := stem ⟨[], 0, 0⟩ w (w.length - 1)
  if r.1 < w.length - 1 then r.2.1.take (r.1 + 1).toNat else r.2.1

/-- The term that a word stands for, empty if none. -/
def termOf (word : Bytes) : Bytes :=
  let w := sdstolower (sdstrim word puncs)
  if w = [] ∨ isStopword w then [] else stemmed w

/-- The terms of a text that is short enough to be split, empty ones included. -/
def rawTerms (s : Bytes) : Option (List Bytes) :=
  (splitWords s).map fun words => words.map termOf

theorem stemmed_ne_nil {w : Bytes} (h : w ≠ []) : stemmed w ≠ [] := by
  have hpos : 0 < w.length := List.length_pos_iff.mpr h
  obtain ⟨h0, hle, hlen⟩ := stem_within ⟨[], 0, 0⟩ (b := w) (k := w.length - 1) (by omega) (by omega)
  rw [← List.length_pos_iff, stemmed]
  split
  · rw [List.length_take, hlen]
    omega
  · omega

theorem termOf_eq_nil {word : Bytes} :
    termOf word = [] ↔
      sdstolower (sdstrim word puncs) = [] ∨ isStopword (sdstolower (sdstrim word puncs)) = true := by
  unfold termOf
  dsimp only
  split
  · simpa
  · rename_i h
    simpa only [iff_false_right h] using stemmed_ne_nil fun hn => h (Or.inl hn)

theorem tokenizeWord_spec (z : Stemmer) (word : Bytes) :
    ∃ z', tokenizeWord z word = .ok (termOf word, z', decide (termOf word ≠ [])) := by
  set w := sdstolower (sdstrim word puncs) with hw
  simp only [tokenizeWord, ← hw, rrStopwordsCheck_spec]
  by_cases h0 : w = []
  · have ht : termOf word = [] := termOf_eq_nil.mpr (Or.inl h0)
    exact ⟨z, by simp [h0, ht]⟩
  · have hlen : w.length ≠ 0 := by simpa using h0
    by_cases hs : isStopword w = true
    · have ht : termOf word = [] := termOf_eq_nil.mpr (Or.inr hs)
      exact ⟨z, by simp [h0, hs, ht]⟩
    · have ht : termOf word = stemmed w := by simp [termOf, ← hw, h0, hs]
      have hne : termOf word ≠ [] := ht ▸ stemmed_ne_nil h0
      obtain ⟨hk, hb⟩ := stem_congr z ⟨[], 0, 0⟩ w (w.length - 1)
      refine ⟨(stem z w (w.length - 1)).2.2, ?_⟩
      simp only [hlen, if_false, Exec.ok_bind, hs, Exec.pure_eq, hne, ne_eq, not_false_eq_true,
        decide_true]
      rw [ht, stemmed, hk, hb]
      rfl

theorem tokenizeLoop_spec (z : Stemmer) (n : ℕ) (words : List Bytes) :
    tokenizeLoop z n words =
      .ok (words.map termOf, n + (words.map termOf).countP fun t => decide (t ≠ [])) := by
  induction words generalizing z n with
  | nil => rfl
  | cons word words ih =>
    obtain ⟨z', hr⟩ := tokenizeWord_spec z word
    simp only [tokenizeLoop, hr, Exec.ok_bind, ih, Exec.pure_eq, List.map_cons, List.countP_cons]
    by_cases h : termOf word = []
    · simp [h]
    · simp only [h, ne_eq, not_false_eq_true, decide_true, if_true]
      rw [Nat.add_right_comm, Nat.add_assoc n]

/-- The result is the same whatever the stemmer holds. -/
theorem sdsTokenize_spec (z : Stemmer) (s : Bytes) :
    sdsTokenize z s =
      .ok ((rawTerms s).map fun ts => (ts, ts.countP fun t => decide (t ≠ []))) := by
  rw [sdsTokenize, rawTerms]
  generalize splitWords s = r
  cases r with
  | none => rfl
  | some words => simp [tokenizeWords, tokenizeLoop_spec]

theorem rawTerms_isSome {s : Bytes} (h : s.length < 2 ^ 31) : (rawTerms s).isSome = true := by
  rw [rawTerms, splitWords, toInt32_of_lt (by omega) (by omega), sdssplitlen, if_neg (by omega)]
  split <;> rfl

/-- The terms of a text under which documents are indexed: those that are not empty, up
to their first NUL. -/
def termsOf (s : Bytes) : List Bytes :=
  (((rawTerms s).getD []).filter fun t => decide (t ≠ [])).map cStr

theorem termsOf_cats : termsOf (ascii "cats") = [ascii "cat"] := by decide +kernel

/-! ## The pieces of a text -/

theorem splitLoop_eq (sep : UInt8) (token s : Bytes) :
    splitLoop sep token s = (s.splitOn sep).modifyHead (token ++ ·) := by
  fun_induction splitLoop sep token s with
  | case1 token => simp
  | case2 token s ih =>
    rw [ih, List.splitOn_cons_eq_if_modifyHead, if_pos (by simp)]
    cases s.splitOn sep <;> simp
  | case3 token c s hc ih =>
    rw [ih, List.splitOn_cons_eq_if_modifyHead, if_neg (by simpa using hc), List.modifyHead_modifyHead]
    congr 1
    funext p
    simp

theorem splitLoop_nil (sep : UInt8) (s : Bytes) : splitLoop sep [] s = s.splitOn sep := by
  rw [splitLoop_eq]
  cases s.splitOn sep <;> rfl

/-- A piece holds no separator and is a part of the text. -/
theorem splitLoop_pieces {sep : UInt8} {token s p : Bytes} (hp : p ∈ splitLoop sep token s)
    (ht : sep ∉ token) : sep ∉ p ∧ p <:+: token ++ s := by
  fun_induction splitLoop sep token s with
  | case1 token =>
    obtain rfl : p = token := by simpa using hp
    exact ⟨ht, by simp⟩
  | case2 token s ih =>
    rcases List.mem_cons.mp hp with rfl | hp
    · exact ⟨ht, (List.prefix_append p _).isInfix⟩
    · obtain ⟨hn, hi⟩ := ih hp (by simp)
      exact ⟨hn, hi.trans ⟨token ++ [sep], [], by simp⟩⟩
  | case3 token c s hc ih =>
    obtain ⟨hn, hi⟩ := ih hp (by simpa [ht] using Ne.symm hc)
    exact ⟨hn, by simpa using hi⟩

theorem splitOn_pieces {sep : UInt8} {s p : Bytes} (hp : p ∈ s.splitOn sep) :
    sep ∉ p ∧ p <:+: s := by
  rw [← splitLoop_nil] at hp
  simpa using splitLoop_pieces hp (by simp)

theorem rawTerms_eq {s : Bytes} (hl : s.length < 2 ^ 31) :
    rawTerms s = some (if s = [] then [] else (s.splitOn 32).map termOf) := by
  rw [rawTerms, splitWords, toInt32_of_lt (by omega) (by omega), sdssplitlen, if_neg (by omega)]
  by_cases h0 : s = []
  · simp [h0]
  · have hlen : ¬ (s.length : ℤ) = 0 := by simpa using h0
    rw [if_neg hlen, if_neg h0, splitLoop_nil]
    simp

/-- The non-empty terms that `sds_tokenize` produces, with `z` in the stemmer's memory. -/
def producedTerms (z : Stemmer) (s : Bytes) : List Bytes :=
  match sdsTokenize z s with
  | .ok (some (terms, _)) => terms.filter fun t => decide (t ≠ [])
  | _ => []

theorem producedTerms_eq (z : Stemmer) {s : Bytes} (hl : s.length < 2 ^ 31) :
    producedTerms z s = ((s.splitOn 32).map termOf).filter fun t => decide (t ≠ []) := by
  have ht : termOf [] = [] := termOf_eq_nil.mpr (Or.inl rfl)
  rw [producedTerms, sdsTokenize_spec, rawTerms_eq hl]
  by_cases h0 : s = []
  · simp [h0, ht]
  · simp [h0]

theorem producedTerms_piece (z : Stemmer) {p : Bytes} (hs : 32 ∉ p) (hl : p.length < 2 ^ 31) :
    producedTerms z p = if termOf p = [] then [] else [termOf p] := by
  rw [producedTerms_eq z hl, List.splitOn_eq_singleton hs]
  by_cases ht : termOf p = []
  · simp [ht]
  · simp [ht]

theorem stemmed_length_le (w : Bytes) : (stemmed w).length ≤ w.length := by
  by_cases h : w = []
  · subst h
    decide
  have hpos : 0 < w.length := List.length_pos_iff.mpr h
  obtain ⟨-, -, hlen⟩ := stem_within ⟨[], 0, 0⟩ (b := w) (k := w.length - 1) (by omega) (by omega)
  rw [stemmed]
  split
  · rw [List.length_take, hlen]
    omega
  · omega

theorem termOf_length_le (p : Bytes) : (termOf p).length ≤ (sdstolower (sdstrim p puncs)).length := by
  rw [termOf]
  split
  · simp
  · exact stemmed_length_le _

theorem zero_notMem_kept {p : Bytes} (h : 0 ∉ p) : 0 ∉ sdstolower (sdstrim p puncs) := by
  have hsub : ∀ b ∈ sdstrim p puncs, b ∈ p := by
    intro b hb
    have h₁ := List.mem_reverse.mp hb
    have h₂ := List.mem_reverse.mp ((List.dropWhile_suffix _).subset h₁)
    exact (List.dropWhile_suffix _).subset h₂
  intro hz
  obtain ⟨b, hb, he⟩ := List.mem_map.mp hz
  exact h (tolower_eq_zero.mp he ▸ hsub b hb)

/-- A text is tokenized piece by piece: a piece has the same term in every text and whatever the
stemmer holds, none exactly when it is all punctuation or a stop word, and `nonstopwords` counts
the terms. -/
theorem tokenize_piecewise (z : Stemmer) {s : Bytes} (h0 : 0 ∉ s) (hl : s.length < 2 ^ 31) :
    (∃ terms, sdsTokenize z s = .ok (some (terms, (producedTerms z s).length))) ∧
    producedTerms z s = (s.splitOn 32).flatMap (producedTerms z) ∧
    ∀ p ∈ s.splitOn 32,
      (∀ z', producedTerms z' p = producedTerms z p) ∧
      (producedTerms z p = [] ↔ sdstrim p puncs = [] ∨
        sdstolower (sdstrim p puncs) ∈ stopwords.map ascii) ∧
      (producedTerms z p ≠ [] →
        ∃ t, producedTerms z p = [t] ∧ t ≠ [] ∧ t.length ≤ (sdstrim p puncs).length) := by
  have hpiece : ∀ p ∈ s.splitOn 32, ∀ z', producedTerms z' p = if termOf p = [] then [] else [termOf p] := by
    intro p hp z'
    obtain ⟨hn, hi⟩ := splitOn_pieces hp
    exact producedTerms_piece z' hn (hi.length_le.trans_lt hl)
  refine ⟨?_, ?_, fun p hp => ⟨fun z' => ?_, ?_, fun hne => ?_⟩⟩
  · refine ⟨if s = [] then [] else (s.splitOn 32).map termOf, ?_⟩
    rw [producedTerms, sdsTokenize_spec, rawTerms_eq hl]
    simp [List.countP_eq_length_filter]
  · rw [producedTerms_eq z hl]
    generalize s.splitOn 32 = ps at hpiece
    induction ps with
    | nil => rfl
    | cons p ps ih =>
      rw [List.flatMap_cons, hpiece p (by simp), ← ih fun q hq => hpiece q (by simp [hq])]
      by_cases ht : termOf p = []
      · simp [ht]
      · simp [ht]
  · rw [hpiece p hp, hpiece p hp]
  · have hz : 0 ∉ p := fun hz => h0 ((splitOn_pieces hp).2.subset hz)
    have hw : (stopwords.map fun w => cStr (ascii w)) = stopwords.map ascii := by decide +kernel
    have hl : sdstolower (sdstrim p puncs) = [] ↔ sdstrim p puncs = [] := List.map_eq_nil_iff
    have ht : termOf p = [] ↔ _ := termOf_eq_nil
    rw [isStopword, cStr_of_notMem (zero_notMem_kept hz), hw, List.contains_iff_mem, hl] at ht
    rw [← ht, hpiece p hp]
    split
    · simpa
    · simpa
  · rw [hpiece p hp] at hne ⊢
    split at hne
    · exact absurd rfl hne
    · rename_i ht
      rw [if_neg ht]
      exact ⟨_, rfl, ht, by simpa [sdstolower] using termOf_length_le p⟩

theorem tokenize_piecewise_the_cats :
    producedTerms ⟨[7], 3, 9⟩ (ascii "the cats!") =
      ((ascii "the cats!").splitOn 32).flatMap (producedTerms ⟨[7], 3, 9⟩) :=
  (tokenize_piecewise ⟨[7], 3, 9⟩ (by decide) (by decide)).2.1

end RhinoRox
