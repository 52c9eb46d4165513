import RhinoRox.ConfigurationChecks

/-!
# Amounts of memory

`memtoll` reports an error only through a pointer that the handler leaves `NULL`, so a malformed
amount is read as 0, which stands for no limit. The digits go through a saturating `strtoll` and
the product with the unit wraps around.
-/

namespace RhinoRox

/-- The units, in lower case. -/
def memUnits : List (Bytes × ℤ) :=
  [([], 1), (ascii "b", 1), (ascii "k", 1000), (ascii "kb", 1024), (ascii "m", 1000 ^ 2),
    (ascii "mb", 1024 ^ 2), (ascii "g", 1000 ^ 3), (ascii "gb", 1024 ^ 3)]

def digitsValue (digits : Bytes) : ℕ := digits.foldl (fun n c => n * 10 + (c.toNat - 48)) 0

def signText (minus : Bool) : Bytes := if minus then [45] else []

def signedValue (minus : Bool) (digits : Bytes) : ℤ := if minus then -digitsValue digits else digitsValue digits

/-- An optional minus sign, digits and a unit in any letter case, which stands for `mul` bytes. -/
structure MemAmount (v : Bytes) (minus : Bool) (digits : Bytes) (mul : ℤ) : Prop where
  digits_ne_nil : digits ≠ []
  isdigit : ∀ c ∈ digits, isdigit c
  unit : ∃ unit, v = signText minus ++ digits ++ unit ∧ (sdstolower unit, mul) ∈ memUnits

/-- The string is an amount of memory of exactly `n` bytes. -/
def IsAmount (v : Bytes) (n : ℤ) : Prop :=
  ∃ minus digits mul, MemAmount v minus digits mul ∧ n = signedValue minus digits * mul

/-- The nearest `long long`. -/
def saturate (n : ℤ) : ℤ := max (-2 ^ 63) (min n (2 ^ 63 - 1))

theorem isdigit_iff {c : UInt8} : isdigit c = true ↔ 48 ≤ c.toNat ∧ c.toNat ≤ 57 := by
  rw [isdigit, decide_eq_true_iff, UInt8.le_iff_toNat_le, UInt8.le_iff_toNat_le]
  rfl

theorem ne_sign_of_isdigit {c : UInt8} (h : isdigit c) : c ≠ 45 ∧ c ≠ 43 := by
  have hrange := isdigit_iff.mp h
  constructor
  · intro he
    exact absurd (he ▸ hrange.1) (by decide)
  · intro he
    exact absurd (he ▸ hrange.1) (by decide)

theorem isspace_of_isdigit {c : UInt8} (h : isdigit c) : isspace c = false := by
  have hrange := isdigit_iff.mp h
  rw [isspace, Bool.or_eq_false_iff, decide_eq_false_iff_not, Bool.and_eq_false_iff, decide_eq_false_iff_not,
    decide_eq_false_iff_not, ← UInt8.toNat_inj, UInt8.le_iff_toNat_le, UInt8.le_iff_toNat_le]
  change ¬ c.toNat = 32 ∧ (¬ 9 ≤ c.toNat ∨ ¬ c.toNat ≤ 13)
  omega

theorem strcaseEq_iff {u t : Bytes} (hu : 0 ∉ u) (ht : sdstolower (cStr t) = t) :
    strcaseEq u t = true ↔ sdstolower u = t := by
  rw [strcaseEq, decide_eq_true_iff, ht, cStr_of_notMem hu]

theorem memUnit_eq_some {u : Bytes} (hu : 0 ∉ u) {mul : ℤ} :
    memUnit u = some mul ↔ (sdstolower u, mul) ∈ memUnits := by
  have hnil : u = [] ↔ sdstolower u = [] := List.map_eq_nil_iff.symm
  rw [memUnit]
  simp only [hnil, strcaseEq_iff hu (t := ascii "b") (by decide), strcaseEq_iff hu (t := ascii "k") (by decide),
    strcaseEq_iff hu (t := ascii "kb") (by decide), strcaseEq_iff hu (t := ascii "m") (by decide),
    strcaseEq_iff hu (t := ascii "mb") (by decide), strcaseEq_iff hu (t := ascii "g") (by decide),
    strcaseEq_iff hu (t := ascii "gb") (by decide)]
  generalize sdstolower u = l
  constructor
  · intro h
    split_ifs at h with h1 h2 h3 h4 h5 h6 h7 <;> cases h
    · cases h1 with
      | inl hl => exact hl ▸ by decide
      | inr hl => exact hl ▸ by decide
    all_goals
      subst l
      decide
  · intro h
    simp only [memUnits, List.mem_cons, Prod.mk.injEq, List.not_mem_nil, or_false] at h
    rcases h with ⟨rfl, rfl⟩ | ⟨rfl, rfl⟩ | ⟨rfl, rfl⟩ | ⟨rfl, rfl⟩ | ⟨rfl, rfl⟩ | ⟨rfl, rfl⟩ |
      ⟨rfl, rfl⟩ | ⟨rfl, rfl⟩ <;> decide

theorem takeWhile_digits {digits : Bytes} (hd : ∀ c ∈ digits, isdigit c) :
    (digits.takeWhile fun c => decide (48 ≤ c ∧ c ≤ 57)) = digits :=
  List.takeWhile_eq_self_iff.mpr hd

/-- The sign and the digits go through `strtoll` to their end. -/
theorem strtoll_digits {digits : Bytes} (minus : Bool) (hne : digits ≠ []) (hd : ∀ c ∈ digits, isdigit c) :
    ∃ erange, strtoll (signText minus ++ digits) = (saturate (signedValue minus digits), [], erange) := by
  obtain ⟨c, rest, rfl⟩ := List.exists_cons_of_ne_nil hne
  have hc : isdigit c := hd c List.mem_cons_self
  obtain ⟨hminus, hplus⟩ := ne_sign_of_isdigit hc
  have hspace : (signText minus ++ c :: rest).dropWhile isspace = signText minus ++ c :: rest := by
    cases minus with
    | true => rfl
    | false => simp [signText, isspace_of_isdigit hc]
  have hbody : (if (signText minus ++ c :: rest).head? = some 45 ∨ (signText minus ++ c :: rest).head? = some 43
      then (signText minus ++ c :: rest).drop 1 else signText minus ++ c :: rest) = c :: rest := by
    cases minus with
    | true => rfl
    | false => simp [signText, hminus, hplus]
  have hvalue : (if (signText minus ++ c :: rest).head? = some 45 then -(digitsValue (c :: rest) : ℤ)
      else digitsValue (c :: rest)) = signedValue minus (c :: rest) := by
    cases minus with
    | true => rfl
    | false => simp [signText, signedValue, hminus]
  rw [strtoll]
  simp only [hspace, hbody, takeWhile_digits hd, if_neg hne, List.drop_length]
  rw [digitsValue] at hvalue
  rw [hvalue, saturate]
  by_cases hlow : signedValue minus (c :: rest) < -2 ^ 63
  · exact ⟨true, by rw [if_pos hlow, min_eq_left (by omega), max_eq_left (by omega)]⟩
  by_cases hhigh : signedValue minus (c :: rest) > 2 ^ 63 - 1
  · exact ⟨true, by rw [if_neg hlow, if_pos hhigh, min_eq_right (by omega), max_eq_right (by omega)]⟩
  · exact ⟨false, by rw [if_neg hlow, if_neg hhigh, min_eq_left (by omega), max_eq_right (by omega)]⟩

theorem tolower_of_isdigit {c : UInt8} (h : isdigit c) : tolower c = c := by
  have hrange := isdigit_iff.mp h
  rw [tolower, if_neg]
  intro hupper
  have h65 : 65 ≤ c.toNat := UInt8.le_iff_toNat_le.mp hupper.1
  omega

/-- No unit starts with a digit. -/
theorem head_memUnits {u : Bytes} {mul : ℤ} (h : (u, mul) ∈ memUnits) : u.head?.any isdigit = false := by
  have hall : (memUnits.all fun e => !e.1.head?.any isdigit) = true := by decide
  simpa using List.all_eq_true.mp hall _ h

theorem takeWhile_unit {u : Bytes} {mul : ℤ} (h : (sdstolower u, mul) ∈ memUnits) : u.takeWhile isdigit = [] := by
  cases u with
  | nil => rfl
  | cons c u =>
    have hhead : isdigit (tolower c) = false := head_memUnits h
    by_cases hc : isdigit c
    · rw [tolower_of_isdigit hc, hc] at hhead
      cases hhead
    · exact List.takeWhile_cons_of_neg hc

/-- A long amount is an error; of a short one the digits saturate and the product wraps around. -/
theorem memtoll_of_amount {v digits : Bytes} {minus : Bool} {mul : ℤ} (hv : 0 ∉ v)
    (h : MemAmount v minus digits mul) :
    memtoll v =
      if (signText minus ++ digits).length ≥ 128 then (0, true)
      else (toInt64 (saturate (signedValue minus digits) * mul), false) := by
  obtain ⟨unit, rfl, hunit⟩ := h.unit
  have hmul : memUnit unit = some mul :=
    (memUnit_eq_some fun hz => hv (List.mem_append_right _ hz)).mpr hunit
  have hsign : (if byteAt (signText minus ++ digits ++ unit) 0 = 45 then 1 else 0) = (signText minus).length := by
    cases minus with
    | true => rfl
    | false =>
      obtain ⟨c, rest, hc⟩ := List.exists_cons_of_ne_nil h.digits_ne_nil
      have hne := (ne_sign_of_isdigit (h.isdigit c (hc ▸ List.mem_cons_self))).1
      simp [signText, hc, hne]
  have hdigits : ((signText minus ++ digits ++ unit).drop (signText minus).length).takeWhile isdigit = digits := by
    rw [List.append_assoc, List.drop_left, List.takeWhile_append_of_pos h.isdigit, takeWhile_unit hunit,
      List.append_nil]
  obtain ⟨erange, hval⟩ := strtoll_digits minus h.digits_ne_nil h.isdigit
  rw [memtoll]
  simp only [hsign, hdigits, ← List.length_append, List.drop_left, List.take_left, hmul, hval]
  rw [if_neg (not_not.mpr rfl)]

/-- Anything else is read as 0. -/
theorem memtoll_of_malformed {v : Bytes} (hv : 0 ∉ v)
    (h : ∀ minus digits mul, ¬ MemAmount v minus digits mul) : (memtoll v).1 = 0 := by
  rw [memtoll]
  generalize hm : (if byteAt v 0 = 45 then 1 else 0) = m
  obtain ⟨rest, hrest⟩ := List.takeWhile_prefix isdigit (l := v.drop m)
  generalize hdigits : (v.drop m).takeWhile isdigit = digits at hrest
  have hunit : v.drop (m + digits.length) = rest := by
    rw [← List.drop_drop, ← hrest, List.drop_left]
  have hsign : signText (byteAt v 0 = 45) = v.take m := by
    rw [← hm]
    cases v with
    | nil => rfl
    | cons c v => by_cases hc : c = 45 <;> simp [signText, hc]
  simp only [hunit]
  cases hmul : memUnit rest with
  | none => rfl
  | some mul =>
    simp only
    by_cases hlong : m + digits.length ≥ 128
    · rw [if_pos hlong]
    rw [if_neg hlong]
    have hv' : v = signText (byteAt v 0 = 45) ++ digits ++ rest := by
      rw [hsign, List.append_assoc, hrest, List.take_append_drop]
    -- with digits it would be an amount
    have hnil : digits = [] := by
      by_contra hne
      have hzero : 0 ∉ rest := fun hz => hv (hv' ▸ List.mem_append_right _ hz)
      apply h (byteAt v 0 = 45) digits mul
      exact ⟨hne, fun c hc => List.mem_takeWhile_imp (hdigits ▸ hc), rest, hv', (memUnit_eq_some hzero).mp hmul⟩
    rw [hnil, List.length_nil, Nat.add_zero, ← hsign]
    by_cases hminus : byteAt v 0 = 45
    · simp [signText, hminus, strtoll, isspace]
    · simp [signText, hminus, strtoll, toInt64]

/-! ## Which strings are read exactly or refused -/

/-- The product of the saturated digits and the unit, modulo 2⁶⁴, is that of a negative number. -/
def WrapsNegative (minus : Bool) (digits : Bytes) (mul : ℤ) : Prop :=
  if minus then
    0 < min (digitsValue digits : ℤ) (2 ^ 63) * mul % 2 ^ 64 ∧
      min (digitsValue digits : ℤ) (2 ^ 63) * mul % 2 ^ 64 ≤ 2 ^ 63
  else 2 ^ 63 ≤ min (digitsValue digits : ℤ) (2 ^ 63 - 1) * mul % 2 ^ 64

theorem toInt64_neg_iff {n : ℤ} : toInt64 n < 0 ↔ 2 ^ 63 ≤ n % 2 ^ 64 := by
  have hsize : ((Int64.size : ℕ) : ℤ) = 2 ^ 64 := by decide
  rw [toInt64, Int64.toInt_ofInt, Int.bmod_def, hsize]
  split_ifs <;> omega

theorem wrapsNegative_iff {minus : Bool} {digits : Bytes} {mul : ℤ} :
    toInt64 (saturate (signedValue minus digits) * mul) < 0 ↔ WrapsNegative minus digits mul := by
  rw [toInt64_neg_iff, saturate, WrapsNegative]
  cases minus with
  | true =>
    have hsat : max (-2 ^ 63) (min (signedValue true digits) (2 ^ 63 - 1)) =
        -min (digitsValue digits : ℤ) (2 ^ 63) := by
      rw [signedValue, if_pos rfl]
      omega
    rw [hsat, if_pos rfl, Int.neg_mul]
    omega
  | false =>
    have hsat : max (-2 ^ 63) (min (signedValue false digits) (2 ^ 63 - 1)) =
        min (digitsValue digits : ℤ) (2 ^ 63 - 1) := by
      rw [signedValue, if_neg Bool.false_ne_true]
      omega
    rw [hsat, if_neg Bool.false_ne_true]

/-- An amount whose sign and digits fit the buffer fits a `long long` or wraps to a negative
number, and a longer one is 0. -/
def ReadExactly (v : Bytes) : Prop :=
  ∃ minus digits mul, MemAmount v minus digits mul ∧
    if (signText minus ++ digits).length < 128 then
      (0 ≤ signedValue minus digits * mul ∧ signedValue minus digits * mul < 2 ^ 63) ∨
        WrapsNegative minus digits mul
    else signedValue minus digits * mul = 0

theorem mul_pos_of_mem_memUnits {u : Bytes} {mul : ℤ} (h : (u, mul) ∈ memUnits) : 0 < mul := by
  have hall : (memUnits.all fun e => 0 < e.2) = true := by decide
  simpa using List.all_eq_true.mp hall _ h

/-- An amount that fits is not changed on the way. -/
theorem toInt64_saturate_mul {n mul : ℤ} (hmul : 0 < mul) (h0 : 0 ≤ n * mul) (h : n * mul < 2 ^ 63) :
    toInt64 (saturate n * mul) = n * mul := by
  have hn : 0 ≤ n := nonneg_of_mul_nonneg_left h0 hmul
  have hle : n ≤ n * mul := le_mul_of_one_le_right hn hmul
  have hsat : saturate n = n := by
    rw [saturate]
    omega
  rw [hsat, toInt64_of_lt h0 h]

theorem memtoll_exact {v : Bytes} (hv : 0 ∉ v) (h : ReadExactly v) (hpos : 0 ≤ (memtoll v).1) :
    ∃ n, IsAmount v n ∧ 0 ≤ n ∧ n < 2 ^ 63 ∧ (memtoll v).1 = n := by
  obtain ⟨minus, digits, mul, hamount, hcond⟩ := h
  obtain ⟨unit, -, hunit⟩ := hamount.unit
  have hval := memtoll_of_amount hv hamount
  refine ⟨signedValue minus digits * mul, ⟨minus, digits, mul, hamount, rfl⟩, ?_⟩
  by_cases hlen : (signText minus ++ digits).length < 128
  · rw [if_pos hlen] at hcond
    rw [if_neg (not_le.mpr hlen)] at hval
    rw [hval] at hpos ⊢
    cases hcond with
    | inl hfits =>
      exact ⟨hfits.1, hfits.2, toInt64_saturate_mul (mul_pos_of_mem_memUnits hunit) hfits.1 hfits.2⟩
    | inr hneg => exact absurd (wrapsNegative_iff.mpr hneg) (not_lt.mpr hpos)
  · rw [if_neg hlen] at hcond
    rw [if_pos (not_lt.mp hlen)] at hval
    rw [hval, hcond]
    decide

theorem readExactly_of_memtoll {v : Bytes} (hv : 0 ∉ v)
    (h : 0 ≤ (memtoll v).1 → ∃ n, IsAmount v n ∧ 0 ≤ n ∧ n < 2 ^ 63 ∧ (memtoll v).1 = n) : ReadExactly v := by
  by_cases hpos : 0 ≤ (memtoll v).1
  · obtain ⟨n, ⟨minus, digits, mul, hamount, rfl⟩, h0, hlt, hval⟩ := h hpos
    refine ⟨minus, digits, mul, hamount, ?_⟩
    by_cases hlen : (signText minus ++ digits).length < 128
    · rw [if_pos hlen]
      exact Or.inl ⟨h0, hlt⟩
    · rw [if_neg hlen, ← hval, memtoll_of_amount hv hamount, if_pos (not_lt.mp hlen)]
  · -- what is refused is an amount, and a short one
    have hex : ∃ minus digits mul, MemAmount v minus digits mul := by
      by_contra hnone
      simp only [not_exists] at hnone
      exact hpos (memtoll_of_malformed hv hnone).ge
    obtain ⟨minus, digits, mul, hamount⟩ := hex
    have hval := memtoll_of_amount hv hamount
    refine ⟨minus, digits, mul, hamount, ?_⟩
    by_cases hlen : (signText minus ++ digits).length < 128
    · rw [if_neg (not_le.mpr hlen)] at hval
      rw [hval] at hpos
      rw [if_pos hlen]
      exact Or.inr (wrapsNegative_iff.mp (not_le.mp hpos))
    · rw [if_pos (not_lt.mp hlen)] at hval
      rw [hval] at hpos
      exact absurd le_rfl hpos

/-! ## The setting -/

/-- The item is set from this text at the end of the file. -/
def GivesText (file : Bytes) (options : DictT Bytes) (i : ConfigItem) (v : Bytes) : Prop :=
  ∃ w, (fileValues file i).getLast? = some w ∧ settingText options i w = v

/-- A file that sets the memory, and nothing else. -/
def memoryFile : Bytes := ascii "[server]\nmax_memory=0\n"

/-- The text can be given as an option, and is accepted unless it is read as a negative number. -/
theorem exists_load_of_text (v : CString) (h : 0 ≤ (memtoll v.1).1) :
    ∃ ctx ctx', ctx.options.Inv ∧ GivesText memoryFile ctx.options .maxMemory v.1 ∧
      rrConfigLoad (oneFile memoryFile) [] ctx = .ok (.ok, ctx') ∧ ctx'.configs.maxMemory = (memtoll v.1).1 := by
  obtain ⟨d, -, -, hinv, hmap, -, -⟩ := dictSet_spec dictCreate_inv (ascii "max_memory") v.1
  have htext : settingText d .maxMemory (ascii "0") = v.1 := by
    have hlookup : d.toMap.lookup ConfigItem.maxMemory.option = some v.1 := by
      rw [hmap]
      exact Finmap.lookup_insert _
    rw [settingText, hlookup, Option.getD_some, cStr_coe]
  have hvalues : fileValues memoryFile .maxMemory = [ascii "0"] := by decide +kernel
  have hevents : iniEvents memoryFile = [some ⟨ascii "server", ascii "max_memory", ascii "0"⟩] := by
    decide +kernel
  have hstore : ConfigItem.maxMemory.store (oneFile memoryFile) zeroedConfiguration v.1 =
      ({ zeroedConfiguration with maxMemory := (memtoll v.1).1 }, none) :=
    Prod.ext rfl (errorIf_eq_none.mpr (not_lt.mpr h))
  refine ⟨⟨zeroedConfiguration, d, []⟩, ⟨{ zeroedConfiguration with maxMemory := (memtoll v.1).1 }, d, []⟩, hinv,
    ⟨ascii "0", by rw [hvalues]; rfl, htext⟩, ?_, rfl⟩
  have hfile : (oneFile memoryFile).contents [] = some memoryFile := rfl
  rw [rrConfigLoad_ok hfile, hevents]
  apply IniAccepts.cons _ (.nil _)
  exact (handler_accepts (c := ⟨ascii "server", ascii "max_memory", ascii "0"⟩) hinv).mpr
    ⟨.maxMemory, _, by decide, by rw [htext]; exact hstore, rfl⟩

/-- Every load that accepts the string has read it exactly, if and only if it is an amount that
fits, or one that is refused. -/
theorem max_memory_exact_iff (v : CString) :
    (∀ (env : ConfigEnv) (path file : Bytes) (ctx ctx' : ConfigurationContext), ctx.options.Inv →
      env.contents path = some file → GivesText file ctx.options .maxMemory v.1 →
      rrConfigLoad env path ctx = .ok (.ok, ctx') →
      ∃ n, IsAmount v.1 n ∧ 0 ≤ n ∧ n < 2 ^ 63 ∧ ctx'.configs.maxMemory = n) ↔
    ReadExactly v.1 := by
  constructor
  · intro h
    apply readExactly_of_memtoll v.2
    intro hpos
    obtain ⟨ctx, ctx', hinv, hgives, hload, hmem⟩ := exists_load_of_text v hpos
    have hexact := h (oneFile memoryFile) [] memoryFile ctx ctx' hinv rfl hgives hload
    rwa [hmem] at hexact
  · intro h env path file ctx ctx' hinv hfile hgives hload
    obtain ⟨w, hlast, htext⟩ := hgives
    have hrun := (rrConfigLoad_ok hfile).mp hload
    obtain ⟨hconv, hadm⟩ := (hrun.setting_spec hinv .maxMemory).2 w hlast
    rw [htext] at hconv
    have hmem : (memtoll v.1).1 = ctx'.configs.maxMemory := by
      simpa [ConfigItem.convert, Configuration.setting] using hconv
    rw [← hmem]
    apply memtoll_exact v.2 h
    rw [hmem]
    exact hadm

/-- An unknown unit means no limit. -/
theorem max_memory_unknown_unit :
    ∃ cfg, Loads (oneFile (ascii "[server]\nmax_memory = 10tb\n")) []
        (ascii "[server]\nmax_memory = 10tb\n") zeroedConfiguration cfg ∧
      fileValues (ascii "[server]\nmax_memory = 10tb\n") .maxMemory = [ascii "10tb"] ∧
      cfg.maxMemory = 0 ∧ ∀ n, ¬ IsAmount (ascii "10tb") n := by
  obtain ⟨cfg, hloads, hmem⟩ := exists_loads (ascii "[server]\nmax_memory = 10tb\n") [] zeroedConfiguration
    (fun cfg => cfg.maxMemory = 0) (by decide +kernel)
  refine ⟨cfg, hloads, by decide +kernel, of_decide_eq_true hmem, fun n hn => ?_⟩
  obtain ⟨minus, digits, mul, hamount, -⟩ := hn
  have hval := memtoll_of_amount (by decide) hamount
  -- the error is only set for amounts that are too long
  have herr : (memtoll (ascii "10tb")).2 = true := by decide +kernel
  obtain ⟨unit, hv, -⟩ := hamount.unit
  have hlen : (signText minus ++ digits).length ≤ 4 := by
    have hlength := congrArg List.length hv
    rw [List.length_append] at hlength
    have hfour : (ascii "10tb").length = 4 := by decide
    omega
  rw [hval, if_neg (by omega)] at herr
  cases herr

end RhinoRox
