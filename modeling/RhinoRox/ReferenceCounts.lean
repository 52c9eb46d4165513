import RhinoRox.DecimalText
import RhinoRox.Objects

/-!
# Reference counts agree with the references held

`Counts refs m` says that `m` is the multiset of all references: a live object has as many
references as `m` says, and an object without references is not live. The shared integers
are not counted.
-/

namespace RhinoRox

/-- The count of every object that is not a shared integer. -/
def Counts (refs : Refs) (m : Multiset ℕ) : Prop :=
  ∀ a, refs.lookup a = if a < objSharedIntegers ∨ m.count a = 0 then none else some (m.count a : ℤ)

section Counting
variable {refs : Refs} {m : Multiset ℕ} {a : ℕ}

theorem Counts.congr (h : Counts refs m) {m' : Multiset ℕ} (he : m = m') : Counts refs m' := he ▸ h

theorem Counts.lookup_of_mem (h : Counts refs m) (ha : objSharedIntegers ≤ a) (hm : a ∈ m) :
    refs.lookup a = some (m.count a : ℤ) := by
  rw [h a, if_neg (not_or.mpr ⟨by omega, Multiset.count_ne_zero.mpr hm⟩)]

theorem Counts.refcount_eq (h : Counts refs m) (ha : objSharedIntegers ≤ a) (hm : a ∈ m) :
    refcount refs a = .ok (m.count a : ℤ) := by
  rw [refcount, if_neg (by omega), h.lookup_of_mem ha hm]
  rfl

/-- A shared integer has the count that is never changed. -/
theorem refcount_shared (refs : Refs) (ha : a < objSharedIntegers) : refcount refs a = .ok (2 ^ 31 - 1) := by
  rw [refcount, if_pos ha]
  rfl

/-- Objects that something refers to are live. -/
theorem Counts.live (h : Counts refs m) (hm : a ∈ m) : ∃ n, refcount refs a = .ok n := by
  by_cases ha : a < objSharedIntegers
  · exact ⟨_, refcount_shared refs ha⟩
  · exact ⟨_, h.refcount_eq (by omega) hm⟩

/-- References to shared integers do not matter. -/
theorem Counts.cons_shared (ha : a < objSharedIntegers) : Counts refs (a ::ₘ m) ↔ Counts refs m := by
  refine forall_congr' fun b => ?_
  by_cases hb : b < objSharedIntegers
  · simp [hb]
  · rw [Multiset.count_cons_of_ne (by omega)]

theorem Counts.insert (h : Counts refs m) {m' : Multiset ℕ} {n : ℤ} (hprivate : objSharedIntegers ≤ a)
    (ha : a ∈ m') (hn : n = m'.count a) (hm : ∀ b, b ≠ a → m'.count b = m.count b) :
    Counts (refs.insert a n) m' := by
  intro b
  by_cases hab : b = a
  · rw [hab, Finmap.lookup_insert, if_neg (not_or.mpr ⟨by omega, Multiset.count_ne_zero.mpr ha⟩), hn]
  · rw [Finmap.lookup_insert_of_ne _ hab, h b, hm b hab]

theorem Counts.erase (h : Counts refs (a ::ₘ m)) (ha : a ∉ m) : Counts (refs.erase a) m := by
  intro b
  by_cases hab : b = a
  · rw [hab, Finmap.lookup_erase, if_pos (.inr (Multiset.count_eq_zero.mpr ha))]
  · rw [Finmap.lookup_erase_ne hab, h b, Multiset.count_cons_of_ne hab]

theorem Counts.incr (h : Counts refs m) (hm : a ∈ m ∨ a < objSharedIntegers) :
    ∃ refs', incrRefCount refs a = .ok refs' ∧ Counts refs' (a ::ₘ m) := by
  by_cases ha : a < objSharedIntegers
  · exact ⟨refs, by simp [incrRefCount, refcount_shared refs ha, ha], (Counts.cons_shared ha).mpr h⟩
  · have hmem : a ∈ m := hm.resolve_right ha
    refine ⟨refs.insert a (m.count a + 1), ?_, h.insert (by omega) (by simp) (by simp) ?_⟩
    · simp [incrRefCount, h.refcount_eq (by omega) hmem, ha]
    · intro b hb
      exact Multiset.count_cons_of_ne hb m

/-- A reference that is not the last one is dropped. -/
theorem Counts.drop (h : Counts refs (a ::ₘ m)) (ha : objSharedIntegers ≤ a) (hm : a ∈ m) :
    Counts (refs.insert a (m.count a)) m := by
  refine h.insert ha hm rfl fun b hb => ?_
  rw [Multiset.count_cons_of_ne hb]

/-- `decrRefCount` of an object, with what must hold of the release of its contents. -/
theorem Counts.decrWith (h : Counts refs (a ::ₘ m)) (free : Refs → Exec Refs) :
    (a < objSharedIntegers ∧ decrRefCountWith free refs a = .ok refs) ∨
    (objSharedIntegers ≤ a ∧ a ∈ m ∧ decrRefCountWith free refs a = .ok (refs.insert a (m.count a))) ∨
    (objSharedIntegers ≤ a ∧ a ∉ m ∧
      decrRefCountWith free refs a = (free refs >>= fun refs => .ok (refs.erase a))) := by
  by_cases ha : a < objSharedIntegers
  · exact .inl ⟨ha, by simp [decrRefCountWith, refcount_shared refs ha, ha]⟩
  · have hcount := h.refcount_eq (by omega) (Multiset.mem_cons_self a m)
    rw [Multiset.count_cons_self] at hcount
    by_cases hm : a ∈ m
    · have hpos : m.count a ≠ 0 := Multiset.count_ne_zero.mpr hm
      exact .inr (.inl ⟨by omega, hm, by simp [decrRefCountWith, hcount, ha, hpos]⟩)
    · have hzero : m.count a = 0 := Multiset.count_eq_zero.mpr hm
      exact .inr (.inr ⟨by omega, hm, by simp [decrRefCountWith, hcount, ha, hzero]⟩)

theorem Counts.decr {o : StrObj} (h : Counts refs (o.addr ::ₘ m)) :
    ∃ refs', decrString refs o = .ok refs' ∧ Counts refs' m := by
  rw [decrString]
  obtain ⟨ha, hr⟩ | ⟨ha, hm, hr⟩ | ⟨-, hm, hr⟩ := h.decrWith pure
  · exact ⟨refs, hr, (Counts.cons_shared ha).mp h⟩
  · exact ⟨_, hr, h.drop ha hm⟩
  · exact ⟨_, hr, h.erase hm⟩

end Counting

/-- The addresses of a list of strings. -/
def addrs (os : List StrObj) : Multiset ℕ := (os.map StrObj.addr : List ℕ)

@[simp] theorem addrs_nil : addrs [] = 0 := rfl

@[simp] theorem addrs_cons (o : StrObj) (os : List StrObj) : addrs (o :: os) = o.addr ::ₘ addrs os := rfl

@[simp] theorem addrs_append (os os' : List StrObj) : addrs (os ++ os') = addrs os + addrs os' := by
  simp [addrs]

theorem Counts.decrs {refs : Refs} {m : Multiset ℕ} {os : List StrObj} (h : Counts refs (addrs os + m)) :
    ∃ refs', decrStrings refs os = .ok refs' ∧ Counts refs' m := by
  induction os generalizing refs with
  | nil => exact ⟨refs, rfl, by simpa using h⟩
  | cons o os ih =>
    rw [addrs_cons, Multiset.cons_add] at h
    obtain ⟨refs₁, hr₁, h₁⟩ := h.decr
    obtain ⟨refs₂, hr₂, h₂⟩ := ih h₁
    exact ⟨refs₂, by simp [decrStrings, hr₁, hr₂], h₂⟩

variable {G : Type} (env : ServerEnv G)

/-- Creating an object leaves the counts of the others alone. -/
theorem createObject_refcount {refs : Refs} {a : ℕ} {n : ℤ} (h : refcount refs a = .ok n) :
    refcount (createObject env refs).2 a = .ok n := by
  by_cases ha : a < objSharedIntegers
  · rw [refcount, if_pos ha] at h ⊢
    exact h
  · rw [refcount, if_neg ha] at h ⊢
    rcases hl : refs.lookup a with _ | n'
    · rw [hl] at h
      cases h
    · have hne : a ≠ env.malloc refs.keys := by
        rintro rfl
        exact env.malloc_fresh refs.keys (Finmap.mem_keys.mpr (Finmap.mem_iff.mpr ⟨n', hl⟩))
      rw [createObject, Finmap.lookup_insert_of_ne _ hne]
      exact h

/-- A new object has an address that nothing refers to. -/
theorem Counts.create {refs : Refs} {m : Multiset ℕ} (h : Counts refs m) :
    (createObject env refs).1 ∉ m ∧ objSharedIntegers ≤ (createObject env refs).1 ∧
      Counts (createObject env refs).2 ((createObject env refs).1 ::ₘ m) := by
  have hfresh : refs.lookup (env.malloc refs.keys) = none := by
    rw [Finmap.lookup_eq_none, ← Finmap.mem_keys]
    exact env.malloc_fresh refs.keys
  have hnot : env.malloc refs.keys ∉ m := by
    intro hm
    rw [h.lookup_of_mem (env.malloc_private _) hm] at hfresh
    cases hfresh
  refine ⟨hnot, env.malloc_private _, h.insert (env.malloc_private _) (by simp [createObject]) ?_ ?_⟩
  · simp [createObject, hnot]
  · intro b hb
    exact Multiset.count_cons_of_ne hb m

/-! ## `tryObjectEncoding` -/

/-- The texts that `tryObjectEncoding` turns into integers. -/
def spellsInteger (s : Bytes) : Bool := decide (s.length ≤ 21) && (string2l s).isSome

/-- The shared integer of a small number. -/
theorem sharedInteger_enc {value : Int64} (h : 0 ≤ value.toInt) : (sharedInteger value.toInt.toNat).enc = .int value := by
  have hlt := value.toInt_lt
  have hint : Int64.ofNat value.toInt.toNat = value := by
    rw [← Int64.toInt_inj, Int64.toInt_ofNat_of_lt (by omega)]
    omega
  rw [sharedInteger, hint]

theorem sharedInteger_bytes {value : Int64} (h : 0 ≤ value.toInt) :
    (sharedInteger value.toInt.toNat).enc.bytes = decimal value := by
  rw [sharedInteger_enc h]
  rfl

/-- The object after the encoding is the one before, a shared integer, or a new one. -/
def Replaces (m : Multiset ℕ) (o o' : StrObj) : Prop :=
  o'.addr = o.addr ∨ o'.addr < objSharedIntegers ∨ o'.addr ∉ m

theorem encodeInteger_counts {refs : Refs} {m : Multiset ℕ} {o : StrObj} (h : Counts refs (o.addr ::ₘ m))
    (value : Int64) :
    ∃ o' refs', encodeInteger env refs o value = .ok (o', refs') ∧ Counts refs' (o'.addr ::ₘ m) ∧ Replaces m o o' ∧
      o'.enc.bytes = decimal value ∧ sdsEncodedObject o'.enc = false := by
  rw [encodeInteger]
  split
  · rename_i hv
    obtain ⟨refs₁, hr₁, h₁⟩ := h.decr
    have hshared : (sharedInteger value.toInt.toNat).addr < objSharedIntegers := by
      simp only [sharedInteger]
      omega
    obtain ⟨refs₂, hr₂, h₂⟩ := h₁.incr (Or.inr hshared)
    exact ⟨_, refs₂, by simp only [hr₁, hr₂, Exec.ok_bind, Exec.pure_eq], h₂, .inr (.inl hshared),
      sharedInteger_bytes hv.2.1, rfl⟩
  · exact ⟨_, refs, rfl, h, .inl rfl, rfl, rfl⟩

theorem encodeEmbstr_counts {refs : Refs} {m : Multiset ℕ} {o : StrObj} (h : Counts refs (o.addr ::ₘ m))
    (hs : sdsEncodedObject o.enc = true) :
    ∃ o' refs', encodeEmbstr env refs o = .ok (o', refs') ∧ Counts refs' (o'.addr ::ₘ m) ∧ Replaces m o o' ∧
      o'.enc.bytes = o.enc.bytes ∧ sdsEncodedObject o'.enc = true := by
  obtain ⟨a, enc⟩ := o
  cases enc with
  | raw s =>
    rw [encodeEmbstr]
    simp only
    split
    · obtain ⟨hfresh, -, hc⟩ := h.create env
      rw [Multiset.cons_swap] at hc
      obtain ⟨refs₁, hr₁, h₁⟩ := Counts.decr (o := ⟨a, .raw s⟩) hc
      refine ⟨_, refs₁, by simp only [hr₁, Exec.ok_bind]; rfl, h₁, .inr (.inr fun hm => ?_), rfl, rfl⟩
      exact hfresh (Multiset.mem_cons_of_mem hm)
    · exact ⟨_, refs, rfl, h, .inl rfl, rfl, hs⟩
  | embstr s => exact ⟨_, refs, rfl, h, .inl rfl, rfl, hs⟩
  | int n => cases hs

/-- The object stands for the same bytes whatever its encoding, and an object with one
reference becomes an integer when its text spells one. -/
theorem tryObjectEncoding_spec {refs : Refs} {m : Multiset ℕ} {o : StrObj}
    (h : Counts refs (o.addr ::ₘ m)) (hs : sdsEncodedObject o.enc = true) :
    ∃ o' refs', tryObjectEncoding env refs o = .ok (o', refs') ∧ Counts refs' (o'.addr ::ₘ m) ∧ Replaces m o o' ∧
      o'.enc.bytes = o.enc.bytes ∧
      (refcount refs o.addr = .ok 1 → sdsEncodedObject o'.enc = !spellsInteger o.enc.bytes) := by
  obtain ⟨n, hn⟩ := h.live (Multiset.mem_cons_self o.addr m)
  simp only [tryObjectEncoding, hs, Bool.not_true, Bool.false_eq_true, if_false, hn, Exec.ok_bind]
  by_cases hmany : n > 1
  · refine ⟨o, refs, by simp [hmany], h, .inl rfl, rfl, fun hone => ?_⟩
    obtain rfl := Except.ok.inj hone
    cases hmany
  rw [if_neg hmany]
  by_cases hlen : o.enc.bytes.length ≤ 21
  · rw [if_pos hlen]
    rcases hint : string2l o.enc.bytes with _ | value
    · obtain ⟨o', refs', hr, hc, hrep, hb, hs'⟩ := encodeEmbstr_counts env h hs
      exact ⟨o', refs', hr, hc, hrep, hb, fun _ => by simp [hs', spellsInteger, hint]⟩
    · obtain ⟨o', refs', hr, hc, hrep, hb, hs'⟩ := encodeInteger_counts env h value
      exact ⟨o', refs', hr, hc, hrep, hb.trans (decimal_of_string2l hint),
        fun _ => by simp [hs', spellsInteger, hint, hlen]⟩
  · rw [if_neg hlen]
    obtain ⟨o', refs', hr, hc, hrep, hb, hs'⟩ := encodeEmbstr_counts env h hs
    exact ⟨o', refs', hr, hc, hrep, hb, fun _ => by simp [hs', spellsInteger, hlen]⟩

end RhinoRox
