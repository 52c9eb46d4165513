import RhinoRox.DictTraversals
import RhinoRox.KeyedTotal
import Mathlib.Tactic.Abel

/-!
# Histories of a dictionary

The tree depends only on the pairs that are stored, not on the calls that stored them. The
values are accounted for along every history: each is stored, or has been returned by
`dict_del`, or has been given to the free callback.
-/

namespace RhinoRox
open CritBitTree KeyedTotal

variable {α : Type}

/-! ## The tree of a map -/

/-- A dictionary is determined by its map and its callback. -/
theorem DictT.Inv.eq_of_toMap {d d' : DictT α} (h : d.Inv) (h' : d'.Inv) (hm : d.toMap = d'.toMap)
    (hcb : d.freeCb = d'.freeCb) : d = d' := by
  have hentries : ∀ e, e ∈ d.dict.entries ↔ e ∈ d'.dict.entries := fun e =>
    h.lookup_iff.symm.trans ((by rw [hm]) : _ ↔ _) |>.trans h'.lookup_iff
  obtain ⟨t, n, cb⟩ := d
  obtain ⟨t', n', cb'⟩ := d'
  obtain rfl : t = t' := h.valid.eq_of_mem_iff h'.valid hentries
  obtain rfl : n = n' := h.size_eq.trans h'.size_eq.symm
  obtain rfl : cb = cb' := hcb
  rfl

inductive DictEdit (α : Type) where
  | set (k : Bytes) (v : α)
  | del (k : Bytes)

namespace DictEdit

/-- The key that a call names; it ends before the first NUL. -/
def key : DictEdit α → Bytes
  | set k _ => cStr k
  | del k => cStr k

/-- The value of the key after the call. -/
def value : DictEdit α → Option α
  | set _ v => some v
  | del _ => none

def run (d : DictT α) : DictEdit α → Exec (DictT α)
  | set k v => do
    let (_, d, _) ← dictSet d k (some v)
    pure d
  | del k => do
    let (_, d) ← dictDel d k
    pure d

/-- The same call on a finite map. -/
def onMap (m : Finmap fun _ : Bytes => α) : DictEdit α → Finmap fun _ : Bytes => α
  | set k v => m.insert (cStr k) v
  | del k => m.erase (cStr k)

theorem run_spec {d : DictT α} (h : d.Inv) (e : DictEdit α) :
    ∃ d', e.run d = .ok d' ∧ d'.Inv ∧ d'.toMap = e.onMap d.toMap ∧ d'.freeCb = d.freeCb := by
  cases e with
  | set k v =>
    obtain ⟨d', freed, hr, hi, hm, hcb, -⟩ := dictSet_spec h k v
    exact ⟨d', by simp [run, hr], hi, hm, hcb⟩
  | del k =>
    obtain ⟨d', hr, hi, hm, hcb, -⟩ := dictDel_spec h k
    exact ⟨d', by simp [run, hr], hi, hm, hcb⟩

theorem lookup_onMap (e : DictEdit α) (m : Finmap fun _ : Bytes => α) (j : Bytes) :
    (e.onMap m).lookup j = if j = e.key then e.value else m.lookup j := by
  cases e with
  | set k v =>
    split
    · rename_i hj
      rw [hj]
      exact Finmap.lookup_insert _
    · rename_i hj
      exact Finmap.lookup_insert_of_ne _ hj
  | del k =>
    split
    · rename_i hj
      rw [hj]
      exact Finmap.lookup_erase _ _
    · rename_i hj
      exact Finmap.lookup_erase_ne hj

/-- Calls on different keys commute. -/
theorem onMap_comm {e e' : DictEdit α} (h : e.key ≠ e'.key) (m : Finmap fun _ : Bytes => α) :
    e'.onMap (e.onMap m) = e.onMap (e'.onMap m) := by
  apply Finmap.ext_lookup
  intro j
  simp only [lookup_onMap]
  split_ifs with h₁ h₂
  · exact (h (h₂.symm.trans h₁)).elim
  · rfl
  · rfl
  · rfl

end DictEdit

/-- A new dictionary, with or without a callback. -/
def dictFresh (cb : Bool) : DictT α := if cb then dictSetFreecb dictCreate else dictCreate

theorem dictFresh_inv (cb : Bool) : (dictFresh cb : DictT α).Inv := by
  cases cb with
  | true => exact dictSetFreecb_inv dictCreate_inv
  | false => exact dictCreate_inv

def runEdits (d : DictT α) (es : List (DictEdit α)) : Exec (DictT α) := es.foldlM DictEdit.run d

theorem runEdits_spec {d : DictT α} (h : d.Inv) (es : List (DictEdit α)) :
    ∃ d', runEdits d es = .ok d' ∧ d'.Inv ∧ d'.toMap = es.foldl DictEdit.onMap d.toMap ∧ d'.freeCb = d.freeCb := by
  induction es generalizing d with
  | nil => exact ⟨d, rfl, h, rfl, rfl⟩
  | cons e es ih =>
    obtain ⟨d₁, hr, hi, hm, hcb⟩ := e.run_spec h
    obtain ⟨d₂, hr₂, hi₂, hm₂, hcb₂⟩ := ih hi
    refine ⟨d₂, ?_, hi₂, by rw [hm₂, hm, List.foldl_cons], hcb₂.trans hcb⟩
    rw [runEdits, List.foldlM_cons, hr]
    exact hr₂

/-- Histories that lead to the same map lead to the same dictionary. -/
theorem runEdits_congr {d : DictT α} (h : d.Inv) {es es' : List (DictEdit α)}
    (hm : es.foldl DictEdit.onMap d.toMap = es'.foldl DictEdit.onMap d.toMap) : runEdits d es = runEdits d es' := by
  obtain ⟨d₁, hr, hi, hm₁, hcb⟩ := runEdits_spec h es
  obtain ⟨d₂, hr', hi', hm₂, hcb'⟩ := runEdits_spec h es'
  rw [hr, hr', hi.eq_of_toMap hi' (by rw [hm₁, hm₂, hm]) (hcb.trans hcb'.symm)]

/-- The tree depends on the stored pairs alone: two histories that end with the same pairs end
with the same tree, the deletion of a key that was just inserted restores the dictionary, and
calls on distinct keys can be made in any order. -/
theorem dict_tree_canonical (cb cb' : Bool) (es es' : List (DictEdit α)) :
    ∃ d d', runEdits (dictFresh cb) es = .ok d ∧ runEdits (dictFresh cb') es' = .ok d' ∧
      ((∀ k v, Stored d k v ↔ Stored d' k v) → d.dict = d'.dict ∧ d.size = d'.size) ∧
      (∀ k v, (∀ w, ¬ Stored d (cStr k) w) → runEdits d [.set k v, .del k] = .ok d) ∧
      ∀ fs fs', fs.Perm fs' → (fs.map DictEdit.key).Nodup → runEdits d fs = runEdits d fs' := by
  obtain ⟨d, hr, hi, -⟩ := runEdits_spec (dictFresh_inv cb) es
  obtain ⟨d', hr', hi', -⟩ := runEdits_spec (dictFresh_inv cb') es'
  refine ⟨d, d', hr, hr', fun hs => ?_, fun k v habsent => ?_, fun fs fs' hperm hdistinct => ?_⟩
  · have htree : d.dict = d'.dict := hi.valid.eq_of_mem_iff hi'.valid fun e =>
      hi.mem_entries_iff.trans ((hs e.1 e.2).trans hi'.mem_entries_iff.symm)
    refine ⟨htree, ?_⟩
    rw [hi.size_eq, hi'.size_eq, DictT.entries, DictT.entries, htree]
  · have hnone : d.toMap.lookup (cStr k) = none := by
      rw [Option.eq_none_iff_forall_ne_some]
      intro w hw
      exact habsent w (hi.mem_entries_iff.mp (hi.lookup_iff.mp hw))
    have hback : [.set k v, .del k].foldl DictEdit.onMap d.toMap = d.toMap := erase_insert_absent hnone v
    have hsame : runEdits d [.set k v, .del k] = runEdits d [] := runEdits_congr hi hback
    rw [hsame]
    rfl
  · refine runEdits_congr hi (hperm.foldl_eq' (fun e he e' he' m => ?_) d.toMap)
    by_cases hee : e = e'
    · rw [hee]
    · refine DictEdit.onMap_comm (fun hkey => hee ?_) m
      exact List.inj_on_of_nodup_map hdistinct he he' hkey

/-! ## What becomes of the values -/

inductive DictCall (α : Type) where
  | set (k : Bytes) (v : α)
  | del (k : Bytes)
  | clear

/-- The value that a call hands over. -/
def DictCall.given : DictCall α → Option α
  | .set _ v => some v
  | _ => none

/-- The values that `dict_set` has accepted. -/
def givenValues (calls : List (DictCall α)) : List α := calls.filterMap DictCall.given

/-- The dictionary, the values `dict_del` has returned and those the callback was given. -/
structure Ledger (α : Type) where
  dict : DictT α
  returned : List α
  freed : List α

def DictCall.run (l : Ledger α) : DictCall α → Exec (Ledger α)
  | .set k v => do
    let (_, d, freed) ← dictSet l.dict k (some v)
    pure { l with dict := d, freed := l.freed ++ freed }
  | .del k => do
    let (v, d) ← dictDel l.dict k
    pure { l with dict := d, returned := l.returned ++ v.toList }
  | .clear => do
    let (d, freed) ← dictClear l.dict
    pure { l with dict := d, freed := l.freed ++ freed }

def runCalls (calls : List (DictCall α)) : Exec (Ledger α) :=
  calls.foldlM DictCall.run ⟨dictSetFreecb dictCreate, [], []⟩

/-- The stored values. -/
noncomputable def DictT.values (d : DictT α) : Multiset α := mapTotal (fun v => {v}) d.toMap

theorem DictT.Inv.values_eq {d : DictT α} (h : d.Inv) : d.values = (d.entries.map Prod.snd : List α) := by
  rw [values, toMap, mapTotal_toMap h.nodup]
  induction d.entries with
  | nil => rfl
  | cons e l ih =>
    rw [List.map_cons, List.sum_cons, ih, List.map_cons, Multiset.singleton_add]
    rfl

/-- What holds between two calls: nothing is lost or counted twice, and every stored value is
under the key it was stored under. -/
structure LedgerInv (calls : List (DictCall α)) (l : Ledger α) : Prop where
  dict : l.dict.Inv
  freeCb : l.dict.freeCb = true
  balance : l.dict.values + (l.returned + l.freed : Multiset α) = (givenValues calls : List α)
  source : ∀ k v, l.dict.toMap.lookup k = some v → ∃ k₀, .set k₀ v ∈ calls ∧ cStr k₀ = k

theorem part_singleton (o : Option α) : part (fun v => ({v} : Multiset α)) o = (o.toList : Multiset α) := by
  cases o <;> rfl

theorem givenValues_append (calls : List (DictCall α)) (call : DictCall α) :
    (givenValues (calls ++ [call]) : Multiset α) = (givenValues calls : Multiset α) + (call.given.toList : Multiset α) := by
  rw [givenValues, List.filterMap_append, ← Multiset.coe_add]
  congr 2

theorem LedgerInv.run {calls : List (DictCall α)} {l : Ledger α} (h : LedgerInv calls l) (call : DictCall α) :
    ∃ l', call.run l = .ok l' ∧ LedgerInv (calls ++ [call]) l' := by
  have hmono : ∀ k v, l.dict.toMap.lookup k = some v → ∃ k₀, .set k₀ v ∈ calls ++ [call] ∧ cStr k₀ = k := by
    intro k v hl
    obtain ⟨k₀, hm, hk⟩ := h.source k v hl
    exact ⟨k₀, List.mem_append_left _ hm, hk⟩
  have hb := h.balance
  cases call with
  | set k v =>
    obtain ⟨d', freed, hr, hi, hm, hcb, hfreed⟩ := dictSet_spec h.dict k v
    rw [h.freeCb, if_pos rfl] at hfreed
    refine ⟨{ l with dict := d', freed := l.freed ++ freed }, by simp [DictCall.run, hr], hi, hcb.trans h.freeCb, ?_, ?_⟩
    · rw [DictT.values, mapTotal_eq _ _ (cStr k), part_singleton, ← hfreed] at hb
      rw [givenValues_append, ← hb, DictT.values, hm, mapTotal_insert, ← Multiset.coe_add]
      change {v} + _ + _ = _ + {v}
      abel
    · intro j w hl
      rw [hm] at hl
      by_cases hj : j = cStr k
      · rw [hj, Finmap.lookup_insert] at hl
        obtain rfl := Option.some.inj hl
        exact ⟨k, List.mem_append_right _ List.mem_cons_self, hj.symm⟩
      · rw [Finmap.lookup_insert_of_ne _ hj] at hl
        exact hmono j w hl
  | del k =>
    obtain ⟨d', hr, hi, hm, hcb, -⟩ := dictDel_spec h.dict k
    refine ⟨{ l with dict := d', returned := l.returned ++ (l.dict.toMap.lookup (cStr k)).toList },
      by simp [DictCall.run, hr], hi, hcb.trans h.freeCb, ?_, ?_⟩
    · rw [DictT.values, mapTotal_eq _ _ (cStr k), part_singleton] at hb
      rw [givenValues_append, ← hb, DictT.values, hm, mapTotal_erase, ← Multiset.coe_add]
      change _ + _ = _ + 0
      abel
    · intro j w hl
      rw [hm] at hl
      by_cases hj : j = cStr k
      · rw [hj, Finmap.lookup_erase] at hl
        cases hl
      · rw [Finmap.lookup_erase_ne hj] at hl
        exact hmono j w hl
  | clear =>
    obtain ⟨d', hr, hi, hm, hcb⟩ := dictClear_spec h.dict
    rw [h.freeCb, if_pos rfl] at hr
    refine ⟨{ l with dict := d', freed := l.freed ++ l.dict.entries.map Prod.snd },
      by simp [DictCall.run, hr], hi, hcb.trans h.freeCb, ?_, ?_⟩
    · rw [h.dict.values_eq] at hb
      rw [givenValues_append, ← hb, DictT.values, hm, mapTotal_empty, ← Multiset.coe_add]
      change _ + _ = _ + 0
      abel
    · intro j w hl
      rw [hm, Finmap.lookup_empty] at hl
      cases hl

theorem runCalls_inv (calls : List (DictCall α)) : ∃ l, runCalls calls = .ok l ∧ LedgerInv calls l := by
  induction calls using List.reverseRecOn with
  | nil =>
    refine ⟨_, rfl, dictSetFreecb_inv dictCreate_inv, rfl, ?_, ?_⟩
    · simp [DictT.values, givenValues]
    · intro k v hl
      simp at hl
  | append_singleton calls call ih =>
    obtain ⟨l, hr, h⟩ := ih
    obtain ⟨l', hr', h'⟩ := h.run call
    refine ⟨l', ?_, h'⟩
    rw [runCalls, List.foldlM_append]
    rw [runCalls] at hr
    simp [hr, hr']

/-- A value is given to `dict_set` in one call only. -/
theorem set_unique {calls : List (DictCall α)} (hdistinct : (givenValues calls).Nodup) {k k' : Bytes} {v : α}
    (h : .set k v ∈ calls) (h' : .set k' v ∈ calls) : k = k' := by
  induction calls with
  | nil => cases h
  | cons call calls ih =>
    have hmem : ∀ {j : Bytes}, .set j v ∈ calls → v ∈ givenValues calls := fun {j} hj =>
      List.mem_filterMap.mpr ⟨_, hj, rfl⟩
    have hrest : (givenValues calls).Nodup := by
      rw [givenValues, List.filterMap_cons] at hdistinct
      cases hg : call.given with
      | none => simpa [hg, givenValues] using hdistinct
      | some w =>
        rw [hg] at hdistinct
        exact (List.nodup_cons.mp hdistinct).2
    rcases List.mem_cons.mp h with rfl | hk
    · have hnot : v ∉ givenValues calls := (List.nodup_cons.mp hdistinct).1
      rcases List.mem_cons.mp h' with he | hk'
      · cases he
        rfl
      · exact (hnot (hmem hk')).elim
    · rcases List.mem_cons.mp h' with rfl | hk'
      · exact ((List.nodup_cons.mp hdistinct).1 (hmem hk)).elim
      · exact ih hrest hk hk'

/-- How the values given so far are accounted for. -/
structure Accounted (calls : List (DictCall α)) (l : Ledger α) : Prop where
  /-- No value was returned twice, given to the callback twice, or both. -/
  once : (l.returned ++ l.freed).Nodup
  /-- What was returned or given to the callback had been accepted and is not stored. -/
  gone : ∀ v ∈ l.returned ++ l.freed, v ∈ givenValues calls ∧ ∀ k, ¬ Stored l.dict k v
  /-- Every accepted value is stored under its key and no other, or it is gone. -/
  kept : ∀ k v, .set k v ∈ calls → (∀ j, Stored l.dict j v ↔ j = cStr k) ∨ v ∈ l.returned ++ l.freed

theorem DictT.Inv.mem_values {d : DictT α} (h : d.Inv) {v : α} : v ∈ d.values ↔ ∃ k, Stored d k v := by
  rw [values, mem_mapTotal]
  constructor
  · rintro ⟨k, w, hl, hw⟩
    obtain rfl := Multiset.mem_singleton.mp hw
    exact ⟨k, h.mem_entries_iff.mp (h.lookup_iff.mp hl)⟩
  · rintro ⟨k, hs⟩
    exact ⟨k, v, h.lookup_iff.mpr (h.mem_entries_iff.mpr hs), Multiset.mem_singleton_self v⟩

theorem LedgerInv.accounted {calls : List (DictCall α)} {l : Ledger α} (h : LedgerInv calls l)
    (hdistinct : (givenValues calls).Nodup) : Accounted calls l := by
  have hb := h.balance
  rw [Multiset.coe_add] at hb
  have hnodup : (l.dict.values + (l.returned ++ l.freed : List α)).Nodup := by
    rw [hb]
    exact Multiset.coe_nodup.mpr hdistinct
  obtain ⟨-, honce, hdisjoint⟩ := Multiset.nodup_add.mp hnodup
  have hmem : ∀ v, v ∈ givenValues calls ↔ v ∈ l.dict.values ∨ v ∈ l.returned ++ l.freed := by
    intro v
    rw [← Multiset.mem_coe, ← hb, Multiset.mem_add, Multiset.mem_coe]
  refine ⟨Multiset.coe_nodup.mp honce, fun v hv => ⟨(hmem v).mpr (.inr hv), fun k hs => ?_⟩, fun k v hset => ?_⟩
  · exact Multiset.disjoint_left.mp hdisjoint (h.dict.mem_values.mpr ⟨k, hs⟩) hv
  · have hgiven : v ∈ givenValues calls := List.mem_filterMap.mpr ⟨_, hset, rfl⟩
    refine ((hmem v).mp hgiven).imp_left fun hv => ?_
    -- a key that holds the value is the one of the call that stored it
    have hkey : ∀ j, Stored l.dict j v → j = cStr k := by
      intro j hs
      obtain ⟨k₀, hset₀, rfl⟩ := h.source j v (h.dict.lookup_iff.mpr (h.dict.mem_entries_iff.mpr hs))
      rw [set_unique hdistinct hset₀ hset]
    obtain ⟨j, hs⟩ := h.dict.mem_values.mp hv
    refine fun i => ⟨hkey i, fun hi => ?_⟩
    rw [hi, ← hkey j hs]
    exact hs

/-- Along every history of a dictionary with a callback the values are accounted for, and after
`dict_free` each has been returned or given to the callback exactly once. -/
theorem dict_values_accounted (calls : List (DictCall α)) (hdistinct : (givenValues calls).Nodup) :
    ∃ l, runCalls calls = .ok l ∧ Accounted calls l ∧
      ∃ vs, dictFree l.dict = .ok vs ∧ (l.returned ++ (l.freed ++ vs)).Perm (givenValues calls) := by
  obtain ⟨l, hr, h⟩ := runCalls_inv calls
  obtain ⟨d, hclear, -⟩ := dictClear_spec h.dict
  rw [h.freeCb, if_pos rfl] at hclear
  refine ⟨l, hr, h.accounted hdistinct, l.dict.entries.map Prod.snd, by simp [dictFree, hclear], ?_⟩
  rw [← Multiset.coe_eq_coe, ← h.balance, h.dict.values_eq, ← Multiset.coe_add, ← Multiset.coe_add]
  abel

/-- One value is overwritten, one returned and one left for `dict_free`. -/
theorem dict_values_accounted_three :
    ∃ l, runCalls [.set [97] 1, .set [97] 2, .set [98] 3, .del [98]] = .ok l ∧
      ∃ vs, dictFree l.dict = .ok vs ∧ (l.returned ++ (l.freed ++ vs)).Perm [1, 2, 3] := by
  obtain ⟨l, hr, -, hfree⟩ :=
    dict_values_accounted [.set [97] 1, .set [97] 2, .set [98] 3, .del [98]] (by decide)
  exact ⟨l, hr, hfree⟩

end RhinoRox
