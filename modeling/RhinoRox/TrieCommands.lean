import RhinoRox.DictIteration
import RhinoRox.DictRefinement
import RhinoRox.StoredValues

/-!
# Prefix queries and deletions in tries

`dict_get_prefix` makes an iterator from the subtree of the prefix and the size of the whole
dictionary. If the dictionary is not empty but no key matches, the subtree is the empty node
and the iterator starts by following its `NULL` child. RDEL hands what `dict_del` returns to
the callback that drops a reference, also when that is `NULL`.
-/

namespace RhinoRox

open CritBitTree

variable {α : Type}

/-- The pairs whose key starts with a prefix, in ascending order of the keys and hence each
once. -/
structure PrefixAnswer (d : DictT α) (pre : Bytes) (kvs : List (Bytes × α)) : Prop where
  mem_iff : ∀ k v, (k, v) ∈ kvs ↔ d.toMap.lookup k = some v ∧ cStr pre <+: k
  sorted : kvs.Pairwise fun e e' => e.1 < e'.1

/-- The dictionary is empty or some key starts with the prefix. -/
def PrefixServed (d : DictT α) (pre : Bytes) : Prop :=
  dictLength d = 0 ∨ ∃ k v, d.toMap.lookup k = some v ∧ cStr pre <+: k

theorem DictT.Inv.prefixAnswer {d : DictT α} (h : d.Inv) (pre : Bytes) :
    PrefixAnswer d pre (d.withPrefix (cStr pre)) where
  mem_iff k v := by
    rw [DictT.withPrefix, List.mem_filter, h.lookup_iff, List.isPrefixOf_iff_prefix]
  sorted := h.sorted.filter _

theorem DictT.Inv.served_iff {d : DictT α} (h : d.Inv) (pre : Bytes) :
    PrefixServed d pre ↔ d.size = 0 ∨ d.withPrefix (cStr pre) ≠ [] := by
  refine or_congr Iff.rfl ?_
  constructor
  · rintro ⟨k, v, hkv⟩
    exact List.ne_nil_of_mem (((h.prefixAnswer pre).mem_iff k v).mpr hkv)
  · intro hne
    obtain ⟨⟨k, v⟩, hkv⟩ := List.exists_mem_of_ne_nil _ hne
    exact ⟨k, v, ((h.prefixAnswer pre).mem_iff k v).mp hkv⟩

/-- The iterator of a prefix query, and the only case in which there is none. -/
theorem dictGetPrefix_spec {d : DictT α} (h : d.Inv) (pre : Bytes) :
    (PrefixServed d pre →
      ∃ it, dictGetPrefix d pre = .ok it ∧ dictIterAll it = .ok (d.withPrefix (cStr pre))) ∧
    (¬ PrefixServed d pre → dictGetPrefix d pre = .error .nullPointer) := by
  obtain ⟨n, hr, hv, he⟩ := getPrefix_spec h (zero_notMem_cStr pre)
  have hrun : dictGetPrefix d pre = iterCreate n d.size := by simp [dictGetPrefix, hr]
  rw [hrun, h.served_iff pre]
  constructor
  · rintro (hz | hne)
    · refine ⟨⟨[]⟩, by simp [iterCreate, hz], ?_⟩
      have hnil : d.entries = [] := List.length_eq_zero_iff.mp (h.size_eq.symm.trans hz)
      simp [dictIterAll, dictIterRun, dictIterHasnext, DictT.withPrefix, hnil]
    · rw [← he] at hne ⊢
      rcases hv with rfl | hw
      · exact absurd rfl hne
      · refine iterCreate_spec hw fun hz => ?_
        have hnil : d.entries = [] := List.length_eq_zero_iff.mp (h.size_eq.symm.trans hz)
        rw [he, DictT.withPrefix, hnil] at hne
        exact hne rfl
  · intro hno
    rw [not_or, not_not] at hno
    rcases hv with rfl | hw
    · simp [iterCreate, hno.1, pushLeft]
    · exact absurd (he.trans hno.2) hw.entries_ne_nil

/-! ## RPGET -/

/-- The replies for a list of pairs. -/
def rpgetReplies (kvs : List (Bytes × StrObj)) : List ReplyCall :=
  replyAddMultiBulkLen (2 * kvs.length) ++
    kvs.flatMap fun kv => replyAddBulkCstr (some kv.1) ++ replyAddBulkObj kv.2.enc

theorem pairReplies_ok {db : Keyspace} {kvs : List (Bytes × StrObj)}
    (h : ∀ kv ∈ kvs, ∃ n, refcount db.refs kv.2.addr = .ok n) :
    pairReplies db ⟨true, true⟩ kvs =
      .ok (kvs.flatMap fun kv => replyAddBulkCstr (some kv.1) ++ replyAddBulkObj kv.2.enc) := by
  induction kvs with
  | nil => rfl
  | cons kv kvs ih =>
    obtain ⟨n, hn⟩ := h kv List.mem_cons_self
    have hrest := ih fun kv' hkv' => h kv' (List.mem_cons_of_mem kv hkv')
    simp [pairReplies, pairReply, bulkReply, hn, hrest]

theorem rrCmdRpget_spec {db : Keyspace} {others : Multiset ℕ} (h : db.Inv others) {key pre : StrObj}
    (hkey : sdsEncodedObject key.enc = true) (hpre : sdsEncodedObject pre.enc = true) {a : ℕ}
    {trie : DictT StrObj} (hl : db.dict.toMap.lookup key.key = some ⟨a, .hash trie⟩) :
    (PrefixServed trie pre.enc.bytes →
      rrCmdRpget db key pre = .ok (db, rpgetReplies (trie.withPrefix (cStr pre.enc.bytes)))) ∧
    (¬ PrefixServed trie pre.enc.bytes → rrCmdRpget db key pre = .error .nullPointer) := by
  have htrie : trie.Inv := (h.stored _ _ hl).1
  obtain ⟨hserved, hnone⟩ := dictGetPrefix_spec htrie pre.enc.bytes
  have hsel : ObjVal.hash? (.hash trie) = some trie := rfl
  rw [rrCmdRpget, getPrefixReply, onCollection_of_lookup h hkey hl hsel]
  simp only [StrEnc.ptr_of_sds hpre, Exec.ok_bind]
  constructor
  · intro hs
    obtain ⟨it, hit, hall⟩ := hserved hs
    have hlive : ∀ kv ∈ trie.withPrefix (cStr pre.enc.bytes), ∃ n, refcount db.refs kv.2.addr = .ok n := by
      intro kv hkv
      have hv := (((htrie.prefixAnswer pre.enc.bytes).mem_iff kv.1 kv.2).mp hkv).1
      exact h.mem_held hl (Multiset.mem_cons_of_mem (mem_hash_held hv))
    simp [hit, hall, pairReplies_ok hlive, rpgetReplies, DictFlags.multiplier, Nat.mul_comm]
  · intro hs
    rw [hnone hs]
    rfl

/-- Prefix queries of dictionaries and RPGET of tries list exactly the matching pairs unless
the dictionary has keys but none that matches. -/
theorem prefix_query_iff {d : DictT α} (hd : DictReachable d) (pre : Bytes) {G : Type} [AddCommGroup G]
    [LinearOrder G] {s : Server} (hs : s.Reachable G) {key arg : StrObj}
    (hkey : sdsEncodedObject key.enc = true) (harg : sdsEncodedObject arg.enc = true) {a : ℕ}
    {trie : DictT StrObj} (hl : s.db.dict.toMap.lookup key.key = some ⟨a, .hash trie⟩) :
    ((∃ it kvs, dictGetPrefix d pre = .ok it ∧ dictIterAll it = .ok kvs ∧ PrefixAnswer d pre kvs) ↔
      PrefixServed d pre) ∧
    ((∃ kvs, rrCmdRpget s.db key arg = .ok (s.db, rpgetReplies kvs) ∧ PrefixAnswer trie arg.enc.bytes kvs) ↔
      PrefixServed trie arg.enc.bytes) := by
  obtain ⟨leaked, hdb⟩ := hs.inv.db
  obtain ⟨hserved, hnone⟩ := dictGetPrefix_spec hd.inv pre
  obtain ⟨hreply, hcrash⟩ := rrCmdRpget_spec hdb hkey harg hl
  refine ⟨⟨?_, ?_⟩, ⟨?_, ?_⟩⟩
  · rintro ⟨it, kvs, hit, -⟩
    by_contra hno
    rw [hnone hno] at hit
    cases hit
  · intro hyes
    obtain ⟨it, hit, hall⟩ := hserved hyes
    exact ⟨it, _, hit, hall, hd.inv.prefixAnswer pre⟩
  · rintro ⟨kvs, hrun, -⟩
    by_contra hno
    rw [hcrash hno] at hrun
    cases hrun
  · intro hyes
    exact ⟨_, hreply hyes, (hdb.stored _ _ hl).1.prefixAnswer arg.enc.bytes⟩

/-- The key `k` holds a trie with the field `a` alone. -/
def holdsOneField (s : Server) : Bool :=
  match s.db.dict.toMap.lookup (ascii "k") with
  | some ⟨_, .hash trie⟩ => decide (trie.entries.map Prod.fst = [ascii "a"])
  | _ => false

theorem exists_oneField :
    ∃ (s : Server) (a : ℕ) (trie : DictT StrObj) (v : StrObj), s.Reachable ℤ ∧
      s.db.dict.toMap.lookup (ascii "k") = some ⟨a, .hash trie⟩ ∧ trie.entries = [(ascii "a", v)] := by
  have hrun : oneFieldSession.map holdsOneField = .ok true := by decide +kernel
  rcases hs : oneFieldSession with e | s
  · rw [hs] at hrun
    cases hrun
  rw [hs] at hrun
  have hheld : holdsOneField s = true := Except.ok.inj hrun
  rw [holdsOneField] at hheld
  split at hheld
  · rename_i a trie hl
    obtain ⟨⟨f, v⟩, he, rfl⟩ := List.map_eq_singleton_iff.mp (of_decide_eq_true hheld)
    exact ⟨s, a, trie, v, Server.session_reachable bumpServerEnv hs, hl, he⟩
  · cases hheld

theorem DictT.Inv.lookup_one {d : DictT α} (h : d.Inv) {f : Bytes} {v : α} (he : d.entries = [(f, v)]) (k : Bytes) :
    d.toMap.lookup k = if k = f then some v else none := by
  split
  · rename_i hk
    exact h.lookup_iff.mpr (by simp [he, hk])
  · rename_i hk
    rw [Option.eq_none_iff_forall_ne_some]
    intro w hw
    have hmem := h.lookup_iff.mp hw
    rw [he, List.mem_singleton] at hmem
    exact hk (congrArg Prod.fst hmem)

theorem prefix_query_iff_one_key :
    ∃ (s : Server) (trie : DictT StrObj) (kvs : List (Bytes × StrObj)), s.Reachable ℤ ∧
      PrefixServed trie (ascii "a") ∧ PrefixAnswer trie (ascii "a") kvs ∧
      rrCmdRpget s.db ⟨0, .embstr (ascii "k")⟩ ⟨0, .embstr (ascii "a")⟩ = .ok (s.db, rpgetReplies kvs) := by
  obtain ⟨s, a, trie, v, hs, hl, he⟩ := exists_oneField
  obtain ⟨leaked, hdb⟩ := hs.inv.db
  have hlook := (hdb.stored _ _ hl).1.lookup_one he (ascii "a")
  have hserved : PrefixServed trie (ascii "a") := Or.inr ⟨ascii "a", v, hlook, by decide⟩
  have hd : DictReachable (dictCreate : DictT ℕ) := .create
  have hk : sdsEncodedObject (StrObj.mk 0 (.embstr (ascii "k"))).enc = true := rfl
  have ha : sdsEncodedObject (StrObj.mk 0 (.embstr (ascii "a"))).enc = true := rfl
  obtain ⟨kvs, hrun, hanswer⟩ := (prefix_query_iff hd (ascii "a") hs hk ha hl).2.mpr hserved
  exact ⟨s, trie, kvs, hs, hserved, hanswer, hrun⟩

theorem prefix_query_no_match :
    (∃ d : DictT ℕ, DictReachable d ∧ d.entries = [(ascii "a", 1)] ∧
      ¬ ∃ it kvs, dictGetPrefix d (ascii "b") = .ok it ∧ dictIterAll it = .ok kvs ∧
        PrefixAnswer d (ascii "b") kvs) ∧
    ∃ (s : Server) (a : ℕ) (trie : DictT StrObj), s.Reachable ℤ ∧
      s.db.dict.toMap.lookup (ascii "k") = some ⟨a, .hash trie⟩ ∧
      ¬ ∃ kvs, rrCmdRpget s.db ⟨0, .embstr (ascii "k")⟩ ⟨0, .embstr (ascii "b")⟩ =
          .ok (s.db, rpgetReplies kvs) ∧ PrefixAnswer trie (ascii "b") kvs := by
  constructor
  · refine ⟨⟨.leaf (ascii "a") 1, 1, false⟩, .set .create (ascii "a") (some 1) rfl, rfl, ?_⟩
    rintro ⟨it, kvs, hit, -⟩
    cases hit
  · obtain ⟨s, a, trie, v, hs, hl, he⟩ := exists_oneField
    obtain ⟨leaked, hdb⟩ := hs.inv.db
    have htrie := (hdb.stored _ _ hl).1
    refine ⟨s, a, trie, hs, hl, ?_⟩
    have hnot : ¬ PrefixServed trie (ascii "b") := by
      rintro (hz | ⟨k, w, hk, hpre⟩)
      · rw [dictLength, htrie.size_eq, he] at hz
        cases hz
      · rw [htrie.lookup_one he k] at hk
        split at hk
        · rename_i hka
          rw [hka] at hpre
          revert hpre
          decide
        · cases hk
    rintro ⟨kvs, hrun, -⟩
    have hk : sdsEncodedObject (StrObj.mk 0 (.embstr (ascii "k"))).enc = true := rfl
    have hb : sdsEncodedObject (StrObj.mk 0 (.embstr (ascii "b"))).enc = true := rfl
    rw [(rrCmdRpget_spec hdb hk hb hl).2 hnot] at hrun
    cases hrun

/-! ## RDEL -/

/-- The references counted for an object. -/
def references (refs : Refs) (a : ℕ) : ℤ := (refs.lookup a).getD 0

/-- `decrRefCount` of a string drops one reference of it and of no other object. -/
theorem decrString_references {refs refs' : Refs} {o : StrObj} (h : decrString refs o = .ok refs') (a : ℕ) :
    references refs' a = references refs a - if a = o.addr ∧ objSharedIntegers ≤ a then 1 else 0 := by
  rw [decrString, decrRefCountWith] at h
  obtain ⟨n, hn, h⟩ := Exec.bind_eq_ok.mp h
  split at h
  · rename_i hshared
    obtain rfl := Except.ok.inj h
    rw [if_neg (by omega), sub_zero]
  rename_i hprivate
  rw [refcount, if_neg hprivate] at hn
  have hlook : refs.lookup o.addr = some n := by
    rcases hl : refs.lookup o.addr with _ | m
    · rw [hl] at hn
      cases hn
    · rw [hl] at hn
      rw [Except.ok.inj hn]
  by_cases ha : a = o.addr
  · subst ha
    rw [if_pos ⟨rfl, by omega⟩, references, references, hlook]
    split at h
    · rename_i hone
      obtain rfl := Except.ok.inj h
      simp [hone]
    · obtain rfl := Except.ok.inj h
      simp
  · rw [if_neg (by omega), sub_zero, references, references]
    split at h
    · obtain rfl := Except.ok.inj h
      rw [Finmap.lookup_erase_ne ha]
    · obtain rfl := Except.ok.inj h
      rw [Finmap.lookup_insert_of_ne _ ha]

theorem DictT.Inv.size_erase {d d' : DictT α} (h : d.Inv) (h' : d'.Inv) {k : Bytes} (hk : d.toMap.lookup k ≠ none)
    (hm : d'.toMap = d.toMap.erase k) : dictLength d' + 1 = dictLength d := by
  have hkeys : d'.toMap.keys = d.toMap.keys.erase k := by
    ext j
    rw [Finset.mem_erase, Finmap.mem_keys, Finmap.mem_keys, hm, Finmap.mem_erase]
  have hmem : k ∈ d.toMap.keys := by
    rw [Finmap.mem_keys]
    by_contra hno
    exact hk (Finmap.lookup_eq_none.mpr hno)
  have hcard := Finset.card_erase_add_one hmem
  rw [← hkeys, h'.card_keys, h.card_keys] at hcard
  exact hcard

/-- What RDEL should do: a stored field goes, its value loses one reference, and the reply is
one; for any other field nothing changes and the reply is zero. -/
def RdelCorrect (db : Keyspace) (key field : StrObj) (a : ℕ) (trie : DictT StrObj) : Prop :=
  match trie.toMap.lookup field.key with
  | none => rrCmdRdel db key field = .ok (db, [.obj Shared.czero])
  | some v => ∃ db' trie', rrCmdRdel db key field = .ok (db', [.obj Shared.cone]) ∧
      trie'.toMap = trie.toMap.erase field.key ∧ dictLength trie' + 1 = dictLength trie ∧
      db'.dict.toMap = db.dict.toMap.insert key.key ⟨a, .hash trie'⟩ ∧ db'.tasks = db.tasks ∧
      ∀ b, references db'.refs b =
        references db.refs b - if b = v.addr ∧ objSharedIntegers ≤ b then 1 else 0

/-- RDEL does what it should exactly for the fields that are stored. -/
theorem rdel_correct_iff {G : Type} [AddCommGroup G] [LinearOrder G] {s : Server} (hs : s.Reachable G)
    {key field : StrObj} (hkey : sdsEncodedObject key.enc = true) (hfield : sdsEncodedObject field.enc = true)
    {a : ℕ} {trie : DictT StrObj} (hl : s.db.dict.toMap.lookup key.key = some ⟨a, .hash trie⟩) :
    RdelCorrect s.db key field a trie ↔ ∃ v, trie.toMap.lookup field.key = some v := by
  obtain ⟨leaked, hdb⟩ := hs.inv.db
  have hspec := rrCmdRdel_spec hdb hkey hfield hl
  rw [RdelCorrect]
  rcases hv : trie.toMap.lookup field.key with _ | v
  · rw [hv] at hspec
    simp [hspec]
  · rw [hv] at hspec
    obtain ⟨db', trie', hr, h', hm, hdict, htasks, hdecr⟩ := hspec
    have htrie' : trie'.Inv := (h'.stored key.key ⟨a, .hash trie'⟩ (hdict ▸ Finmap.lookup_insert _)).1
    have hsize := (hdb.stored _ _ hl).1.size_erase htrie' (by rw [hv]; simp) hm
    refine iff_of_true ?_ ⟨v, rfl⟩
    exact ⟨db', trie', hr, hm, hsize, hdict, htasks, decrString_references hdecr⟩

theorem rdel_correct_one_field :
    ∃ (s : Server) (a : ℕ) (trie : DictT StrObj), s.Reachable ℤ ∧
      s.db.dict.toMap.lookup (ascii "k") = some ⟨a, .hash trie⟩ ∧
      RdelCorrect s.db ⟨0, .embstr (ascii "k")⟩ ⟨0, .embstr (ascii "a")⟩ a trie := by
  obtain ⟨s, a, trie, v, hs, hl, he⟩ := exists_oneField
  obtain ⟨leaked, hdb⟩ := hs.inv.db
  have hk : sdsEncodedObject (StrObj.mk 0 (.embstr (ascii "k"))).enc = true := rfl
  have ha : sdsEncodedObject (StrObj.mk 0 (.embstr (ascii "a"))).enc = true := rfl
  exact ⟨s, a, trie, hs, hl, (rdel_correct_iff hs hk ha hl).mpr ⟨v, (hdb.stored _ _ hl).1.lookup_one he _⟩⟩

theorem rdel_missing_field :
    ∃ (s : Server) (a : ℕ) (trie : DictT StrObj), s.Reachable ℤ ∧
      s.db.dict.toMap.lookup (ascii "k") = some ⟨a, .hash trie⟩ ∧
      ¬ RdelCorrect s.db ⟨0, .embstr (ascii "k")⟩ ⟨0, .embstr (ascii "b")⟩ a trie := by
  obtain ⟨s, a, trie, v, hs, hl, he⟩ := exists_oneField
  obtain ⟨leaked, hdb⟩ := hs.inv.db
  have hk : sdsEncodedObject (StrObj.mk 0 (.embstr (ascii "k"))).enc = true := rfl
  have hb : sdsEncodedObject (StrObj.mk 0 (.embstr (ascii "b"))).enc = true := rfl
  have hspec := rrCmdRdel_spec hdb hk hb hl
  have hnone : trie.toMap.lookup (StrObj.mk 0 (.embstr (ascii "b"))).key = none :=
    (hdb.stored _ _ hl).1.lookup_one he _
  rw [hnone] at hspec
  refine ⟨s, a, trie, hs, hl, ?_⟩
  rw [RdelCorrect, hnone]
  simp [hspec]

end RhinoRox
