import RhinoRox.FtsRanking
import RhinoRox.StoreCommands

/-!
# Commands on collections and the commands of the store

The handlers of tries, heaps and document sets against the commands of the store: absent keys and
keys of another type are treated once for all collections.
-/

namespace RhinoRox

open FiniteMaps Store

/-! ## Collections -/

/-- A kind of collection: how the handlers select it and what it stands for. -/
structure CollectionKind {γ δ : Type} (select : ObjVal → Option γ) (wrap : δ → Value) (view : γ → δ) : Prop where
  selected : ∀ val x, select val = some x → val.value = wrap (view x)
  other : ∀ val, select val = none → ∀ y, val.value ≠ wrap y
  injective : Function.Injective wrap

theorem trieKind : CollectionKind ObjVal.hash? Value.trie fun d => mapValues StrObj.text d.toMap where
  selected val d hx := by
    rw [hash?_eq hx]
    rfl
  other val hx y he := by
    cases val <;> cases he
    cases hx
  injective _ _ := Value.trie.inj

theorem queueKind : CollectionKind ObjVal.heapq? Value.queue fun heap => heap.toMultiset.map HqItem.plain where
  selected val heap hx := by
    rw [heapq?_eq hx]
    rfl
  other val hx y he := by
    cases val <;> cases he
    cases hx
  injective _ _ := Value.queue.inj

theorem documentKind : CollectionKind ObjVal.fts? Value.documents Fts.table where
  selected val f hx := by
    rw [fts?_eq hx]
    rfl
  other val hx y he := by
    cases val <;> cases he
    cases hx
  injective _ _ := Value.documents.inj

section Collections
variable {γ δ : Type} {select : ObjVal → Option γ} {wrap : δ → Value} {view : γ → δ} {db : Keyspace}
  {others : Multiset ℕ} {key : StrObj} {new : Prop}

/-- What a command does to a collection of its kind decides what it does to a key. -/
theorem Handles.onCollection (hkind : CollectionKind select wrap view) {act : δ → δ → Reply → Prop} {crash : δ → Prop}
    (h : db.Inv others) (hkey : sdsEncodedObject key.enc = true) {run : Robj → γ → CmdRun}
    (here : ∀ a val x, db.dict.toMap.lookup key.key = some ⟨a, val⟩ → select val = some x →
      Handles (fun v r => ∃ y, v = some (wrap y) ∧ act (view x) y r) new (crash (view x)) db key.key
        (onCollection select db key run)) :
    Handles (OnExisting wrap act (db.store.lookup key.key)) new
      (∃ y, db.store.lookup key.key = some (wrap y) ∧ crash y) db key.key (onCollection select db key run) := by
  have hlookup := db.lookup_store key.key
  rcases hl : db.dict.toMap.lookup key.key with _ | ⟨a, val⟩
  · rw [hl, Option.map_none] at hlookup
    have hrun : RhinoRox.onCollection select db key run = .ok (db, replyAddBulkObj Shared.nullbulk) := by
      simp only [RhinoRox.onCollection, rrDbLookup_spec h hkey, Exec.ok_bind, hl, Exec.pure_eq]
    refine .read hrun ?_ sent_absent ?_
    · rw [hlookup]
      exact .absent
    · rintro ⟨y, hy, -⟩
      rw [hlookup] at hy
      cases hy
  · rw [hl, Option.map_some] at hlookup
    rcases hx : select val with _ | x
    · have hrun : RhinoRox.onCollection select db key run = .ok (db, [.obj Shared.wrongtypeerr]) := by
        simp only [RhinoRox.onCollection, rrDbLookup_spec h hkey, Exec.ok_bind, hl, hx, Exec.pure_eq]
      refine .read hrun ?_ sent_wrongType ?_
      · rw [hlookup]
        exact .wrongType (hkind.other val hx)
      · rintro ⟨y, hy, -⟩
        rw [hlookup] at hy
        exact hkind.other val hx y (Option.some.inj hy)
    · rw [hkind.selected val x hx] at hlookup
      refine (here a val x hl hx).imp ?_ ?_
      · rintro v r ⟨y, rfl, hact⟩
        rw [hlookup]
        exact .here hact
      · rw [hlookup]
        constructor
        · intro hc
          exact ⟨view x, rfl, hc⟩
        · rintro ⟨y, hy, hc⟩
          rwa [hkind.injective (Option.some.inj hy)]

/-- A command on a collection that only reads it. -/
theorem Handles.readHere (hkind : CollectionKind select wrap view) {act : δ → δ → Reply → Prop} {crash : Prop} {a : ℕ}
    {val : ObjVal} {x : γ} (hl : db.dict.toMap.lookup key.key = some ⟨a, val⟩) (hx : select val = some x) {run : CmdRun}
    {replies : List ReplyCall} {r : Reply} (hr : run = .ok (db, replies)) (ha : act (view x) (view x) r)
    (hsent : replies.flatMap ReplyCall.payload = r.encode) (hc : ¬ crash) :
    Handles (fun v r => ∃ y, v = some (wrap y) ∧ act (view x) y r) new crash db key.key run := by
  refine .read hr ⟨view x, ?_, ha⟩ hsent hc
  rw [Keyspace.lookup_store, hl, Option.map_some, hkind.selected val x hx]

end Collections

/-! ## Tries -/

section Tries
variable {db : Keyspace} {others : Multiset ℕ} {key field : StrObj} {new : Prop}

/-- The replies for one pair. -/
def pairSent (flags : DictFlags) (kv : Bytes × StrObj) : List ReplyCall :=
  (if flags.key then replyAddBulkCstr (some kv.1) else []) ++ if flags.val then replyAddBulkObj kv.2.enc else []

theorem pairReplies_spec (flags : DictFlags) {kvs : List (Bytes × StrObj)}
    (h : ∀ kv ∈ kvs, ∃ n, refcount db.refs kv.2.addr = .ok n) :
    pairReplies db flags kvs = .ok (kvs.flatMap (pairSent flags)) := by
  induction kvs with
  | nil => rfl
  | cons kv kvs ih =>
    obtain ⟨n, hn⟩ := h kv List.mem_cons_self
    have hpair : pairReply db flags kv = .ok (pairSent flags kv) := by
      rw [pairReply, pairSent]
      split
      · simp only [bulkReply, hn, Exec.ok_bind, Exec.pure_eq]
      · simp only [List.append_nil, Exec.pure_eq]
    simp only [pairReplies, hpair, ih fun kv' hkv' => h kv' (List.mem_cons_of_mem kv hkv'), Exec.ok_bind, Exec.pure_eq,
      List.flatMap_cons]

/-- What is shown of a pair. -/
def pairShown (flags : DictFlags) (e : Bytes × Bytes) : List Bytes :=
  (if flags.key then [e.1] else []) ++ if flags.val then [e.2] else []

theorem length_pairShown (flags : DictFlags) (xs : List (Bytes × Bytes)) :
    xs.length * flags.multiplier = (xs.flatMap (pairShown flags)).length := by
  induction xs with
  | nil => simp
  | cons x xs ih =>
    have hone : (pairShown flags x).length = flags.multiplier := by
      obtain ⟨k, v⟩ := flags
      cases k <;> cases v <;> rfl
    rw [List.flatMap_cons, List.length_append, ← ih, hone, List.length_cons, Nat.add_mul, Nat.one_mul, Nat.add_comm]

/-- The keys of a trie hold no NUL, so they are sent in full. -/
theorem sent_pairs (flags : DictFlags) {kvs : List (Bytes × StrObj)} (hkeys : ∀ kv ∈ kvs, 0 ∉ kv.1) :
    (kvs.flatMap (pairSent flags)).flatMap ReplyCall.payload =
      encodeArgs ((kvs.map (Prod.map id StrObj.text)).flatMap (pairShown flags)) := by
  induction kvs with
  | nil => rfl
  | cons kv kvs ih =>
    have hpair : (pairSent flags kv).flatMap ReplyCall.payload = encodeArgs (pairShown flags (Prod.map id StrObj.text kv)) := by
      have hkey := sent_key kv.1
      rw [cStr_of_notMem (hkeys kv List.mem_cons_self)] at hkey
      obtain ⟨k, v⟩ := flags
      rw [pairSent, List.flatMap_append]
      cases k <;> cases v <;> simp [pairShown, hkey, replyAddBulkObj_payload, encodeArgs, StrObj.text]
    rw [List.flatMap_cons, List.flatMap_append, hpair, ih fun kv' hkv' => hkeys kv' (List.mem_cons_of_mem kv hkv'),
      List.map_cons, List.flatMap_cons, encodeArgs_append]

/-- The answer with the pairs of a list. -/
theorem sent_pairArray (flags : DictFlags) {kvs : List (Bytes × StrObj)} (hkeys : ∀ kv ∈ kvs, 0 ∉ kv.1) :
    (replyAddMultiBulkLen (kvs.length * flags.multiplier) ++ kvs.flatMap (pairSent flags)).flatMap ReplyCall.payload =
      (Reply.array ((kvs.map (Prod.map id StrObj.text)).flatMap (pairShown flags))).encode := by
  refine sent_array ?_ (sent_pairs flags hkeys)
  rw [← length_pairShown, List.length_map]

/-! `array_at` finds every pair unless their number does not fit an `int`. -/

theorem arrayAtAll_ok {kvs : List (Bytes × StrObj)} (hsmall : kvs.length < 2 ^ 31) {is : List ℕ}
    (his : ∀ i ∈ is, i < kvs.length) : arrayAtAll kvs is = .ok (is.map fun i => kvs.getD i ([], ⟨0, .int 0⟩)) := by
  induction is with
  | nil => rfl
  | cons i is ih =>
    have hi := his i List.mem_cons_self
    have hnarrow : toInt32 (kvs.length : ℤ) = kvs.length := toInt32_of_lt (by omega) (by omega)
    have hat : arrayAt (⟨kvs.length, 0, kvs.map some⟩ : ArrayT (Bytes × StrObj)) i = some i := by
      simp only [arrayAt, hnarrow]
      rw [if_neg (by omega), if_pos (by omega)]
      rfl
    simp only [arrayAtAll, hat, arrayLoad, List.getElem?_map, List.getElem?_eq_getElem hi, Option.map_some, Exec.pure_eq,
      Exec.ok_bind, ih fun j hj => his j (List.mem_cons_of_mem i hj), List.map_cons, List.getD_eq_getElem?_getD,
      Option.getD_some]

theorem arrayAtAll_error {kvs : List (Bytes × StrObj)} {is : List ℕ} {i : ℕ} (hi : i ∈ is)
    (hout : toInt32 kvs.length ≤ i) : ∃ e, arrayAtAll kvs is = .error e := by
  induction is with
  | nil => cases hi
  | cons j is ih =>
    rw [arrayAtAll]
    cases hload : arrayLoad (⟨kvs.length, 0, kvs.map some⟩ : ArrayT (Bytes × StrObj))
        (arrayAt (⟨kvs.length, 0, kvs.map some⟩ : ArrayT (Bytes × StrObj)) j) with
    | error e => exact ⟨e, rfl⟩
    | ok kv =>
      rcases List.mem_cons.mp hi with rfl | hi
      · rw [arrayAt, if_pos (Or.inl hout), arrayLoad] at hload
        cases hload
      · obtain ⟨e, he⟩ := ih hi
        exact ⟨e, by simp [he]⟩

theorem arrayAtAll_range (kvs : List (Bytes × StrObj)) :
    (kvs.length < 2 ^ 31 → arrayAtAll kvs (List.range kvs.length) = .ok kvs) ∧
    (2 ^ 31 ≤ kvs.length → ∃ e, arrayAtAll kvs (List.range kvs.length) = .error e) := by
  constructor
  · intro hsmall
    rw [arrayAtAll_ok hsmall fun i hi => List.mem_range.mp hi]
    congr 1
    apply List.ext_getElem
    · simp
    · intro i h₁ h₂
      simp [h₂]
  · intro hbig
    -- an index below the number of pairs that is not below that number as an `int`
    have hcast : toInt32 kvs.length < 2 ^ 31 := Int32.toInt_lt _
    refine arrayAtAll_error (i := (toInt32 kvs.length).toNat) (List.mem_range.mpr ?_) ?_
    · omega
    · omega

/-- `get_all`. -/
theorem getAllReply_spec (h : db.Inv others) (hkey : sdsEncodedObject key.enc = true) (flags : DictFlags) {a : ℕ}
    {trie : DictT StrObj} (hl : db.dict.toMap.lookup key.key = some ⟨a, .hash trie⟩) :
    (trie.size < 2 ^ 31 → getAllReply db key flags =
      .ok (db, replyAddMultiBulkLen (trie.entries.length * flags.multiplier) ++ trie.entries.flatMap (pairSent flags))) ∧
    (2 ^ 31 ≤ trie.size → ∃ e, getAllReply db key flags = .error e) := by
  have htrie : trie.Inv := (h.stored _ _ hl).1
  have hsel : ObjVal.hash? (.hash trie) = some trie := rfl
  obtain ⟨it, hit, hall⟩ := dictIterCreate_spec htrie
  obtain ⟨hsmall, hbig⟩ := arrayAtAll_range trie.entries
  have hlive : ∀ kv ∈ trie.entries, ∃ n, refcount db.refs kv.2.addr = .ok n := fun kv hkv =>
    h.mem_held hl (Multiset.mem_cons_of_mem (mem_hash_held (htrie.lookup_iff.mpr hkv)))
  rw [getAllReply, onCollection_of_lookup h hkey hl hsel, htrie.size_eq]
  simp only [hit, Exec.ok_bind, hall]
  constructor
  · intro hlen
    simp only [hsmall hlen, Exec.ok_bind, pairReplies_spec flags hlive, Exec.pure_eq]
  · intro hlen
    obtain ⟨e, he⟩ := hbig hlen
    exact ⟨e, by rw [he]; rfl⟩

variable {G : Type} {ρ : Rules G} [AddCommGroup G] [LE G]

/-- The abstract trie at a key and the trie of the code. -/
theorem lookup_trie (trie : DictT StrObj) (f : Bytes) :
    (mapValues StrObj.text trie.toMap).lookup f = (trie.toMap.lookup f).map StrObj.text := lookup_mapValues _ _ _

theorem card_trie {trie : DictT StrObj} (h : trie.Inv) : (mapValues StrObj.text trie.toMap).keys.card = trie.size := by
  rw [keys_mapValues, h.card_keys]

theorem rrCmdRget_handles (h : db.Inv others) (hkey : sdsEncodedObject key.enc = true)
    (hfield : sdsEncodedObject field.enc = true) :
    Handles ((KeyCommand.trie (.rget field.key)).Acts ρ (db.store.lookup key.key)) new
      ((KeyCommand.trie (.rget field.key)).Crashes ρ (db.store.lookup key.key)) db key.key (rrCmdRget db key field) := by
  refine .onCollection trieKind h hkey fun a val trie hl hx => ?_
  obtain rfl := hash?_eq hx
  refine .readHere trieKind hl hx (rrCmdRget_spec h hkey hfield hl) ⟨rfl, rfl⟩ ?_ id
  rw [lookup_trie]
  cases trie.toMap.lookup field.key with
  | none => exact sent_nullbulk
  | some v => exact sent_bulk v.enc

theorem rrCmdRexists_handles (h : db.Inv others) (hkey : sdsEncodedObject key.enc = true)
    (hfield : sdsEncodedObject field.enc = true) :
    Handles ((KeyCommand.trie (.rexists field.key)).Acts ρ (db.store.lookup key.key)) new
      ((KeyCommand.trie (.rexists field.key)).Crashes ρ (db.store.lookup key.key)) db key.key
      (rrCmdRexists db key field) := by
  refine .onCollection trieKind h hkey fun a val trie hl hx => ?_
  obtain rfl := hash?_eq hx
  refine .readHere trieKind hl hx (rrCmdRexists_spec h hkey hfield hl) ⟨rfl, rfl⟩ ?_ id
  rw [lookup_trie, Option.isSome_map]
  exact sent_flag _

theorem rrCmdRlen_handles (h : db.Inv others) (hkey : sdsEncodedObject key.enc = true) :
    Handles ((KeyCommand.trie .rlen).Acts ρ (db.store.lookup key.key)) new
      ((KeyCommand.trie .rlen).Crashes ρ (db.store.lookup key.key)) db key.key (rrCmdRlen db key) := by
  refine .onCollection trieKind h hkey fun a val trie hl hx => ?_
  rw [onCollection_of_lookup h hkey hl hx]
  obtain rfl := hash?_eq hx
  refine .readHere trieKind hl hx rfl ⟨rfl, rfl⟩ ?_ id
  rw [card_trie (h.stored _ _ hl).1]
  exact sent_integer _

/-- RKEYS, RVALUES and RGETALL. -/
theorem getAllReply_handles {c : TrieCommand} (flags : DictFlags)
    (hacts : ∀ m xs, Lists xs m → c.Acts m m (.array (xs.flatMap (pairShown flags))))
    (hcrash : ∀ m, c.Crashes m ↔ 2 ^ 31 ≤ m.keys.card) (h : db.Inv others) (hkey : sdsEncodedObject key.enc = true) :
    Handles ((KeyCommand.trie c).Acts ρ (db.store.lookup key.key)) new
      ((KeyCommand.trie c).Crashes ρ (db.store.lookup key.key)) db key.key (getAllReply db key flags) := by
  refine .onCollection trieKind h hkey fun a val trie hl hx => ?_
  obtain rfl := hash?_eq hx
  have htrie : trie.Inv := (h.stored _ _ hl).1
  obtain ⟨hsmall, hbig⟩ := getAllReply_spec h hkey flags hl
  rw [hcrash, card_trie htrie]
  rcases Nat.lt_or_ge trie.size (2 ^ 31) with hlt | hge
  · refine .readHere trieKind hl hx (hsmall hlt) (hacts _ _ (htrie.lists.map StrObj.text)) ?_ (Nat.not_le.mpr hlt)
    exact sent_pairArray flags fun kv hkv => htrie.nulFree kv.1 (List.mem_map_of_mem hkv)
  · obtain ⟨e, he⟩ := hbig hge
    exact .error he hge

theorem pairShown_keys (xs : List (Bytes × Bytes)) : xs.flatMap (pairShown ⟨true, false⟩) = xs.map Prod.fst := by
  rw [List.map_eq_flatMap]
  rfl

theorem pairShown_values (xs : List (Bytes × Bytes)) : xs.flatMap (pairShown ⟨false, true⟩) = xs.map Prod.snd := by
  rw [List.map_eq_flatMap]
  rfl

theorem rrCmdRkeys_handles (h : db.Inv others) (hkey : sdsEncodedObject key.enc = true) :
    Handles ((KeyCommand.trie .rkeys).Acts ρ (db.store.lookup key.key)) new
      ((KeyCommand.trie .rkeys).Crashes ρ (db.store.lookup key.key)) db key.key (rrCmdRkeys db key) :=
  getAllReply_handles ⟨true, false⟩ (fun _ xs hxs => ⟨rfl, xs, hxs, by rw [pairShown_keys]⟩) (fun _ => Iff.rfl) h hkey

theorem rrCmdRvalues_handles (h : db.Inv others) (hkey : sdsEncodedObject key.enc = true) :
    Handles ((KeyCommand.trie .rvalues).Acts ρ (db.store.lookup key.key)) new
      ((KeyCommand.trie .rvalues).Crashes ρ (db.store.lookup key.key)) db key.key (rrCmdRvalues db key) :=
  getAllReply_handles ⟨false, true⟩ (fun _ xs hxs => ⟨rfl, xs, hxs, by rw [pairShown_values]⟩) (fun _ => Iff.rfl) h hkey

theorem rrCmdRgetall_handles (h : db.Inv others) (hkey : sdsEncodedObject key.enc = true) :
    Handles ((KeyCommand.trie .rgetall).Acts ρ (db.store.lookup key.key)) new
      ((KeyCommand.trie .rgetall).Crashes ρ (db.store.lookup key.key)) db key.key (rrCmdRgetall db key) :=
  getAllReply_handles ⟨true, true⟩ (fun _ xs hxs => ⟨rfl, xs, hxs, rfl⟩) (fun _ => Iff.rfl) h hkey

/-- There is an answer to a prefix query exactly if the query does not crash. -/
theorem prefixServed_iff {trie : DictT StrObj} (htrie : trie.Inv) (pre : StrObj) :
    PrefixServed trie pre.enc.bytes ↔ ¬ (TrieCommand.rpget pre.key).Crashes (mapValues StrObj.text trie.toMap) := by
  have hmatch : (∃ k v, trie.toMap.lookup k = some v ∧ pre.key <+: k) ↔
      ∃ k v, (mapValues StrObj.text trie.toMap).lookup k = some v ∧ pre.key <+: k := by
    constructor
    · rintro ⟨k, v, hv, hk⟩
      exact ⟨k, v.text, by rw [lookup_trie, hv]; rfl, hk⟩
    · rintro ⟨k, w, hw, hk⟩
      rw [lookup_trie] at hw
      obtain ⟨v, hv, -⟩ := Option.map_eq_some_iff.mp hw
      exact ⟨k, v, hv, hk⟩
  have hzero : dictLength trie = 0 ↔ (mapValues StrObj.text trie.toMap).keys.card = 0 := by
    rw [card_trie htrie]
    rfl
  rw [PrefixServed, hzero]
  change _ ∨ (∃ k v, trie.toMap.lookup k = some v ∧ pre.key <+: k) ↔ _
  rw [hmatch, TrieCommand.Crashes]
  simp only [not_and_or, not_not, not_forall, exists_prop]

theorem rrCmdRpget_handles {pre : StrObj} (h : db.Inv others) (hkey : sdsEncodedObject key.enc = true)
    (hpre : sdsEncodedObject pre.enc = true) :
    Handles ((KeyCommand.trie (.rpget pre.key)).Acts ρ (db.store.lookup key.key)) new
      ((KeyCommand.trie (.rpget pre.key)).Crashes ρ (db.store.lookup key.key)) db key.key (rrCmdRpget db key pre) := by
  refine .onCollection trieKind h hkey fun a val trie hl hx => ?_
  obtain rfl := hash?_eq hx
  have htrie : trie.Inv := (h.stored _ _ hl).1
  obtain ⟨hserved, hnone⟩ := rrCmdRpget_spec h hkey hpre hl
  by_cases hs : PrefixServed trie pre.enc.bytes
  · have hrun := hserved hs
    have hreplies : rpgetReplies (trie.withPrefix (cStr pre.enc.bytes)) =
        replyAddMultiBulkLen ((trie.withPrefix pre.key).length * (⟨true, true⟩ : DictFlags).multiplier) ++
          (trie.withPrefix pre.key).flatMap (pairSent ⟨true, true⟩) := by
      rw [rpgetReplies, Nat.mul_comm]
      rfl
    rw [hreplies] at hrun
    refine .readHere trieKind hl hx hrun ⟨rfl, _, htrie.lists.map StrObj.text, rfl⟩ ?_ ((prefixServed_iff htrie pre).mp hs)
    rw [sent_pairArray _ fun kv hkv => ?_, DictT.withPrefix_view]
    · rfl
    · exact htrie.nulFree kv.1 (List.mem_map_of_mem (List.mem_of_mem_filter hkv))
  · exact .error (hnone hs) (not_not.mp fun hc => hs ((prefixServed_iff htrie pre).mpr hc))

theorem rrCmdRdel_handles (h : db.Inv others) (hkey : sdsEncodedObject key.enc = true)
    (hfield : sdsEncodedObject field.enc = true) :
    Handles ((KeyCommand.trie (.rdel field.key)).Acts ρ (db.store.lookup key.key)) new
      ((KeyCommand.trie (.rdel field.key)).Crashes ρ (db.store.lookup key.key)) db key.key (rrCmdRdel db key field) := by
  refine .onCollection trieKind h hkey fun a val trie hl hx => ?_
  obtain rfl := hash?_eq hx
  have hspec := rrCmdRdel_spec h hkey hfield hl
  rcases hv : trie.toMap.lookup field.key with _ | v
  · rw [hv] at hspec
    exact .error hspec (by rw [TrieCommand.Crashes, lookup_trie, hv]; rfl)
  · rw [hv] at hspec
    obtain ⟨db', trie', hr, -, hm, hdict, htasks, -⟩ := hspec
    have hup : Updated db db' key.key ⟨a, .hash trie'⟩ := .of_insert hdict htasks
    refine .ok hr ⟨mapValues StrObj.text trie'.toMap, rfl, ?_, rfl⟩ hup.store ?_ ?_
    · rw [hm, mapValues_erase]
    · rw [lookup_trie, hv]
      exact sent_flag true
    · rw [TrieCommand.Crashes, lookup_trie, hv]
      nofun

/-- RSET on whatever the key holds. -/
theorem rrCmdRset_handles {H : Type} (env : ServerEnv H) {val : StrObj} (h : db.Inv (val.addr ::ₘ others))
    (hkey : sdsEncodedObject key.enc = true) (hfield : sdsEncodedObject field.enc = true)
    (hval : sdsEncodedObject val.enc = true) :
    Handles ((KeyCommand.rset field.key val.text).Acts ρ (db.store.lookup key.key)) new
      ((KeyCommand.rset field.key val.text).Crashes ρ (db.store.lookup key.key)) db key.key
      (outcome (rrCmdRset env db key field val)) := by
  by_cases htype : ∀ o, db.dict.toMap.lookup key.key = some o → ∃ trie, o.val = .hash trie
  · obtain ⟨db', val', a, trie, trie', hr, -, hbytes, hup, hm, hwas⟩ := rrCmdRset_spec env h hkey hfield hval htype
    have hnew : (ObjVal.hash trie').value = .trie ((mapValues StrObj.text trie.toMap).insert field.key val.text) := by
      have htext : StrObj.text val' = val.text := hbytes
      rw [ObjVal.value, hm, mapValues_insert, htext]
    have hrun : outcome (rrCmdRset env db key field val) = .ok (db', [.obj Shared.ok]) := by
      rw [outcome, hr]
      rfl
    refine .ok hrun ?_ hup.store sent_ok id
    rw [Keyspace.lookup_store, hnew]
    rcases hwas with hwas | ⟨hwas, hempty⟩
    · rw [hwas]
      exact .here _
    · rw [hwas, hempty]
      exact .absent
  · simp only [not_forall, not_exists] at htype
    obtain ⟨o, hl, hne⟩ := htype
    refine .read (by rw [outcome, rrCmdRset_wrongtype env field val h hkey hl hne]; rfl) ?_ sent_wrongType id
    rw [Keyspace.lookup_store, hl]
    refine .wrongType (trieKind.other o.val ?_)
    cases hval : o.val with
    | hash trie => exact absurd hval (hne trie)
    | _ => rfl

end Tries

end RhinoRox
