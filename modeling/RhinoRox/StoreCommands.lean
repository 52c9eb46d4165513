import RhinoRox.DocumentRequests
import RhinoRox.ReadingCommands
import RhinoRox.StoreViews
import RhinoRox.TrieCommands

/-!
# Handlers and the commands of the store

Every handler that returns does to the store what its command says and sends that answer. Where a
handler does not return is a property of the value of the key.
-/

namespace RhinoRox

open FiniteMaps Store

/-! ## Where the handlers stop -/

/-- An item whose memory, read as an object, looks like a last reference. -/
def stuck (x : UInt64 × Bytes) : Prop := toInt32 (x.1.toNat / 2 ^ 32) = 1

def Store.TrieCommand.Crashes : TrieCommand → Table Bytes → Prop
  | .rdel field, m => m.lookup field = none
  | .rkeys, m | .rvalues, m | .rgetall, m => 2 ^ 31 ≤ m.keys.card
  | .rpget pre, m => m.keys.card ≠ 0 ∧ ∀ k v, m.lookup k = some v → ¬ pre <+: k
  | .rget _, _ | .rexists _, _ | .rlen, _ => False

def Store.DocumentCommand.Crashes {G : Type} (ρ : Rules G) : DocumentCommand → Table Doc → Prop
  | .dsearch query, m => 2 ^ 31 ≤ (m.keys.filter fun k => (m.lookup k).any fun d => decide (SharesTerm ρ query d)).card
  | _, _ => False

/-- What a command that creates its collection finds. -/
def Created {γ : Type} (wrap : γ → Value) (new : γ) (v : Option Value) (x : γ) : Prop :=
  v = none ∧ x = new ∨ v = some (wrap x)

/-- The values at which the handler of a command does not return. -/
def Store.KeyCommand.Crashes {G : Type} (ρ : Rules G) : KeyCommand → Option Value → Prop
  | .set _, v | .del, v => ∃ q, v = some (.queue q) ∧ ∃ x ∈ q, stuck x
  | .trie c, v => ∃ m, v = some (.trie m) ∧ c.Crashes m
  | .qpush _ _, v => ∃ q, Created .queue 0 v q ∧ 2 ^ 31 ≤ q.card + 1
  | .documents c, v => ∃ m, v = some (.documents m) ∧ c.Crashes ρ m
  | .dset _ d, v => ∃ m, Created .documents ∅ v m ∧ spellsInteger d.title = true
  | .get, _ | .exists, _ | .type, _ | .rset _ _, _ | .queue _, _ => False

/-! ## Runs of handlers -/

/-- The keyspace and the replies of a run, without the arguments. -/
def outcome {α : Type} (run : Exec (Keyspace × α × List ReplyCall)) : CmdRun := run.map fun r => (r.1, r.2.2)

/-- A run changes one key and sends one answer as `acts` says, and it returns unless `crash` holds.
The latter needs new arguments. -/
structure Handles (acts : Option Value → Reply → Prop) (new crash : Prop) (db : Keyspace) (k : Bytes) (run : CmdRun) :
    Prop where
  served : ∀ r, run = .ok r →
    ∃ v a, acts v a ∧ r.1.store = put db.store k v ∧ r.2.flatMap ReplyCall.payload = a.encode
  completes : new → ((∃ r, run = .ok r) ↔ ¬ crash)

namespace Handles
variable {acts : Option Value → Reply → Prop} {new crash : Prop} {db db' : Keyspace} {k : Bytes} {run : CmdRun}
  {replies : List ReplyCall} {a : Reply}

theorem error {e : Fault} (hr : run = .error e) (hc : crash) : Handles acts new crash db k run := by
  refine ⟨fun r h => ?_, fun _ => iff_of_false ?_ (not_not.mpr hc)⟩
  · rw [hr] at h
    cases h
  · rintro ⟨r, h⟩
    rw [hr] at h
    cases h

theorem ok {v : Option Value} (hr : run = .ok (db', replies)) (ha : acts v a) (hstore : db'.store = put db.store k v)
    (hsent : replies.flatMap ReplyCall.payload = a.encode) (hc : ¬ crash) : Handles acts new crash db k run := by
  refine ⟨fun r h => ?_, fun _ => iff_of_true ⟨_, hr⟩ hc⟩
  rw [hr] at h
  obtain rfl := Except.ok.inj h
  exact ⟨v, a, ha, hstore, hsent⟩

theorem read (hr : run = .ok (db, replies)) (ha : acts (db.store.lookup k) a)
    (hsent : replies.flatMap ReplyCall.payload = a.encode) (hc : ¬ crash) : Handles acts new crash db k run :=
  .ok hr ha (put_lookup _ _).symm hsent hc

theorem imp {acts' : Option Value → Reply → Prop} {crash' : Prop} (h : Handles acts new crash db k run)
    (hacts : ∀ v a, acts v a → acts' v a) (hcrash : crash ↔ crash') : Handles acts' new crash' db k run := by
  refine ⟨fun r hr => ?_, fun hnew => (h.completes hnew).trans (not_congr hcrash)⟩
  obtain ⟨v, a, ha, hrest⟩ := h.served r hr
  exact ⟨v, a, hacts v a ha, hrest⟩

end Handles

theorem Updated.store {db db' : Keyspace} {k : Bytes} {o : Robj} (h : Updated db db' k o) :
    db'.store = put db.store k (some o.val.value) := by
  apply eq_put
  · rw [Keyspace.lookup_store, h.lookup]
    rfl
  · intro j hj
    rw [Keyspace.lookup_store, Keyspace.lookup_store, h.frame j hj]

/-! ## What the replies send -/

theorem sent_nullbulk : [ReplyCall.obj Shared.nullbulk].flatMap ReplyCall.payload = Reply.null.encode := by decide

theorem sent_absent : (replyAddBulkObj Shared.nullbulk).flatMap ReplyCall.payload = Reply.absent.encode :=
  replyAddBulkObj_payload _

theorem sent_wrongType : [ReplyCall.obj Shared.wrongtypeerr].flatMap ReplyCall.payload = Reply.wrongType.encode := by
  decide

theorem sent_ok : [ReplyCall.obj Shared.ok].flatMap ReplyCall.payload = Reply.ok.encode := by decide

theorem sent_flag (b : Bool) : [ReplyCall.obj (if b then Shared.cone else Shared.czero)].flatMap ReplyCall.payload =
    (Reply.flag b).encode := by
  have htext : integerText (b.toNat : ℤ) = if b then [49] else [48] := by
    rw [integerText_natCast, decimalText_of_lt (by cases b <;> decide)]
    cases b <;> rfl
  rw [Reply.flag, Reply.encode, htext]
  cases b <;> decide

theorem sent_bulk (o : StrEnc) : (replyAddBulkObj o).flatMap ReplyCall.payload = (Reply.bulk o.bytes).encode :=
  replyAddBulkObj_payload o

theorem sent_integer (n : ℤ) : (replyAddLonglong n).flatMap ReplyCall.payload = (Reply.integer n).encode :=
  replyAddLonglongWithPrefix_payload n 58

theorem encodeArgs_append (xs ys : List Bytes) : encodeArgs (xs ++ ys) = encodeArgs xs ++ encodeArgs ys := by
  simp [encodeArgs]

/-- An array whose elements are sent one by one. -/
theorem sent_array {items : List Bytes} {n : ℕ} {replies : List ReplyCall} (hn : n = items.length)
    (h : replies.flatMap ReplyCall.payload = encodeArgs items) :
    (replyAddMultiBulkLen n ++ replies).flatMap ReplyCall.payload = (Reply.array items).encode := by
  rw [List.flatMap_append, replyAddMultiBulkLen_payload, h, hn]
  rfl

theorem sent_key (s : Bytes) : (replyAddBulkCstr (some s)).flatMap ReplyCall.payload = encodeArg (cStr s) :=
  replyAddBulkCbuf_payload (cStr s)

/-! ## Strings -/

section Strings
variable {G : Type} {ρ : Rules G} {new : Prop} {db : Keyspace} {others : Multiset ℕ} {key : StrObj} [AddCommGroup G] [LE G]

theorem sent_get (o : Option Robj) :
    (getReply o).flatMap ReplyCall.payload = (Store.getReply (o.map fun o => o.val.value)).encode := by
  cases o with
  | none => exact sent_nullbulk
  | some o =>
    obtain ⟨a, val⟩ := o
    cases val with
    | string enc => exact sent_bulk enc
    | _ => exact sent_wrongType

theorem rrCmdGet_handles (h : db.Inv others) (hkey : sdsEncodedObject key.enc = true) :
    Handles (KeyCommand.get.Acts ρ (db.store.lookup key.key)) new (KeyCommand.get.Crashes ρ (db.store.lookup key.key)) db
      key.key (rrCmdGet db key) := by
  refine .read (rrCmdGet_spec h hkey) ⟨rfl, rfl⟩ ?_ id
  rw [Keyspace.lookup_store]
  exact sent_get _

theorem isSome_store (k : Bytes) : (db.store.lookup k).isSome = (db.dict.toMap.lookup k).isSome := by
  rw [Keyspace.lookup_store, Option.isSome_map]

theorem rrCmdExists_handles (h : db.Inv others) (hkey : sdsEncodedObject key.enc = true) :
    Handles (KeyCommand.exists.Acts ρ (db.store.lookup key.key)) new
      (KeyCommand.exists.Crashes ρ (db.store.lookup key.key)) db key.key (rrCmdExists db key) := by
  refine .read (rrCmdExists_spec h hkey) ⟨rfl, rfl⟩ ?_ id
  rw [isSome_store]
  exact sent_flag _

theorem sent_type (o : Option Robj) :
    (typeReply o).flatMap ReplyCall.payload = (Reply.status (Store.typeName (o.map fun o => o.val.value))).encode := by
  have hnames : ∀ s ∈ ["none", "string", "trie", "heapq", "fts"],
      (replyAddStatus (ascii s)).flatMap ReplyCall.payload = (Reply.status (ascii s)).encode := by decide
  cases o with
  | none => exact hnames "none" (by decide)
  | some o =>
    obtain ⟨a, val⟩ := o
    cases val with
    | string enc => exact hnames "string" (by decide)
    | hash d => exact hnames "trie" (by decide)
    | heapq q => exact hnames "heapq" (by decide)
    | fts f => exact hnames "fts" (by decide)

theorem rrCmdType_handles (h : db.Inv others) (hkey : sdsEncodedObject key.enc = true) :
    Handles (KeyCommand.type.Acts ρ (db.store.lookup key.key)) new (KeyCommand.type.Crashes ρ (db.store.lookup key.key)) db
      key.key (rrCmdType db key) := by
  refine .read (rrCmdType_spec h hkey) ⟨rfl, rfl⟩ ?_ id
  rw [Keyspace.lookup_store]
  exact sent_type _

/-- A heap cannot be released when one of its items looks like a last reference. -/
theorem wildAt_iff_stuck (k : Bytes) :
    db.WildAt k ↔ ∃ q, db.store.lookup k = some (.queue q) ∧ ∃ x ∈ q, stuck x := by
  have hheap (heap : Minheap HqItem) : (ObjVal.heapq heap).Wild ↔ ∃ x ∈ heap.toMultiset.map HqItem.plain, stuck x := by
    simp only [Multiset.mem_map, exists_exists_and_eq_and]
    rfl
  rw [Keyspace.lookup_store]
  constructor
  · rintro ⟨⟨a, val⟩, hl, hw⟩
    rw [hl]
    cases val with
    | heapq heap => exact ⟨_, rfl, (hheap heap).mp hw⟩
    | _ => cases hw
  · rintro ⟨q, hq, hx⟩
    obtain ⟨⟨a, val⟩, hl, hv⟩ := Option.map_eq_some_iff.mp hq
    refine ⟨⟨a, val⟩, hl, ?_⟩
    cases val with
    | heapq heap =>
      obtain rfl := Value.queue.inj hv
      exact (hheap heap).mpr hx
    | _ => cases hv

theorem rrCmdDel_handles {H : Type} (env : ServerEnv H) (h : db.Inv others) (hkey : sdsEncodedObject key.enc = true) :
    Handles (KeyCommand.del.Acts ρ (db.store.lookup key.key)) new (KeyCommand.del.Crashes ρ (db.store.lookup key.key)) db
      key.key (rrCmdDel env db key) := by
  obtain ⟨hbad, hgood⟩ := rrCmdDel_spec env h hkey
  by_cases hw : db.WildAt key.key
  · exact .error (hbad hw) ((wildAt_iff_stuck _).mp hw)
  · obtain ⟨db', leaked, hr, hdrop⟩ := hgood hw
    refine .ok (v := none) hr ⟨rfl, rfl⟩ ?_ ?_ fun hc => hw ((wildAt_iff_stuck _).mpr hc)
    · rw [Keyspace.store, hdrop.toMap, mapValues_erase]
      rfl
    · rw [isSome_store]
      exact sent_flag _

theorem rrCmdSet_handles {H : Type} (env : ServerEnv H) {val : StrObj} (h : db.Inv (val.addr ::ₘ others))
    (hkey : sdsEncodedObject key.enc = true) (hval : sdsEncodedObject val.enc = true) :
    Handles ((KeyCommand.set val.text).Acts ρ (db.store.lookup key.key)) new
      ((KeyCommand.set val.text).Crashes ρ (db.store.lookup key.key)) db key.key (outcome (rrCmdSet env db key val)) := by
  obtain ⟨hbad, hgood⟩ := rrCmdSet_spec env h hkey hval
  by_cases hw : db.WildAt key.key
  · exact .error (e := .wildPointer) (by rw [outcome, hbad hw]; rfl) ((wildAt_iff_stuck _).mp hw)
  · obtain ⟨db', val', leaked, hr, hstores, hbytes⟩ := hgood hw
    have hrun : outcome (rrCmdSet env db key val) = .ok (db', [.obj Shared.ok]) := by
      rw [outcome, hr]
      rfl
    refine .ok (v := some (.string val.text)) hrun ⟨rfl, rfl⟩ ?_ sent_ok
      fun hc => hw ((wildAt_iff_stuck _).mpr hc)
    have hval' : (StrObj.toRobj val').val.value = .string val.text := congrArg Value.string hbytes
    rw [Keyspace.store, hstores.toMap, mapValues_insert, hval']
    rfl

end Strings

end RhinoRox
