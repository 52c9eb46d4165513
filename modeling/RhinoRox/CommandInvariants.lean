import RhinoRox.KeyspaceInvariant
import RhinoRox.ReplyValues
import RhinoRox.Server

/-!
# Commands keep the invariant of the keyspace

A command that stores an argument adds a reference to it; the argument vector keeps its
own. Commands that only read return the keyspace they were given.
-/

namespace RhinoRox

open KeyedTotal

/-! ## Commands that only read -/

/-- If the command returns, the keyspace is as before. -/
def Unchanged (db : Keyspace) (run : CmdRun) : Prop := ∀ r, run = .ok r → r.1 = db

namespace Unchanged
variable {db : Keyspace}

theorem pure (replies : List ReplyCall) : Unchanged db (Pure.pure (db, replies)) := by
  intro r hr
  obtain rfl := Except.ok.inj hr
  rfl

theorem bind {β : Type} {x : Exec β} {f : β → CmdRun} (h : ∀ b, Unchanged db (f b)) : Unchanged db (x >>= f) := by
  intro r hr
  obtain ⟨b, -, hb⟩ := Exec.bind_eq_ok.mp hr
  exact h b r hb

theorem onCollection {β : Type} {select : ObjVal → Option β} {key : StrObj} {run : Robj → β → CmdRun}
    (h : ∀ o x, Unchanged db (run o x)) : Unchanged db (onCollection select db key run) := by
  refine bind fun o => ?_
  cases o with
  | none => exact pure _
  | some o =>
    simp only
    cases select o.val with
    | none => exact pure _
    | some x => exact h o x

end Unchanged

section Reading
variable (db : Keyspace) (key x : StrObj)

theorem rrCmdGet_unchanged : Unchanged db (rrCmdGet db key) := by
  refine .bind fun o => ?_
  cases o with
  | none => exact .pure _
  | some o =>
    simp only
    cases o.val <;> exact .pure _

theorem rrCmdLen_unchanged : Unchanged db (rrCmdLen db) := .pure _

theorem rrCmdExists_unchanged : Unchanged db (rrCmdExists db key) :=
  .bind fun _ => .bind fun _ => .pure _

theorem rrCmdType_unchanged : Unchanged db (rrCmdType db key) := .bind fun _ => .pure _

theorem rrCmdRget_unchanged : Unchanged db (rrCmdRget db key x) := by
  refine .onCollection fun _ _ => .bind fun _ => .bind fun o => ?_
  cases o with
  | none => exact .pure _
  | some o => exact .bind fun _ => .pure _

theorem rrCmdRexists_unchanged : Unchanged db (rrCmdRexists db key x) :=
  .onCollection fun _ _ => .bind fun _ => .bind fun _ => .pure _

theorem rrCmdRlen_unchanged : Unchanged db (rrCmdRlen db key) := .onCollection fun _ _ => .pure _

theorem getPrefixReply_unchanged (flags : DictFlags) : Unchanged db (getPrefixReply db key x flags) :=
  .onCollection fun _ _ => .bind fun _ => .bind fun _ => .bind fun _ => .bind fun _ => .pure _

theorem getAllReply_unchanged (flags : DictFlags) : Unchanged db (getAllReply db key flags) :=
  .onCollection fun _ _ => .bind fun _ => .bind fun _ => .bind fun _ => .bind fun _ => .pure _

theorem rrCmdHqpeek_unchanged : Unchanged db (rrCmdHqpeek db key) := by
  refine .onCollection fun _ _ => .bind fun item => ?_
  cases item with
  | none => exact .pure _
  | some item => exact .bind fun _ => .pure _

theorem rrCmdHqlen_unchanged : Unchanged db (rrCmdHqlen db key) := .onCollection fun _ _ => .pure _

theorem rrCmdDget_unchanged : Unchanged db (rrCmdDget db key x) := by
  refine .onCollection fun _ _ => .bind fun doc => ?_
  cases doc with
  | none => exact .pure _
  | some doc => exact .bind fun _ => .bind fun _ => .pure _

theorem rrCmdDsearch_unchanged {G : Type} [AddCommGroup G] [LinearOrder G] (env : ServerEnv G) :
    Unchanged db (rrCmdDsearch env db key x) :=
  .onCollection fun _ _ => .bind fun _ => .bind fun _ => .bind fun _ => .pure _

theorem rrCmdDlen_unchanged : Unchanged db (rrCmdDlen db key) := .onCollection fun _ _ => .pure _

end Reading

section Writing
variable {db db' : Keyspace} {others : Multiset ℕ} {key : StrObj}

/-- A command on a key that holds a collection of its type. -/
theorem onCollection_of_lookup {β : Type} {select : ObjVal → Option β} {f : Robj → β → CmdRun} {o : Robj} {x : β}
    (h : db.Inv others) (hkey : sdsEncodedObject key.enc = true) (hl : db.dict.toMap.lookup key.key = some o)
    (hx : select o.val = some x) : onCollection select db key f = f o x := by
  simp [onCollection, rrDbLookup_spec h hkey, hl, hx]

theorem onCollection_cases {β : Type} {select : ObjVal → Option β} {f : Robj → β → CmdRun}
    {r : Keyspace × List ReplyCall} (h : db.Inv others) (hkey : sdsEncodedObject key.enc = true)
    (run : onCollection select db key f = .ok r) :
    r.1 = db ∨ ∃ o x, db.dict.toMap.lookup key.key = some o ∧ select o.val = some x ∧ f o x = .ok r := by
  simp only [onCollection, rrDbLookup_spec h hkey, Exec.ok_bind] at run
  rcases hl : db.dict.toMap.lookup key.key with _ | o
  · rw [hl] at run
    obtain rfl := Except.ok.inj run
    exact Or.inl rfl
  · rw [hl] at run
    simp only at run
    rcases hx : select o.val with _ | x
    · rw [hx] at run
      obtain rfl := Except.ok.inj run
      exact Or.inl rfl
    · rw [hx] at run
      exact Or.inr ⟨o, x, rfl, hx, run⟩

theorem hash?_eq {val : ObjVal} {trie : DictT StrObj} (h : val.hash? = some trie) : val = .hash trie := by
  cases val <;> cases h
  rfl

theorem heapq?_eq {val : ObjVal} {heap : Minheap HqItem} (h : val.heapq? = some heap) : val = .heapq heap := by
  cases val <;> cases h
  rfl

theorem fts?_eq {val : ObjVal} {fts : Fts} (h : val.fts? = some fts) : val = .fts fts := by
  cases val <;> cases h
  rfl

/-- A key has a new value, and everything else is as it was. -/
structure Updated (db db' : Keyspace) (k : Bytes) (o : Robj) : Prop where
  lookup : db'.dict.toMap.lookup k = some o
  frame : ∀ j, j ≠ k → db'.dict.toMap.lookup j = db.dict.toMap.lookup j
  tasks : db'.tasks = db.tasks

theorem Updated.of_insert {k : Bytes} {o : Robj} (hm : db'.dict.toMap = db.dict.toMap.insert k o)
    (htasks : db'.tasks = db.tasks) : Updated db db' k o :=
  ⟨hm ▸ Finmap.lookup_insert _, fun _ hj => hm ▸ Finmap.lookup_insert_of_ne _ hj, htasks⟩

theorem Updated.trans {db₁ : Keyspace} {k : Bytes} {o o' : Robj} (h : Updated db db₁ k o) (h' : Updated db₁ db' k o') :
    Updated db db' k o' :=
  ⟨h'.lookup, fun j hj => (h'.frame j hj).trans (h.frame j hj), h'.tasks.trans h.tasks⟩

theorem Updated.holds {k : Bytes} {o o' : Robj} (h : Updated db db' k o) (ho : db'.Holds o') : o' = o ∨ db.Holds o' := by
  rcases ho with ⟨j, hl⟩ | ho
  · by_cases hj : j = k
    · rw [hj, h.lookup] at hl
      exact .inl (Option.some.inj hl).symm
    · rw [h.frame j hj] at hl
      exact .inr (.inl ⟨j, hl⟩)
  · rw [h.tasks] at ho
    exact .inr (.inr ho)

/-! ## What a command can do -/

/-- The client is sent an error. -/
def SendsError (replies : List ReplyCall) : Prop := (replies.flatMap ReplyCall.payload).head? = some 45

instance (replies : List ReplyCall) : Decidable (SendsError replies) := decEq _ _

theorem not_sendsError_ok : ¬ SendsError [.obj Shared.ok] := by decide

theorem not_sendsError_nullbulk : ¬ SendsError [.obj Shared.nullbulk] := by decide

theorem not_sendsError_flag (b : Bool) : ¬ SendsError [.obj (if b then Shared.cone else Shared.czero)] := by
  cases b <;> decide

theorem not_sendsError_bulkObj (o : StrEnc) : ¬ SendsError (replyAddBulkObj o) := by
  rw [SendsError, replyAddBulkObj_payload, encodeArg, headerLine]
  simp

theorem not_sendsError_array (n : ℕ) (replies : List ReplyCall) : ¬ SendsError (replyAddMultiBulkLen n ++ replies) := by
  rw [SendsError, List.flatMap_append, replyAddMultiBulkLen_payload, headerLine]
  simp

/-- The handlers that change the keyspace. -/
def Proc.writes : Proc → Bool
  | .rrCmdSet | .rrCmdDel | .rrCmdRset | .rrCmdRdel | .rrCmdHqpush | .rrCmdHqpop | .rrCmdHqpopn | .rrCmdDset
  | .rrCmdDdel => true
  | _ => false

/-- Nothing, or a change at one key that is not answered with an error. Heaps come from
QPUSH only. -/
inductive Change (proc : Option Proc) (db db' : Keyspace) (replies : List ReplyCall) (k : Bytes) : Prop where
  | same (hdict : db'.dict = db.dict) (htasks : db'.tasks = db.tasks)
  | written (writes : proc.any Proc.writes = true)
      (frame : ∀ j, j ≠ k → db'.dict.toMap.lookup j = db.dict.toMap.lookup j) (accepted : ¬ SendsError replies)
      (heapFree : proc ≠ some .rrCmdHqpush → db.NoHeapq → db'.NoHeapq)

theorem Change.congr {proc : Option Proc} {replies : List ReplyCall} {k : Bytes} (h : Change proc db db' replies k)
    {db₁ : Keyspace} (hdict : db'.dict = db₁.dict) (htasks : db'.tasks = db₁.tasks) : Change proc db db₁ replies k := by
  obtain ⟨d, refs, tasks⟩ := db₁
  obtain rfl : db'.dict = d := hdict
  obtain rfl : db'.tasks = tasks := htasks
  cases h with
  | same hdict htasks => exact .same hdict htasks
  | written writes frame accepted heapFree => exact .written writes frame accepted heapFree

/-- A command that returned: it kept the invariant, up to references that a heap loses. -/
structure Ran (proc : Option Proc) (others : Multiset ℕ) (db db' : Keyspace) (replies : List ReplyCall) (k : Bytes)
    (leaked : Multiset ℕ) : Prop where
  inv : db'.Inv (others + leaked)
  leaked_eq : db.NoHeapq → leaked = 0
  change : Change proc db db' replies k

theorem Ran.same {proc : Option Proc} {replies : List ReplyCall} {k : Bytes} (h : db.Inv others) :
    Ran proc others db db replies k 0 :=
  ⟨h.congr (add_zero _).symm, fun _ => rfl, .same rfl rfl⟩

theorem Ran.updated {proc : Option Proc} {replies : List ReplyCall} {k : Bytes} {o : Robj} (h : db'.Inv others)
    (hup : Updated db db' k o) (hwrites : proc.any Proc.writes = true) (haccepted : ¬ SendsError replies)
    (hplain : proc ≠ some .rrCmdHqpush → db.NoHeapq → o.val.isHeapq = false) :
    Ran proc others db db' replies k 0 := by
  refine ⟨h.congr (add_zero _).symm, fun _ => rfl, .written hwrites hup.frame haccepted fun hpush hno o' ho => ?_⟩
  rcases hup.holds ho with rfl | ho
  · exact hplain hpush hno
  · exact hno o' ho

/-- A key that holds a heap. -/
theorem Keyspace.NoHeapq.absurd {k : Bytes} {a : ℕ} {heap : Minheap HqItem} {p : Prop} (h : db.NoHeapq)
    (hl : db.dict.toMap.lookup k = some ⟨a, .heapq heap⟩) : p := by
  have hfalse : true = false := h _ (.inl ⟨k, hl⟩)
  cases hfalse

/-! ## Strings -/

/-- Deleting a key before it is set again loses nothing but a heap. -/
theorem lazyDel_spec {G : Type} (env : ServerEnv G) (h : db.Inv others) (hkey : sdsEncodedObject key.enc = true) :
    (db.WildAt key.key → lazyDel env db key = .error .wildPointer ∨ lazyDel env db key = .ok db) ∧
    (¬ db.WildAt key.key → ∃ db' leaked, lazyDel env db key = .ok db' ∧ db'.Inv (others + leaked) ∧
      ¬ db'.WildAt key.key ∧ (∀ v, db'.dict.toMap.insert key.key v = db.dict.toMap.insert key.key v) ∧
      (∀ o, db'.Holds o → db.Holds o) ∧ (db.NoHeapq → leaked = 0)) := by
  rw [lazyDel]
  split
  · obtain ⟨hbad, hgood⟩ := rrDbDel_spec env h hkey
    refine ⟨fun hw => .inl (by rw [hbad hw]; rfl), fun hw => ?_⟩
    obtain ⟨db₁, leaked, hr, h₁⟩ := hgood hw
    refine ⟨db₁, leaked, by rw [hr]; rfl, h₁.inv, Keyspace.not_wildAt ?_, fun v => ?_, h₁.holds, h₁.leaked_eq⟩
    · rw [h₁.toMap, Finmap.lookup_erase]
    · rw [h₁.toMap, insert_erase]
  · exact ⟨fun _ => .inr rfl,
      fun hw => ⟨db, 0, rfl, h.congr (add_zero _).symm, hw, fun _ => rfl, fun _ => id, fun _ => rfl⟩⟩

/-- SET stores the string, whatever its encoding, unless the heap that it replaces cannot be
released. -/
theorem rrCmdSet_spec {G : Type} (env : ServerEnv G) {val : StrObj} (h : db.Inv (val.addr ::ₘ others))
    (hkey : sdsEncodedObject key.enc = true) (hval : sdsEncodedObject val.enc = true) :
    (db.WildAt key.key → rrCmdSet env db key val = .error .wildPointer) ∧
    (¬ db.WildAt key.key → ∃ db' val' leaked, rrCmdSet env db key val = .ok (db', val', [.obj Shared.ok]) ∧
      Stores (val'.addr ::ₘ others) db db' key.key val' leaked ∧ val'.enc.bytes = val.enc.bytes) := by
  obtain ⟨hwild, hdel⟩ := lazyDel_spec env h hkey
  constructor
  · intro hw
    rcases hwild hw with hr | hr
    · rw [rrCmdSet, hr]
      rfl
    · obtain ⟨val', refs, henc, h₁, -⟩ := h.encode env hval
      have hset := (rrDbSetKey_spec h₁ hkey).1 hw
      simp only [rrCmdSet, hr, Exec.ok_bind, henc, hset, Exec.error_bind]
  · intro hw
    obtain ⟨db₁, leaked₁, hr, h₁, hw₁, hm₁, hsub₁, hzero₁⟩ := hdel hw
    have h₁' : db₁.Inv (val.addr ::ₘ (others + leaked₁)) := h₁.congr (Multiset.cons_add _ _ _)
    obtain ⟨val', refs, henc, h₂, hbytes, -⟩ := h₁'.encode env hval
    obtain ⟨db₂, leaked₂, hset, h₃⟩ := (rrDbSetKey_spec h₂ hkey).2 hw₁
    refine ⟨db₂, val', leaked₁ + leaked₂, ?_, ⟨h₃.inv.congr (by simp [add_assoc]), ?_, ?_, ?_⟩, hbytes⟩
    · simp only [rrCmdSet, hr, Exec.ok_bind, henc, hset, if_true, Exec.pure_eq]
    · rw [h₃.toMap]
      exact hm₁ val'.toRobj
    · intro o ho
      rcases h₃.holds o ho with he | ho
      · exact .inl he
      · exact .inr (hsub₁ o ho)
    · intro hno
      have hno₁ : Keyspace.NoHeapq { db₁ with refs := refs } := fun o ho => hno o (hsub₁ o ho)
      rw [hzero₁ hno, h₃.leaked_eq hno₁, add_zero]

theorem rrCmdSet_inv {G : Type} (env : ServerEnv G) {val val' : StrObj} {replies : List ReplyCall}
    (h : db.Inv (val.addr ::ₘ others)) (hkey : sdsEncodedObject key.enc = true)
    (hval : sdsEncodedObject val.enc = true)
    (run : rrCmdSet env db key val = .ok (db', val', replies)) :
    ∃ leaked, Ran (some .rrCmdSet) (val'.addr ::ₘ others) db db' replies key.key leaked := by
  obtain ⟨hbad, hgood⟩ := rrCmdSet_spec env h hkey hval
  by_cases hw : db.WildAt key.key
  · rw [hbad hw] at run
    cases run
  · obtain ⟨db₁, val₁, leaked, hr, h₁, -⟩ := hgood hw
    rw [hr] at run
    obtain ⟨rfl, rfl, rfl⟩ : db₁ = db' ∧ val₁ = val' ∧ _ = replies := by simpa using run
    refine ⟨leaked, h₁.inv, h₁.leaked_eq, .written rfl (fun j hj => ?_) not_sendsError_ok fun _ hno o ho => ?_⟩
    · rw [h₁.toMap, Finmap.lookup_insert_of_ne _ hj]
    · rcases h₁.holds o ho with rfl | ho
      · rfl
      · exact hno o ho

theorem rrCmdDel_spec {G : Type} (env : ServerEnv G) (h : db.Inv others) (hkey : sdsEncodedObject key.enc = true) :
    (db.WildAt key.key → rrCmdDel env db key = .error .wildPointer) ∧
    (¬ db.WildAt key.key → ∃ db' leaked, rrCmdDel env db key = .ok (db',
        [.obj (if (db.dict.toMap.lookup key.key).isSome then Shared.cone else Shared.czero)]) ∧
      Dropped others db db' key.key leaked) := by
  obtain ⟨hbad, hgood⟩ := rrDbDel_spec env h hkey
  refine ⟨fun hw => by rw [rrCmdDel, hbad hw]; rfl, fun hw => ?_⟩
  obtain ⟨db₁, leaked, hr, h₁⟩ := hgood hw
  exact ⟨db₁, leaked, by rw [rrCmdDel, hr]; rfl, h₁⟩

theorem rrCmdDel_inv {G : Type} (env : ServerEnv G) {replies : List ReplyCall} (h : db.Inv others)
    (hkey : sdsEncodedObject key.enc = true) (run : rrCmdDel env db key = .ok (db', replies)) :
    ∃ leaked, Ran (some .rrCmdDel) others db db' replies key.key leaked := by
  obtain ⟨hbad, hgood⟩ := rrCmdDel_spec env h hkey
  by_cases hw : db.WildAt key.key
  · rw [hbad hw] at run
    cases run
  · obtain ⟨db₁, leaked, hr, h₁⟩ := hgood hw
    rw [hr] at run
    obtain ⟨rfl, rfl⟩ := Prod.mk.inj (Except.ok.inj run)
    refine ⟨leaked, h₁.inv, h₁.leaked_eq, .written rfl (fun j hj => ?_) (not_sendsError_flag _) fun _ hno o ho => ?_⟩
    · rw [h₁.toMap, Finmap.lookup_erase_ne hj]
    · exact hno o (h₁.holds o ho)

/-! ## Tries -/

theorem hash_held_insert {trie trie' : DictT StrObj} {k : Bytes} {v : StrObj}
    (hm : trie'.toMap = trie.toMap.insert k v) :
    (ObjVal.hash trie').held = v.addr ::ₘ mapRest (fun o : StrObj => {o.addr}) trie.toMap k := by
  rw [ObjVal.held, hm, mapTotal_insert, Multiset.singleton_add]

theorem hash_held_eq (trie : DictT StrObj) (k : Bytes) :
    (ObjVal.hash trie).held = part (fun o : StrObj => {o.addr}) (trie.toMap.lookup k) +
      mapRest (fun o : StrObj => {o.addr}) trie.toMap k :=
  mapTotal_eq _ _ k

theorem mem_hash_held {trie : DictT StrObj} {f : Bytes} {v : StrObj} (hv : trie.toMap.lookup f = some v) :
    v.addr ∈ (ObjVal.hash trie).held := by
  rw [hash_held_eq trie f, hv]
  simp

/-- What RDEL does on a trie: a stored field goes and its value loses one reference. A field
that is not stored makes the server follow `NULL`. -/
theorem rrCmdRdel_spec {field : StrObj} {a : ℕ} {trie : DictT StrObj} (h : db.Inv others)
    (hkey : sdsEncodedObject key.enc = true) (hfield : sdsEncodedObject field.enc = true)
    (hl : db.dict.toMap.lookup key.key = some ⟨a, .hash trie⟩) :
    match trie.toMap.lookup field.key with
    | none => rrCmdRdel db key field = .error .nullPointer
    | some v => ∃ db' trie', rrCmdRdel db key field = .ok (db', [.obj Shared.cone]) ∧ db'.Inv others ∧
        trie'.toMap = trie.toMap.erase field.key ∧
        db'.dict.toMap = db.dict.toMap.insert key.key ⟨a, .hash trie'⟩ ∧ db'.tasks = db.tasks ∧
        decrString db.refs v = .ok db'.refs := by
  obtain ⟨htrie, hcb⟩ : trie.Inv ∧ trie.freeCb = true := h.stored _ _ hl
  obtain ⟨trie', hr, hi, hm, hcb', -⟩ := dictDel_spec htrie field.enc.bytes
  change dictDel trie field.enc.bytes = .ok (trie.toMap.lookup field.key, trie') at hr
  change trie'.toMap = trie.toMap.erase field.key at hm
  have hc := h.counts
  rw [db.held_eq key.key, hl, part_some, Robj.held, hash_held_eq trie field.key] at hc
  have hheld : (ObjVal.hash trie').held = mapRest (fun o : StrObj => {o.addr}) trie.toMap field.key := by
    rw [ObjVal.held, hm, mapTotal_erase]
  have hc' : Counts db.refs ((ObjVal.hash trie').held + (a ::ₘ db.around key.key) +
      (part (fun o : StrObj => {o.addr}) (trie.toMap.lookup field.key) + others)) := by
    refine hc.congr ?_
    rw [hheld]
    simp only [← Multiset.singleton_add]
    abel
  -- the value of the field is in the hands of the handler before it is released
  have hapart : ∀ x ∈ (ObjVal.hash trie').held +
      (part (fun o : StrObj => {o.addr}) (trie.toMap.lookup field.key) + others), x ∉ db.owners := by
    intro x hx
    rw [← add_assoc, hheld, add_comm (mapRest _ _ _), ← hash_held_eq] at hx
    rcases Multiset.mem_add.mp hx with hx | hx
    · exact h.apart_contents hl hx
    · exact h.apart x hx
  obtain ⟨db₁, hset, h₁, hm₁, hrefs, htasks, -⟩ :=
    setContents_spec h hkey hl rfl (.hash trie') ⟨hi, hcb'.trans hcb⟩ hc' hapart
  change setContents db key ⟨a, .hash trie'⟩ = .ok db₁ at hset
  have hrun : rrCmdRdel db key field = (rrObjFreeCallback db₁.refs (trie.toMap.lookup field.key) >>= fun refs =>
      .ok ({ db₁ with refs := refs },
        [.obj (if (trie.toMap.lookup field.key).isNone then Shared.czero else Shared.cone)])) := by
    have hsel : ObjVal.hash? (.hash trie) = some trie := rfl
    rw [rrCmdRdel, onCollection_of_lookup h hkey hl hsel]
    simp only [StrEnc.ptr_of_sds hfield, Exec.ok_bind, hr, hset, Exec.pure_eq]
  rw [hrun]
  rcases hv : trie.toMap.lookup field.key with _ | v
  · rfl
  · rw [hv, part_some, Multiset.singleton_add] at h₁
    have hc₁ : Counts db₁.refs (v.addr ::ₘ (db₁.held + others)) := h₁.counts.congr (by simp)
    obtain ⟨refs, hdecr, hc₂⟩ := hc₁.decr
    rw [hrefs] at hdecr
    refine ⟨{ db₁ with refs := refs }, trie', ?_, h₁.withRefs hc₂ fun x hx => ?_, hm, hm₁, htasks, hdecr⟩
    · simp [rrObjFreeCallback, hrefs, hdecr]
    · exact h₁.apart x (Multiset.mem_cons_of_mem hx)

theorem rrCmdRdel_inv {field : StrObj} {replies : List ReplyCall} (h : db.Inv others)
    (hkey : sdsEncodedObject key.enc = true) (hfield : sdsEncodedObject field.enc = true)
    (run : rrCmdRdel db key field = .ok (db', replies)) :
    Ran (some .rrCmdRdel) others db db' replies key.key 0 := by
  rcases onCollection_cases h hkey run with he | ⟨⟨a, val⟩, trie, hl, hx, -⟩
  · obtain rfl : db' = db := he
    exact .same h
  obtain rfl := hash?_eq hx
  have hspec := rrCmdRdel_spec h hkey hfield hl
  split at hspec
  · rw [hspec] at run
    cases run
  · obtain ⟨db₁, trie', hr, h₁, -, hm, htasks, -⟩ := hspec
    rw [hr] at run
    obtain ⟨rfl, rfl⟩ := Prod.mk.inj (Except.ok.inj run)
    exact .updated h₁ (.of_insert hm htasks) rfl (not_sendsError_flag true) fun _ _ => rfl

theorem createHashObject_held : createHashObject.held = 0 := by simp [createHashObject, ObjVal.held]

/-- RSET on a key that is free or holds a trie: the field has the value, whatever its encoding. -/
theorem rrCmdRset_spec {G : Type} (env : ServerEnv G) {field val : StrObj} (h : db.Inv (val.addr ::ₘ others))
    (hkey : sdsEncodedObject key.enc = true) (hfield : sdsEncodedObject field.enc = true)
    (hval : sdsEncodedObject val.enc = true)
    (htype : ∀ o, db.dict.toMap.lookup key.key = some o → ∃ trie, o.val = .hash trie) :
    ∃ db' val' a trie trie', rrCmdRset env db key field val = .ok (db', val', [.obj Shared.ok]) ∧
      db'.Inv (val'.addr ::ₘ others) ∧ val'.enc.bytes = val.enc.bytes ∧ Updated db db' key.key ⟨a, .hash trie'⟩ ∧
      trie'.toMap = trie.toMap.insert field.key val' ∧
      (db.dict.toMap.lookup key.key = some ⟨a, .hash trie⟩ ∨
        db.dict.toMap.lookup key.key = none ∧ trie.toMap = ∅) := by
  obtain ⟨⟨a, content⟩, db₁, hget, h₁, hl, hframe, htasks, -, hwas⟩ :=
    rrDbLookupOrCreate_spec env h hkey createHashObject_inv createHashObject_held
  obtain ⟨trie, rfl⟩ : ∃ trie, content = .hash trie := by
    rcases hwas with ⟨hwas, -⟩ | ⟨-, hnew⟩
    · exact htype _ hwas
    · exact ⟨_, hnew⟩
  obtain ⟨htrie, hcb⟩ : trie.Inv ∧ trie.freeCb = true := h₁.stored _ _ hl
  obtain ⟨o, refs, henc, h₂, hbytes, -⟩ := h₁.encode env hval
  obtain ⟨trie', freed, hr, hi, hm, hcb', hfreed⟩ := dictSet_spec htrie field.enc.bytes o
  change trie'.toMap = trie.toMap.insert field.key o at hm
  rw [hcb, if_pos rfl] at hfreed
  change freed = (trie.toMap.lookup field.key).toList at hfreed
  have hfreed' : addrs freed = part (fun o : StrObj => {o.addr}) (trie.toMap.lookup field.key) := by
    rw [hfreed]
    cases trie.toMap.lookup field.key <;> rfl
  have hc₁ := h₂.counts
  change Counts refs (db₁.held + o.addr ::ₘ others) at hc₁
  rw [db₁.held_eq key.key, hl, part_some, Robj.held, hash_held_eq trie field.key] at hc₁
  have hc₂ : Counts refs (addrs freed + ((ObjVal.hash trie').held + (a ::ₘ db₁.around key.key) + others)) := by
    refine hc₁.congr ?_
    rw [hfreed', hash_held_insert hm]
    simp only [← Multiset.singleton_add]
    abel
  obtain ⟨refs₁, hdecr, hc₃⟩ := hc₂.decrs
  have hown : o.addr ∉ db₁.owners := h₂.apart _ (Multiset.mem_cons_self _ _)
  have hothers : ∀ x ∈ others, x ∉ db₁.owners := fun x hx => h₂.apart x (Multiset.mem_cons_of_mem hx)
  have hapart : ∀ x ∈ (ObjVal.hash trie').held + others, x ∉ db₁.owners := by
    intro x hx
    rw [hash_held_insert hm, Multiset.cons_add] at hx
    rcases Multiset.mem_cons.mp hx with rfl | hx
    · exact hown
    rcases Multiset.mem_add.mp hx with hx | hx
    · refine h₁.apart_contents hl ?_
      rw [hash_held_eq trie field.key]
      exact Multiset.mem_add.mpr (.inr hx)
    · exact hothers x hx
  obtain ⟨db₂, hset, h₃, hm₂, -, htasks₂, hsub⟩ :=
    setContents_spec h₁ hkey hl rfl (.hash trie') ⟨hi, hcb'.trans hcb⟩ hc₃ hapart
  have hmem : o.addr ∈ db₂.held + others := by
    rw [db₂.held_eq key.key, hm₂, Finmap.lookup_insert, part_some, Robj.held, hash_held_insert hm]
    simp
  obtain ⟨refs₂, hincr, hc₄⟩ := h₃.counts.incr (Or.inl hmem)
  refine ⟨{ db₂ with refs := refs₂ }, o, a, trie, trie', ?_, ?_, hbytes, ?_, hm, ?_⟩
  · simp only [rrCmdRset, hget, Exec.ok_bind, henc, StrEnc.ptr_of_sds hfield, hr, hdecr, hset, if_true, hincr,
      Exec.pure_eq]
  · refine h₃.withRefs (hc₄.congr (by simp)) fun x hx => ?_
    rcases Multiset.mem_cons.mp hx with rfl | hx
    · exact fun hx => hown (hsub hx)
    · exact h₃.apart x hx
  · exact Updated.trans ⟨hl, hframe, htasks⟩ (.of_insert hm₂ htasks₂)
  · rcases hwas with ⟨hwas, -⟩ | ⟨hfree, hnew⟩
    · exact .inl hwas
    · obtain rfl : trie = dictSetFreecb dictCreate := by simpa [createHashObject] using hnew
      exact .inr ⟨hfree, rfl⟩

/-- The key holds something else than a trie. -/
theorem rrCmdRset_wrongtype {G : Type} (env : ServerEnv G) (field val : StrObj) (h : db.Inv others)
    (hkey : sdsEncodedObject key.enc = true) {o : Robj} (hl : db.dict.toMap.lookup key.key = some o)
    (htype : ∀ trie, o.val ≠ .hash trie) :
    rrCmdRset env db key field val = .ok (db, val, [.obj Shared.wrongtypeerr]) := by
  simp only [rrCmdRset, rrDbLookupOrCreate, rrDbLookup_spec h hkey, Exec.ok_bind, hl, Exec.pure_eq]

theorem rrCmdRset_inv {G : Type} (env : ServerEnv G) {field val val' : StrObj} {replies : List ReplyCall}
    (h : db.Inv (val.addr ::ₘ others)) (hkey : sdsEncodedObject key.enc = true)
    (hfield : sdsEncodedObject field.enc = true) (hval : sdsEncodedObject val.enc = true)
    (run : rrCmdRset env db key field val = .ok (db', val', replies)) :
    Ran (some .rrCmdRset) (val'.addr ::ₘ others) db db' replies key.key 0 := by
  by_cases htype : ∀ o, db.dict.toMap.lookup key.key = some o → ∃ trie, o.val = .hash trie
  · obtain ⟨db₁, o, a, trie, trie', hr, h₁, -, hup, -⟩ := rrCmdRset_spec env h hkey hfield hval htype
    rw [hr] at run
    obtain ⟨rfl, rfl, rfl⟩ : db₁ = db' ∧ o = val' ∧ _ = replies := by simpa using run
    exact .updated h₁ hup rfl not_sendsError_ok fun _ _ => rfl
  · simp only [not_forall, not_exists] at htype
    obtain ⟨o, hl, hne⟩ := htype
    rw [rrCmdRset_wrongtype env field val h hkey hl hne] at run
    obtain ⟨rfl, rfl, -⟩ : db = db' ∧ val = val' ∧ _ := by simpa using run
    exact .same h

/-! ## Heaps -/

theorem heapq_held_cons {heap heap' : Minheap HqItem} {item : HqItem}
    (hm : heap'.toMultiset = item ::ₘ heap.toMultiset) :
    (ObjVal.heapq heap').held = item.obj.addr ::ₘ (ObjVal.heapq heap).held := by
  rw [ObjVal.held, hm, Multiset.map_cons]
  rfl

theorem createHeapqObject_held : createHeapqObject.held = 0 := by
  change Multiset.map _ (minheapCreate 8 hqComparator.comp).toMultiset = 0
  rw [minheapCreate_toMultiset, Multiset.map_zero]

/-- QPUSH on a key that is free or holds a heap: the value is an item of the heap, whatever
its encoding, unless the array of the heap cannot grow. -/
theorem rrCmdHqpush_spec {G : Type} (env : ServerEnv G) {score val : StrObj} {x : UInt64}
    (h : db.Inv (val.addr ::ₘ others)) (hkey : sdsEncodedObject key.enc = true)
    (hval : sdsEncodedObject val.enc = true) (hscore : getDoubleFromObjectOrReply env score.enc = .inl x)
    (htype : ∀ o, db.dict.toMap.lookup key.key = some o → ∃ heap, o.val = .heapq heap) :
    ∃ a heap, (db.dict.toMap.lookup key.key = some ⟨a, .heapq heap⟩ ∨
        db.dict.toMap.lookup key.key = none ∧ heap = minheapCreate 8 hqCmp) ∧
      (2 ^ 31 ≤ heap.len + 1 → rrCmdHqpush env db key score val = .error .nullPointer) ∧
      (heap.len + 1 < 2 ^ 31 → ∃ db' val' heap', rrCmdHqpush env db key score val = .ok (db', val', [.obj Shared.ok]) ∧
        db'.Inv (val'.addr ::ₘ others) ∧ val'.enc.bytes = val.enc.bytes ∧ Updated db db' key.key ⟨a, .heapq heap'⟩ ∧
        heap'.toMultiset = ⟨x, val'⟩ ::ₘ heap.toMultiset) := by
  obtain ⟨⟨a, content⟩, db₁, hget, h₁, hl, hframe, htasks, -, hwas⟩ :=
    rrDbLookupOrCreate_spec env h hkey createHeapqObject_inv createHeapqObject_held
  obtain ⟨heap, rfl⟩ : ∃ heap, content = .heapq heap := by
    rcases hwas with ⟨hwas, -⟩ | ⟨-, hnew⟩
    · exact htype _ hwas
    · exact ⟨_, hnew⟩
  have hi : heap.Inv hqComparator := h₁.stored _ _ hl
  obtain ⟨o, refs, henc, h₂, hbytes, -⟩ := h₁.encode env hval
  refine ⟨a, heap, ?_, fun hfull => ?_, fun hroom => ?_⟩
  · rcases hwas with ⟨hwas, -⟩ | ⟨hfree, hnew⟩
    · exact .inl hwas
    · exact .inr ⟨hfree, by simpa [createHeapqObject] using hnew⟩
  · have hle := hi.len_le
    have hsmall := hi.array.small
    have hover := minheapPush_overflow hi.shaped (by omega) (by omega) (⟨x, o⟩ : HqItem)
    simp only [rrCmdHqpush, hscore, hget, Exec.ok_bind, henc, hover, Exec.error_bind]
  · obtain ⟨heap', hpush, hi', -, hm, -⟩ := minheapPush_spec hi hroom (⟨x, o⟩ : HqItem)
    have hheld : (ObjVal.heapq heap').held = o.addr ::ₘ (ObjVal.heapq heap).held := heapq_held_cons hm
    have hc := h₂.counts
    change Counts refs (db₁.held + o.addr ::ₘ others) at hc
    have hc₁ : Counts refs ((ObjVal.heapq heap').held + (a ::ₘ db₁.around key.key) + others) := by
      refine hc.congr ?_
      rw [hheld, db₁.held_eq key.key, hl, part_some, Robj.held]
      simp only [← Multiset.singleton_add]
      abel
    have hown : o.addr ∉ db₁.owners := h₂.apart _ (Multiset.mem_cons_self _ _)
    have hapart : ∀ y ∈ (ObjVal.heapq heap').held + others, y ∉ db₁.owners := by
      intro y hy
      rw [hheld, Multiset.cons_add] at hy
      rcases Multiset.mem_cons.mp hy with rfl | hy
      · exact hown
      rcases Multiset.mem_add.mp hy with hy | hy
      · exact h₁.apart_contents hl hy
      · exact h₂.apart y (Multiset.mem_cons_of_mem hy)
    obtain ⟨db₂, hset, h₃, hm₂, -, htasks₂, hsub⟩ := setContents_spec h₁ hkey hl rfl (.heapq heap') hi' hc₁ hapart
    have hmem : o.addr ∈ db₂.held + others := by
      rw [db₂.held_eq key.key, hm₂, Finmap.lookup_insert, part_some, Robj.held, hheld]
      simp
    obtain ⟨refs₂, hincr, hc₂⟩ := h₃.counts.incr (Or.inl hmem)
    refine ⟨{ db₂ with refs := refs₂ }, o, heap', ?_, ?_, hbytes, ?_, hm⟩
    · simp only [rrCmdHqpush, hscore, hget, Exec.ok_bind, henc, hpush, hset, hincr, Exec.pure_eq]
    · refine h₃.withRefs (hc₂.congr (by simp)) fun y hy => ?_
      rcases Multiset.mem_cons.mp hy with rfl | hy
      · exact fun hy => hown (hsub hy)
      · exact h₃.apart y hy
    · exact Updated.trans ⟨hl, hframe, htasks⟩ (.of_insert hm₂ htasks₂)

/-- The key holds something else than a heap. -/
theorem rrCmdHqpush_wrongtype {G : Type} (env : ServerEnv G) (score val : StrObj) {x : UInt64} (h : db.Inv others)
    (hkey : sdsEncodedObject key.enc = true) (hscore : getDoubleFromObjectOrReply env score.enc = .inl x) {o : Robj}
    (hl : db.dict.toMap.lookup key.key = some o) (htype : ∀ heap, o.val ≠ .heapq heap) :
    rrCmdHqpush env db key score val = .ok (db, val, [.obj Shared.wrongtypeerr]) := by
  simp only [rrCmdHqpush, hscore, rrDbLookupOrCreate, rrDbLookup_spec h hkey, Exec.ok_bind, hl, Exec.pure_eq]

theorem rrCmdHqpush_inv {G : Type} (env : ServerEnv G) {score val val' : StrObj} {replies : List ReplyCall}
    (h : db.Inv (val.addr ::ₘ others)) (hkey : sdsEncodedObject key.enc = true)
    (hval : sdsEncodedObject val.enc = true)
    (run : rrCmdHqpush env db key score val = .ok (db', val', replies)) :
    Ran (some .rrCmdHqpush) (val'.addr ::ₘ others) db db' replies key.key 0 := by
  cases hscore : getDoubleFromObjectOrReply env score.enc with
  | inr err =>
    simp only [rrCmdHqpush, hscore] at run
    obtain ⟨rfl, rfl, -⟩ : db = db' ∧ val = val' ∧ _ := by simpa using run
    exact .same h
  | inl x =>
    by_cases htype : ∀ o, db.dict.toMap.lookup key.key = some o → ∃ heap, o.val = .heapq heap
    · obtain ⟨a, heap, -, hover, hgood⟩ := rrCmdHqpush_spec env h hkey hval hscore htype
      rcases Nat.lt_or_ge (heap.len + 1) (2 ^ 31) with hroom | hfull
      · obtain ⟨db₁, o, heap', hr, h₁, -, hup, -⟩ := hgood hroom
        rw [hr] at run
        obtain ⟨rfl, rfl, rfl⟩ : db₁ = db' ∧ o = val' ∧ _ = replies := by simpa using run
        exact .updated h₁ hup rfl not_sendsError_ok fun hpush => absurd rfl hpush
      · rw [hover hfull] at run
        cases run
    · simp only [not_forall, not_exists] at htype
      obtain ⟨o, hl, hne⟩ := htype
      rw [rrCmdHqpush_wrongtype env score val h hkey hscore hl hne] at run
      obtain ⟨rfl, rfl, -⟩ : db = db' ∧ val = val' ∧ _ := by simpa using run
      exact .same h

/-- Popping from a heap: nothing from an empty one, else the smallest item, which is sent. -/
theorem popReply_spec {a : ℕ} {heap : Minheap HqItem} (val : ObjVal) (h : db.Inv others)
    (hkey : sdsEncodedObject key.enc = true) (hl : db.dict.toMap.lookup key.key = some ⟨a, .heapq heap⟩) :
    (heap.len = 0 → ∃ db', popReply db key ⟨a, val⟩ heap = .ok (none, db', []) ∧ db'.Inv others ∧
      Updated db db' key.key ⟨a, .heapq heap⟩) ∧
    (0 < heap.len → ∃ item heap' db', popReply db key ⟨a, val⟩ heap = .ok (some heap', db', replyAddBulkObj item.obj.enc) ∧
      db'.Inv others ∧ Updated db db' key.key ⟨a, .heapq heap'⟩ ∧ heap'.len + 1 = heap.len ∧
      heap.toMultiset = item ::ₘ heap'.toMultiset) := by
  have hi : heap.Inv hqComparator := h.stored _ _ hl
  have hc := h.counts
  rw [db.held_eq key.key, hl, part_some, Robj.held] at hc
  constructor
  · intro hzero
    have hc' : Counts db.refs ((ObjVal.heapq heap).held + (a ::ₘ db.around key.key) + others) :=
      hc.congr (by simp only [← Multiset.singleton_add]; abel)
    have hapart : ∀ y ∈ (ObjVal.heapq heap).held + others, y ∉ db.owners := by
      intro y hy
      rcases Multiset.mem_add.mp hy with hy | hy
      · exact h.apart_contents hl hy
      · exact h.apart y hy
    obtain ⟨db₁, hset, h₁, hm₁, -, htasks, -⟩ := setContents_spec h hkey hl rfl (.heapq heap) hi hc' hapart
    change setContents db key ⟨a, .heapq heap⟩ = .ok db₁ at hset
    refine ⟨db₁, ?_, h₁, .of_insert hm₁ htasks⟩
    simp only [popReply, minheapPop, hzero, if_true, Exec.pure_eq, Exec.ok_bind, hset]
  · intro hpos
    obtain ⟨item, heap', hpop, hi', hlen, hm, -⟩ := minheapPop_spec hi hpos
    have hheld := heapq_held_cons hm
    have hc' : Counts db.refs ((ObjVal.heapq heap').held + (a ::ₘ db.around key.key) +
        (item.obj.addr ::ₘ others)) := by
      refine hc.congr ?_
      rw [hheld]
      simp only [← Multiset.singleton_add]
      abel
    have hapart : ∀ y ∈ (ObjVal.heapq heap').held + item.obj.addr ::ₘ others, y ∉ db.owners := by
      intro y hy
      rw [Multiset.add_cons, ← Multiset.cons_add, ← hheld] at hy
      rcases Multiset.mem_add.mp hy with hy | hy
      · exact h.apart_contents hl hy
      · exact h.apart y hy
    obtain ⟨db₁, hset, h₁, hm₁, -, htasks, -⟩ := setContents_spec h hkey hl rfl (.heapq heap') hi' hc' hapart
    change setContents db key ⟨a, .heapq heap'⟩ = .ok db₁ at hset
    have hc₁ : Counts db₁.refs (item.obj.addr ::ₘ (db₁.held + others)) := h₁.counts.congr (by simp)
    obtain ⟨refs, hdecr, hc₂⟩ := hc₁.decr
    obtain ⟨n, hn⟩ := hc₁.live (Multiset.mem_cons_self _ _)
    refine ⟨item, heap', { db₁ with refs := refs }, ?_, h₁.withRefs hc₂ fun y hy => ?_, .of_insert hm₁ htasks, hlen, hm⟩
    · simp only [popReply, hpop, Exec.ok_bind, hset, bulkReply, hn, Exec.pure_eq, hdecr]
    · exact h₁.apart y (Multiset.mem_cons_of_mem hy)

theorem popReply_inv {a : ℕ} {heap : Minheap HqItem} {popped : Option (Minheap HqItem)}
    {replies : List ReplyCall} (h : db.Inv others) (hkey : sdsEncodedObject key.enc = true)
    (hl : db.dict.toMap.lookup key.key = some ⟨a, .heapq heap⟩)
    {val : ObjVal} (run : popReply db key ⟨a, val⟩ heap = .ok (popped, db', replies)) :
    db'.Inv others ∧ ∃ heap', Updated db db' key.key ⟨a, .heapq heap'⟩ ∧ ∀ heap₁, popped = some heap₁ → heap₁ = heap' := by
  obtain ⟨hempty, hpop⟩ := popReply_spec val h hkey hl
  rcases Nat.eq_zero_or_pos heap.len with hzero | hpos
  · obtain ⟨db₁, hr, h₁, hup⟩ := hempty hzero
    rw [hr] at run
    obtain ⟨rfl, rfl, -⟩ : none = popped ∧ db₁ = db' ∧ _ := by simpa using run
    exact ⟨h₁, heap, hup, by simp⟩
  · obtain ⟨item, heap', db₁, hr, h₁, hup, -⟩ := hpop hpos
    rw [hr] at run
    obtain ⟨rfl, rfl, -⟩ : some heap' = popped ∧ db₁ = db' ∧ _ := by simpa using run
    exact ⟨h₁, heap', hup, fun heap₁ he => (Option.some.inj he).symm⟩

theorem rrCmdHqpop_inv {replies : List ReplyCall} (h : db.Inv others) (hkey : sdsEncodedObject key.enc = true)
    (run : rrCmdHqpop db key = .ok (db', replies)) : Ran (some .rrCmdHqpop) others db db' replies key.key 0 := by
  rcases onCollection_cases h hkey run with he | ⟨⟨a, val⟩, heap, hl, hx, hpop⟩
  · obtain rfl : db' = db := he
    exact .same h
  obtain rfl := heapq?_eq hx
  obtain ⟨hempty, hsome⟩ := popReply_spec (.heapq heap) h hkey hl
  rcases Nat.eq_zero_or_pos heap.len with hzero | hpos
  · obtain ⟨db₁, hr, h₁, hup⟩ := hempty hzero
    simp only [hr, Exec.ok_bind, Exec.pure_eq] at hpop
    obtain ⟨rfl, rfl⟩ := Prod.mk.inj (Except.ok.inj hpop)
    exact .updated h₁ hup rfl not_sendsError_nullbulk fun _ hno => hno.absurd hl
  · obtain ⟨item, heap', db₁, hr, h₁, hup, -⟩ := hsome hpos
    simp only [hr, Exec.ok_bind, Exec.pure_eq] at hpop
    obtain ⟨rfl, rfl⟩ := Prod.mk.inj (Except.ok.inj hpop)
    exact .updated h₁ hup rfl (not_sendsError_bulkObj _) fun _ hno => hno.absurd hl

theorem popnLoop_inv {a : ℕ} {val : ObjVal} {n : ℕ} {heap : Minheap HqItem} {replies : List ReplyCall}
    (h : db.Inv others) (hkey : sdsEncodedObject key.enc = true)
    (hl : db.dict.toMap.lookup key.key = some ⟨a, .heapq heap⟩)
    (run : popnLoop key ⟨a, val⟩ n db heap = .ok (db', replies)) :
    db'.Inv others ∧ ∃ heap', Updated db db' key.key ⟨a, .heapq heap'⟩ := by
  induction n generalizing db heap replies with
  | zero =>
    obtain ⟨rfl, -⟩ : db = db' ∧ _ := by simpa [popnLoop] using run
    exact ⟨h, heap, hl, fun _ _ => rfl, rfl⟩
  | succ n ih =>
    obtain ⟨⟨popped, db₁, reply⟩, hrun, hrest⟩ := Exec.bind_eq_ok.mp run
    obtain ⟨h₁, heap₁, hup, hpopped⟩ := popReply_inv h hkey hl hrun
    cases popped with
    | none =>
      obtain ⟨rfl, -⟩ : db₁ = db' ∧ _ := by simpa using hrest
      exact ⟨h₁, heap₁, hup⟩
    | some heap' =>
      obtain rfl := hpopped heap' rfl
      obtain ⟨⟨db₂, rest⟩, hrun₂, he⟩ := Exec.bind_eq_ok.mp hrest
      obtain ⟨rfl, -⟩ : db₂ = db' ∧ _ := by simpa using he
      obtain ⟨h₂, heap₂, hup₂⟩ := ih h₁ hup.lookup hrun₂
      exact ⟨h₂, heap₂, hup.trans hup₂⟩

theorem rrCmdHqpopn_inv {count : StrObj} {replies : List ReplyCall} (h : db.Inv others)
    (hkey : sdsEncodedObject key.enc = true) (run : rrCmdHqpopn db key count = .ok (db', replies)) :
    Ran (some .rrCmdHqpopn) others db db' replies key.key 0 := by
  rw [rrCmdHqpopn] at run
  split at run
  · obtain ⟨rfl, -⟩ : db = db' ∧ _ := by simpa using run
    exact .same h
  split at run
  · obtain ⟨rfl, -⟩ : db = db' ∧ _ := by simpa using run
    exact .same h
  rcases onCollection_cases h hkey run with he | ⟨⟨a, val⟩, heap, hl, hx, hpop⟩
  · obtain rfl : db' = db := he
    exact .same h
  obtain ⟨⟨db₁, rest⟩, hrun, he⟩ := Exec.bind_eq_ok.mp hpop
  obtain ⟨rfl, rfl⟩ := Prod.mk.inj (Except.ok.inj he)
  obtain rfl := heapq?_eq hx
  obtain ⟨h₁, heap', hup⟩ := popnLoop_inv h hkey hl hrun
  exact .updated h₁ hup rfl (not_sendsError_array _ _) fun _ hno => hno.absurd hl

/-! ## Document sets -/

theorem Fts.held_eq (fts : Fts) (t : Bytes) :
    fts.held = part FtsDoc.refs (fts.find t) + rest FtsDoc.refs fts.find t :=
  fts.finiteDomain_find.total_eq FtsDoc.refs t

theorem Fts.held_update {fts fts' : Fts} {t : Bytes} {d : Option FtsDoc}
    (hf : fts'.find = Function.update fts.find t d) :
    fts'.held = part FtsDoc.refs d + rest FtsDoc.refs fts.find t := by
  rw [fts'.held_eq t, hf, Function.update_self]
  congr 1
  exact rest_congr FtsDoc.refs fun j hj => Function.update_of_ne hj _ _

theorem applyRefOps_append (refs : Refs) (log log' : List RefOp) :
    applyRefOps refs (log ++ log') = (applyRefOps refs log >>= fun refs => applyRefOps refs log') := by
  induction log generalizing refs with
  | nil => rfl
  | cons op log ih =>
    cases op with
    | incr o =>
      rw [List.cons_append, applyRefOps, applyRefOps, bind_assoc]
      exact bind_congr fun refs => ih refs
    | decr o =>
      rw [List.cons_append, applyRefOps, applyRefOps, bind_assoc]
      exact bind_congr fun refs => ih refs

theorem sum_refs_toList (d : Option FtsDoc) : (d.toList.map FtsDoc.refs).sum = part FtsDoc.refs d := by
  cases d <;> simp

theorem replaceLog_eq (old : Option FtsDoc) : replaceLog old = dropLog old.toList := by
  cases old <;> rfl

/-- The references that adding a document drops and takes. -/
theorem Counts.addDocument {refs : Refs} {m : Multiset ℕ} {fts fts' : Fts} {title doc : StrObj} {added : Bool}
    (h : Counts refs (fts.held + m)) (ht : title.addr ∈ m) (hd : doc.addr ∈ m)
    (hadd : Added fts fts' title doc added) :
    ∃ refs', applyRefOps refs (replaceLog (fts.find title.key) ++ addLog title doc added) = .ok refs' ∧
      Counts refs' (fts'.held + m) := by
  have h₀ : Counts refs (((fts.find title.key).toList.map FtsDoc.refs).sum +
      (rest FtsDoc.refs fts.find title.key + m)) := by
    refine h.congr ?_
    rw [fts.held_eq title.key, sum_refs_toList, add_assoc]
  obtain ⟨refs₁, hr₁, h₁⟩ := h₀.dropLog
  obtain ⟨refs₂, hr₂, h₂⟩ := h₁.incr (a := title.addr) (Or.inl (by simp [ht]))
  obtain ⟨refs₃, hr₃, h₃⟩ := h₂.incr (a := doc.addr) (Or.inl (by simp [hd]))
  have hheld := Fts.held_update hadd.find_eq
  rw [replaceLog_eq, applyRefOps_append, hr₁, Exec.ok_bind]
  cases added with
  | true =>
    refine ⟨refs₃, by simp [addLog, applyRefOps, hr₂, hr₃], h₃.congr ?_⟩
    rw [hheld, if_pos rfl, part_some]
    simp only [FtsDoc.refs, addrs_cons, addrs_nil, ← Multiset.singleton_add]
    abel
  | false =>
    rw [Multiset.cons_swap] at h₃
    obtain ⟨refs₄, hr₄, h₄⟩ := h₃.decr
    obtain ⟨refs₅, hr₅, h₅⟩ := h₄.decr
    refine ⟨refs₅, by simp [addLog, applyRefOps, hr₂, hr₃, hr₄, hr₅], h₅.congr ?_⟩
    rw [hheld, if_neg (by simp), part_none, zero_add]

theorem createFTSObject_held : createFTSObject.held = 0 := by
  change total FtsDoc.refs ftsCreate.find = 0
  exact total_none FtsDoc.refs

/-- The references of a document set after a document was added, apart from its title and
text. -/
theorem Added.mem_held {fts fts' : Fts} {title doc : StrObj} {added : Bool} (h : Added fts fts' title doc added)
    {x : ℕ} (hx : x ∈ fts'.held) : x = title.addr ∨ x = doc.addr ∨ x ∈ fts.held := by
  rw [Fts.held_update h.find_eq] at hx
  rcases Multiset.mem_add.mp hx with hx | hx
  · cases added with
    | true =>
      have hmem : x ∈ addrs [title, doc] := hx
      simp only [addrs_cons, addrs_nil, Multiset.mem_cons, Multiset.notMem_zero, or_false] at hmem
      exact hmem.imp_right .inl
    | false => simp at hx
  · refine .inr (.inr ?_)
    rw [fts.held_eq title.key]
    exact Multiset.mem_add.mpr (.inr hx)

/-- DSET on a key that is free or holds a document set, once the title has been encoded: an
encoded integer is followed as a pointer, any other title goes into the set. -/
theorem rrCmdDset_spec {G : Type} (env : ServerEnv G) {title doc : StrObj}
    (h : db.Inv (title.addr ::ₘ doc.addr ::ₘ others)) (hkey : sdsEncodedObject key.enc = true)
    (htitle : sdsEncodedObject title.enc = true) (hdoc : sdsEncodedObject doc.enc = true)
    (hset : ∀ o, db.dict.toMap.lookup key.key = some o → ∃ fts, o.val = .fts fts) :
    ∃ title', title'.enc.bytes = title.enc.bytes ∧
      (refcount db.refs title.addr = .ok 1 → sdsEncodedObject title'.enc = !spellsInteger title.enc.bytes) ∧
      (sdsEncodedObject title'.enc = false → ∃ e, rrCmdDset env db key title doc = .error e ∧ e ≠ .freedMemory) ∧
      (sdsEncodedObject title'.enc = true → ∃ added db' a fts fts',
        rrCmdDset env db key title doc =
          .ok (db', title', [.obj (if added then Shared.ok else Shared.err)]) ∧
        db'.Inv (title'.addr ::ₘ doc.addr ::ₘ others) ∧
        Updated db db' key.key ⟨a, .fts fts'⟩ ∧ Added fts fts' title' doc added) := by
  obtain ⟨⟨a, content⟩, db₁, hget, h₁, hl, hframe, htasks, hcount, hwas⟩ :=
    rrDbLookupOrCreate_spec env h hkey createFTSObject_inv createFTSObject_held
  obtain ⟨fts, rfl⟩ : ∃ fts, content = .fts fts := by
    rcases hwas with ⟨hwas, -⟩ | ⟨-, hnew⟩
    · exact hset _ hwas
    · exact ⟨ftsCreate, hnew⟩
  obtain ⟨title', refs, henc, h₂, hbytes, hint⟩ := h₁.encode env htitle
  refine ⟨title', hbytes, fun hone => hint (hcount _ _ hone), fun hs => ?_, fun hs => ?_⟩
  · obtain ⟨e, he, hne⟩ := StrEnc.ptr_of_not_sds hs
    refine ⟨e, ?_, hne⟩
    simp [rrCmdDset, hget, henc, ftsAdd, he]
  · obtain ⟨added, fts', hadds, hadd⟩ := ftsAdd_spec (h₁.stored _ _ hl) env.fts hs hdoc
    have hc := h₂.counts
    change Counts refs (db₁.held + title'.addr ::ₘ doc.addr ::ₘ others) at hc
    have hc₂ : Counts refs (fts.held +
        (title'.addr ::ₘ doc.addr ::ₘ ((a ::ₘ db₁.around key.key) + others))) := by
      refine hc.congr ?_
      rw [db₁.held_eq key.key, hl, part_some, Robj.held, ObjVal.held]
      simp only [← Multiset.singleton_add]
      abel
    obtain ⟨refs', hlog, hc₃⟩ := hc₂.addDocument (by simp) (by simp) hadd
    have hc₄ : Counts refs' ((ObjVal.fts fts').held + (a ::ₘ db₁.around key.key) +
        (title'.addr ::ₘ doc.addr ::ₘ others)) := by
      refine hc₃.congr ?_
      rw [ObjVal.held]
      simp only [← Multiset.singleton_add]
      abel
    have hothers : ∀ x ∈ title'.addr ::ₘ doc.addr ::ₘ others, x ∉ db₁.owners := h₂.apart
    have hapart : ∀ x ∈ (ObjVal.fts fts').held + title'.addr ::ₘ doc.addr ::ₘ others, x ∉ db₁.owners := by
      intro x hx
      rcases Multiset.mem_add.mp hx with hx | hx
      · rcases hadd.mem_held hx with rfl | rfl | hx
        · exact hothers _ (by simp)
        · exact hothers _ (by simp)
        · exact h₁.apart_contents hl hx
      · exact hothers x hx
    obtain ⟨db₂, hput, h₃, hm₂, -, htasks₂, -⟩ := setContents_spec h₁ hkey hl rfl (.fts fts') hadd.inv hc₄ hapart
    refine ⟨added, db₂, a, fts, fts', ?_, h₃, Updated.trans ⟨hl, hframe, htasks⟩ (.of_insert hm₂ htasks₂), hadd⟩
    simp only [rrCmdDset, hget, Exec.ok_bind, henc, hadds, hlog, hput, Exec.pure_eq]

/-- The key holds something else than a document set. -/
theorem rrCmdDset_wrongtype {G : Type} (env : ServerEnv G) (title doc : StrObj) (h : db.Inv others)
    (hkey : sdsEncodedObject key.enc = true) {o : Robj} (hl : db.dict.toMap.lookup key.key = some o)
    (htype : ∀ fts, o.val ≠ .fts fts) :
    rrCmdDset env db key title doc = .ok (db, title, [.obj Shared.wrongtypeerr]) := by
  simp only [rrCmdDset, rrDbLookupOrCreate, rrDbLookup_spec h hkey, Exec.ok_bind, hl, Exec.pure_eq]

theorem rrCmdDset_inv {G : Type} (env : ServerEnv G) {title title' doc : StrObj} {replies : List ReplyCall}
    (h : db.Inv (title.addr ::ₘ doc.addr ::ₘ others)) (hkey : sdsEncodedObject key.enc = true)
    (htitle : sdsEncodedObject title.enc = true) (hdoc : sdsEncodedObject doc.enc = true)
    (hshort : doc.enc.bytes.length < 2 ^ 31)
    (run : rrCmdDset env db key title doc = .ok (db', title', replies)) :
    Ran (some .rrCmdDset) (title'.addr ::ₘ doc.addr ::ₘ others) db db' replies key.key 0 := by
  by_cases hset : ∀ o, db.dict.toMap.lookup key.key = some o → ∃ fts, o.val = .fts fts
  · obtain ⟨t, -, -, hbad, hgood⟩ := rrCmdDset_spec env h hkey htitle hdoc hset
    cases hs : sdsEncodedObject t.enc with
    | false =>
      obtain ⟨e, he, -⟩ := hbad hs
      rw [he] at run
      cases run
    | true =>
      obtain ⟨added, db₁, a, fts, fts', hr, h₁, hup, hadd⟩ := hgood hs
      rw [hr] at run
      obtain ⟨rfl, rfl, rfl⟩ : db₁ = db' ∧ t = title' ∧ _ = replies := by simpa using run
      refine .updated h₁ hup rfl ?_ fun _ _ => rfl
      rw [hadd.added_eq, rawTerms_isSome hshort]
      exact not_sendsError_ok
  · simp only [not_forall, not_exists] at hset
    obtain ⟨o, hl, hne⟩ := hset
    rw [rrCmdDset_wrongtype env title doc h hkey hl hne] at run
    obtain ⟨rfl, rfl, -⟩ : db = db' ∧ title = title' ∧ _ := by simpa using run
    exact .same h

/-- DDEL on a document set: a stored title goes with its document. -/
theorem rrCmdDdel_spec {G : Type} (env : ServerEnv G) {title : StrObj} {a : ℕ} {fts : Fts} (h : db.Inv others)
    (hkey : sdsEncodedObject key.enc = true) (htitle : sdsEncodedObject title.enc = true)
    (hl : db.dict.toMap.lookup key.key = some ⟨a, .fts fts⟩) :
    ∃ db' fts', rrCmdDdel env db key title =
        .ok (db', [.obj (if (fts.find title.key).isSome then Shared.cone else Shared.czero)]) ∧
      db'.Inv others ∧ Updated db db' key.key ⟨a, .fts fts'⟩ ∧
      fts'.find = Function.update fts.find title.key none := by
  obtain ⟨fts', hr, hi, hf⟩ : ∃ fts', ftsDel env.fts fts title =
        .ok ((fts.find title.key).isSome, fts', dropLog (fts.find title.key).toList) ∧ fts'.Inv ∧
      fts'.find = Function.update fts.find title.key none := by
    have hdel := ftsDel_spec (h.stored _ _ hl) env.fts htitle
    rcases hd : fts.find title.key with _ | d
    · rw [hd] at hdel
      refine ⟨fts, hdel, h.stored _ _ hl, ?_⟩
      rw [← hd, Function.update_eq_self]
    · rw [hd] at hdel
      exact hdel
  have hrest : (ObjVal.fts fts').held = rest FtsDoc.refs fts.find title.key := by
    rw [ObjVal.held, Fts.held_update hf, part_none, zero_add]
  have hc := h.counts
  rw [db.held_eq key.key, hl, part_some, Robj.held, ObjVal.held, fts.held_eq title.key, ← sum_refs_toList] at hc
  have hc₁ : Counts db.refs (((fts.find title.key).toList.map FtsDoc.refs).sum +
      ((ObjVal.fts fts').held + (a ::ₘ db.around key.key) + others)) := by
    refine hc.congr ?_
    rw [hrest]
    simp only [← Multiset.singleton_add]
    abel
  obtain ⟨refs, hlog, hc₂⟩ := hc₁.dropLog
  have hapart : ∀ x ∈ (ObjVal.fts fts').held + others, x ∉ db.owners := by
    intro x hx
    rcases Multiset.mem_add.mp hx with hx | hx
    · refine h.apart_contents hl ?_
      rw [ObjVal.held, fts.held_eq title.key]
      exact Multiset.mem_add.mpr (.inr (hrest ▸ hx))
    · exact h.apart x hx
  obtain ⟨db₁, hset, h₁, hm₁, -, htasks, -⟩ := setContents_spec h hkey hl rfl (.fts fts') hi hc₂ hapart
  refine ⟨db₁, fts', ?_, h₁, .of_insert hm₁ htasks, hf⟩
  have hsel : ObjVal.fts? (.fts fts) = some fts := rfl
  rw [rrCmdDdel, onCollection_of_lookup h hkey hl hsel]
  simp only [hr, Exec.ok_bind, hlog, hset, Exec.pure_eq]

theorem rrCmdDdel_inv {G : Type} (env : ServerEnv G) {title : StrObj} {replies : List ReplyCall}
    (h : db.Inv others) (hkey : sdsEncodedObject key.enc = true) (htitle : sdsEncodedObject title.enc = true)
    (run : rrCmdDdel env db key title = .ok (db', replies)) :
    Ran (some .rrCmdDdel) others db db' replies key.key 0 := by
  rcases onCollection_cases h hkey run with he | ⟨⟨a, val⟩, fts, hl, hx, -⟩
  · obtain rfl : db' = db := he
    exact .same h
  obtain rfl := fts?_eq hx
  obtain ⟨db₁, fts', hr, h₁, hup, -⟩ := rrCmdDdel_spec env h hkey htitle hl
  rw [hr] at run
  obtain ⟨rfl, rfl⟩ := Prod.mk.inj (Except.ok.inj run)
  exact .updated h₁ hup rfl (not_sendsError_flag _) fun _ _ => rfl

end Writing

end RhinoRox
