import RhinoRox.Contents

/-!
# Commands see contents only

On two keyspaces with the same contents a command gives the same replies and leaves the
same contents, or ends in the same fault. The addresses of objects and documents, the shape
of the dictionary of keys and the way values are released make no difference.
-/

namespace RhinoRox

/-- Two arguments with the same text. -/
structure SameArg (o o' : StrObj) : Prop where
  sds : sdsEncodedObject o.enc = true
  enc : o.enc = o'.enc

namespace SameArg
variable {o o' : StrObj}

theorem ptr (h : SameArg o o') : o.enc.ptr = .ok o.enc.bytes := StrEnc.ptr_of_sds h.sds

theorem sds' (h : SameArg o o') : sdsEncodedObject o'.enc = true := h.enc ▸ h.sds

theorem ptr' (h : SameArg o o') : o'.enc.ptr = .ok o.enc.bytes := h.enc ▸ h.ptr

theorem key_eq (h : SameArg o o') : o.key = o'.key := by rw [StrObj.key, StrObj.key, h.enc]

end SameArg

/-- Two keyspaces with the same contents and right counts. -/
structure SameKeyspaces (others others' : Multiset ℕ) (db db' : Keyspace) : Prop where
  inv : db.Inv others
  inv' : db'.Inv others'
  contents : db.contents = db'.contents

/-- Two keyspaces with the same contents while a command is at work on them. -/
structure SameDicts (db db' : Keyspace) : Prop where
  inv : db.dict.Inv
  inv' : db'.dict.Inv
  contents : db.contents = db'.contents

/-- The same replies and the same contents afterwards. -/
def SameResult (r r' : Keyspace × List ReplyCall) : Prop := r.1.contents = r'.1.contents ∧ r.2 = r'.2

/-- The same for a command that replaces an argument. -/
def SameCall {α : Type} (r r' : Keyspace × α × List ReplyCall) : Prop :=
  r.1.contents = r'.1.contents ∧ r.2.2 = r'.2.2

section Keyspaces
variable {db db' : Keyspace} {others others' : Multiset ℕ} {key key' : StrObj}

theorem SameKeyspaces.dicts (h : SameKeyspaces others others' db db') : SameDicts db db' :=
  ⟨h.inv.dict, h.inv'.dict, h.contents⟩

theorem SameKeyspaces.same (h : SameKeyspaces others others' db db') (replies : List ReplyCall) :
    SameResult (db, replies) (db', replies) := ⟨h.contents, rfl⟩

theorem SameDicts.view (h : SameDicts db db') (k : Bytes) :
    (db.dict.toMap.lookup k).map (fun o => o.val.contents) =
      (db'.dict.toMap.lookup k).map fun o => o.val.contents := congrFun h.contents k

theorem SameDicts.withRefs (h : SameDicts db db') (refs refs' : Refs) :
    SameDicts { db with refs := refs } { db' with refs := refs' } := ⟨h.inv, h.inv', h.contents⟩

theorem SameDicts.length_eq (h : SameDicts db db') : dictLength db.dict = dictLength db'.dict :=
  h.inv.length_view h.inv' h.view

theorem SameDicts.isSome_eq (h : SameDicts db db') (k : Bytes) :
    (db.dict.toMap.lookup k).isSome = (db'.dict.toMap.lookup k).isSome := by
  rw [← Option.isSome_map, h.view k, Option.isSome_map]

/-- The object of a key in both keyspaces. -/
theorem SameKeyspaces.lookup_cases (h : SameKeyspaces others others' db db') (hk : SameArg key key') :
    (rrDbLookup db key = .ok none ∧ rrDbLookup db' key' = .ok none) ∨
    ∃ o o', rrDbLookup db key = .ok (some o) ∧ rrDbLookup db' key' = .ok (some o') ∧
      db.dict.toMap.lookup key.key = some o ∧ db'.dict.toMap.lookup key'.key = some o' ∧
      o.val.contents = o'.val.contents := by
  rw [rrDbLookup_spec h.inv hk.sds, rrDbLookup_spec h.inv' hk.sds', ← hk.key_eq]
  obtain ⟨hl, hl'⟩ | ⟨o, o', hl, hl', heq⟩ := option_map_cases (h.dicts.view key.key)
  · exact .inl ⟨by rw [hl], by rw [hl']⟩
  · exact .inr ⟨o, o', by rw [hl], by rw [hl'], hl, hl', heq⟩

theorem onCollection_alike {β : Type} {select : ObjVal → Option β} {Q : β → β → Prop} {run run' : Robj → β → CmdRun}
    (h : SameKeyspaces others others' db db') (hk : SameArg key key')
    (hselect : ∀ val val' : ObjVal, val.contents = val'.contents →
      (select val = none ∧ select val' = none) ∨ ∃ x x', select val = some x ∧ select val' = some x' ∧ Q x x')
    (hrun : ∀ o o' x x', db.dict.toMap.lookup key.key = some o → db'.dict.toMap.lookup key'.key = some o' →
      select o.val = some x → select o'.val = some x' → Q x x' → Alike SameResult (run o x) (run' o' x')) :
    Alike SameResult (onCollection select db key run) (onCollection select db' key' run') := by
  obtain ⟨hr, hr'⟩ | ⟨o, o', hr, hr', hl, hl', heq⟩ := h.lookup_cases hk
  · simp only [onCollection, hr, hr', Exec.ok_bind]
    exact .pure (h.same _)
  · simp only [onCollection, hr, hr', Exec.ok_bind]
    obtain ⟨hx, hx'⟩ | ⟨x, x', hx, hx', hq⟩ := hselect o.val o'.val heq
    · simp only [hx, hx']
      exact .pure (h.same _)
    · simp only [hx, hx']
      exact hrun o o' x x' hl hl' hx hx' hq

/-- The object of a key changed in place in both keyspaces. -/
theorem setContents_alike (h : SameDicts db db') (hk : SameArg key key') {a a' : ℕ} {val val' : ObjVal}
    (hl : (db.dict.toMap.lookup key.key).isSome = true) (heq : val.contents = val'.contents) :
    Alike (fun r r' => SameDicts r r' ∧ (r.dict.toMap.lookup key.key).isSome = true) (setContents db key ⟨a, val⟩)
      (setContents db' key' ⟨a', val'⟩) := by
  have hl' := hl
  rw [h.isSome_eq] at hl'
  obtain ⟨w, hw⟩ := Option.isSome_iff_exists.mp hl
  obtain ⟨w', hw'⟩ := Option.isSome_iff_exists.mp hl'
  obtain ⟨d, hr, hi, hm, -⟩ := dictModify_spec h.inv (k := key.enc.bytes) hw ⟨a, val⟩
  obtain ⟨d', hr', hi', hm', -⟩ := dictModify_spec h.inv' (k := key.enc.bytes) hw' ⟨a', val'⟩
  simp only [setContents, hk.ptr, hk.ptr', Exec.ok_bind, hr, hr']
  refine .pure ⟨⟨hi, hi', ?_⟩, ?_⟩
  · funext j
    exact DictT.view_insert h.view hm hm' heq j
  · change (d.toMap.lookup (cStr key.enc.bytes)).isSome = true
    rw [hm, Finmap.lookup_insert]
    rfl

/-- The object of a key, created if there is none, in both keyspaces. -/
theorem SameKeyspaces.lookupOrCreate {G : Type} (env env' : ServerEnv G) (h : SameKeyspaces others others' db db')
    (hk : SameArg key key') {val : ObjVal} (hval : val.Inv) (hempty : val.held = 0) :
    ∃ o o' db₁ db₁', rrDbLookupOrCreate env db key val = .ok (o, db₁) ∧
      rrDbLookupOrCreate env' db' key' val = .ok (o', db₁') ∧ SameKeyspaces others others' db₁ db₁' ∧
      db₁.dict.toMap.lookup key.key = some o ∧ db₁'.dict.toMap.lookup key'.key = some o' ∧
      o.val.contents = o'.val.contents ∧ (∀ a n, refcount db.refs a = .ok n → refcount db₁.refs a = .ok n) ∧
      ∀ a n, refcount db'.refs a = .ok n → refcount db₁'.refs a = .ok n := by
  obtain ⟨o, db₁, hr, h₁, hl, hframe, -, hcount, hwas⟩ := rrDbLookupOrCreate_spec env h.inv hk.sds hval hempty
  obtain ⟨o', db₁', hr', h₁', hl', hframe', -, hcount', hwas'⟩ :=
    rrDbLookupOrCreate_spec env' h.inv' hk.sds' hval hempty
  have heq : o.val.contents = o'.val.contents := by
    have hview := h.dicts.view key.key
    rw [← hk.key_eq] at hwas'
    rcases hwas with ⟨hl₀, -⟩ | ⟨hl₀, hnew⟩
    · rcases hwas' with ⟨hl₀', -⟩ | ⟨hl₀', -⟩
      · rw [hl₀, hl₀'] at hview
        exact Option.some.inj hview
      · rw [hl₀, hl₀'] at hview
        cases hview
    · rcases hwas' with ⟨hl₀', -⟩ | ⟨-, hnew'⟩
      · rw [hl₀, hl₀'] at hview
        cases hview
      · rw [hnew, hnew']
  refine ⟨o, o', db₁, db₁', hr, hr', ⟨h₁, h₁', ?_⟩, hl, hl', heq, hcount, hcount'⟩
  funext j
  by_cases hj : j = key.key
  · rw [Keyspace.contents, Keyspace.contents, hj, hl, hk.key_eq, hl', Option.map_some, Option.map_some, heq]
  · rw [Keyspace.contents, Keyspace.contents, hframe j hj, hframe' j (hk.key_eq ▸ hj)]
    exact h.dicts.view j

/-! ## Strings -/

theorem rrCmdGet_alike (h : SameKeyspaces others others' db db') (hk : SameArg key key') :
    Alike SameResult (rrCmdGet db key) (rrCmdGet db' key') := by
  obtain ⟨hr, hr'⟩ | ⟨⟨a, val⟩, ⟨a', val'⟩, hr, hr', -, -, heq⟩ := h.lookup_cases hk
  · simp only [rrCmdGet, hr, hr', Exec.ok_bind]
    exact .pure (h.same _)
  · simp only [rrCmdGet, hr, hr', Exec.ok_bind]
    cases val with
    | string enc =>
      cases val' with
      | string enc' =>
        obtain rfl := Contents.string.inj heq
        exact .pure (h.same _)
      | _ => cases heq
    | _ =>
      cases val' with
      | string enc' => cases heq
      | _ => exact .pure (h.same _)

theorem rrCmdLen_alike (h : SameKeyspaces others others' db db') :
    Alike SameResult (rrCmdLen db) (rrCmdLen db') := by
  rw [rrCmdLen, rrCmdLen, h.dicts.length_eq]
  exact .pure (h.same _)

theorem rrCmdExists_alike (h : SameKeyspaces others others' db db') (hk : SameArg key key') :
    Alike SameResult (rrCmdExists db key) (rrCmdExists db' key') := by
  simp only [rrCmdExists, hk.ptr, hk.ptr', Exec.ok_bind, dictContains_spec h.inv.dict, dictContains_spec h.inv'.dict,
    h.dicts.isSome_eq]
  exact .pure (h.same _)

theorem rrCmdType_alike (h : SameKeyspaces others others' db db') (hk : SameArg key key') :
    Alike SameResult (rrCmdType db key) (rrCmdType db' key') := by
  obtain ⟨hr, hr'⟩ | ⟨o, o', hr, hr', -, -, heq⟩ := h.lookup_cases hk
  · simp only [rrCmdType, hr, hr', Exec.ok_bind]
    exact .pure (h.same _)
  · simp only [rrCmdType, hr, hr', Exec.ok_bind, Option.map_some, contents_type heq]
    exact .pure (h.same _)

theorem wildAt_same (h : SameDicts db db') (k : Bytes) : db.WildAt k ↔ db'.WildAt k := by
  obtain ⟨hl, hl'⟩ | ⟨o, o', hl, hl', heq⟩ := option_map_cases (h.view k)
  · exact iff_of_false (Keyspace.not_wildAt hl) (Keyspace.not_wildAt hl')
  · rw [Keyspace.wildAt_iff hl, Keyspace.wildAt_iff hl']
    exact contents_wild heq

theorem rrCmdDel_alike {G : Type} (env env' : ServerEnv G) (h : SameKeyspaces others others' db db')
    (hk : SameArg key key') : Alike SameResult (rrCmdDel env db key) (rrCmdDel env' db' key') := by
  obtain ⟨hbad, hgood⟩ := rrCmdDel_spec env h.inv hk.sds
  obtain ⟨hbad', hgood'⟩ := rrCmdDel_spec env' h.inv' hk.sds'
  rw [← hk.key_eq] at hbad' hgood'
  by_cases hw : db.WildAt key.key
  · exact .error (hbad hw) (hbad' ((wildAt_same h.dicts _).mp hw))
  · obtain ⟨db₁, leaked, hr, h₁⟩ := hgood hw
    obtain ⟨db₁', leaked', hr', h₁'⟩ := hgood' fun hw' => hw ((wildAt_same h.dicts _).mpr hw')
    refine .ok hr hr' ⟨funext (DictT.view_erase h.dicts.view h₁.toMap h₁'.toMap), ?_⟩
    rw [h.dicts.isSome_eq]

end Keyspaces

/-! ## Releasing an object adds no reference -/

/-- No count is higher than before. -/
def NoneGrows (refs refs' : Refs) : Prop := ∀ a n, refs'.lookup a = some n → ∃ m, refs.lookup a = some m ∧ n ≤ m

namespace NoneGrows
variable {refs refs' refs'' : Refs}

theorem refl (refs : Refs) : NoneGrows refs refs := fun _ n hn => ⟨n, hn, le_rfl⟩

theorem trans (h : NoneGrows refs refs') (h' : NoneGrows refs' refs'') : NoneGrows refs refs'' := by
  intro a n hn
  obtain ⟨m, hm, hle⟩ := h' a n hn
  obtain ⟨m', hm', hle'⟩ := h a m hm
  exact ⟨m', hm', hle.trans hle'⟩

theorem decrRefCountWith {free : Refs → Exec Refs} (hfree : ∀ r, free refs = .ok r → NoneGrows refs r) {a : ℕ}
    (run : decrRefCountWith free refs a = .ok refs') : NoneGrows refs refs' := by
  obtain ⟨n, hn, run⟩ := Exec.bind_eq_ok.mp run
  by_cases hshared : a < objSharedIntegers
  · rw [if_pos hshared] at run
    obtain rfl := Except.ok.inj run
    exact refl refs
  rw [if_neg hshared] at run
  rw [refcount, if_neg hshared] at hn
  split at run
  · obtain ⟨r, hr, run⟩ := Exec.bind_eq_ok.mp run
    obtain rfl := Except.ok.inj run
    intro b m hm
    by_cases hb : b = a
    · rw [hb, Finmap.lookup_erase] at hm
      cases hm
    · rw [Finmap.lookup_erase_ne hb] at hm
      exact hfree r hr b m hm
  · obtain rfl := Except.ok.inj run
    intro b m hm
    by_cases hb : b = a
    · rw [hb, Finmap.lookup_insert] at hm
      obtain rfl := Option.some.inj hm
      rw [hb]
      cases hl : refs.lookup a with
      | none =>
        rw [hl] at hn
        cases hn
      | some k =>
        rw [hl] at hn
        obtain rfl := Except.ok.inj hn
        exact ⟨k, rfl, by omega⟩
    · rw [Finmap.lookup_insert_of_ne _ hb] at hm
      exact ⟨m, hm, le_rfl⟩

theorem decrString {o : StrObj} (run : decrString refs o = .ok refs') : NoneGrows refs refs' := by
  refine decrRefCountWith (fun r hr => ?_) run
  obtain rfl := Except.ok.inj hr
  exact refl refs

theorem decrStrings {os : List StrObj} (run : decrStrings refs os = .ok refs') : NoneGrows refs refs' := by
  induction os generalizing refs with
  | nil =>
    obtain rfl := Except.ok.inj run
    exact refl refs
  | cons o os ih =>
    obtain ⟨r, hr, run⟩ := Exec.bind_eq_ok.mp run
    exact (decrString hr).trans (ih run)

/-- The calls that drop documents are all of `decrRefCount`. -/
theorem applyRefOps {ds : List FtsDoc} (run : applyRefOps refs (dropLog ds) = .ok refs') : NoneGrows refs refs' := by
  induction ds generalizing refs with
  | nil =>
    obtain rfl := Except.ok.inj run
    exact refl refs
  | cons d ds ih =>
    obtain ⟨r₁, hr₁, run⟩ := Exec.bind_eq_ok.mp run
    obtain ⟨r₂, hr₂, run⟩ := Exec.bind_eq_ok.mp run
    exact ((decrString hr₁).trans (decrString hr₂)).trans (ih run)

theorem freeObject {val : ObjVal} (hv : val.Inv) (run : freeObject refs val = .ok refs') : NoneGrows refs refs' := by
  cases val with
  | string enc =>
    obtain rfl := Except.ok.inj run
    exact refl refs
  | hash dict =>
    obtain ⟨values, -, run⟩ := Exec.bind_eq_ok.mp run
    exact decrStrings run
  | heapq heap =>
    obtain ⟨-, -, run⟩ := Exec.bind_eq_ok.mp run
    obtain rfl := Except.ok.inj run
    exact refl refs
  | fts f =>
    obtain ⟨log, hlog, run⟩ := Exec.bind_eq_ok.mp run
    rw [Fts.Inv.ftsFree hv] at hlog
    obtain rfl := Except.ok.inj hlog
    exact applyRefOps run

theorem decrRefCount {o : Robj} (hv : o.val.Inv) (run : decrRefCount refs o = .ok refs') : NoneGrows refs refs' :=
  decrRefCountWith (fun _ hr => freeObject hv hr) run

end NoneGrows

/-! ## SET -/

section Set
variable {G : Type} (env : ServerEnv G) {db db₁ : Keyspace} {others : Multiset ℕ} {key : StrObj}

theorem rrDbDel_noneGrows (h : db.Inv others) (hkey : sdsEncodedObject key.enc = true) {deleted : Bool}
    (run : rrDbDel env db key = .ok (deleted, db₁)) : NoneGrows db.refs db₁.refs := by
  obtain ⟨d, hr, -⟩ := dictDel_spec h.dict key.enc.bytes
  have hdrop {o : Robj} (hl : db.dict.toMap.lookup key.key = some o)
      (run : (decrRefCount db.refs o >>= fun refs => .ok (true, ({ db with dict := d, refs := refs } : Keyspace))) =
        .ok (deleted, db₁)) : NoneGrows db.refs db₁.refs := by
    obtain ⟨refs, hrefs, run⟩ := Exec.bind_eq_ok.mp run
    obtain ⟨-, rfl⟩ := Prod.mk.inj (Except.ok.inj run)
    exact .decrRefCount (h.stored _ _ hl) hrefs
  change dictDel db.dict key.enc.bytes = .ok (db.dict.toMap.lookup key.key, d) at hr
  rw [rrDbDel] at run
  split at run
  · simp only [rrDbDelAsync, StrEnc.ptr_of_sds hkey, Exec.ok_bind, hr] at run
    cases hl : db.dict.toMap.lookup key.key with
    | none =>
      rw [hl] at run
      obtain ⟨-, rfl⟩ := Prod.mk.inj (Except.ok.inj run)
      exact .refl _
    | some o =>
      rw [hl] at run
      simp only at run
      split at run
      · obtain ⟨-, rfl⟩ := Prod.mk.inj (Except.ok.inj run)
        exact .refl _
      · exact hdrop hl run
  · simp only [rrDbDelSync, StrEnc.ptr_of_sds hkey, Exec.ok_bind, hr] at run
    cases hl : db.dict.toMap.lookup key.key with
    | none =>
      rw [hl] at run
      obtain ⟨-, rfl⟩ := Prod.mk.inj (Except.ok.inj run)
      exact .refl _
    | some o =>
      rw [hl] at run
      exact hdrop hl run

/-- The argument of SET still has its one reference when the old value is gone. -/
theorem lazyDel_one {val : StrObj} (h : db.Inv (val.addr ::ₘ others)) (hkey : sdsEncodedObject key.enc = true)
    (hone : refcount db.refs val.addr = .ok 1) (run : lazyDel env db key = .ok db₁) :
    refcount db₁.refs val.addr = .ok 1 := by
  have hprivate : objSharedIntegers ≤ val.addr := by
    by_contra hshared
    rw [refcount_shared _ (by omega)] at hone
    exact absurd (Except.ok.inj hone) (by decide)
  have hlook : db.refs.lookup val.addr = some 1 := by
    rw [h.counts.lookup_of_mem hprivate (by simp)]
    rw [h.counts.refcount_eq hprivate (by simp)] at hone
    exact congrArg some (Except.ok.inj hone)
  obtain ⟨hwild, hdel⟩ := lazyDel_spec env h hkey
  by_cases hw : db.WildAt key.key
  · rcases hwild hw with hr | hr
    · rw [hr] at run
      cases run
    · rw [hr] at run
      obtain rfl := Except.ok.inj run
      exact hone
  · obtain ⟨db₂, leaked, hr, h₂, -⟩ := hdel hw
    obtain rfl := Except.ok.inj (hr.symm.trans run)
    have hgrows : NoneGrows db.refs db₂.refs := by
      rw [lazyDel] at run
      split at run
      · obtain ⟨⟨deleted, db₃⟩, hr₃, run⟩ := Exec.bind_eq_ok.mp run
        obtain rfl := Except.ok.inj run
        exact rrDbDel_noneGrows env h hkey hr₃
      · obtain rfl := Except.ok.inj run
        exact .refl _
    have hmem : val.addr ∈ db₂.held + (val.addr ::ₘ others + leaked) := by simp
    obtain ⟨m, hm, hle⟩ := hgrows _ _ (h₂.counts.lookup_of_mem hprivate hmem)
    obtain rfl : 1 = m := Option.some.inj (hlook.symm.trans hm)
    have hpos := Multiset.one_le_count_iff_mem.mpr hmem
    rw [h₂.counts.refcount_eq hprivate hmem]
    congr 1
    omega

/-- The encoding of the string that SET stores. -/
theorem rrCmdSet_enc {val val' : StrObj} {replies : List ReplyCall} (h : db.Inv (val.addr ::ₘ others))
    (hkey : sdsEncodedObject key.enc = true) (hval : sdsEncodedObject val.enc = true)
    (hone : refcount db.refs val.addr = .ok 1) (run : rrCmdSet env db key val = .ok (db₁, val', replies)) :
    val'.enc = encodingOf val.enc := by
  obtain ⟨db₂, hdel, run⟩ := Exec.bind_eq_ok.mp run
  obtain ⟨⟨v, refs⟩, henc, run⟩ := Exec.bind_eq_ok.mp run
  obtain ⟨⟨stored, db₃⟩, -, run⟩ := Exec.bind_eq_ok.mp run
  obtain ⟨-, rfl, -⟩ : db₃ = db₁ ∧ v = val' ∧ _ = replies := by simpa using run
  exact tryObjectEncoding_enc env hval (lazyDel_one env h hkey hone hdel) henc

theorem rrCmdSet_alike (env' : ServerEnv G) {db' : Keyspace} {others' : Multiset ℕ} {key' val val' : StrObj}
    (h : SameKeyspaces (val.addr ::ₘ others) (val'.addr ::ₘ others') db db') (hk : SameArg key key')
    (hv : SameArg val val') (hone : refcount db.refs val.addr = .ok 1) (hone' : refcount db'.refs val'.addr = .ok 1) :
    Alike SameCall (rrCmdSet env db key val) (rrCmdSet env' db' key' val') := by
  obtain ⟨hbad, hgood⟩ := rrCmdSet_spec env h.inv hk.sds hv.sds
  obtain ⟨hbad', hgood'⟩ := rrCmdSet_spec env' h.inv' hk.sds' hv.sds'
  rw [← hk.key_eq] at hbad' hgood'
  by_cases hw : db.WildAt key.key
  · exact .error (hbad hw) (hbad' ((wildAt_same h.dicts _).mp hw))
  · obtain ⟨db₁, v, leaked, hr, h₁, -⟩ := hgood hw
    obtain ⟨db₁', v', leaked', hr', h₁', -⟩ := hgood' fun hw' => hw ((wildAt_same h.dicts _).mpr hw')
    have henc : v.enc = v'.enc := by
      rw [rrCmdSet_enc env h.inv hk.sds hv.sds hone hr, rrCmdSet_enc env' h.inv' hk.sds' hv.sds' hone' hr', hv.enc]
    have hcontents : v.toRobj.val.contents = v'.toRobj.val.contents := congrArg Contents.string henc
    exact .ok hr hr' ⟨funext (DictT.view_insert h.dicts.view h₁.toMap h₁'.toMap hcontents), rfl⟩

end Set

end RhinoRox
