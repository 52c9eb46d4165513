import RhinoRox.CommandContents

/-!
# Commands on collections see contents only

Tries are compared by their fields, heaps slot by slot and document sets by their titles.
A search finds the same documents in the same order, since the order depends on scores and
titles and not on addresses.
-/

namespace RhinoRox

/-! ## Tries -/

/-- Two tries with the same fields. -/
def SameFields (trie trie' : DictT StrObj) : Prop :=
  ∀ f, (trie.toMap.lookup f).map StrObj.enc = (trie'.toMap.lookup f).map StrObj.enc

theorem hash?_contents (val val' : ObjVal) (h : val.contents = val'.contents) :
    (val.hash? = none ∧ val'.hash? = none) ∨
    ∃ trie trie', val.hash? = some trie ∧ val'.hash? = some trie' ∧ SameFields trie trie' := by
  cases val with
  | hash trie =>
    cases val' with
    | hash trie' => exact .inr ⟨trie, trie', rfl, rfl, congrFun (Contents.hash.inj h)⟩
    | _ => cases h
  | _ =>
    cases val' with
    | hash trie' => cases h
    | _ => exact .inl ⟨rfl, rfl⟩

section Tries
variable {db db' : Keyspace} {others others' : Multiset ℕ} {key key' field field' : StrObj}

theorem trie_inv (h : db.Inv others) {k : Bytes} {o : Robj} {trie : DictT StrObj}
    (hl : db.dict.toMap.lookup k = some o) (hx : o.val.hash? = some trie) : trie.Inv := by
  obtain ⟨a, val⟩ := o
  obtain rfl := hash?_eq hx
  exact (h.stored _ _ hl).1

theorem bulkReply_alike {o o' : StrObj} (henc : o.enc = o'.enc) : Alike Eq (bulkReply db o) (bulkReply db' o') := by
  refine .bind_total (refcount_total _ _) (refcount_total _ _) fun _ _ => .pure ?_
  rw [henc]

theorem rrCmdRget_alike (h : SameKeyspaces others others' db db') (hk : SameArg key key') (hf : SameArg field field') :
    Alike SameResult (rrCmdRget db key field) (rrCmdRget db' key' field') := by
  refine onCollection_alike h hk hash?_contents fun o o' trie trie' hl hl' hx hx' hsame => ?_
  simp only [hf.ptr, hf.ptr', Exec.ok_bind, dictGet_spec (trie_inv h.inv hl hx), dictGet_spec (trie_inv h.inv' hl' hx')]
  obtain ⟨hv, hv'⟩ | ⟨v, v', hv, hv', henc⟩ := option_map_cases (hsame (cStr field.enc.bytes))
  · rw [hv, hv']
    exact .pure (h.same _)
  · rw [hv, hv']
    exact .bind_eq (bulkReply_alike henc) fun _ => .pure (h.same _)

theorem rrCmdRexists_alike (h : SameKeyspaces others others' db db') (hk : SameArg key key')
    (hf : SameArg field field') : Alike SameResult (rrCmdRexists db key field) (rrCmdRexists db' key' field') := by
  refine onCollection_alike h hk hash?_contents fun o o' trie trie' hl hl' hx hx' hsame => ?_
  simp only [hf.ptr, hf.ptr', Exec.ok_bind, dictContains_spec (trie_inv h.inv hl hx),
    dictContains_spec (trie_inv h.inv' hl' hx')]
  rw [← Option.isSome_map (f := StrObj.enc), hsame, Option.isSome_map]
  exact .pure (h.same _)

theorem rrCmdRlen_alike (h : SameKeyspaces others others' db db') (hk : SameArg key key') :
    Alike SameResult (rrCmdRlen db key) (rrCmdRlen db' key') := by
  refine onCollection_alike h hk hash?_contents fun o o' trie trie' hl hl' hx hx' hsame => ?_
  rw [(trie_inv h.inv hl hx).length_view (trie_inv h.inv' hl' hx') hsame]
  exact .pure (h.same _)

theorem rrCmdRset_alike {G : Type} (env env' : ServerEnv G) {val val' : StrObj}
    (h : SameKeyspaces others others' db db') (hk : SameArg key key') (hf : SameArg field field')
    (hv : SameArg val val') (hone : refcount db.refs val.addr = .ok 1) (hone' : refcount db'.refs val'.addr = .ok 1) :
    Alike SameCall (rrCmdRset env db key field val) (rrCmdRset env' db' key' field' val') := by
  obtain ⟨⟨a, v⟩, ⟨a', v'⟩, db₁, db₁', hr, hr', h₁, hl, hl', heq, hcount, hcount'⟩ :=
    h.lookupOrCreate env env' hk createHashObject_inv createHashObject_held
  simp only [rrCmdRset, hr, hr', Exec.ok_bind]
  cases v with
  | hash trie =>
    cases v' with
    | hash trie' =>
      have hsame : SameFields trie trie' := congrFun (Contents.hash.inj heq)
      refine .bind (tryObjectEncoding_alike env env' hv.sds hv.enc (hcount _ _ hone) (hcount' _ _ hone')) ?_
      rintro ⟨w, refs⟩ ⟨w', refs'⟩ - - henc
      obtain ⟨d, freed, hset, -, hm, -⟩ := dictSet_spec (trie_inv h₁.inv hl rfl) field.enc.bytes w
      obtain ⟨d', freed', hset', -, hm', -⟩ := dictSet_spec (trie_inv h₁.inv' hl' rfl) field.enc.bytes w'
      simp only [hf.ptr, hf.ptr', Exec.ok_bind, hset, hset', if_true]
      refine .bind_total (decrStrings_total _ _) (decrStrings_total _ _) fun r r' => ?_
      have hfields : (ObjVal.hash d).contents = (ObjVal.hash d').contents :=
        congrArg Contents.hash (funext (DictT.view_insert hsame hm hm' henc))
      have h₂ : SameDicts { db₁ with refs := r } { db₁' with refs := r' } := h₁.dicts.withRefs r r'
      refine .bind (setContents_alike h₂ hk (Option.isSome_of_eq_some hl) hfields) fun db₂ db₂' _ _ h₃ => ?_
      exact .bind_total (incrRefCount_total _ _) (incrRefCount_total _ _) fun _ _ =>
        .pure ⟨h₃.1.contents, rfl⟩
    | _ => cases heq
  | _ =>
    cases v' with
    | hash trie' => cases heq
    | _ => exact .pure ⟨h₁.contents, rfl⟩

theorem rrCmdRdel_alike (h : SameKeyspaces others others' db db') (hk : SameArg key key') (hf : SameArg field field') :
    Alike SameResult (rrCmdRdel db key field) (rrCmdRdel db' key' field') := by
  refine onCollection_alike h hk hash?_contents fun o o' trie trie' hl hl' hx hx' hsame => ?_
  obtain ⟨d, hr, -, hm, -⟩ := dictDel_spec (trie_inv h.inv hl hx) field.enc.bytes
  obtain ⟨d', hr', -, hm', -⟩ := dictDel_spec (trie_inv h.inv' hl' hx') field.enc.bytes
  simp only [hf.ptr, hf.ptr', Exec.ok_bind, hr, hr']
  have hfields : (ObjVal.hash d).contents = (ObjVal.hash d').contents :=
    congrArg Contents.hash (funext (DictT.view_erase hsame hm hm'))
  refine .bind (setContents_alike h.dicts hk (Option.isSome_of_eq_some hl) hfields) fun db₁ db₁' _ _ h₁ => ?_
  obtain ⟨hv, hv'⟩ | ⟨v, v', hv, hv', -⟩ := option_map_cases (hsame (cStr field.enc.bytes))
  · rw [hv, hv']
    exact .error rfl rfl
  · rw [hv, hv']
    exact .bind_total (decrString_total _ _) (decrString_total _ _) fun _ _ =>
      .pure ⟨h₁.1.contents, rfl⟩

/-! The pairs of an iteration. -/

/-- The pairs with their values' contents. -/
def pairContents (kvs : List (Bytes × StrObj)) : List (Bytes × StrEnc) := kvs.map (Prod.map id StrObj.enc)

theorem pairReplies_alike (flags : DictFlags) {kvs kvs' : List (Bytes × StrObj)}
    (heq : pairContents kvs = pairContents kvs') : Alike Eq (pairReplies db flags kvs) (pairReplies db' flags kvs') := by
  induction kvs generalizing kvs' with
  | nil =>
    obtain rfl := List.map_eq_nil_iff.mp heq.symm
    exact .pure rfl
  | cons kv kvs ih =>
    obtain ⟨kv', kvs', rfl, hkv, hkvs⟩ := List.map_eq_cons_iff.mp heq.symm
    obtain ⟨hkey, henc⟩ := Prod.mk.inj hkv
    have hpair : Alike Eq (pairReply db flags kv) (pairReply db' flags kv') := by
      have hkey : kv'.1 = kv.1 := hkey
      rw [pairReply, pairReply, hkey]
      split
      · exact .bind_eq (bulkReply_alike henc.symm) fun _ => .pure rfl
      · exact .pure rfl
    exact .bind_eq hpair fun _ => .bind_eq (ih hkvs.symm) fun _ => .pure rfl

theorem pairContents_length {kvs kvs' : List (Bytes × StrObj)} (heq : pairContents kvs = pairContents kvs') :
    kvs.length = kvs'.length := by
  have hlen := congrArg List.length heq
  rwa [pairContents, pairContents, List.length_map, List.length_map] at hlen

theorem getPrefixReply_alike (h : SameKeyspaces others others' db db') (hk : SameArg key key')
    (hf : SameArg field field') (flags : DictFlags) :
    Alike SameResult (getPrefixReply db key field flags) (getPrefixReply db' key' field' flags) := by
  refine onCollection_alike h hk hash?_contents fun o o' trie trie' hl hl' hx hx' hsame => ?_
  have htrie := trie_inv h.inv hl hx
  have htrie' := trie_inv h.inv' hl' hx'
  have hpairs : pairContents (trie.withPrefix (cStr field.enc.bytes)) =
      pairContents (trie'.withPrefix (cStr field.enc.bytes)) := by
    rw [pairContents, pairContents, DictT.withPrefix_view, DictT.withPrefix_view, htrie.entries_view htrie' hsame]
  have hiff : PrefixServed trie field.enc.bytes ↔ PrefixServed trie' field.enc.bytes := by
    have hnil : trie.withPrefix (cStr field.enc.bytes) = [] ↔ trie'.withPrefix (cStr field.enc.bytes) = [] := by
      rw [← List.length_eq_zero_iff, pairContents_length hpairs, List.length_eq_zero_iff]
    have hsize : trie.size = trie'.size := htrie.length_view htrie' hsame
    rw [htrie.served_iff, htrie'.served_iff, hsize, ne_eq, hnil]
  obtain ⟨hserved, hnone⟩ := dictGetPrefix_spec htrie field.enc.bytes
  obtain ⟨hserved', hnone'⟩ := dictGetPrefix_spec htrie' field.enc.bytes
  simp only [hf.ptr, hf.ptr', Exec.ok_bind]
  by_cases hs : PrefixServed trie field.enc.bytes
  · obtain ⟨it, hit, hall⟩ := hserved hs
    obtain ⟨it', hit', hall'⟩ := hserved' (hiff.mp hs)
    simp only [hit, hit', Exec.ok_bind, hall, hall', pairContents_length hpairs]
    exact .bind_eq (pairReplies_alike flags hpairs) fun _ => .pure (h.same _)
  · rw [hnone hs, hnone' fun hs' => hs (hiff.mpr hs')]
    exact .error rfl rfl

theorem arrayAtAll_alike {kvs kvs' : List (Bytes × StrObj)} (heq : pairContents kvs = pairContents kvs') (is : List ℕ) :
    Alike (fun l l' => pairContents l = pairContents l') (arrayAtAll kvs is) (arrayAtAll kvs' is) := by
  have harray : (ArrayT.mk kvs.length 0 (kvs.map some)).map (Prod.map id StrObj.enc) =
      (ArrayT.mk kvs'.length 0 (kvs'.map some)).map (Prod.map id StrObj.enc) := by
    have hslots (l : List (Bytes × StrObj)) :
        (l.map some).map (Option.map (Prod.map id StrObj.enc)) = (pairContents l).map some := by
      rw [pairContents, List.map_map, List.map_map]
      rfl
    simp only [ArrayT.map, pairContents_length heq, hslots, heq]
  induction is with
  | nil => exact .pure rfl
  | cons i is ih =>
    have hload : (arrayLoad (ArrayT.mk kvs.length 0 (kvs.map some)) (arrayAt ⟨kvs.length, 0, kvs.map some⟩ i)).map
          (Prod.map id StrObj.enc) =
        (arrayLoad (ArrayT.mk kvs'.length 0 (kvs'.map some)) (arrayAt ⟨kvs'.length, 0, kvs'.map some⟩ i)).map
          (Prod.map id StrObj.enc) := by
      rw [← arrayLoad_map, ← arrayLoad_map, harray, ← arrayAt_map (Prod.map id StrObj.enc), harray, arrayAt_map]
    refine .bind (.of_map hload) fun kv kv' _ _ hkv => .bind ih fun l l' _ _ hl => .pure ?_
    exact congrArg₂ List.cons hkv hl

theorem getAllReply_alike (h : SameKeyspaces others others' db db') (hk : SameArg key key') (flags : DictFlags) :
    Alike SameResult (getAllReply db key flags) (getAllReply db' key' flags) := by
  refine onCollection_alike h hk hash?_contents fun o o' trie trie' hl hl' hx hx' hsame => ?_
  have htrie := trie_inv h.inv hl hx
  have htrie' := trie_inv h.inv' hl' hx'
  have hpairs : pairContents trie.entries = pairContents trie'.entries := htrie.entries_view htrie' hsame
  obtain ⟨it, hit, hall⟩ := dictIterCreate_spec htrie
  obtain ⟨it', hit', hall'⟩ := dictIterCreate_spec htrie'
  simp only [hit, hit', Exec.ok_bind, hall, hall', pairContents_length hpairs]
  refine .bind (arrayAtAll_alike hpairs _) fun l l' _ _ hl => ?_
  exact .bind_eq (pairReplies_alike flags hl) fun _ => .pure (h.same _)

end Tries

/-! ## Heaps -/

/-- Two heaps with the same items in the same slots. -/
structure SameHeaps (heap heap' : Minheap HqItem) : Prop where
  comp : heap.comp = hqCmp
  comp' : heap'.comp = hqCmp
  map_eq : heap.map HqItem.contents contentsCmp = heap'.map HqItem.contents contentsCmp

theorem heapq?_contents (val val' : ObjVal) (h : val.contents = val'.contents) :
    (val.heapq? = none ∧ val'.heapq? = none) ∨
    ∃ heap heap', val.heapq? = some heap ∧ val'.heapq? = some heap' ∧
      heap.map HqItem.contents contentsCmp = heap'.map HqItem.contents contentsCmp := by
  cases val with
  | heapq heap =>
    cases val' with
    | heapq heap' => exact .inr ⟨heap, heap', rfl, rfl, Contents.heapq.inj h⟩
    | _ => cases h
  | _ =>
    cases val' with
    | heapq heap' => cases h
    | _ => exact .inl ⟨rfl, rfl⟩

section Heaps
variable {db db' : Keyspace} {others others' : Multiset ℕ} {key key' : StrObj}

theorem heap_comp (h : db.Inv others) {k : Bytes} {o : Robj} {heap : Minheap HqItem}
    (hl : db.dict.toMap.lookup k = some o) (hx : o.val.heapq? = some heap) : heap.comp = hqCmp := by
  obtain ⟨a, val⟩ := o
  obtain rfl := heapq?_eq hx
  exact Minheap.Inv.comp (h.stored _ _ hl)

theorem contentsCmp_comp {heap : Minheap HqItem} (hcomp : heap.comp = hqCmp) (x y : HqItem) :
    contentsCmp x.contents y.contents = heap.comp x y := by
  rw [hcomp]
  rfl

theorem SameHeaps.push {heap heap' : Minheap HqItem} (h : SameHeaps heap heap') {x x' : HqItem}
    (hx : x.contents = x'.contents) : Alike SameHeaps (minheapPush heap x) (minheapPush heap' x') := by
  have hpush : (minheapPush heap x).map (Minheap.map HqItem.contents contentsCmp) =
      (minheapPush heap' x').map (Minheap.map HqItem.contents contentsCmp) := by
    rw [← minheapPush_map (contentsCmp_comp h.comp), ← minheapPush_map (contentsCmp_comp h.comp'), h.map_eq, hx]
  intro hfreed hfreed'
  obtain ⟨h₁, h₁', hr, hr', hmap⟩ | herr := Exec.map_cases hpush
  · exact .inl ⟨h₁, h₁', hr, hr', (minheapPush_comp hr).trans h.comp, (minheapPush_comp hr').trans h.comp', hmap⟩
  · exact .inr herr

theorem SameHeaps.pop {heap heap' : Minheap HqItem} (h : SameHeaps heap heap') :
    Alike (fun r r' => r.1.map HqItem.contents = r'.1.map HqItem.contents ∧ SameHeaps r.2 r'.2) (minheapPop heap)
      (minheapPop heap') := by
  have hpop : (minheapPop heap).map (fun r => (r.1.map HqItem.contents, r.2.map HqItem.contents contentsCmp)) =
      (minheapPop heap').map fun r => (r.1.map HqItem.contents, r.2.map HqItem.contents contentsCmp) := by
    rw [← minheapPop_map (contentsCmp_comp h.comp), ← minheapPop_map (contentsCmp_comp h.comp'), h.map_eq]
  intro hfreed hfreed'
  obtain ⟨⟨x, h₁⟩, ⟨x', h₁'⟩, hr, hr', heq⟩ | herr := Exec.map_cases hpop
  · obtain ⟨hx, hmap⟩ := Prod.mk.inj heq
    exact .inl ⟨_, _, hr, hr', hx, (minheapPop_comp hr).trans h.comp, (minheapPop_comp hr').trans h.comp', hmap⟩
  · exact .inr herr

theorem rrCmdHqpush_alike {G : Type} {env env' : ServerEnv G} (hstrtod : env.strtod = env'.strtod)
    (hlong : env.ofLong = env'.ofLong) {score score' val val' : StrObj} (h : SameKeyspaces others others' db db')
    (hk : SameArg key key') (hs : SameArg score score') (hv : SameArg val val')
    (hone : refcount db.refs val.addr = .ok 1) (hone' : refcount db'.refs val'.addr = .ok 1) :
    Alike SameCall (rrCmdHqpush env db key score val) (rrCmdHqpush env' db' key' score' val') := by
  have hscore : getDoubleFromObjectOrReply env score.enc = getDoubleFromObjectOrReply env' score'.enc := by
    simp only [getDoubleFromObjectOrReply, getDoubleFromObject, hstrtod, hlong, hs.enc]
  rw [rrCmdHqpush, rrCmdHqpush, hscore]
  cases getDoubleFromObjectOrReply env' score'.enc with
  | inr err => exact .pure ⟨h.contents, rfl⟩
  | inl x =>
    obtain ⟨⟨a, v⟩, ⟨a', v'⟩, db₁, db₁', hr, hr', h₁, hl, hl', heq, hcount, hcount'⟩ :=
      h.lookupOrCreate env env' hk createHeapqObject_inv createHeapqObject_held
    simp only [hr, hr', Exec.ok_bind]
    cases v with
    | heapq heap =>
      cases v' with
      | heapq heap' =>
        have hsame : SameHeaps heap heap' :=
          ⟨heap_comp h₁.inv hl rfl, heap_comp h₁.inv' hl' rfl, Contents.heapq.inj heq⟩
        refine .bind (tryObjectEncoding_alike env env' hv.sds hv.enc (hcount _ _ hone) (hcount' _ _ hone')) ?_
        rintro ⟨w, refs⟩ ⟨w', refs'⟩ - - henc
        have hitem : HqItem.contents ⟨x, w⟩ = HqItem.contents ⟨x, w'⟩ := congrArg (Prod.mk x) henc
        refine .bind (hsame.push hitem) fun heap₁ heap₁' _ _ hheap => ?_
        have hcontents : (ObjVal.heapq heap₁).contents = (ObjVal.heapq heap₁').contents :=
          congrArg Contents.heapq hheap.map_eq
        have h₂ : SameDicts { db₁ with refs := refs } { db₁' with refs := refs' } := h₁.dicts.withRefs refs refs'
        refine .bind (setContents_alike h₂ hk (Option.isSome_of_eq_some hl) hcontents) fun db₂ db₂' _ _ h₃ => ?_
        exact .bind_total (incrRefCount_total _ _) (incrRefCount_total _ _) fun _ _ =>
          .pure ⟨h₃.1.contents, rfl⟩
      | _ => cases heq
    | _ =>
      cases v' with
      | heapq heap' => cases heq
      | _ => exact .pure ⟨h₁.contents, rfl⟩

theorem rrCmdHqpeek_alike (h : SameKeyspaces others others' db db') (hk : SameArg key key') :
    Alike SameResult (rrCmdHqpeek db key) (rrCmdHqpeek db' key') := by
  refine onCollection_alike h hk heapq?_contents fun o o' heap heap' hl hl' hx hx' hmap => ?_
  have hmin (heap : Minheap HqItem) : (minheapMin heap).map (Option.map HqItem.contents) =
      minheapMin (heap.map HqItem.contents contentsCmp) := minheapMin_map.symm
  refine .bind (.of_map ((hmin heap).trans (hmap ▸ (hmin heap').symm))) fun item item' _ _ hitem => ?_
  obtain ⟨rfl, rfl⟩ | ⟨i, i', rfl, rfl, heq⟩ := option_map_cases hitem
  · exact .pure (h.same _)
  · exact .bind_eq (bulkReply_alike (congrArg Prod.snd heq)) fun _ => .pure (h.same _)

theorem rrCmdHqlen_alike (h : SameKeyspaces others others' db db') (hk : SameArg key key') :
    Alike SameResult (rrCmdHqlen db key) (rrCmdHqlen db' key') := by
  refine onCollection_alike h hk heapq?_contents fun o o' heap heap' hl hl' hx hx' hmap => ?_
  rw [minheapLen, minheapLen, Minheap.len_of_map hmap]
  exact .pure (h.same _)

/-- What popping one item leaves. -/
structure SamePopped (key : StrObj) (r r' : Option (Minheap HqItem) × Keyspace × List ReplyCall) : Prop where
  dicts : SameDicts r.2.1 r'.2.1
  stored : (r.2.1.dict.toMap.lookup key.key).isSome = true
  replies : r.2.2 = r'.2.2
  heaps : (r.1 = none ∧ r'.1 = none) ∨ ∃ heap heap', r.1 = some heap ∧ r'.1 = some heap' ∧ SameHeaps heap heap'

theorem popReply_alike (h : SameDicts db db') (hk : SameArg key key')
    (hl : (db.dict.toMap.lookup key.key).isSome = true) {o o' : Robj} {heap heap' : Minheap HqItem}
    (hheap : SameHeaps heap heap') :
    Alike (SamePopped key) (popReply db key o heap) (popReply db' key' o' heap') := by
  refine .bind hheap.pop ?_
  rintro ⟨item, heap₁⟩ ⟨item', heap₁'⟩ - - ⟨hitem, hheap₁⟩
  have hcontents : (ObjVal.heapq heap₁).contents = (ObjVal.heapq heap₁').contents :=
    congrArg Contents.heapq hheap₁.map_eq
  refine .bind (setContents_alike h hk hl hcontents) fun db₁ db₁' _ _ h₁ => ?_
  obtain ⟨rfl, rfl⟩ | ⟨i, i', rfl, rfl, heq⟩ := option_map_cases hitem
  · exact .pure ⟨h₁.1, h₁.2, rfl, .inl ⟨rfl, rfl⟩⟩
  · refine .bind_eq (bulkReply_alike (congrArg Prod.snd heq)) fun _ => ?_
    refine .bind_total (decrString_total _ _) (decrString_total _ _) fun refs refs' => ?_
    exact .pure ⟨h₁.1.withRefs refs refs', h₁.2, rfl, .inr ⟨heap₁, heap₁', rfl, rfl, hheap₁⟩⟩

theorem rrCmdHqpop_alike (h : SameKeyspaces others others' db db') (hk : SameArg key key') :
    Alike SameResult (rrCmdHqpop db key) (rrCmdHqpop db' key') := by
  refine onCollection_alike h hk heapq?_contents fun o o' heap heap' hl hl' hx hx' hmap => ?_
  have hheap : SameHeaps heap heap' := ⟨heap_comp h.inv hl hx, heap_comp h.inv' hl' hx', hmap⟩
  refine .bind (popReply_alike h.dicts hk (Option.isSome_of_eq_some hl) hheap) ?_
  rintro ⟨popped, db₁, reply⟩ ⟨popped', db₁', reply'⟩ - - hp
  refine .pure ⟨hp.dicts.contents, ?_⟩
  obtain rfl : reply = reply' := hp.replies
  rcases hp.heaps with ⟨rfl, rfl⟩ | ⟨heap₁, heap₁', rfl, rfl, -⟩
  · rfl
  · rfl

theorem popnLoop_alike (n : ℕ) (h : SameDicts db db') (hk : SameArg key key')
    (hl : (db.dict.toMap.lookup key.key).isSome = true) {o o' : Robj} {heap heap' : Minheap HqItem}
    (hheap : SameHeaps heap heap') :
    Alike SameResult (popnLoop key o n db heap) (popnLoop key' o' n db' heap') := by
  induction n generalizing db db' heap heap' with
  | zero => exact .pure ⟨h.contents, rfl⟩
  | succ n ih =>
    refine .bind (popReply_alike h hk hl hheap) ?_
    rintro ⟨popped, db₁, reply⟩ ⟨popped', db₁', reply'⟩ - - hp
    obtain rfl : reply = reply' := hp.replies
    rcases hp.heaps with ⟨rfl, rfl⟩ | ⟨heap₁, heap₁', rfl, rfl, hheap₁⟩
    · exact .pure ⟨hp.dicts.contents, rfl⟩
    · refine .bind (ih hp.dicts hp.stored hheap₁) ?_
      rintro ⟨db₂, rest⟩ ⟨db₂', rest'⟩ - - ⟨hcontents, hrest⟩
      exact .pure ⟨hcontents, congrArg (reply ++ ·) hrest⟩

theorem rrCmdHqpopn_alike {count count' : StrObj} (h : SameKeyspaces others others' db db') (hk : SameArg key key')
    (hn : SameArg count count') : Alike SameResult (rrCmdHqpopn db key count) (rrCmdHqpopn db' key' count') := by
  rw [rrCmdHqpopn, rrCmdHqpopn, hn.enc]
  cases getLongFromObjectOrReply count'.enc with
  | inr err => exact .pure (h.same _)
  | inl n =>
    simp only
    split
    · exact .pure (h.same _)
    · refine onCollection_alike h hk heapq?_contents fun o o' heap heap' hl hl' hx hx' hmap => ?_
      have hheap : SameHeaps heap heap' := ⟨heap_comp h.inv hl hx, heap_comp h.inv' hl' hx', hmap⟩
      have hlen : minheapLen heap = minheapLen heap' := Minheap.len_of_map hmap
      rw [hlen]
      refine .bind (popnLoop_alike _ h.dicts hk (Option.isSome_of_eq_some hl) hheap) ?_
      rintro ⟨db₁, replies⟩ ⟨db₁', replies'⟩ - - ⟨hcontents, hreplies⟩
      exact .pure ⟨hcontents, congrArg (replyAddMultiBulkLen _ ++ ·) hreplies⟩

end Heaps

/-! ## Document sets -/

theorem fts?_contents (val val' : ObjVal) (h : val.contents = val'.contents) :
    (val.fts? = none ∧ val'.fts? = none) ∨
    ∃ fts fts', val.fts? = some fts ∧ val'.fts? = some fts' ∧ fts.SameDocuments fts' := by
  cases val with
  | fts fts =>
    cases val' with
    | fts fts' => exact .inr ⟨fts, fts', rfl, rfl, congrFun (Contents.fts.inj h)⟩
    | _ => cases h
  | _ =>
    cases val' with
    | fts fts' => cases h
    | _ => exact .inl ⟨rfl, rfl⟩

section Documents
variable {db db' : Keyspace} {others others' : Multiset ℕ} {key key' title title' : StrObj}

theorem fts_inv (h : db.Inv others) {k : Bytes} {o : Robj} {fts : Fts} (hl : db.dict.toMap.lookup k = some o)
    (hx : o.val.fts? = some fts) : fts.Inv := by
  obtain ⟨a, val⟩ := o
  obtain rfl := fts?_eq hx
  exact h.stored _ _ hl

/-- The document of a title changed in both sets. -/
theorem sameDocuments_update {fts fts' fts₁ fts₁' : Fts} (h : fts.SameDocuments fts') {t : Bytes}
    {d d' : Option FtsDoc} (hd : d.map FtsDoc.contents = d'.map FtsDoc.contents)
    (hfind : fts₁.find = Function.update fts.find t d) (hfind' : fts₁'.find = Function.update fts'.find t d') :
    (ObjVal.fts fts₁).contents = (ObjVal.fts fts₁').contents := by
  refine congrArg Contents.fts (funext fun j => ?_)
  rw [hfind, hfind']
  by_cases hj : j = t
  · rw [hj, Function.update_self, Function.update_self, hd]
  · rw [Function.update_of_ne hj, Function.update_of_ne hj, h j]

theorem rrCmdDget_alike (h : SameKeyspaces others others' db db') (hk : SameArg key key') (ht : SameArg title title') :
    Alike SameResult (rrCmdDget db key title) (rrCmdDget db' key' title') := by
  refine onCollection_alike h hk fts?_contents fun o o' fts fts' hl hl' hx hx' hsame => ?_
  have hfts := fts_inv h.inv hl hx
  have hfts' := fts_inv h.inv' hl' hx'
  simp only [ftsGet, ht.ptr, ht.ptr', Exec.ok_bind, dictGet_spec hfts.docs, dictGet_spec hfts'.docs]
  obtain ⟨hd, hd'⟩ | ⟨d, d', hd, hd', heq⟩ := option_map_cases (hsame (cStr title.enc.bytes))
  · rw [hfts.find_eq_none.mp hd, hfts'.find_eq_none.mp hd']
    exact .pure (h.same _)
  · obtain ⟨a, ha, hmem, -⟩ := hfts.find_eq_some hd
    obtain ⟨a', ha', hmem', -⟩ := hfts'.find_eq_some hd'
    simp only [ha, ha', ftsDocLoad_ok hmem, ftsDocLoad_ok hmem', Exec.ok_bind]
    exact .bind_eq (bulkReply_alike (congrArg DocContents.doc heq)) fun _ => .pure (h.same _)

theorem rrCmdDlen_alike (h : SameKeyspaces others others' db db') (hk : SameArg key key') :
    Alike SameResult (rrCmdDlen db key) (rrCmdDlen db' key') := by
  refine onCollection_alike h hk fts?_contents fun o o' fts fts' hl hl' hx hx' hsame => ?_
  rw [hsame.size (fts_inv h.inv hl hx) (fts_inv h.inv' hl' hx')]
  exact .pure (h.same _)

variable {G : Type}

theorem searchReplies_alike {fts fts' : Fts} {found found' : List (DocScore G)}
    (heq : found.map fts.found = found'.map fts'.found) :
    Alike Eq (searchReplies db fts found) (searchReplies db' fts' found') := by
  induction found generalizing found' with
  | nil =>
    obtain rfl := List.map_eq_nil_iff.mp heq.symm
    exact .pure rfl
  | cons x found ih =>
    obtain ⟨x', found', rfl, hx, hfound⟩ := List.map_eq_cons_iff.mp heq.symm
    have hload (fts : Fts) (a : ℕ) : (ftsDocLoad fts a).map FtsDoc.contents =
        match (fts.mem.lookup a).map FtsDoc.contents with
        | none => .error .freedMemory
        | some d => .ok d := by
      rw [ftsDocLoad]
      cases fts.mem.lookup a <;> rfl
    have hdoc : (fts.mem.lookup x.doc).map FtsDoc.contents = (fts'.mem.lookup x'.doc).map FtsDoc.contents :=
      congrArg Prod.snd hx.symm
    refine .bind (.of_map ((hload fts x.doc).trans (hdoc ▸ (hload fts' x'.doc).symm))) fun d d' _ _ hd => ?_
    refine .bind_eq (bulkReply_alike (congrArg DocContents.title hd)) fun _ => ?_
    refine .bind_eq (bulkReply_alike (congrArg DocContents.doc hd)) fun _ => ?_
    exact .bind_eq (ih hfound.symm) fun _ => .pure rfl

theorem rrCmdDsearch_alike [AddCommGroup G] [LinearOrder G] {env env' : ServerEnv G} (hbm25 : env.bm25 = env'.bm25)
    {query query' : StrObj} (h : SameKeyspaces others others' db db') (hk : SameArg key key')
    (hq : SameArg query query') : Alike SameResult (rrCmdDsearch env db key query) (rrCmdDsearch env' db' key' query') := by
  refine onCollection_alike h hk fts?_contents fun o o' fts fts' hl hl' hx hx' hsame => ?_
  rw [hbm25]
  refine .bind (hsame.search env'.bm25 (fts_inv h.inv hl hx) (fts_inv h.inv' hl' hx') env.fts env'.fts hq.sds hq.enc) ?_
  rintro ⟨size, it⟩ ⟨size', it'⟩ - - ⟨hsize, hit⟩
  obtain rfl : size = size' := hsize
  have hall : Alike (fun xs xs' => xs.map fts.found = xs'.map fts'.found) (ftsIterAll it) (ftsIterAll it') := by
    have hlen : minheapLen it = minheapLen it' := Minheap.len_of_map hit.map_eq
    rw [ftsIterAll, ftsIterAll, hlen]
    exact ftsIterRun_found _ hit
  refine .bind hall fun found found' _ _ hfound => ?_
  exact .bind_eq (searchReplies_alike hfound) fun _ => .pure (h.same _)

variable (env env' : ServerEnv G)

theorem rrCmdDdel_alike (h : SameKeyspaces others others' db db') (hk : SameArg key key') (ht : SameArg title title') :
    Alike SameResult (rrCmdDdel env db key title) (rrCmdDdel env' db' key' title') := by
  refine onCollection_alike h hk fts?_contents fun o o' fts fts' hl hl' hx hx' hsame => ?_
  have hdel := ftsDel_spec (fts_inv h.inv hl hx) env.fts ht.sds
  have hdel' := ftsDel_spec (fts_inv h.inv' hl' hx') env'.fts ht.sds'
  rw [← ht.key_eq] at hdel'
  have hfinish {fts₁ fts₁' : Fts} (hcontents : (ObjVal.fts fts₁).contents = (ObjVal.fts fts₁').contents)
      (deleted : Bool) (log log' : List RefOp) :
      Alike SameResult
        (applyRefOps db.refs log >>= fun refs => setContents { db with refs := refs } key ⟨o.addr, .fts fts₁⟩ >>= fun db =>
          Pure.pure (db, [.obj (if deleted then Shared.cone else Shared.czero)]))
        (applyRefOps db'.refs log' >>= fun refs => setContents { db' with refs := refs } key' ⟨o'.addr, .fts fts₁'⟩ >>=
          fun db => Pure.pure (db, [.obj (if deleted then Shared.cone else Shared.czero)])) := by
    refine .bind_total (applyRefOps_total _ _) (applyRefOps_total _ _) fun refs refs' => ?_
    have h₁ : SameDicts { db with refs := refs } { db' with refs := refs' } := h.dicts.withRefs refs refs'
    exact .bind (setContents_alike h₁ hk (Option.isSome_of_eq_some hl) hcontents) fun db₁ db₁' _ _ h₁ =>
      .pure ⟨h₁.1.contents, rfl⟩
  obtain ⟨hd, hd'⟩ | ⟨d, d', hd, hd', -⟩ := option_map_cases (hsame title.key)
  · rw [hd] at hdel
    rw [hd'] at hdel'
    simp only [hdel, hdel', Exec.ok_bind]
    exact hfinish (congrArg Contents.fts (funext hsame)) false [] []
  · rw [hd] at hdel
    rw [hd'] at hdel'
    obtain ⟨fts₁, hr, -, hfind⟩ := hdel
    obtain ⟨fts₁', hr', -, hfind'⟩ := hdel'
    simp only [hr, hr', Exec.ok_bind]
    exact hfinish (sameDocuments_update hsame rfl hfind hfind') true _ _

/-- A document added to both sets. A title that became an integer is no string any more. -/
theorem ftsAdd_alike {fts fts' : Fts} (h : fts.Inv) (h' : fts'.Inv) (hsame : fts.SameDocuments fts')
    {doc doc' : StrObj} (ht : title.enc = title'.enc) (hd : SameArg doc doc') :
    Alike (fun r r' => r.1 = r'.1 ∧ (ObjVal.fts r.2.1).contents = (ObjVal.fts r'.2.1).contents)
      (ftsAdd env.fts fts title doc) (ftsAdd env'.fts fts' title' doc') := by
  cases hs : sdsEncodedObject title.enc with
  | false =>
    obtain ⟨e, he, -⟩ := StrEnc.ptr_of_not_sds hs
    exact .error (by rw [ftsAdd, he]; rfl) (by rw [ftsAdd, ← ht, he]; rfl)
  | true =>
    obtain ⟨added, fts₁, hr, hadd⟩ := ftsAdd_spec h env.fts hs hd.sds
    obtain ⟨added', fts₁', hr', hadd'⟩ := ftsAdd_spec h' env'.fts (ht ▸ hs) hd.sds'
    have hkey : title.key = title'.key := by rw [StrObj.key, StrObj.key, ht]
    have hadded : added = added' := by rw [hadd.added_eq, hadd'.added_eq, hd.enc]
    refine .ok hr hr' ⟨hadded, sameDocuments_update hsame ?_ hadd.find_eq (hkey ▸ hadd'.find_eq)⟩
    rw [hadded]
    split
    · simp only [Option.map_some, FtsDoc.contents, ht, hd.enc]
    · rfl

theorem rrCmdDset_alike {doc doc' : StrObj} (h : SameKeyspaces others others' db db') (hk : SameArg key key')
    (ht : SameArg title title') (hd : SameArg doc doc') (hone : refcount db.refs title.addr = .ok 1)
    (hone' : refcount db'.refs title'.addr = .ok 1) :
    Alike SameCall (rrCmdDset env db key title doc) (rrCmdDset env' db' key' title' doc') := by
  obtain ⟨⟨a, v⟩, ⟨a', v'⟩, db₁, db₁', hr, hr', h₁, hl, hl', heq, hcount, hcount'⟩ :=
    h.lookupOrCreate env env' hk createFTSObject_inv createFTSObject_held
  simp only [rrCmdDset, hr, hr', Exec.ok_bind]
  cases v with
  | fts fts =>
    cases v' with
    | fts fts' =>
      have hsame : fts.SameDocuments fts' := congrFun (Contents.fts.inj heq)
      refine .bind (tryObjectEncoding_alike env env' ht.sds ht.enc (hcount _ _ hone) (hcount' _ _ hone')) ?_
      rintro ⟨t, refs⟩ ⟨t', refs'⟩ - - henc
      refine .bind (ftsAdd_alike env env' (fts_inv h₁.inv hl rfl) (fts_inv h₁.inv' hl' rfl) hsame henc hd) ?_
      rintro ⟨added, fts₁, log⟩ ⟨added', fts₁', log'⟩ - - ⟨hadded, hcontents⟩
      obtain rfl : added = added' := hadded
      refine .bind_total (applyRefOps_total _ _) (applyRefOps_total _ _) fun r r' => ?_
      have h₂ : SameDicts { db₁ with refs := r } { db₁' with refs := r' } := h₁.dicts.withRefs r r'
      exact .bind (setContents_alike h₂ hk (Option.isSome_of_eq_some hl) hcontents) fun db₂ db₂' _ _ h₃ =>
        .pure ⟨h₃.1.contents, rfl⟩
    | _ => cases heq
  | _ =>
    cases v' with
    | fts fts' => cases heq
    | _ => exact .pure ⟨h₁.contents, rfl⟩

end Documents

end RhinoRox
