import RhinoRox.ReadingCommands

/-!
# Requests on document sets

A document stored with DSET under a title is returned by DGET and removed by DDEL, unless
the title spells an integer: `tryObjectEncoding` then replaces its text by the integer, which
`fts_add` uses as a pointer.
-/

namespace RhinoRox

open KeyedTotal

variable {G : Type} [AddCommGroup G] [LinearOrder G] (env : ServerEnv G) {s : Server} {c : ℕ}

/-- The key holds a document set. -/
def HoldsSet (s : Server) (key : Argument) (fts : Fts) : Prop :=
  ∃ a, s.db.dict.toMap.lookup (cStr key.enc.bytes) = some ⟨a, .fts fts⟩

/-! ## DSET -/

theorem rawTerms_argument (doc : Argument) : (rawTerms doc.enc.bytes).isSome = true :=
  rawTerms_isSome (doc.short.trans_lt (by decide))

/-- DSET on a key that is free or holds a document set. -/
theorem dset_request (h : s.Inv) (hidle : s.argvOf c = []) (key title doc : Argument)
    (hset : ∀ o, s.db.dict.toMap.lookup (cStr key.enc.bytes) = some o → ∃ fts, o.val = .fts fts) :
    (spellsInteger title.enc.bytes = true →
      ∃ e, s.request env c [textArgument "DSET", key, title, doc] = .error e) ∧
    (spellsInteger title.enc.bytes = false →
      ∃ s' fts d, s.request env c [textArgument "DSET", key, title, doc] = .ok (s', [.obj Shared.ok]) ∧
        s'.Inv ∧ s'.argvOf c = [] ∧ HoldsSet s' key fts ∧ fts.find (cStr title.enc.bytes) = some d ∧
        d.title.enc.bytes = title.enc.bytes ∧ d.doc.enc = doc.enc) := by
  obtain ⟨db₁, o, objs, others, hdb, hdict, henc, hone, hok, herr⟩ :=
    Server.request_command env h hidle (textArgument "DSET") [key, title, doc]
      ⟨"dset", .rrCmdDset, 4, "wm"⟩ (by decide) rfl
  obtain ⟨k, t, d, rfl, hk, ht, hd⟩ := Server.objs_eq_three henc
  have hks : sdsEncodedObject k.enc = true := hk ▸ key.sds
  have hts : sdsEncodedObject t.enc = true := ht ▸ title.sds
  have hds : sdsEncodedObject d.enc = true := hd ▸ doc.sds
  have htitle : [o, k, t, d][2]? = some t := rfl
  have hdoc : [o, k, t, d][3]? = some d := rfl
  have hdb' := hdb.argument htitle
  rw [addrs_withoutTitle hdoc, Multiset.cons_add] at hdb'
  have hkey : k.key = cStr key.enc.bytes := by rw [StrObj.key, hk]
  obtain ⟨t', hbytes, hint, hbad, hgood⟩ := rrCmdDset_spec env hdb' hks hts hds (by rw [hkey, hdict]; exact hset)
  have hsds := hint (hone t (by simp))
  rw [ht] at hsds
  have hcall : call env ⟨"dset", .rrCmdDset, 4, "wm"⟩ db₁ [o, k, t, d] =
      replaceArg [o, k, t, d] 2 (rrCmdDset env db₁ k t d) := rfl
  rw [hcall] at hok herr
  refine ⟨fun hspells => ?_, fun hspells => ?_⟩
  · obtain ⟨e, he, -⟩ := hbad (by rw [hsds, hspells]; rfl)
    exact ⟨e, herr e (by rw [replaceArg, he]; rfl)⟩
  · have hs' : sdsEncodedObject t'.enc = true := by rw [hsds, hspells]; rfl
    obtain ⟨added, db', a, fts, fts', hrun, -, hup, hadd⟩ := hgood hs'
    have hadded : added = true := by
      rw [hadd.added_eq, hd]
      exact rawTerms_argument doc
    subst hadded
    obtain ⟨s', hreq, h', hdict', hidle'⟩ := hok db' [o, k, t', d] _ (by rw [replaceArg, hrun]; rfl)
    have htkey : t'.key = cStr title.enc.bytes := by rw [StrObj.key, hbytes, ht]
    refine ⟨s', fts', ⟨t', d, (termsOf d.enc.bytes).length⟩, hreq, h', hidle', ⟨a, ?_⟩, ?_, ?_, hd⟩
    · rw [hdict', ← hkey]
      exact hup.lookup
    · rw [hadd.find_eq, htkey, Function.update_self]
      rfl
    · exact hbytes.trans (by rw [ht])

/-! ## DGET and DDEL -/

/-- What DGET replies for the document of a title. -/
def docReply : Option FtsDoc → List ReplyCall
  | none => [.obj Shared.nullbulk]
  | some d => replyAddBulkObj d.doc.enc

theorem rrCmdDget_spec {db : Keyspace} {others : Multiset ℕ} (h : db.Inv others) {key title : StrObj}
    (hkey : sdsEncodedObject key.enc = true) (htitle : sdsEncodedObject title.enc = true) {a : ℕ} {fts : Fts}
    (hl : db.dict.toMap.lookup key.key = some ⟨a, .fts fts⟩) :
    rrCmdDget db key title = .ok (db, docReply (fts.find title.key)) := by
  have hfts : fts.Inv := h.stored _ _ hl
  have hsel : ObjVal.fts? (.fts fts) = some fts := rfl
  rw [rrCmdDget, onCollection_of_lookup h hkey hl hsel]
  have hget : ftsGet fts title = .ok (fts.docs.toMap.lookup title.key) := by
    simp only [ftsGet, StrEnc.ptr_of_sds htitle, Exec.ok_bind]
    exact dictGet_spec hfts.docs _
  rw [hget, Exec.ok_bind]
  rcases hd : fts.find title.key with _ | d
  · rw [hfts.find_eq_none.mp hd]
    rfl
  · obtain ⟨x, hx, hmem, -⟩ := hfts.find_eq_some hd
    obtain ⟨n, hn⟩ : ∃ n, refcount db.refs d.doc.addr = .ok n := by
      refine h.mem_held hl ?_
      rw [Robj.held, ObjVal.held, fts.held_eq title.key, hd]
      simp [FtsDoc.refs]
    rw [hx]
    simp [ftsDocLoad_ok hmem, bulkReply, hn, docReply]

theorem dget_request (h : s.Inv) (hidle : s.argvOf c = []) (key title : Argument) {fts : Fts}
    (hset : HoldsSet s key fts) :
    ∃ s', s.request env c [textArgument "DGET", key, title] =
        .ok (s', docReply (fts.find (cStr title.enc.bytes))) ∧
      s'.Inv ∧ s'.argvOf c = [] ∧ HoldsSet s' key fts := by
  obtain ⟨a, hl⟩ := hset
  have hcmd : commandNamed (textArgument "DGET").enc.bytes = some ⟨"dget", .rrCmdDget, 3, "rF"⟩ := by decide
  have hrun : ∀ db others k t, Keyspace.Inv db others → db.dict = s.db.dict → k.enc = key.enc → t.enc = title.enc →
      rrCmdDget db k t = .ok (db, docReply (fts.find (cStr title.enc.bytes))) := by
    intro db others k t hdb hdict hk ht
    have hl₁ : db.dict.toMap.lookup k.key = some ⟨a, .fts fts⟩ := by rw [StrObj.key, hk, hdict, hl]
    rw [rrCmdDget_spec hdb (hk ▸ key.sds) (ht ▸ title.sds) hl₁, StrObj.key, ht]
  obtain ⟨s', hreq, h', hdict, hidle'⟩ :=
    Server.request_keyAndArg env h hidle (textArgument "DGET") key title hcmd rfl (fun _ _ _ _ => rfl) hrun
  exact ⟨s', hreq, h', hidle', a, by rw [hdict, hl]⟩

theorem ddel_request (h : s.Inv) (hidle : s.argvOf c = []) (key title : Argument) {fts : Fts}
    (hset : HoldsSet s key fts) :
    ∃ s' fts', s.request env c [textArgument "DDEL", key, title] =
        .ok (s', [.obj (if (fts.find (cStr title.enc.bytes)).isSome then Shared.cone else Shared.czero)]) ∧
      s'.Inv ∧ s'.argvOf c = [] ∧ HoldsSet s' key fts' ∧
      fts'.find = Function.update fts.find (cStr title.enc.bytes) none := by
  obtain ⟨a, hl⟩ := hset
  obtain ⟨db₁, o, objs, others, hdb, hdict, henc, -, hok, -⟩ :=
    Server.request_command env h hidle (textArgument "DDEL") [key, title]
      ⟨"ddel", .rrCmdDdel, 3, "wF"⟩ (by decide) rfl
  obtain ⟨k, t, rfl, hk, ht⟩ := Server.objs_eq_two henc
  have hks : sdsEncodedObject k.enc = true := hk ▸ key.sds
  have hts : sdsEncodedObject t.enc = true := ht ▸ title.sds
  have hl₁ : db₁.dict.toMap.lookup k.key = some ⟨a, .fts fts⟩ := by rw [StrObj.key, hk, hdict, hl]
  obtain ⟨db', fts', hrun, -, hup, hfind⟩ := rrCmdDdel_spec env hdb hks hts hl₁
  rw [StrObj.key, ht] at hrun hfind
  obtain ⟨s', hreq, h', hdict', hidle'⟩ := hok db' [o, k, t] _ (by
    change keepArgv [o, k, t] (rrCmdDdel env db₁ k t) = _
    rw [keepArgv, hrun]
    rfl)
  refine ⟨s', fts', hreq, h', hidle', ⟨a, ?_⟩, hfind⟩
  rw [hdict', ← hk]
  exact hup.lookup

/-! ## A document through its life -/

/-- DSET stores the document under the characters of the title, DGET replies with its text,
DDEL removes it and then DGET finds nothing. -/
def DocumentServed (s : Server) (c : ℕ) (key title doc : Argument) : Prop :=
  ∃ s₁ s₂ s₃ s₄ fts d replies,
    s.request env c [textArgument "DSET", key, title, doc] = .ok (s₁, [.obj Shared.ok]) ∧
    HoldsSet s₁ key fts ∧ fts.find title.enc.bytes = some d ∧ d.title.enc.bytes = title.enc.bytes ∧
    s₁.request env c [textArgument "DGET", key, title] = .ok (s₂, replies) ∧
    replies.flatMap ReplyCall.payload = bulkBytes doc.enc.bytes ∧
    s₂.request env c [textArgument "DDEL", key, title] = .ok (s₃, [.obj Shared.cone]) ∧
    s₃.request env c [textArgument "DGET", key, title] = .ok (s₄, [.obj Shared.nullbulk])

theorem document_served_iff (hs : s.Reachable G) (hidle : s.argvOf c = []) {key title : Argument}
    (doc : Argument) (htitle : 0 ∉ title.enc.bytes)
    (hset : ∀ o, s.db.dict.toMap.lookup (cStr key.enc.bytes) = some o → ∃ fts, o.val = .fts fts) :
    DocumentServed env s c key title doc ↔
      ¬ (title.enc.bytes.length ≤ 21 ∧ (string2l title.enc.bytes).isSome) := by
  have hspell : spellsInteger title.enc.bytes = true ↔
      title.enc.bytes.length ≤ 21 ∧ (string2l title.enc.bytes).isSome := by
    simp [spellsInteger]
  obtain ⟨hbad, hgood⟩ := dset_request env hs.inv hidle key title doc hset
  rw [← hspell]
  constructor
  · rintro ⟨s₁, s₂, s₃, s₄, fts, d, replies, hrun, -⟩ hint
    obtain ⟨e, he⟩ := hbad hint
    rw [he] at hrun
    cases hrun
  · intro hint
    obtain ⟨s₁, fts, d, hrun₁, h₁, hidle₁, hset₁, hfind, htext, hdoc⟩ := hgood (by simpa using hint)
    obtain ⟨s₂, hrun₂, h₂, hidle₂, hset₂⟩ := dget_request env h₁ hidle₁ key title hset₁
    obtain ⟨s₃, fts₃, hrun₃, h₃, hidle₃, hset₃, hfind₃⟩ := ddel_request env h₂ hidle₂ key title hset₂
    obtain ⟨s₄, hrun₄, -⟩ := dget_request env h₃ hidle₃ key title hset₃
    rw [hfind, docReply, hdoc] at hrun₂
    rw [hfind] at hrun₃
    rw [hfind₃, Function.update_self] at hrun₄
    rw [cStr_of_notMem htitle] at hfind
    exact ⟨s₁, s₂, s₃, s₄, fts, d, _, hrun₁, hset₁, hfind, htext, hrun₂, (replyAddBulkObj_payload doc.enc).trans (bulkBytes_eq _).symm,
      hrun₃, hrun₄⟩

/-- On a new server, the document `cats` under the title `pets`. -/
theorem document_served_pets :
    ∃ s, s.Reachable ℤ ∧ DocumentServed bumpServerEnv s 0 (textArgument "k") (textArgument "pets") (textArgument "cats") := by
  obtain ⟨⟨d, db, argv⟩, hinit, rfl, rfl⟩ := Server.exists_rrServerInit
  have hs : Server.Reachable ℤ ⟨d, rrDbCreate, ∅⟩ := .init hinit
  refine ⟨_, hs, (document_served_iff bumpServerEnv hs rfl (textArgument "cats") (by decide) ?_).mpr (by decide)⟩
  intro o ho
  cases ho

theorem document_integer_title :
    ∃ s, s.Reachable ℤ ∧
      ¬ DocumentServed bumpServerEnv s 0 (textArgument "k") (textArgument "42") (textArgument "cats") := by
  obtain ⟨⟨d, db, argv⟩, hinit, rfl, rfl⟩ := Server.exists_rrServerInit
  have hs : Server.Reachable ℤ ⟨d, rrDbCreate, ∅⟩ := .init hinit
  refine ⟨_, hs, ?_⟩
  rintro ⟨s₁, s₂, s₃, s₄, fts, doc, replies, hrun, -⟩
  obtain ⟨e, he⟩ := (dset_request bumpServerEnv hs.inv rfl (textArgument "k") (textArgument "42")
    (textArgument "cats") (fun o ho => by cases ho)).1 (by decide)
  rw [he] at hrun
  cases hrun

end RhinoRox
