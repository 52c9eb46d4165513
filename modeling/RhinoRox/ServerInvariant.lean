import RhinoRox.CommandInvariants
import RhinoRox.FtsIndexExact
import RhinoRox.Server

/-!
# The invariant of the server

Whatever requests the clients send, in whatever order, the keyspace keeps its invariant and
the references of all argument vectors are counted.
-/

namespace RhinoRox

open KeyedTotal

/-! ## The command table -/

theorem populateCommands_spec {d : DictT RedisCommand} (h : d.Inv) (cs : List RedisCommand) :
    ∃ d', populateCommands d cs = .ok d' ∧ d'.Inv ∧ ∀ k, d'.toMap.lookup k =
      (cs.reverse.find? fun c => decide (cStr (ascii c.name) = k)).or (d.toMap.lookup k) := by
  induction cs generalizing d with
  | nil => exact ⟨d, rfl, h, fun k => by simp⟩
  | cons c cs ih =>
    obtain ⟨d₁, freed, hr, hi, hm, -⟩ := dictSet_spec h (ascii c.name) c
    obtain ⟨d₂, hr₂, hi₂, hl⟩ := ih hi
    refine ⟨d₂, by simp [populateCommands, hr, hr₂], hi₂, fun k => ?_⟩
    rw [hl k, List.reverse_cons, List.find?_append, Option.or_assoc, hm]
    congr 1
    by_cases hk : cStr (ascii c.name) = k
    · rw [← hk, Finmap.lookup_insert]
      simp
    · rw [Finmap.lookup_insert_of_ne _ (Ne.symm hk)]
      simp [hk]

/-- The command that a name stands for. -/
def commandNamed (name : Bytes) : Option RedisCommand :=
  redisCommandTable.reverse.find? fun c => decide (cStr (ascii c.name) = cStr (sdstolower name))

/-! ## Argument vectors -/

theorem argAt_eq_ok {argv : List StrObj} {i : ℕ} {o : StrObj} (h : argAt argv i = .ok o) : argv[i]? = some o := by
  rw [argAt] at h
  split at h
  · cases h
  · rename_i o' ho
    rw [ho, Except.ok.inj h]

theorem addrs_eq_cons {argv : List StrObj} {i : ℕ} {o : StrObj} (h : argv[i]? = some o) :
    addrs argv = o.addr ::ₘ addrs (argv.eraseIdx i) := by
  obtain ⟨hi, rfl⟩ := List.getElem?_eq_some_iff.mp h
  rw [← addrs_cons, addrs, addrs, Multiset.coe_eq_coe]
  exact ((List.getElem_cons_eraseIdx_perm hi).map StrObj.addr).symm

theorem addrs_set {argv : List StrObj} {i : ℕ} (hi : i < argv.length) (o : StrObj) :
    addrs (argv.set i o) = o.addr ::ₘ addrs (argv.eraseIdx i) := by
  rw [← addrs_cons, addrs, addrs, Multiset.coe_eq_coe]
  exact (List.set_perm_cons_eraseIdx hi o).map StrObj.addr

/-- The reference of an argument is set apart from those of the others. -/
theorem Keyspace.Inv.argument {db : Keyspace} {argv : List StrObj} {others : Multiset ℕ}
    (h : db.Inv (addrs argv + others)) {i : ℕ} {o : StrObj} (ho : argv[i]? = some o) :
    db.Inv (o.addr ::ₘ (addrs (argv.eraseIdx i) + others)) := by
  rw [addrs_eq_cons ho, Multiset.cons_add] at h
  exact h

/-- The text of a document among the arguments of DSET other than the title. -/
theorem addrs_withoutTitle {argv : List StrObj} {doc : StrObj} (h : argv[3]? = some doc) :
    addrs (argv.eraseIdx 2) = doc.addr ::ₘ addrs ((argv.eraseIdx 2).eraseIdx 2) := by
  refine addrs_eq_cons ?_
  rw [List.getElem?_eraseIdx_of_ge (by omega)]
  exact h

theorem length_of_argAt {argv : List StrObj} {i : ℕ} {o : StrObj} (h : argv[i]? = some o) : i < argv.length :=
  (List.getElem?_eq_some_iff.mp h).1

/-- The arguments are strings that the parser accepts, not encoded integers. -/
def AllParsed (argv : List StrObj) : Prop :=
  ∀ o ∈ argv, sdsEncodedObject o.enc = true ∧ o.enc.bytes.length ≤ protoQueryMaxLen

theorem AllParsed.argAt {argv : List StrObj} (h : AllParsed argv) {i : ℕ} {o : StrObj} (ho : argv[i]? = some o) :
    sdsEncodedObject o.enc = true := (h o (List.mem_of_getElem? ho)).1

theorem AllParsed.short {argv : List StrObj} (h : AllParsed argv) {i : ℕ} {o : StrObj} (ho : argv[i]? = some o) :
    o.enc.bytes.length < 2 ^ 31 := (h o (List.mem_of_getElem? ho)).2.trans_lt (by decide)

/-- The key that a request names. -/
def argKey (argv : List StrObj) : Bytes := argv[1]?.elim [] StrObj.key

theorem argKey_eq {argv : List StrObj} {key : StrObj} (h : argv[1]? = some key) : argKey argv = key.key := by
  rw [argKey, h]
  rfl

/-! ## One command -/

/-- Every run of a handler that returns keeps the invariant. -/
def Keeps (proc : Option Proc) (db : Keyspace) (k : Bytes) (run : CmdRun) : Prop :=
  ∀ others, db.Inv others → ∀ db' replies, run = .ok (db', replies) → ∃ leaked, Ran proc others db db' replies k leaked

/-- As `Keeps`, with the references of the argument vector. -/
def KeepsInv (proc : Option Proc) (db : Keyspace) (argv : List StrObj) (run : CallRun) : Prop :=
  ∀ others, db.Inv (addrs argv + others) → ∀ db' argv' replies, run = .ok (db', argv', replies) →
    ∃ leaked, Ran proc (addrs argv' + others) db db' replies (argKey argv) leaked

section Calls
variable {db : Keyspace} {argv : List StrObj} {proc : Option Proc}

theorem Unchanged.keeps {run : CmdRun} {k : Bytes} (h : Unchanged db run) : Keeps proc db k run := by
  intro others hinv db' replies hr
  obtain rfl : db' = db := h _ hr
  exact ⟨0, .same hinv⟩

theorem KeepsInv.pure (replies : List ReplyCall) : KeepsInv proc db argv (Pure.pure (db, argv, replies)) := by
  intro others hinv db' argv' replies' hr
  obtain ⟨rfl, rfl, -⟩ : db = db' ∧ argv = argv' ∧ _ := by simpa using hr
  exact ⟨0, .same hinv⟩

theorem KeepsInv.keepArgv {run : CmdRun} (h : Keeps proc db (argKey argv) run) :
    KeepsInv proc db argv (keepArgv argv run) := by
  intro others hinv db' argv' replies hr
  obtain ⟨⟨db₁, r⟩, hrun, he⟩ := Exec.bind_eq_ok.mp hr
  obtain ⟨rfl, rfl, rfl⟩ : db₁ = db' ∧ argv = argv' ∧ r = replies := by simpa using he
  exact h _ hinv _ _ hrun

theorem KeepsInv.withKey {run : StrObj → CmdRun}
    (h : ∀ key, argv[1]? = some key → Keeps proc db key.key (run key)) : KeepsInv proc db argv (withKey argv run) := by
  intro others hinv db' argv' replies hr
  obtain ⟨key, hkey, hrun⟩ := Exec.bind_eq_ok.mp hr
  have hk := h key (argAt_eq_ok hkey)
  rw [← argKey_eq (argAt_eq_ok hkey)] at hk
  exact KeepsInv.keepArgv hk others hinv db' argv' replies hrun

theorem KeepsInv.withKeyAndArg {run : StrObj → StrObj → CmdRun}
    (h : ∀ key x, argv[1]? = some key → argv[2]? = some x → Keeps proc db key.key (run key x)) :
    KeepsInv proc db argv (withKeyAndArg argv run) := by
  intro others hinv db' argv' replies hr
  obtain ⟨key, hkey, hr⟩ := Exec.bind_eq_ok.mp hr
  obtain ⟨x, hx, hrun⟩ := Exec.bind_eq_ok.mp hr
  have hk := h key x (argAt_eq_ok hkey) (argAt_eq_ok hx)
  rw [← argKey_eq (argAt_eq_ok hkey)] at hk
  exact KeepsInv.keepArgv hk others hinv db' argv' replies hrun

/-- A command that stores the argument at `i`, or the object that replaces it. -/
theorem KeepsInv.replaceArg {i : ℕ} {o : StrObj} (ho : argv[i]? = some o)
    {run : Exec (Keyspace × StrObj × List ReplyCall)}
    (h : ∀ others, db.Inv (o.addr ::ₘ (addrs (argv.eraseIdx i) + others)) → ∀ db' o' replies,
      run = .ok (db', o', replies) →
        ∃ leaked, Ran proc (o'.addr ::ₘ (addrs (argv.eraseIdx i) + others)) db db' replies (argKey argv) leaked) :
    KeepsInv proc db argv (replaceArg argv i run) := by
  intro others hinv db' argv' replies hr
  obtain ⟨⟨db₁, o', r⟩, hrun, he⟩ := Exec.bind_eq_ok.mp hr
  obtain ⟨rfl, rfl, rfl⟩ : db₁ = db' ∧ argv.set i o' = argv' ∧ r = replies := by simpa using he
  obtain ⟨leaked, h₁⟩ := h _ (hinv.argument ho) _ _ _ hrun
  exact ⟨leaked, h₁.inv.congr (by simp [addrs_set (length_of_argAt ho)]), h₁.leaked_eq, h₁.change⟩

variable {G : Type} [AddCommGroup G] [LinearOrder G] (env : ServerEnv G)

theorem call_keepsInv (cmd : RedisCommand) (hs : AllParsed argv) :
    KeepsInv (some cmd.proc) db argv (call env cmd db argv) := by
  rw [call]
  cases cmd.proc with
  | rrCmdGet => exact .withKey fun key _ => (rrCmdGet_unchanged db key).keeps
  | rrCmdLen => exact .keepArgv (rrCmdLen_unchanged db).keeps
  | rrCmdSet =>
    intro others hinv db' argv' replies hr
    obtain ⟨key, hkey, hr⟩ := Exec.bind_eq_ok.mp hr
    obtain ⟨val, hval, hr⟩ := Exec.bind_eq_ok.mp hr
    refine KeepsInv.replaceArg (argAt_eq_ok hval) ?_ others hinv db' argv' replies hr
    intro others hinv db' val' replies hrun
    rw [argKey_eq (argAt_eq_ok hkey)]
    exact rrCmdSet_inv env hinv (hs.argAt (argAt_eq_ok hkey)) (hs.argAt (argAt_eq_ok hval)) hrun
  | rrCmdDel =>
    exact .withKey fun key hkey others hinv db' replies hr => rrCmdDel_inv env hinv (hs.argAt hkey) hr
  | rrCmdExists => exact .withKey fun key _ => (rrCmdExists_unchanged db key).keeps
  | rrCmdRget => exact .withKeyAndArg fun key x _ _ => (rrCmdRget_unchanged db key x).keeps
  | rrCmdRpget => exact .withKeyAndArg fun key x _ _ => (getPrefixReply_unchanged db key x _).keeps
  | rrCmdRlen => exact .withKey fun key _ => (rrCmdRlen_unchanged db key).keeps
  | rrCmdRset =>
    intro others hinv db' argv' replies hr
    obtain ⟨key, hkey, hr⟩ := Exec.bind_eq_ok.mp hr
    obtain ⟨field, hfield, hr⟩ := Exec.bind_eq_ok.mp hr
    obtain ⟨val, hval, hr⟩ := Exec.bind_eq_ok.mp hr
    refine KeepsInv.replaceArg (argAt_eq_ok hval) ?_ others hinv db' argv' replies hr
    intro others hinv db' val' replies hrun
    rw [argKey_eq (argAt_eq_ok hkey)]
    exact ⟨0, rrCmdRset_inv env hinv (hs.argAt (argAt_eq_ok hkey)) (hs.argAt (argAt_eq_ok hfield))
      (hs.argAt (argAt_eq_ok hval)) hrun⟩
  | rrCmdRdel =>
    exact .withKeyAndArg fun key x hkey hx others hinv db' replies hr =>
      ⟨0, rrCmdRdel_inv hinv (hs.argAt hkey) (hs.argAt hx) hr⟩
  | rrCmdRkeys => exact .withKey fun key _ => (getAllReply_unchanged db key _).keeps
  | rrCmdRvalues => exact .withKey fun key _ => (getAllReply_unchanged db key _).keeps
  | rrCmdRgetall => exact .withKey fun key _ => (getAllReply_unchanged db key _).keeps
  | rrCmdRexists => exact .withKeyAndArg fun key x _ _ => (rrCmdRexists_unchanged db key x).keeps
  | rrCmdHqpush =>
    intro others hinv db' argv' replies hr
    obtain ⟨key, hkey, hr⟩ := Exec.bind_eq_ok.mp hr
    obtain ⟨score, -, hr⟩ := Exec.bind_eq_ok.mp hr
    obtain ⟨val, hval, hr⟩ := Exec.bind_eq_ok.mp hr
    refine KeepsInv.replaceArg (argAt_eq_ok hval) ?_ others hinv db' argv' replies hr
    intro others hinv db' val' replies hrun
    rw [argKey_eq (argAt_eq_ok hkey)]
    exact ⟨0, rrCmdHqpush_inv env hinv (hs.argAt (argAt_eq_ok hkey)) (hs.argAt (argAt_eq_ok hval)) hrun⟩
  | rrCmdHqpop =>
    exact .withKey fun key hkey others hinv db' replies hr => ⟨0, rrCmdHqpop_inv hinv (hs.argAt hkey) hr⟩
  | rrCmdHqpopn =>
    exact .withKeyAndArg fun key x hkey _ others hinv db' replies hr => ⟨0, rrCmdHqpopn_inv hinv (hs.argAt hkey) hr⟩
  | rrCmdHqpeek => exact .withKey fun key _ => (rrCmdHqpeek_unchanged db key).keeps
  | rrCmdHqlen => exact .withKey fun key _ => (rrCmdHqlen_unchanged db key).keeps
  | rrCmdDset =>
    intro others hinv db' argv' replies hr
    obtain ⟨key, hkey, hr⟩ := Exec.bind_eq_ok.mp hr
    obtain ⟨title, htitle, hr⟩ := Exec.bind_eq_ok.mp hr
    obtain ⟨doc, hdoc, hr⟩ := Exec.bind_eq_ok.mp hr
    refine KeepsInv.replaceArg (argAt_eq_ok htitle) ?_ others hinv db' argv' replies hr
    intro others hinv db' title' replies hrun
    rw [addrs_withoutTitle (argAt_eq_ok hdoc), Multiset.cons_add] at hinv ⊢
    rw [argKey_eq (argAt_eq_ok hkey)]
    exact ⟨0, rrCmdDset_inv env hinv (hs.argAt (argAt_eq_ok hkey)) (hs.argAt (argAt_eq_ok htitle))
      (hs.argAt (argAt_eq_ok hdoc)) (hs.short (argAt_eq_ok hdoc)) hrun⟩
  | rrCmdDget => exact .withKeyAndArg fun key x _ _ => (rrCmdDget_unchanged db key x).keeps
  | rrCmdDdel =>
    exact .withKeyAndArg fun key x hkey hx others hinv db' replies hr =>
      ⟨0, rrCmdDdel_inv env hinv (hs.argAt hkey) (hs.argAt hx) hr⟩
  | rrCmdDsearch => exact .withKeyAndArg fun key x _ _ => (rrCmdDsearch_unchanged db key x env).keeps
  | rrCmdDlen => exact .withKey fun key _ => (rrCmdDlen_unchanged db key).keeps
  | rrCmdType => exact .withKey fun key _ => (rrCmdType_unchanged db key).keeps
  | rrCmdAdminPing =>
    simp only [rrCmdAdminPing]
    split
    · exact .pure _
    split
    · exact .pure _
    · exact .withKey fun _ _ => (Unchanged.pure _).keeps
  | rrCmdAdminEcho => exact .withKey fun _ _ => (Unchanged.pure _).keeps
  | rrCmdAdminShutdown =>
    intro others hinv db' argv' replies hr
    cases hr
  | rrCmdAdminInfo => exact .pure _

theorem lowerName_sds (o : StrEnc) : sdsEncodedObject (lowerName o) = sdsEncodedObject o := by
  cases o <;> rfl

theorem lowerName_length (o : StrEnc) : (lowerName o).bytes.length = o.bytes.length := by
  cases o with
  | raw s => exact List.length_map ..
  | embstr s => exact List.length_map ..
  | int n => rfl

/-- The name of the command stays a string when it is lowered. -/
theorem AllParsed.lowered (hs : AllParsed argv) {name : StrObj} (h : argv[0]? = some name) :
    AllParsed (argv.set 0 ⟨name.addr, lowerName name.enc⟩) := by
  intro o ho
  rcases List.mem_or_eq_of_mem_set ho with ho | rfl
  · exact hs o ho
  · obtain ⟨hsds, hshort⟩ := hs name (List.mem_of_getElem? h)
    exact ⟨(lowerName_sds name.enc).trans hsds, (lowerName_length name.enc).le.trans hshort⟩

/-- The handler that a request runs. -/
def requestProc (argv : List StrObj) : Option Proc :=
  (argv[0]?.bind fun name => commandNamed name.enc.bytes).map RedisCommand.proc

theorem cmdDispatch_keepsInv {commands : DictT RedisCommand}
    (hcommands : ∀ name, cmdLookup commands name = .ok (commandNamed name)) (hs : AllParsed argv) :
    KeepsInv (requestProc argv) db argv (cmdDispatch env commands db argv) := by
  intro others hinv db' argv' replies hr
  obtain ⟨name, hname, hr⟩ := Exec.bind_eq_ok.mp hr
  obtain ⟨n, hn, hr⟩ := Exec.bind_eq_ok.mp hr
  obtain ⟨cmd, hcmd, hr⟩ := Exec.bind_eq_ok.mp hr
  have h₀ := argAt_eq_ok hname
  rw [StrEnc.ptr_of_sds (hs.argAt h₀)] at hn
  obtain rfl := Except.ok.inj hn
  rw [hcommands] at hcmd
  have hproc : requestProc argv = cmd.map RedisCommand.proc := by
    rw [requestProc, h₀, Option.bind_some, Except.ok.inj hcmd]
  have haddrs : addrs (argv.set 0 ⟨name.addr, lowerName name.enc⟩) = addrs argv := by
    rw [addrs_set (length_of_argAt h₀), addrs_eq_cons h₀]
  have hkey : argKey (argv.set 0 ⟨name.addr, lowerName name.enc⟩) = argKey argv := by
    rw [argKey, argKey, List.getElem?_set_ne (by decide)]
  rw [← haddrs] at hinv
  rw [hproc, ← hkey]
  cases cmd with
  | none => exact KeepsInv.pure _ others hinv db' argv' replies hr
  | some cmd =>
    simp only at hr
    split at hr
    · exact KeepsInv.pure _ others hinv db' argv' replies hr
    · exact call_keepsInv env cmd (hs.lowered h₀) others hinv db' argv' replies hr

end Calls

/-! ## Every reachable state -/

namespace Server

/-- The references in the argument vectors. -/
noncomputable def argvHeld (s : Server) : Multiset ℕ := mapTotal addrs s.argv

structure Inv (s : Server) : Prop where
  commands : ∀ name, cmdLookup s.commands name = .ok (commandNamed name)
  db : ∃ leaked, s.db.Inv (s.argvHeld + leaked)
  argv : ∀ c argv, s.argv.lookup c = some argv → AllParsed argv

variable {s s' : Server} {c : ℕ}

theorem Inv.argvOf (h : s.Inv) (c : ℕ) : AllParsed (s.argvOf c) := by
  rw [Server.argvOf]
  rcases hl : s.argv.lookup c with _ | argv
  · intro o ho
    cases ho
  · exact h.argv c argv hl

theorem argvHeld_eq (s : Server) (c : ℕ) : s.argvHeld = addrs (s.argvOf c) + mapRest addrs s.argv c := by
  rw [argvHeld, mapTotal_eq addrs s.argv c, Server.argvOf]
  cases s.argv.lookup c <;> rfl

theorem argv_erase (h : ∀ c argv, s.argv.lookup c = some argv → AllParsed argv) (c : ℕ) :
    ∀ c' argv, (s.argv.erase c).lookup c' = some argv → AllParsed argv := by
  intro c' argv hl
  by_cases hc : c' = c
  · rw [hc, Finmap.lookup_erase] at hl
    cases hl
  · rw [Finmap.lookup_erase_ne hc] at hl
    exact h c' argv hl

/-- The server starts. -/
theorem exists_rrServerInit : ∃ s, rrServerInit = .ok s ∧ s.db = rrDbCreate ∧ s.argv = ∅ := by
  obtain ⟨d, hr, -⟩ := populateCommands_spec (dictCreate_inv (α := RedisCommand)) redisCommandTable
  exact ⟨⟨d, rrDbCreate, ∅⟩, by simp [rrServerInit, hr], rfl, rfl⟩

theorem rrServerInit_inv (run : rrServerInit = .ok s) : s.Inv := by
  obtain ⟨d, hr, hi, hl⟩ := populateCommands_spec (dictCreate_inv (α := RedisCommand)) redisCommandTable
  obtain rfl : _ = s := by simpa [rrServerInit, hr] using run
  refine ⟨fun name => ?_, ⟨0, rrDbCreate_inv.congr (by simp [argvHeld])⟩, by simp⟩
  rw [cmdLookup, dictGet_spec hi, hl, dictCreate_toMap, Finmap.lookup_empty, Option.or_none]
  rfl

/-- A new argument has an address of its own. -/
theorem pushArgument_db {G : Type} (env : ServerEnv G) {leaked : Multiset ℕ} (h : s.db.Inv (s.argvHeld + leaked))
    (c : ℕ) (arg : Argument) :
    (s.pushArgument env c arg).db.Inv ((s.pushArgument env c arg).argvHeld + leaked) := by
  obtain ⟨hnot, -, hc⟩ := h.counts.create env
  have hheld : (s.pushArgument env c arg).argvHeld = (createObject env s.db.refs).1 ::ₘ s.argvHeld := by
    rw [argvHeld_eq s c, argvHeld, pushArgument]
    simp only [mapTotal_insert, addrs_append, addrs_cons, addrs_nil, ← Multiset.singleton_add]
    abel
  refine h.withRefs (hc.congr ?_) fun a ha => ?_
  · rw [hheld]
    simp
  · rw [hheld, Multiset.cons_add] at ha
    rcases Multiset.mem_cons.mp ha with rfl | ha
    · exact fun hown => hnot (Multiset.mem_add.mpr (.inl (Keyspace.mem_held_of_owners hown)))
    · exact h.apart a ha

theorem pushArgument_inv {G : Type} (env : ServerEnv G) (h : s.Inv) (c : ℕ) (arg : Argument) :
    (s.pushArgument env c arg).Inv := by
  obtain ⟨leaked, hdb⟩ := h.db
  refine ⟨h.commands, ⟨leaked, pushArgument_db env hdb c arg⟩, fun c' argv hl => ?_⟩
  by_cases hcc : c' = c
  · rw [hcc, pushArgument, Finmap.lookup_insert] at hl
    obtain rfl := Option.some.inj hl
    intro o ho
    rcases List.mem_append.mp ho with ho | ho
    · exact h.argvOf c o ho
    · obtain rfl := List.mem_singleton.mp ho
      exact ⟨arg.sds, arg.short⟩
  · rw [pushArgument, Finmap.lookup_insert_of_ne _ hcc] at hl
    exact h.argv c' argv hl

/-- Freeing the arguments of a client never fails. -/
theorem freeClientArgv_spec {leaked : Multiset ℕ} (h : s.db.Inv (s.argvHeld + leaked)) (c : ℕ) :
    ∃ s', s.freeClientArgv c = .ok s' ∧ s'.db.Inv (s'.argvHeld + leaked) ∧ s'.commands = s.commands ∧
      s'.db.dict = s.db.dict ∧ s'.db.tasks = s.db.tasks ∧ s'.argv = s.argv.erase c := by
  have hc : Counts s.db.refs (addrs (s.argvOf c) + (s.db.held + (mapRest addrs s.argv c + leaked))) := by
    refine h.counts.congr ?_
    rw [argvHeld_eq s c]
    abel
  obtain ⟨refs, hr, hc₁⟩ := hc.decrs
  let s' : Server := ⟨s.commands, { s.db with refs := refs }, s.argv.erase c⟩
  refine ⟨s', by simp only [freeClientArgv, hr, Exec.ok_bind, Exec.pure_eq, s'], ?_, rfl, rfl, rfl, rfl⟩
  change Keyspace.Inv { s.db with refs := refs } (mapTotal addrs (s.argv.erase c) + leaked)
  rw [mapTotal_erase]
  refine h.withRefs hc₁ fun a ha => h.apart a ?_
  rw [argvHeld_eq s c, add_assoc]
  exact Multiset.mem_add.mpr (.inr ha)

theorem freeClientArgv_inv (h : s.Inv) (run : s.freeClientArgv c = .ok s') : s'.Inv := by
  obtain ⟨leaked, hdb⟩ := h.db
  obtain ⟨s₁, hr, h₁, hcommands, -, -, hargv⟩ := freeClientArgv_spec hdb c
  rw [hr] at run
  obtain rfl := Except.ok.inj run
  refine ⟨hcommands ▸ h.commands, ⟨leaked, h₁⟩, ?_⟩
  rw [hargv]
  exact argv_erase h.argv c

variable {G : Type} [AddCommGroup G] [LinearOrder G]

/-- The command of a request, run on the arguments of the client, which are freed afterwards. -/
theorem dispatch_spec (env : ServerEnv G) (h : s.Inv) {leaked : Multiset ℕ} (hdb : s.db.Inv (s.argvHeld + leaked))
    {db : Keyspace} {argv : List StrObj} {replies : List ReplyCall}
    (run : cmdDispatch env s.commands s.db (s.argvOf c) = .ok (db, argv, replies)) :
    ∃ s' lost, freeClientArgv { s with db := db, argv := s.argv.insert c argv } c = .ok s' ∧
      s'.db.Inv (s'.argvHeld + (leaked + lost)) ∧ (s.db.NoHeapq → lost = 0) ∧
      Change (requestProc (s.argvOf c)) s.db db replies (argKey (s.argvOf c)) ∧ s'.commands = s.commands ∧
      s'.db.dict = db.dict ∧ s'.db.tasks = db.tasks ∧ s'.argv = s.argv.erase c := by
  rw [argvHeld_eq s c, add_assoc] at hdb
  obtain ⟨lost, h₁⟩ := cmdDispatch_keepsInv env h.commands (h.argvOf c) _ hdb _ _ _ run
  let s₁ : Server := { s with db := db, argv := s.argv.insert c argv }
  have h₂ : s₁.db.Inv (s₁.argvHeld + (leaked + lost)) := by
    refine h₁.inv.congr ?_
    rw [argvHeld, mapTotal_insert]
    abel
  obtain ⟨s₂, hfree, h₃, hcommands, hdict, htasks, hargv⟩ := freeClientArgv_spec h₂ c
  exact ⟨s₂, lost, hfree, h₃, h₁.leaked_eq, h₁.change, hcommands, hdict, htasks, hargv.trans (erase_insert _ _ _)⟩

/-- What executing a request does. -/
theorem execute_spec (env : ServerEnv G) (h : s.Inv) {leaked : Multiset ℕ} (hdb : s.db.Inv (s.argvHeld + leaked))
    {replies : List ReplyCall} (run : s.execute env c = .ok (s', replies)) :
    ∃ lost, s'.db.Inv (s'.argvHeld + (leaked + lost)) ∧ (s.db.NoHeapq → lost = 0) ∧
      Change (requestProc (s.argvOf c)) s.db s'.db replies (argKey (s.argvOf c)) ∧ s'.commands = s.commands ∧
      (s'.argv = s.argv.erase c ∨
        s'.argv = s.argv ∧ ∃ name, (s.argvOf c)[0]? = some name ∧ strcaseEq name.enc.bytes (ascii "quit") = true) := by
  rw [execute] at run
  split at run
  · obtain ⟨s₁, hfree, he⟩ := Exec.bind_eq_ok.mp run
    obtain ⟨rfl, -⟩ := Prod.mk.inj (Except.ok.inj he)
    obtain ⟨s₂, hr, h₂, hcommands, hdict, htasks, hargv⟩ := freeClientArgv_spec hdb c
    rw [hr] at hfree
    obtain rfl := Except.ok.inj hfree
    exact ⟨0, h₂.congr (by simp), fun _ => rfl, .same hdict htasks, hcommands, .inl hargv⟩
  rename_i name args hargv
  split at run
  · rename_i hquit
    obtain ⟨rfl, -⟩ := Prod.mk.inj (Except.ok.inj run)
    exact ⟨0, hdb.congr (by simp), fun _ => rfl, .same rfl rfl, rfl, .inr ⟨rfl, name, by rw [hargv]; rfl, hquit⟩⟩
  obtain ⟨⟨db, argv, r⟩, hcall, run⟩ := Exec.bind_eq_ok.mp run
  obtain ⟨s₁, hfree, he⟩ := Exec.bind_eq_ok.mp run
  obtain ⟨rfl, rfl⟩ := Prod.mk.inj (Except.ok.inj he)
  rw [← hargv] at hcall
  obtain ⟨s₂, lost, hr, h₂, hlost, hchange, hcommands, hdict, htasks, hargv'⟩ := dispatch_spec env h hdb hcall
  rw [hr] at hfree
  obtain rfl := Except.ok.inj hfree
  exact ⟨lost, h₂, hlost, hchange.congr hdict.symm htasks.symm, hcommands, .inl hargv'⟩

theorem execute_inv (env : ServerEnv G) (h : s.Inv) {replies : List ReplyCall}
    (run : s.execute env c = .ok (s', replies)) : s'.Inv := by
  obtain ⟨leaked, hdb⟩ := h.db
  obtain ⟨lost, h₁, -, -, hcommands, hargv⟩ := execute_spec env h hdb run
  refine ⟨hcommands ▸ h.commands, ⟨leaked + lost, h₁⟩, ?_⟩
  rcases hargv with hargv | ⟨hargv, -⟩
  · rw [hargv]
    exact argv_erase h.argv c
  · rw [hargv]
    exact h.argv

theorem background_spec {leaked : Multiset ℕ} (hdb : s.db.Inv (s.argvHeld + leaked))
    (run : s.background = .ok s') :
    ∃ lost, s'.db.Inv (s'.argvHeld + (leaked + lost)) ∧ (s.db.NoHeapq → lost = 0 ∧ s'.db.NoHeapq) ∧
      s'.commands = s.commands ∧ s'.argv = s.argv := by
  obtain ⟨db, hfree, he⟩ := Exec.bind_eq_ok.mp run
  obtain rfl := Except.ok.inj he
  obtain ⟨hbad, hgood⟩ := lazyFree_spec hdb
  by_cases hw : ∃ o, s.db.tasks.head? = some o ∧ o.val.Wild
  · rw [hbad hw] at hfree
    cases hfree
  · obtain ⟨db₁, lost, hr, h₁, hholds, hlost⟩ := hgood hw
    rw [hr] at hfree
    obtain rfl := Except.ok.inj hfree
    exact ⟨lost, h₁.congr (add_assoc _ _ _), fun hno => ⟨hlost hno, fun o ho => hno o (hholds o ho)⟩, rfl, rfl⟩

theorem background_inv (h : s.Inv) (run : s.background = .ok s') : s'.Inv := by
  obtain ⟨leaked, hdb⟩ := h.db
  obtain ⟨lost, h₁, -, hcommands, hargv⟩ := background_spec hdb run
  exact ⟨hcommands ▸ h.commands, ⟨leaked + lost, h₁⟩, hargv ▸ h.argv⟩

/-- Every reachable state keeps the invariant. -/
theorem Reachable.inv (h : Reachable G s) : s.Inv := by
  induction h with
  | init run => exact rrServerInit_inv run
  | argument _ env c arg ih => exact pushArgument_inv env ih c arg
  | execute _ env c run ih => exact execute_inv env ih run
  | disconnect _ c run ih => exact freeClientArgv_inv ih run
  | background _ run ih => exact background_inv ih run

theorem Reachable.pushArguments (h : Reachable G s) (env : ServerEnv G) (args : List Argument) :
    Reachable G (args.foldl (fun s arg => s.pushArgument env c arg) s) := by
  induction args generalizing s with
  | nil => exact h
  | cons arg args ih => exact ih (.argument h env c arg)

theorem Reachable.request (h : Reachable G s) (env : ServerEnv G) {args : List Argument}
    {replies : List ReplyCall} (run : s.request env c args = .ok (s', replies)) : Reachable G s' :=
  .execute (h.pushArguments env args) env c run

/-- Requests of one client on a new server. -/
def session (env : ServerEnv G) (reqs : List (List Argument)) : Exec Server := do
  let s ← rrServerInit
  reqs.foldlM (fun s args => do
    let (s, _) ← s.request env 0 args
    pure s) s

theorem session_reachable (env : ServerEnv G) {reqs : List (List Argument)} (run : session env reqs = .ok s) :
    Reachable G s := by
  obtain ⟨s₀, hinit, hfold⟩ := Exec.bind_eq_ok.mp run
  have h₀ : Reachable G s₀ := .init hinit
  clear run hinit
  induction reqs generalizing s₀ with
  | nil =>
    obtain rfl := Except.ok.inj hfold
    exact h₀
  | cons args reqs ih =>
    obtain ⟨s₁, hreq, hrest⟩ := Exec.bind_eq_ok.mp hfold
    obtain ⟨⟨s₂, replies⟩, hrun, he⟩ := Exec.bind_eq_ok.mp hreq
    obtain rfl := Except.ok.inj he
    exact ih s₂ hrest (h₀.request env hrun)

end Server

/-- Ever higher addresses, no lazy freeing and no limit on memory. -/
def bumpServerEnv : ServerEnv ℤ where
  malloc s := max objSharedIntegers (s.sup id + 1)
  malloc_fresh s h := by
    have hle : id (max objSharedIntegers (s.sup id + 1)) ≤ s.sup id := Finset.le_sup h
    simp only [id] at hle
    omega
  malloc_private _ := le_max_left _ _
  fts := bumpEnv
  bm25 := fun tf _ _ _ _ => tf
  strtod := fun _ => (0, 0, false, false)
  ofLong := fun _ => 0
  info := []
  maxMemory := 0
  lazyfreeServerDel := false

/-- A short argument. -/
def textArgument (s : String) (h : (ascii s).length ≤ 44 := by decide) : Argument :=
  ⟨.embstr (ascii s), rfl, h.trans (by decide)⟩

end RhinoRox
