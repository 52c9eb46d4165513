import RhinoRox.RequestExecution
import RhinoRox.MinheapMap

/-!
# Which releases DEL and SET make

The functions on the way of DEL and SET once more, with a log of the objects they hand to a
release. Without the log they are the functions of the source. Other commands take no
object out of the keyspace.
-/

namespace RhinoRox

/-- How an object is released: by `decrRefCount` on the spot, by the free callback of the
dictionary, or by a task of the background thread. -/
inductive Release where
  | decrRefCount (o : Robj)
  | freeCallback (o : Robj)
  | task (o : Robj)

def Release.object : Release → Robj
  | .decrRefCount o | .freeCallback o | .task o => o

/-- A run that makes no release. -/
def unlogged {α : Type} (x : Exec α) : Exec (α × List Release) := x.map fun a => (a, [])

/-! ## `rr_db.c` -/

section Database
variable {G : Type} (env : ServerEnv G)

def rrDbAddLogged (db : Keyspace) (key : StrObj) (val : Robj) : Exec ((Bool × Keyspace) × List Release) := do
  let k ← key.enc.ptr
  let (stored, dict, freed) ← dictSet db.dict k (some val)
  let refs ← decrRefCounts db.refs freed
  pure ((stored, { db with dict := dict, refs := refs }), freed.map .freeCallback)

def rrDbSetKeyLogged (db : Keyspace) (key : StrObj) (val : Robj) : Exec ((Bool × Keyspace) × List Release) := do
  let ((stored, db), log) ← rrDbAddLogged db key val
  if stored then do
    let refs ← incrRefCount db.refs val.addr
    pure ((true, { db with refs := refs }), log)
  else pure ((false, db), log)

def rrDbDelSyncLogged (db : Keyspace) (key : StrObj) : Exec ((Bool × Keyspace) × List Release) := do
  let k ← key.enc.ptr
  let (val, dict) ← dictDel db.dict k
  match val with
  | none => pure ((false, { db with dict := dict }), [])
  | some val => do
    let refs ← decrRefCount db.refs val
    pure ((true, { db with dict := dict, refs := refs }), [.decrRefCount val])

def rrDbDelAsyncLogged (db : Keyspace) (key : StrObj) : Exec ((Bool × Keyspace) × List Release) := do
  let k ← key.enc.ptr
  let (val, dict) ← dictDel db.dict k
  match val with
  | none => pure ((false, { db with dict := dict }), [])
  | some val =>
    if getLazyfreeEffort val.val > lazyfreeThreshold then
      pure ((true, { db with dict := dict, tasks := db.tasks ++ [val] }), [.task val])
    else do
      let refs ← decrRefCount db.refs val
      pure ((true, { db with dict := dict, refs := refs }), [.decrRefCount val])

def rrDbDelLogged (db : Keyspace) (key : StrObj) : Exec ((Bool × Keyspace) × List Release) :=
  if env.lazyfreeServerDel then rrDbDelAsyncLogged db key else rrDbDelSyncLogged db key

def lazyDelLogged (db : Keyspace) (key : StrObj) : Exec (Keyspace × List Release) :=
  if env.lazyfreeServerDel then do
    let ((_, db), log) ← rrDbDelLogged env db key
    pure (db, log)
  else pure (db, [])

def rrCmdSetLogged (db : Keyspace) (key val : StrObj) : Exec ((Keyspace × StrObj × List ReplyCall) × List Release) := do
  let (db, log) ← lazyDelLogged env db key
  let (val, refs) ← tryObjectEncoding env db.refs val
  let ((stored, db), log') ← rrDbSetKeyLogged { db with refs := refs } key val.toRobj
  pure ((db, val, [.obj (if stored then Shared.ok else Shared.err)]), log ++ log')

def rrCmdDelLogged (db : Keyspace) (key : StrObj) : Exec ((Keyspace × List ReplyCall) × List Release) := do
  let ((deleted, db), log) ← rrDbDelLogged env db key
  pure ((db, [.obj (if deleted then Shared.cone else Shared.czero)]), log)

end Database

/-! ## Requests -/

section Requests
variable {G : Type} [AddCommGroup G] [LinearOrder G] (env : ServerEnv G)

def callLogged (cmd : RedisCommand) (db : Keyspace) (argv : List StrObj) :
    Exec ((Keyspace × List StrObj × List ReplyCall) × List Release) :=
  match cmd.proc with
  | .rrCmdSet => do
    let key ← argAt argv 1
    let val ← argAt argv 2
    let ((db, val, replies), log) ← rrCmdSetLogged env db key val
    pure ((db, argv.set 2 val, replies), log)
  | .rrCmdDel => do
    let key ← argAt argv 1
    let ((db, replies), log) ← rrCmdDelLogged env db key
    pure ((db, argv, replies), log)
  | _ => unlogged (call env cmd db argv)

def cmdDispatchLogged (commands : DictT RedisCommand) (db : Keyspace) (argv : List StrObj) :
    Exec ((Keyspace × List StrObj × List ReplyCall) × List Release) := do
  let name ← argAt argv 0
  let n ← name.enc.ptr
  let cmd ← cmdLookup commands n
  let argv := argv.set 0 ⟨name.addr, lowerName name.enc⟩
  match cmd with
  | none =>
    pure ((db, argv, replyAddErrFormat (ascii "unknown command '" ++ cStr (sdstolower n) ++ ascii "'")), [])
  | some cmd =>
    if (cmd.arity > 0 ∧ cmd.arity ≠ argv.length) ∨ (argv.length : ℤ) < -cmd.arity then
      pure ((db, argv, wrongArity cmd), [])
    else callLogged env cmd db argv

namespace Server

def executeLogged (s : Server) (c : ℕ) : Exec ((Server × List ReplyCall) × List Release) :=
  match s.argvOf c with
  | [] => do
    let s ← s.freeClientArgv c
    pure ((s, []), [])
  | name :: args =>
    if strcaseEq name.enc.bytes (ascii "quit") then pure ((s, [.obj Shared.ok]), [])
    else do
      let ((db, argv, replies), log) ← cmdDispatchLogged env s.commands s.db (name :: args)
      let s ← freeClientArgv { s with db := db, argv := s.argv.insert c argv } c
      pure ((s, replies), log)

def requestLogged (s : Server) (c : ℕ) (args : List Argument) : Exec ((Server × List ReplyCall) × List Release) :=
  (args.foldl (fun s arg => s.pushArgument env c arg) s).executeLogged env c

end Server

end Requests

/-! ## Without the log -/

section Erasure
variable {G : Type} (env : ServerEnv G) (db : Keyspace) (key : StrObj)

theorem rrDbAddLogged_fst (val : Robj) : (rrDbAddLogged db key val).map Prod.fst = rrDbAdd db key val := by
  simp only [rrDbAddLogged, rrDbAdd, Exec.map_bind]
  rfl

theorem rrDbSetKeyLogged_fst (val : Robj) : (rrDbSetKeyLogged db key val).map Prod.fst = rrDbSetKey db key val := by
  rw [rrDbSetKey, ← rrDbAddLogged_fst, Exec.bind_map, rrDbSetKeyLogged, Exec.map_bind]
  congr 1
  funext r
  obtain ⟨⟨stored, db⟩, log⟩ := r
  cases stored with
  | false => rfl
  | true =>
    simp only [if_true, Exec.map_bind]
    rfl

theorem rrDbDelSyncLogged_fst : (rrDbDelSyncLogged db key).map Prod.fst = rrDbDelSync db key := by
  simp only [rrDbDelSyncLogged, rrDbDelSync, Exec.map_bind]
  congr 1
  funext k
  congr 1
  funext r
  obtain ⟨val, dict⟩ := r
  cases val with
  | none => rfl
  | some val =>
    simp only [Exec.map_bind]
    rfl

theorem rrDbDelAsyncLogged_fst : (rrDbDelAsyncLogged db key).map Prod.fst = rrDbDelAsync db key := by
  simp only [rrDbDelAsyncLogged, rrDbDelAsync, Exec.map_bind]
  congr 1
  funext k
  congr 1
  funext r
  obtain ⟨val, dict⟩ := r
  cases val with
  | none => rfl
  | some val =>
    simp only
    split
    · rfl
    · simp only [Exec.map_bind]
      rfl

theorem rrDbDelLogged_fst : (rrDbDelLogged env db key).map Prod.fst = rrDbDel env db key := by
  rw [rrDbDelLogged, rrDbDel]
  split
  · exact rrDbDelAsyncLogged_fst db key
  · exact rrDbDelSyncLogged_fst db key

theorem lazyDelLogged_fst : (lazyDelLogged env db key).map Prod.fst = lazyDel env db key := by
  rw [lazyDelLogged, lazyDel]
  split
  · rw [← rrDbDelLogged_fst, Exec.bind_map, Exec.map_bind]
    rfl
  · rfl

theorem rrCmdSetLogged_fst (val : StrObj) : (rrCmdSetLogged env db key val).map Prod.fst = rrCmdSet env db key val := by
  rw [rrCmdSet, ← lazyDelLogged_fst, Exec.bind_map, rrCmdSetLogged, Exec.map_bind]
  congr 1
  funext r
  rw [Exec.map_bind]
  congr 1
  funext r'
  obtain ⟨v, refs⟩ := r'
  change Except.map Prod.fst (rrDbSetKeyLogged _ key v.toRobj >>= _) = rrDbSetKey _ key v.toRobj >>= _
  rw [← rrDbSetKeyLogged_fst, Exec.bind_map, Exec.map_bind]
  rfl

theorem rrCmdDelLogged_fst : (rrCmdDelLogged env db key).map Prod.fst = rrCmdDel env db key := by
  rw [rrCmdDel, ← rrDbDelLogged_fst, Exec.bind_map, rrCmdDelLogged, Exec.map_bind]
  rfl

theorem unlogged_fst {α : Type} (x : Exec α) : (unlogged x).map Prod.fst = x := by
  cases x <;> rfl

variable [AddCommGroup G] [LinearOrder G]

theorem callLogged_fst (cmd : RedisCommand) (argv : List StrObj) :
    (callLogged env cmd db argv).map Prod.fst = call env cmd db argv := by
  rw [callLogged]
  split
  · rename_i hproc
    rw [call, hproc]
    simp only [Exec.map_bind]
    congr 1
    funext key
    congr 1
    funext val
    rw [replaceArg, ← rrCmdSetLogged_fst, Exec.bind_map]
    rfl
  · rename_i hproc
    rw [call, hproc]
    simp only [Exec.map_bind, withKey]
    congr 1
    funext key
    rw [keepArgv, ← rrCmdDelLogged_fst, Exec.bind_map]
    rfl
  · exact unlogged_fst _

theorem cmdDispatchLogged_fst (commands : DictT RedisCommand) (argv : List StrObj) :
    (cmdDispatchLogged env commands db argv).map Prod.fst = cmdDispatch env commands db argv := by
  simp only [cmdDispatchLogged, cmdDispatch, Exec.map_bind]
  congr 1
  funext name
  congr 1
  funext n
  congr 1
  funext cmd
  cases cmd with
  | none => rfl
  | some cmd =>
    simp only
    split
    · rfl
    · exact callLogged_fst env db cmd _

theorem Server.executeLogged_fst (s : Server) (c : ℕ) :
    (s.executeLogged env c).map Prod.fst = s.execute env c := by
  rw [executeLogged, execute]
  cases s.argvOf c with
  | nil =>
    simp only [Exec.map_bind]
    rfl
  | cons name args =>
    simp only
    split
    · rfl
    · rw [← cmdDispatchLogged_fst, Exec.bind_map, Exec.map_bind]
      congr 1
      funext r
      rw [Exec.map_bind]
      rfl

/-- A request with its log is the request. -/
theorem Server.requestLogged_fst (s : Server) (c : ℕ) (args : List Argument) :
    (s.requestLogged env c args).map Prod.fst = s.request env c args :=
  executeLogged_fst env _ c

end Erasure

/-! ## What is released -/

section Releases
variable {G : Type} (env : ServerEnv G) {db db₁ : Keyspace} {key : StrObj} {log : List Release}

/-- The log names exactly the object that was in the place of a key. -/
def Releases (log : List Release) (o : Option Robj) : Prop := log.map Release.object = o.toList

/-- The keyspace after an object has left its key. -/
structure Left (db db₁ : Keyspace) (key : StrObj) : Prop where
  inv : db₁.dict.Inv
  freeCb : db₁.dict.freeCb = db.dict.freeCb
  gone : db₁.dict.toMap.lookup key.key = none

/-- A deleted key hands its object to one release, with lazy freeing and without. -/
theorem rrDbDelLogged_releases (h : db.dict.Inv) (hkey : sdsEncodedObject key.enc = true) {deleted : Bool}
    (run : rrDbDelLogged env db key = .ok ((deleted, db₁), log)) :
    Releases log (db.dict.toMap.lookup key.key) ∧ Left db db₁ key := by
  obtain ⟨d, hr, hi, hm, hcb, -⟩ := dictDel_spec h key.enc.bytes
  change dictDel db.dict key.enc.bytes = .ok (db.dict.toMap.lookup key.key, d) at hr
  have hgone : d.toMap.lookup key.key = none := by
    rw [hm]
    exact Finmap.lookup_erase _ _
  rw [rrDbDelLogged] at run
  cases hl : db.dict.toMap.lookup key.key with
  | none =>
    rw [hl] at hr
    simp only [rrDbDelAsyncLogged, rrDbDelSyncLogged, StrEnc.ptr_of_sds hkey, Exec.ok_bind, hr, ite_self] at run
    obtain ⟨hres, rfl⟩ := Prod.mk.inj (Except.ok.inj run)
    obtain ⟨-, rfl⟩ := Prod.mk.inj hres
    exact ⟨rfl, hi, hcb, hgone⟩
  | some o =>
    rw [hl] at hr
    -- the release on the spot, which both ways of deleting can take
    have hdecr (run : (decrRefCount db.refs o >>= fun refs =>
        (.ok ((true, { db with dict := d, refs := refs }), [.decrRefCount o]) : Exec ((Bool × Keyspace) × List Release))) =
          .ok ((deleted, db₁), log)) : Releases log (some o) ∧ Left db db₁ key := by
      obtain ⟨refs, -, run⟩ := Exec.bind_eq_ok.mp run
      obtain ⟨hres, rfl⟩ := Prod.mk.inj (Except.ok.inj run)
      obtain ⟨-, rfl⟩ := Prod.mk.inj hres
      exact ⟨rfl, hi, hcb, hgone⟩
    split at run
    · simp only [rrDbDelAsyncLogged, StrEnc.ptr_of_sds hkey, Exec.ok_bind, hr] at run
      split at run
      · obtain ⟨hres, rfl⟩ := Prod.mk.inj (Except.ok.inj run)
        obtain ⟨-, rfl⟩ := Prod.mk.inj hres
        exact ⟨rfl, hi, hcb, hgone⟩
      · exact hdecr run
    · simp only [rrDbDelSyncLogged, StrEnc.ptr_of_sds hkey, Exec.ok_bind, hr] at run
      exact hdecr run

/-- `dict_set` hands the value it replaces to the callback. -/
theorem rrDbSetKeyLogged_releases {val : Robj} {stored : Bool}
    (run : rrDbSetKeyLogged db key val = .ok ((stored, db₁), log)) (h : db.dict.Inv) (hcb : db.dict.freeCb = true)
    (hkey : sdsEncodedObject key.enc = true) :
    Releases log (db.dict.toMap.lookup key.key) := by
  obtain ⟨d, freed, hr, -, -, -, hfreed⟩ := dictSet_spec h key.enc.bytes val
  rw [hcb, if_pos rfl] at hfreed
  simp only [rrDbSetKeyLogged, rrDbAddLogged, StrEnc.ptr_of_sds hkey, Exec.ok_bind, hr] at run
  obtain ⟨⟨⟨b, db₂⟩, log₂⟩, hadd, run⟩ := Exec.bind_eq_ok.mp run
  obtain ⟨refs, -, hadd⟩ := Exec.bind_eq_ok.mp hadd
  obtain ⟨hres, rfl⟩ := Prod.mk.inj (Except.ok.inj hadd)
  obtain ⟨rfl, rfl⟩ := Prod.mk.inj hres
  obtain ⟨refs', -, run⟩ := Exec.bind_eq_ok.mp run
  obtain ⟨-, rfl⟩ := Prod.mk.inj (Except.ok.inj run)
  rw [Releases, List.map_map, hfreed]
  exact List.map_id _

/-- SET hands the value it replaces to one release: with lazy freeing when it deletes the
key, without when it stores the new value. -/
theorem rrCmdSetLogged_releases (h : db.dict.Inv) (hcb : db.dict.freeCb = true)
    (hkey : sdsEncodedObject key.enc = true) {val : StrObj} {r : Keyspace × StrObj × List ReplyCall}
    (run : rrCmdSetLogged env db key val = .ok (r, log)) : Releases log (db.dict.toMap.lookup key.key) := by
  obtain ⟨⟨db₁, log₁⟩, hdel, run⟩ := Exec.bind_eq_ok.mp run
  obtain ⟨⟨v, refs⟩, -, run⟩ := Exec.bind_eq_ok.mp run
  obtain ⟨⟨⟨stored, db₂⟩, log₂⟩, hset, run⟩ := Exec.bind_eq_ok.mp run
  obtain ⟨-, rfl⟩ := Prod.mk.inj (Except.ok.inj run)
  rw [lazyDelLogged] at hdel
  split at hdel
  · obtain ⟨⟨⟨deleted, db₃⟩, log₃⟩, hr, hdel⟩ := Exec.bind_eq_ok.mp hdel
    obtain ⟨rfl, rfl⟩ := Prod.mk.inj (Except.ok.inj hdel)
    obtain ⟨hlog, hleft⟩ := rrDbDelLogged_releases env h hkey hr
    have hnone := rrDbSetKeyLogged_releases hset hleft.inv (hleft.freeCb.trans hcb) hkey
    change Releases log₂ (db₃.dict.toMap.lookup key.key) at hnone
    rw [hleft.gone] at hnone
    rw [Releases, List.map_append, hlog, hnone]
    exact List.append_nil _
  · obtain ⟨rfl, rfl⟩ := Prod.mk.inj (Except.ok.inj hdel)
    have hlog := rrDbSetKeyLogged_releases hset h hcb hkey
    exact hlog

theorem rrCmdDelLogged_releases (h : db.dict.Inv) (hkey : sdsEncodedObject key.enc = true)
    {r : Keyspace × List ReplyCall} (run : rrCmdDelLogged env db key = .ok (r, log)) :
    Releases log (db.dict.toMap.lookup key.key) := by
  obtain ⟨⟨⟨deleted, db₁⟩, log₁⟩, hr, run⟩ := Exec.bind_eq_ok.mp run
  obtain ⟨-, rfl⟩ := Prod.mk.inj (Except.ok.inj run)
  exact (rrDbDelLogged_releases env h hkey hr).1

variable [AddCommGroup G] [LinearOrder G] {argv : List StrObj} {r : Keyspace × List StrObj × List ReplyCall}

theorem releases_unlogged {α : Type} {x : Exec α} {a : α} (run : unlogged x = .ok (a, log)) : Releases log none := by
  cases x with
  | error e => cases run
  | ok b =>
    obtain ⟨-, rfl⟩ := Prod.mk.inj (Except.ok.inj run)
    rfl

/-- The commands that take the object of a key out of the keyspace. -/
def Proc.removes : Proc → Bool
  | .rrCmdSet | .rrCmdDel => true
  | _ => false

theorem callLogged_releases {cmd : RedisCommand} (h : db.dict.Inv) (hcb : db.dict.freeCb = true) (hs : AllParsed argv)
    (run : callLogged env cmd db argv = .ok (r, log)) :
    Releases log (if cmd.proc.removes then argv[1]?.bind fun key => db.dict.toMap.lookup key.key else none) := by
  rw [callLogged] at run
  split at run
  · rename_i hproc
    obtain ⟨key, hkey, run⟩ := Exec.bind_eq_ok.mp run
    obtain ⟨val, -, run⟩ := Exec.bind_eq_ok.mp run
    obtain ⟨⟨⟨db₁, v, replies⟩, log₁⟩, hset, run⟩ := Exec.bind_eq_ok.mp run
    obtain ⟨-, rfl⟩ := Prod.mk.inj (Except.ok.inj run)
    rw [hproc, argAt_eq_ok hkey]
    exact rrCmdSetLogged_releases env h hcb (hs.argAt (argAt_eq_ok hkey)) hset
  · rename_i hproc
    obtain ⟨key, hkey, run⟩ := Exec.bind_eq_ok.mp run
    obtain ⟨⟨⟨db₁, replies⟩, log₁⟩, hdel, run⟩ := Exec.bind_eq_ok.mp run
    obtain ⟨-, rfl⟩ := Prod.mk.inj (Except.ok.inj run)
    rw [hproc, argAt_eq_ok hkey]
    exact rrCmdDelLogged_releases env h (hs.argAt (argAt_eq_ok hkey)) hdel
  · rename_i hset hdel
    have hother : cmd.proc.removes = false := by
      cases hproc : cmd.proc with
      | rrCmdSet => exact absurd hproc hset
      | rrCmdDel => exact absurd hproc hdel
      | _ => rfl
    rw [hother]
    exact releases_unlogged run

/-- The object that a request with these arguments takes out of the keyspace: that of the key
of a DEL or SET. -/
def removedBy (db : Keyspace) (argv : List StrEnc) : Option Robj :=
  match argv[0]?.bind fun name => commandNamed name.bytes with
  | none => none
  | some cmd =>
    if cmd.proc.removes ∧ cmd.arity = argv.length then
      argv[1]?.bind fun key => db.dict.toMap.lookup (cStr key.bytes)
    else none

theorem cmdDispatchLogged_releases {commands : DictT RedisCommand}
    (hcommands : ∀ name, cmdLookup commands name = .ok (commandNamed name)) (h : db.dict.Inv)
    (hcb : db.dict.freeCb = true) (hs : AllParsed argv)
    (run : cmdDispatchLogged env commands db argv = .ok (r, log)) :
    Releases log (removedBy db (argv.map StrObj.enc)) := by
  obtain ⟨name, hname, run⟩ := Exec.bind_eq_ok.mp run
  have h₀ := argAt_eq_ok hname
  simp only [StrEnc.ptr_of_sds (hs.argAt h₀), Exec.ok_bind, hcommands] at run
  simp only [removedBy, List.getElem?_map, h₀, Option.map_some, Option.bind_some, List.length_map]
  cases hcmd : commandNamed name.enc.bytes with
  | none =>
    rw [hcmd] at run
    obtain ⟨-, rfl⟩ := Prod.mk.inj (Except.ok.inj run)
    rfl
  | some cmd =>
    rw [hcmd] at run
    simp only [List.length_set] at run ⊢
    split at run
    · rename_i hreject
      obtain ⟨-, rfl⟩ := Prod.mk.inj (Except.ok.inj run)
      rw [if_neg]
      · rfl
      · rintro ⟨-, harity⟩
        omega
    · rename_i haccept
      have hlog := callLogged_releases env h hcb (hs.lowered h₀) run
      rw [List.getElem?_set_ne (by decide)] at hlog
      have hpositive : ∀ c ∈ redisCommandTable, c.proc.removes = true → 0 < c.arity := by decide
      by_cases hremoves : cmd.proc.removes = true
      · have hpos := hpositive cmd (commandNamed_eq_some hcmd).1 hremoves
        rw [if_pos ⟨hremoves, by omega⟩, Option.bind_map]
        rw [if_pos hremoves] at hlog
        exact hlog
      · rw [if_neg fun hand => hremoves hand.1]
        rw [if_neg hremoves] at hlog
        exact hlog

namespace Server
variable {s s₁ : Server} {c : ℕ}

/-- A request of an idle client releases the object that it takes out of the keyspace once,
and no other. -/
theorem requestLogged_releases (h : s.Inv) (hidle : s.argvOf c = []) {args : List Argument} {replies : List ReplyCall}
    (run : s.requestLogged env c args = .ok ((s₁, replies), log)) :
    Releases log (removedBy s.db (args.map Argument.enc)) := by
  obtain ⟨s₂, objs, hpush, h₂, hdict, hargv, henc, -⟩ := pushArguments_spec env h args (c := c) (by simp [hidle])
  obtain ⟨leaked, hdb⟩ := h₂.db
  have hs : AllParsed (s₂.argvOf c) := h₂.argvOf c
  rw [hidle, List.nil_append] at hargv
  rw [hargv] at hs
  have hsame : removedBy s.db (args.map Argument.enc) = removedBy s₂.db (objs.map StrObj.enc) := by
    rw [henc, removedBy, removedBy, hdict]
  rw [hsame]
  rw [requestLogged, hpush, executeLogged, hargv] at run
  cases objs with
  | nil =>
    obtain ⟨s₃, -, run⟩ := Exec.bind_eq_ok.mp run
    obtain ⟨-, rfl⟩ := Prod.mk.inj (Except.ok.inj run)
    rfl
  | cons name rest =>
    simp only at run
    split at run
    · rename_i hquit
      obtain ⟨-, rfl⟩ := Prod.mk.inj (Except.ok.inj run)
      have hnone : commandNamed name.enc.bytes = none := by
        cases hcmd : commandNamed name.enc.bytes with
        | none => rfl
        | some cmd =>
          rw [not_quit_of_commandNamed hcmd] at hquit
          cases hquit
      simp only [removedBy, List.map_cons, List.getElem?_cons_zero, Option.bind_some, hnone]
      rfl
    · obtain ⟨⟨r, log₁⟩, hdispatch, run⟩ := Exec.bind_eq_ok.mp run
      obtain ⟨s₃, -, run⟩ := Exec.bind_eq_ok.mp run
      obtain ⟨-, rfl⟩ := Prod.mk.inj (Except.ok.inj run)
      exact cmdDispatchLogged_releases env h₂.commands hdb.dict hdb.freeCb hs hdispatch

end Server

end Releases

end RhinoRox
