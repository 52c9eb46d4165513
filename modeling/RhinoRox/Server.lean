import RhinoRox.Commands
import RhinoRox.Sds

/-!
# Command dispatch and the server state, from `rr_server.c`

The command table, `cmd_lookup`, the part of `cmd_process` after the test for QUIT and the
life of the argument objects. The argument vectors of all clients belong to the state: the
objects in them are live while other clients run their commands.
-/

namespace RhinoRox

/-- The functions in the command table. -/
inductive Proc where
  | rrCmdGet | rrCmdLen | rrCmdSet | rrCmdDel | rrCmdExists | rrCmdRget | rrCmdRpget | rrCmdRlen
  | rrCmdRset | rrCmdRdel | rrCmdRkeys | rrCmdRvalues | rrCmdRgetall | rrCmdRexists | rrCmdHqpush
  | rrCmdHqpop | rrCmdHqpopn | rrCmdHqpeek | rrCmdHqlen | rrCmdDset | rrCmdDget | rrCmdDdel | rrCmdDsearch
  | rrCmdDlen | rrCmdType | rrCmdAdminPing | rrCmdAdminEcho | rrCmdAdminShutdown | rrCmdAdminInfo
  deriving DecidableEq, Repr

structure RedisCommand where
  name : String
  proc : Proc
  arity : ℤ
  sflags : String
  deriving DecidableEq, Repr

def redisCommandTable : List RedisCommand :=
  [⟨"get", .rrCmdGet, 2, "rF"⟩,
    ⟨"len", .rrCmdLen, 1, "rF"⟩,
    ⟨"set", .rrCmdSet, 3, "wm"⟩,
    ⟨"del", .rrCmdDel, 2, "wF"⟩,
    ⟨"exists", .rrCmdExists, 2, "rF"⟩,
    ⟨"rget", .rrCmdRget, 3, "rF"⟩,
    ⟨"rpget", .rrCmdRpget, 3, "rF"⟩,
    ⟨"rlen", .rrCmdRlen, 2, "rF"⟩,
    ⟨"rset", .rrCmdRset, 4, "wm"⟩,
    ⟨"rdel", .rrCmdRdel, 3, "wF"⟩,
    ⟨"rkeys", .rrCmdRkeys, 2, "rF"⟩,
    ⟨"rvalues", .rrCmdRvalues, 2, "rF"⟩,
    ⟨"rgetall", .rrCmdRgetall, 2, "rF"⟩,
    ⟨"rexists", .rrCmdRexists, 3, "rF"⟩,
    ⟨"qpush", .rrCmdHqpush, 4, "wF"⟩,
    ⟨"qpop", .rrCmdHqpop, 2, "wF"⟩,
    ⟨"qpopn", .rrCmdHqpopn, 3, "wm"⟩,
    ⟨"qpeek", .rrCmdHqpeek, 2, "rF"⟩,
    ⟨"qlen", .rrCmdHqlen, 2, "rF"⟩,
    ⟨"dset", .rrCmdDset, 4, "wm"⟩,
    ⟨"dget", .rrCmdDget, 3, "rF"⟩,
    ⟨"ddel", .rrCmdDdel, 3, "wF"⟩,
    ⟨"dsearch", .rrCmdDsearch, 3, "rF"⟩,
    ⟨"dlen", .rrCmdDlen, 2, "rF"⟩,
    ⟨"type", .rrCmdType, 2, "rF"⟩,
    ⟨"ping", .rrCmdAdminPing, -1, "rtF"⟩,
    ⟨"echo", .rrCmdAdminEcho, 2, "rF"⟩,
    ⟨"shutdown", .rrCmdAdminShutdown, -1, "arlt"⟩,
    ⟨"info", .rrCmdAdminInfo, 0, "ar"⟩]

/-- `populateCommandTable`: the names become the keys of `server.commands`. -/
def populateCommands (commands : DictT RedisCommand) : List RedisCommand → Exec (DictT RedisCommand)
  | [] => pure commands
  | c :: cs => do
    let (stored, commands, _) ← dictSet commands (ascii c.name) (some c)
    if stored then populateCommands commands cs else throw .assertion

def cmdLookup (commands : DictT RedisCommand) (name : Bytes) : Exec (Option RedisCommand) :=
  dictGet commands (sdstolower name)

/-! ## Running a command -/

/-- The keyspace, the argument vector and the replies after a command. -/
abbrev CallRun := Exec (Keyspace × List StrObj × List ReplyCall)

/-- `c->argv[i]`. -/
def argAt (argv : List StrObj) (i : ℕ) : Exec StrObj :=
  match argv[i]? with
  | none => throw .outOfBounds
  | some o => pure o

/-- A command that leaves its arguments alone. -/
def keepArgv (argv : List StrObj) (run : CmdRun) : CallRun := do
  let (db, replies) ← run
  pure (db, argv, replies)

def withKey (argv : List StrObj) (run : StrObj → CmdRun) : CallRun := do
  let key ← argAt argv 1
  keepArgv argv (run key)

def withKeyAndArg (argv : List StrObj) (run : StrObj → StrObj → CmdRun) : CallRun := do
  let key ← argAt argv 1
  let x ← argAt argv 2
  keepArgv argv (run key x)

/-- A command that re-encodes the argument at `i`. -/
def replaceArg (argv : List StrObj) (i : ℕ) (run : Exec (Keyspace × StrObj × List ReplyCall)) : CallRun := do
  let (db, o, replies) ← run
  pure (db, argv.set i o, replies)

def wrongArity (cmd : RedisCommand) : List ReplyCall :=
  replyAddErrFormat (ascii "wrong number of arguments for '" ++ ascii cmd.name ++ ascii "' command")

variable {G : Type} [AddCommGroup G] [LinearOrder G] (env : ServerEnv G)

def rrCmdAdminPing (cmd : RedisCommand) (db : Keyspace) (argv : List StrObj) : CallRun :=
  if argv.length > 2 then pure (db, argv, wrongArity cmd)
  else if argv.length = 1 then pure (db, argv, [.obj Shared.pong])
  else withKey argv fun o => pure (db, replyAddBulkObj o.enc)

/-- `c->cmd->proc(c)`. -/
def call (cmd : RedisCommand) (db : Keyspace) (argv : List StrObj) : CallRun :=
  match cmd.proc with
  | .rrCmdGet => withKey argv (rrCmdGet db)
  | .rrCmdLen => keepArgv argv (rrCmdLen db)
  | .rrCmdSet => do
    let key ← argAt argv 1
    let val ← argAt argv 2
    replaceArg argv 2 (rrCmdSet env db key val)
  | .rrCmdDel => withKey argv (rrCmdDel env db)
  | .rrCmdExists => withKey argv (rrCmdExists db)
  | .rrCmdRget => withKeyAndArg argv (rrCmdRget db)
  | .rrCmdRpget => withKeyAndArg argv (rrCmdRpget db)
  | .rrCmdRlen => withKey argv (rrCmdRlen db)
  | .rrCmdRset => do
    let key ← argAt argv 1
    let field ← argAt argv 2
    let val ← argAt argv 3
    replaceArg argv 3 (rrCmdRset env db key field val)
  | .rrCmdRdel => withKeyAndArg argv (rrCmdRdel db)
  | .rrCmdRkeys => withKey argv (rrCmdRkeys db)
  | .rrCmdRvalues => withKey argv (rrCmdRvalues db)
  | .rrCmdRgetall => withKey argv (rrCmdRgetall db)
  | .rrCmdRexists => withKeyAndArg argv (rrCmdRexists db)
  | .rrCmdHqpush => do
    let key ← argAt argv 1
    let score ← argAt argv 2
    let val ← argAt argv 3
    replaceArg argv 3 (rrCmdHqpush env db key score val)
  | .rrCmdHqpop => withKey argv (rrCmdHqpop db)
  | .rrCmdHqpopn => withKeyAndArg argv (rrCmdHqpopn db)
  | .rrCmdHqpeek => withKey argv (rrCmdHqpeek db)
  | .rrCmdHqlen => withKey argv (rrCmdHqlen db)
  | .rrCmdDset => do
    let key ← argAt argv 1
    let title ← argAt argv 2
    let doc ← argAt argv 3
    replaceArg argv 2 (rrCmdDset env db key title doc)
  | .rrCmdDget => withKeyAndArg argv (rrCmdDget db)
  | .rrCmdDdel => withKeyAndArg argv (rrCmdDdel env db)
  | .rrCmdDsearch => withKeyAndArg argv (rrCmdDsearch env db)
  | .rrCmdDlen => withKey argv (rrCmdDlen db)
  | .rrCmdType => withKey argv (rrCmdType db)
  | .rrCmdAdminPing => rrCmdAdminPing cmd db argv
  | .rrCmdAdminEcho => withKey argv fun o => pure (db, replyAddBulkObj o.enc)
  | .rrCmdAdminShutdown => throw .exit
  | .rrCmdAdminInfo => pure (db, argv, replyAddBulkSds env.info)

/-- `sdstolower` on the text of an object. -/
def lowerName : StrEnc → StrEnc
  | .raw s => .raw (sdstolower s)
  | .embstr s => .embstr (sdstolower s)
  | .int n => .int n

/-- `cmd_process` of a command other than QUIT. The name is lowered in place. -/
def cmdDispatch (commands : DictT RedisCommand) (db : Keyspace) (argv : List StrObj) : CallRun := do
  let name ← argAt argv 0
  let n ← name.enc.ptr
  let cmd ← cmdLookup commands n
  let argv := argv.set 0 ⟨name.addr, lowerName name.enc⟩
  match cmd with
  | none =>
    pure (db, argv, replyAddErrFormat (ascii "unknown command '" ++ cStr (sdstolower n) ++ ascii "'"))
  | some cmd =>
    if (cmd.arity > 0 ∧ cmd.arity ≠ argv.length) ∨ (argv.length : ℤ) < -cmd.arity then
      pure (db, argv, wrongArity cmd)
    else call env cmd db argv

/-! ## The server -/

/-- What the request parser makes an object of: a string of at most 512 MB. -/
structure Argument where
  enc : StrEnc
  sds : sdsEncodedObject enc = true
  short : enc.bytes.length ≤ protoQueryMaxLen

structure Server where
  commands : DictT RedisCommand
  db : Keyspace
  argv : Finmap fun _ : ℕ => List StrObj

def rrServerInit : Exec Server := do
  let commands ← populateCommands dictCreate redisCommandTable
  pure ⟨commands, rrDbCreate, ∅⟩

namespace Server

/-- The arguments of a client. -/
def argvOf (s : Server) (c : ℕ) : List StrObj := (s.argv.lookup c).getD []

/-- The parser adds an argument to a client. -/
def pushArgument (s : Server) (c : ℕ) (arg : Argument) : Server :=
  let (a, refs) := createObject env s.db.refs
  { s with db := { s.db with refs := refs }, argv := s.argv.insert c (s.argvOf c ++ [⟨a, arg.enc⟩]) }

/-- `free_client_argv`, by `rr_client_reset` or `rr_client_free`. -/
def freeClientArgv (s : Server) (c : ℕ) : Exec Server := do
  let refs ← decrStrings s.db.refs (s.argvOf c)
  pure { s with db := { s.db with refs := refs }, argv := s.argv.erase c }

/-- The request of a client is executed and the client reset. After QUIT the arguments
stay until the client is freed. -/
def execute (s : Server) (c : ℕ) : Exec (Server × List ReplyCall) :=
  match s.argvOf c with
  | [] => do
    let s ← s.freeClientArgv c
    pure (s, [])
  | name :: args =>
    if strcaseEq name.enc.bytes (ascii "quit") then pure (s, [.obj Shared.ok])
    else do
      let (db, argv, replies) ← cmdDispatch env s.commands s.db (name :: args)
      let s ← freeClientArgv { s with db := db, argv := s.argv.insert c argv } c
      pure (s, replies)

/-- A whole request of a client. -/
def request (s : Server) (c : ℕ) (args : List Argument) : Exec (Server × List ReplyCall) :=
  (args.foldl (fun s arg => s.pushArgument env c arg) s).execute env c

/-- The background thread takes a turn. -/
def background (s : Server) : Exec Server := do
  let db ← lazyFree s.db
  pure { s with db := db }

/-- The states that requests of any clients, disconnects and the background thread can
produce, in any order. -/
inductive Reachable (G : Type) [AddCommGroup G] [LinearOrder G] : Server → Prop where
  | init {s : Server} (run : rrServerInit = .ok s) : Reachable G s
  | argument {s : Server} (h : Reachable G s) (env : ServerEnv G) (c : ℕ) (arg : Argument) :
      Reachable G (s.pushArgument env c arg)
  | execute {s s' : Server} {replies : List ReplyCall} (h : Reachable G s) (env : ServerEnv G) (c : ℕ)
      (run : s.execute env c = .ok (s', replies)) : Reachable G s'
  | disconnect {s s' : Server} (h : Reachable G s) (c : ℕ) (run : s.freeClientArgv c = .ok s') :
      Reachable G s'
  | background {s s' : Server} (h : Reachable G s) (run : s.background = .ok s') : Reachable G s'

end Server

end RhinoRox
