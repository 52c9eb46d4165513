import RhinoRox.IniFiles
import RhinoRox.Objects

/-!
# The configuration, from `rr_config.c` and `main`

The handler of the configuration file converts the value of an item and then checks a field. A
command-line option replaces the value, under the name that `SETVAL` is given. The configuration
that `main` passes in is uninitialised memory, so its fields are arbitrary until an item sets them.
-/

namespace RhinoRox

/-- `rr_configuration`. -/
structure Configuration where
  port : ℤ
  bind : Bytes
  maxClients : ℤ
  maxMemory : ℤ
  cronFrequency : ℤ
  logLevel : ℤ
  logFile : Bytes
  pidfile : Bytes
  unixDomainSock : Bytes
  unixSockPerm : ℕ
  tcpBacklog : ℤ
  lazyfreeServerDel : ℤ
  maxDbs : ℤ
  deriving DecidableEq

/-- `rr_configuration_context`, and the texts given to `rr_log`. -/
structure ConfigurationContext where
  configs : Configuration
  options : DictT Bytes
  log : List Bytes

/-- The file system: the contents of the files, why a file cannot be opened for appending, and
`getAbsolutePath`, which depends on the working directory. -/
structure ConfigEnv where
  contents : Bytes → Option Bytes
  appendError : Bytes → Option Bytes
  getAbsolutePath : Bytes → Bytes

/-! ## Conversions -/

def atoi (s : Bytes) : ℤ := toInt32 (strtoll s).1

/-- `strtol(s, NULL, 8)`: the value, and whether it is out of range. -/
def strtolOctal (s : Bytes) : ℤ × Bool :=
  let t := s.dropWhile isspace
  let negative := t.head? = some 45
  let t := if t.head? = some 45 ∨ t.head? = some 43 then t.drop 1 else t
  let digits := t.takeWhile fun c => decide (48 ≤ c ∧ c ≤ 55)
  let n : ℕ := digits.foldl (fun n c => n * 8 + (c.toNat - 48)) 0
  let v : ℤ := if negative then -n else n
  if v < -2 ^ 63 then (-2 ^ 63, true) else if v > 2 ^ 63 - 1 then (2 ^ 63 - 1, true) else (v, false)

def isdigit (c : UInt8) : Bool := 48 ≤ c ∧ c ≤ 57

/-- The unit multiplier of `memtoll`. -/
def memUnit (u : Bytes) : Option ℤ :=
  if u = [] ∨ strcaseEq u (ascii "b") then some 1
  else if strcaseEq u (ascii "k") then some 1000
  else if strcaseEq u (ascii "kb") then some 1024
  else if strcaseEq u (ascii "m") then some (1000 * 1000)
  else if strcaseEq u (ascii "mb") then some (1024 * 1024)
  else if strcaseEq u (ascii "g") then some (1000 * 1000 * 1000)
  else if strcaseEq u (ascii "gb") then some (1024 * 1024 * 1024)
  else none

/-- `memtoll`: the amount, and `*err`. `strtoll` with base 10 never sets `EINVAL`. -/
def memtoll (p : Bytes) : ℤ × Bool :=
  let minus := if byteAt p 0 = 45 then 1 else 0
  let digits := minus + ((p.drop minus).takeWhile isdigit).length
  match memUnit (p.drop digits) with
  | none => (0, true)
  | some mul =>
    if digits ≥ 128 then (0, true)
    else
      let (val, endptr, _) := strtoll (p.take digits)
      if endptr ≠ [] then (0, true) else (toInt64 (val * mul), false)

/-- `LOG_LEVEL_ENUM`. -/
def logLevelEnum : List (Bytes × ℤ) :=
  [(ascii "debug", 0), (ascii "info", 1), (ascii "warning", 2), (ascii "error", 3), (ascii "critical", 4)]

def cfgEnumGetValue (ce : List (Bytes × ℤ)) (name : Bytes) : Option ℤ :=
  (ce.find? fun e => strcaseEq e.1 name).map Prod.snd

/-! ## The items -/

inductive ConfigItem where
  | maxClients | cronFrequency | maxMemory | pidfile | unixDomainSocket | unixDomainPerm
  | logLevel | logFile | port | bind | tcpBacklog | serverDel | maxDbs
  deriving DecidableEq

namespace ConfigItem

/-- In the order of the branches of `handler`. -/
def all : List ConfigItem :=
  [maxClients, cronFrequency, maxMemory, pidfile, unixDomainSocket, unixDomainPerm, logLevel, logFile,
    port, bind, tcpBacklog, serverDel, maxDbs]

/-- The section that `MATCH` compares. -/
def inSection : ConfigItem → Bytes
  | maxClients | cronFrequency | maxMemory | pidfile | unixDomainSocket | unixDomainPerm => ascii "server"
  | logLevel | logFile => ascii "logging"
  | port | bind | tcpBacklog => ascii "network"
  | serverDel => ascii "lazyfree"
  | maxDbs => ascii "database"

/-- The name that `MATCH` compares. -/
def name : ConfigItem → Bytes
  | maxClients => ascii "max_clients"
  | cronFrequency => ascii "cron_frequency"
  | maxMemory => ascii "max_memory"
  | pidfile => ascii "pidfile"
  | unixDomainSocket => ascii "unix_domain_socket"
  | unixDomainPerm => ascii "unix_domain_perm"
  | logLevel => ascii "log_level"
  | logFile => ascii "log_file"
  | port => ascii "port"
  | bind => ascii "bind"
  | tcpBacklog => ascii "tcp_backlog"
  | serverDel => ascii "server_del"
  | maxDbs => ascii "max_dbs"

/-- The name that `SETVAL` looks up. -/
def option : ConfigItem → Bytes
  | unixDomainPerm => ascii "unix_sock_perm"
  | i => i.name

end ConfigItem

def serverCronMaxFrequency : ℤ := 1000

/-- `goto error` with a text, unless the check passes. -/
def errorIf (failed : Prop) [Decidable failed] (text : Bytes) : Option Bytes := if failed then some text else none

/-- The check of a path by opening the file: `msg` holds 1023 bytes. -/
def openError (env : ConfigEnv) (what path : Bytes) : Option Bytes :=
  if byteAt path 0 = 0 then none
  else (env.appendError path).map fun reason =>
    (ascii "Failed to open " ++ what ++ ascii " \"" ++ path ++ ascii "\": " ++ reason).take 1023

/-- The branch of `handler` for an item: the configuration, and the error. -/
def ConfigItem.store (env : ConfigEnv) (cfg : Configuration) (val : Bytes) :
    ConfigItem → Configuration × Option Bytes
  | maxClients =>
    let cfg := { cfg with maxClients := atoi val }
    (cfg, errorIf (cfg.maxClients < 0) (ascii "Invalid value for max_clients"))
  | cronFrequency =>
    let cfg := { cfg with cronFrequency := atoi val }
    (cfg, errorIf (cfg.cronFrequency < 0 ∨ cfg.cronFrequency > serverCronMaxFrequency)
      (ascii "Invalid value for cron_frequency"))
  | maxMemory =>
    let cfg := { cfg with maxMemory := (memtoll val).1 }
    (cfg, errorIf (cfg.maxMemory < 0) (ascii "Invalid value for max_memory"))
  | pidfile =>
    let cfg := { cfg with pidfile := val }
    (cfg, openError env (ascii " pidfile") cfg.pidfile)
  | unixDomainSocket => ({ cfg with unixDomainSock := val }, none)
  | unixDomainPerm =>
    let (perm, erange) := strtolOctal val
    let cfg := { cfg with unixSockPerm := (perm % 2 ^ 32).toNat }
    (cfg, errorIf (erange ∨ cfg.unixSockPerm > 0o777) (ascii "Invalid socket file permissions"))
  | logLevel =>
    match cfgEnumGetValue logLevelEnum val with
    | none => (cfg, some (ascii "Invalid value for log_level"))
    | some level =>
      let cfg := { cfg with logLevel := level }
      (cfg, errorIf (cfg.logLevel > 4 ∨ cfg.logLevel < 0) (ascii "Invalid value for log_level"))
  | logFile =>
    let cfg := { cfg with logFile := val }
    (cfg, openError env (ascii "log file") cfg.logFile)
  | port =>
    let cfg := { cfg with port := atoi val }
    (cfg, errorIf (cfg.port < 0 ∨ cfg.port > 65535) (ascii "Invalid value for port"))
  | bind => ({ cfg with bind := val }, none)
  -- these three check the port
  | tcpBacklog =>
    let cfg := { cfg with tcpBacklog := atoi val }
    (cfg, errorIf (cfg.port < 0) (ascii "Invalid value for tcp_backlog"))
  | serverDel =>
    let cfg := { cfg with lazyfreeServerDel := atoi val }
    (cfg, errorIf (cfg.port < 0) (ascii "Invalid value for server_del"))
  | maxDbs =>
    let cfg := { cfg with maxDbs := atoi val }
    (cfg, errorIf (cfg.port < 0) (ascii "Invalid value for max_dbs"))

/-- The item that `MATCH` selects. -/
def configItem (inSection name : Bytes) : Option ConfigItem :=
  ConfigItem.all.find? fun i => inSection = i.inSection ∧ name = i.name

/-- What the branches write to the log besides errors. -/
def ConfigItem.notes (val : Bytes) : ConfigItem → List Bytes
  | unixDomainSocket => [val]
  | _ => []

/-- `handler`: the context, and whether it returns 1. -/
def handler (env : ConfigEnv) (ctx : ConfigurationContext) (inSection name value : Bytes) :
    Exec (ConfigurationContext × Bool) :=
  match configItem inSection name with
  | some i => do
    let option ← dictGet ctx.options i.option
    let val := cStr (option.getD value)
    let (configs, err) := i.store env ctx.configs val
    pure ({ ctx with configs, log := ctx.log ++ i.notes val ++ err.toList }, err.isNone)
  | none =>
    let err := (ascii "Unknown item: \"" ++ name ++ ascii "\" in section: [" ++ inSection ++ ascii "]").take 1023
    pure ({ ctx with log := ctx.log ++ [err] }, false)

/-- `rr_config_load`. -/
def rrConfigLoad (env : ConfigEnv) (path : Bytes) (ctx : ConfigurationContext) :
    Exec (Status × ConfigurationContext) :=
  match env.contents path with
  | none => pure (.error, ctx)
  | some file => do
    let (ctx, error) ← iniParseStream (handler env) ctx file
    pure (if error = 0 then .ok else .error, ctx)

/-! ## The command line -/

/-- What `main` does with its arguments: `version` and `usage` end the process. -/
inductive Startup where
  | version
  | usage
  | load (configfile : Bytes) (options : DictT Bytes)

/-- `arg[0] == '-' && arg[1] == '-'`. -/
def isOptionName (arg : CString) : Bool := byteAt arg.1 0 = 45 ∧ byteAt arg.1 1 = 45

/-- The loop of `main` over the options: the `options` dict, or `none` for `usage`. -/
def optionLoop (option : Option Bytes) (options : DictT Bytes) : List CString → Exec (Option (DictT Bytes))
  | [] => pure (some options)
  | arg :: args =>
    if isOptionName arg then optionLoop (some (arg.1.drop 2)) options args
    else
      match option with
      | none => pure none
      | some name => do
        let (_, options, _) ← dictSet options name (some arg.1)
        optionLoop none options args

/-- `main` up to `rr_config_load`; `argv` starts behind the name of the program. -/
def parseArguments (env : ConfigEnv) (argv : List CString) : Exec Startup :=
  let options : DictT Bytes := dictSetFreecb dictCreate
  let started (configfile : Bytes) (args : List CString) : Exec Startup := do
    let loaded ← optionLoop none options args
    pure (loaded.elim .usage (.load configfile))
  match argv with
  | [] => pure (.load (ascii "rhino-rox.ini") options)
  | arg :: args =>
    if arg.1 = ascii "-v" ∨ arg.1 = ascii "--version" then pure .version
    else if arg.1 = ascii "--help" ∨ arg.1 = ascii "-h" then pure .usage
    else if isOptionName arg then started (ascii "rhino-rox.ini") (arg :: args)
    else started (env.getAbsolutePath arg.1) args

end RhinoRox
