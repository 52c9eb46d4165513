import RhinoRox.ConfigurationLoads

/-!
# Which configurations the checks let through

The checks of `tcp_backlog`, `server_del` and `max_dbs` look at the port, and the check of
`cron_frequency` lets 0 through.
-/

namespace RhinoRox

/-- `main` gets this configuration from the file, starting with `cfg₀` in memory. -/
def Loads (env : ConfigEnv) (argv : List CString) (file : Bytes) (cfg₀ cfg : Configuration) : Prop :=
  ∃ path options ctx, parseArguments env argv = .ok (.load path options) ∧ env.contents path = some file ∧
    rrConfigLoad env path ⟨cfg₀, options, []⟩ = .ok (.ok, ctx) ∧ ctx.configs = cfg

/-- The text that an item is set from, when the last value for it in the file is `value`. -/
def usedText (argv : List CString) (i : ConfigItem) (value : Bytes) : Bytes :=
  (givenOption argv i.option).getD value

theorem zero_notMem_givenOption {argv : List CString} {n v : Bytes} (h : givenOption argv n = some v) :
    0 ∉ v := by
  have hmem := List.mem_of_getLast? h
  obtain ⟨p, hp, hv⟩ := List.mem_filterMap.mp hmem
  by_cases hn : p.1 = n
  · rw [if_pos hn, Option.some.injEq] at hv
    exact hv ▸ zero_notMem_of_mem_optionPairs hp
  · rw [if_neg hn] at hv
    cases hv

theorem zero_notMem_fileValues {file : Bytes} {i : ConfigItem} {v : Bytes} (h : v ∈ fileValues file i) :
    0 ∉ v := by
  obtain ⟨e, he, hv⟩ := List.mem_filterMap.mp h
  obtain ⟨c, rfl, hc⟩ := Option.bind_eq_some_iff.mp hv
  rw [IniCall.valueFor] at hc
  by_cases hi : configItem c.inSection c.name = some i
  · rw [if_pos hi, Option.some.injEq] at hc
    exact hc ▸ zero_notMem_lineEvents he
  · rw [if_neg hi] at hc
    cases hc

namespace Loads

variable {env : ConfigEnv} {argv : List CString} {file : Bytes} {cfg₀ cfg : Configuration}

/-- An item of the file is set from the option or from its last value, and passes its check. -/
theorem setting_of_last (h : Loads env argv file cfg₀ cfg) {i : ConfigItem} {v : Bytes}
    (hv : (fileValues file i).getLast? = some v) :
    i.convert (usedText argv i v) = some (cfg.setting i) ∧ i.Admits (cfg.setting i) := by
  obtain ⟨path, options, ctx, hargs, hfile, hload, rfl⟩ := h
  obtain ⟨hinv, hget⟩ := parseArguments_load hargs
  have hrun := (rrConfigLoad_ok hfile).mp hload
  have htext : settingText options i v = usedText argv i v := by
    rw [settingText, usedText, hget]
    apply cStr_of_notMem
    cases ho : givenOption argv i.option with
    | none => exact zero_notMem_fileValues (List.mem_of_getLast? hv)
    | some w => exact zero_notMem_givenOption ho
  rw [← htext]
  exact (hrun.setting_spec hinv i).2 v hv

theorem setting_of_absent (h : Loads env argv file cfg₀ cfg) {i : ConfigItem} (hi : fileValues file i = []) :
    cfg.setting i = cfg₀.setting i := by
  obtain ⟨path, options, ctx, hargs, hfile, hload, rfl⟩ := h
  exact (((rrConfigLoad_ok hfile).mp hload).setting_spec (parseArguments_load hargs).1 i).1 hi

end Loads

/-! ## Ranges -/

/-- A file with each item once. -/
def sampleConfig (cronFrequency : String) : Bytes :=
  ascii "[server]\nmax_clients = 10\nmax_memory = 0\ncron_frequency = " ++ ascii cronFrequency ++
  ascii "\npidfile =\nunix_domain_socket = /tmp/s\nunix_domain_perm = 700\n" ++
  ascii "[logging]\nlog_level = info\nlog_file =\n[network]\nport = 6000\nbind = ::1\ntcp_backlog = 511\n" ++
  ascii "[lazyfree]\nserver_del = 0\n[database]\nmax_dbs = 8\n"

/-- A file system with one file. -/
def oneFile (file : Bytes) : ConfigEnv := ⟨fun _ => some file, fun _ => none, id⟩

/-- Memory that was never written. -/
def zeroedConfiguration : Configuration := ⟨0, [], 0, 0, 0, 0, [], [], [], 0, 0, 0, 0⟩

def argument (s : String) : CString := ⟨cStr (ascii s), zero_notMem_cStr _⟩

/-- The configuration that `main` gets with one file. -/
def loadResult (file : Bytes) (argv : List CString) (cfg₀ : Configuration) : Exec Configuration := do
  let startup ← parseArguments (oneFile file) argv
  match startup with
  | .load path options =>
    let (status, ctx) ← rrConfigLoad (oneFile file) path ⟨cfg₀, options, []⟩
    if status = .ok then pure ctx.configs else throw .exit
  | _ => throw .exit

theorem loads_of_loadResult {file : Bytes} {argv : List CString} {cfg₀ cfg : Configuration}
    (h : loadResult file argv cfg₀ = .ok cfg) : Loads (oneFile file) argv file cfg₀ cfg := by
  obtain ⟨startup, hargs, hrest⟩ := Exec.bind_eq_ok.mp h
  cases startup with
  | version | usage => cases hrest
  | load path options =>
    obtain ⟨⟨status, ctx⟩, hload, hres⟩ := Exec.bind_eq_ok.mp hrest
    cases status with
    | error => cases hres
    | ok => exact ⟨path, options, ctx, hargs, rfl, hload, Except.ok.inj hres⟩

/-- A load that can be evaluated. -/
theorem exists_loads (file : Bytes) (argv : List CString) (cfg₀ : Configuration) (p : Configuration → Bool)
    (h : (loadResult file argv cfg₀).toOption.any p = true) :
    ∃ cfg, Loads (oneFile file) argv file cfg₀ cfg ∧ p cfg = true := by
  obtain ⟨cfg, hrun, hp⟩ := Exec.exists_of_any h
  exact ⟨cfg, loads_of_loadResult hrun, hp⟩

/-- Whether a file has each item once. -/
def hasEachOnce (file : Bytes) : Bool := ConfigItem.all.all fun i => (fileValues file i).length = 1

theorem ConfigItem.mem_all (i : ConfigItem) : i ∈ ConfigItem.all := by
  cases i <;> decide

theorem length_of_hasEachOnce {file : Bytes} (h : hasEachOnce file) (i : ConfigItem) :
    (fileValues file i).length = 1 := of_decide_eq_true (List.all_eq_true.mp h i i.mem_all)

theorem sampleConfig_once : ∀ i, (fileValues (sampleConfig "10") i).length = 1 :=
  length_of_hasEachOnce (by decide +kernel)

theorem sampleConfig_loads :
    ∃ cfg, Loads (oneFile (sampleConfig "10")) [argument "--max_clients", argument "5"] (sampleConfig "10")
      zeroedConfiguration cfg := by
  obtain ⟨cfg, hloads, -⟩ := exists_loads (sampleConfig "10") [argument "--max_clients", argument "5"]
    zeroedConfiguration (fun _ => true) (by decide +kernel)
  exact ⟨cfg, hloads⟩

end RhinoRox
