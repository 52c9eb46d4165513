import RhinoRox.ConfigurationChecks

/-!
# Options on the command line and the items they set

The handler asks for an option when it sees the item in the file, so an option for an item that
the file leaves out has no effect. The permissions of the socket are looked up under another name
than the item has.
-/

namespace RhinoRox

/-- Every item has the value of its option, and without an option the last value in the file. -/
def ObeysOptions (argv : List CString) (file : Bytes) (cfg : Configuration) : Prop :=
  ∀ i : ConfigItem,
    (∀ v, givenOption argv i.name = some v → i.convert v = some (cfg.setting i)) ∧
    (givenOption argv i.name = none →
      ∀ v, (fileValues file i).getLast? = some v → i.convert v = some (cfg.setting i))

/-- The items that are given as options are in the file, and the permissions that are looked up
are those that are wanted. -/
structure OptionsInFile (argv : List CString) (file : Bytes) : Prop where
  present : ∀ i : ConfigItem, (givenOption argv i.name).isSome → fileValues file i ≠ []
  perm : ∀ v, (fileValues file .unixDomainPerm).getLast? = some v →
    ConfigItem.unixDomainPerm.convert ((givenOption argv (ascii "unix_sock_perm")).getD v) =
      ConfigItem.unixDomainPerm.convert ((givenOption argv (ascii "unix_domain_perm")).getD v)

theorem ConfigItem.option_eq_name {i : ConfigItem} (h : i ≠ .unixDomainPerm) : i.option = i.name := by
  cases i with
  | unixDomainPerm => exact absurd rfl h
  | _ => rfl

/-- The text that is used means the same as the text that is wanted. -/
theorem OptionsInFile.convert_wanted {argv : List CString} {file : Bytes} (hin : OptionsInFile argv file)
    {i : ConfigItem} {v : Bytes} (hv : (fileValues file i).getLast? = some v) :
    i.convert (usedText argv i v) = i.convert ((givenOption argv i.name).getD v) := by
  by_cases hi : i = .unixDomainPerm
  · subst hi
    exact hin.perm v hv
  · rw [usedText, ConfigItem.option_eq_name hi]

/-- Memory may hold something else than any given setting. -/
theorem exists_other_memory (i : ConfigItem) (s : Option Setting) :
    ∃ c : Configuration, 0 ≤ c.port ∧ s ≠ some (c.setting i) := by
  let ones : Configuration := ⟨1, [1], 1, 1, 1, 1, [1], [1], [1], 1, 1, 1, 1⟩
  have hne : zeroedConfiguration.setting i ≠ ones.setting i := by
    cases i <;> decide
  by_cases h : s = some (zeroedConfiguration.setting i)
  · refine ⟨ones, by decide, fun hs => hne ?_⟩
    exact Option.some.inj (h.symm.trans hs)
  · exact ⟨zeroedConfiguration, le_rfl, h⟩

namespace Loads

variable {env : ConfigEnv} {argv : List CString} {file : Bytes} {cfg₀ cfg : Configuration}

theorem from_memory (h : Loads env argv file cfg₀ cfg) {c : Configuration} (hc : 0 ≤ c.port) :
    ∃ cfg', Loads env argv file c cfg' := by
  obtain ⟨path, options, ctx, hargs, hfile, hload, -⟩ := h
  have hrun := (rrConfigLoad_ok hfile).mp hload
  obtain ⟨ctx', hrun'⟩ := hrun.from_memory (c := ⟨c, options, []⟩) (parseArguments_load hargs).1 rfl hc
  exact ⟨ctx'.configs, path, options, ctx', hargs, hfile, (rrConfigLoad_ok hfile).mpr hrun', rfl⟩

theorem obeysOptions (h : Loads env argv file cfg₀ cfg) (hin : OptionsInFile argv file) :
    ObeysOptions argv file cfg := by
  intro i
  refine ⟨fun v hv => ?_, fun hnone v hv => ?_⟩
  · have hne : fileValues file i ≠ [] := hin.present i (by rw [hv]; rfl)
    obtain ⟨u, hu⟩ := Option.ne_none_iff_exists'.mp (mt List.getLast?_eq_none_iff.mp hne)
    have hset := (h.setting_of_last hu).1
    rwa [hin.convert_wanted hu, hv] at hset
  · have hset := (h.setting_of_last hv).1
    rwa [hin.convert_wanted hv, hnone] at hset

end Loads

/-- Whatever is in memory, an accepted load obeys the options exactly when the file has the items
that they are for and the two names of the permissions agree. -/
theorem options_obeyed_iff {env : ConfigEnv} {argv : List CString} {file : Bytes}
    (haccepted : ∃ cfg₀ cfg, Loads env argv file cfg₀ cfg) :
    (∀ cfg₀ cfg, Loads env argv file cfg₀ cfg → ObeysOptions argv file cfg) ↔ OptionsInFile argv file := by
  obtain ⟨cfg₀, cfg, hload⟩ := haccepted
  constructor
  · intro hobeys
    refine ⟨fun i hgiven habsent => ?_, fun v hv => ?_⟩
    · -- the setting keeps what is in memory, and that may be anything
      obtain ⟨v, hv⟩ := Option.isSome_iff_exists.mp hgiven
      obtain ⟨c, hport, hother⟩ := exists_other_memory i (i.convert v)
      obtain ⟨cfg', hload'⟩ := hload.from_memory hport
      have hset := (hobeys c cfg' hload' i).1 v hv
      rw [hload'.setting_of_absent habsent] at hset
      exact hother hset
    · obtain ⟨hset, -⟩ := hload.setting_of_last hv
      obtain ⟨hoption, hfile⟩ := hobeys cfg₀ cfg hload .unixDomainPerm
      apply hset.trans
      cases ho : givenOption argv (ascii "unix_domain_perm") with
      | none => exact (hfile ho v hv).symm
      | some w => exact (hoption w ho).symm
  · intro hin c cfg' hload'
    exact hload'.obeysOptions hin

theorem options_obeyed_iff_max_clients :
    ∃ cfg, Loads (oneFile (sampleConfig "10")) [argument "--max_clients", argument "5"] (sampleConfig "10")
      zeroedConfiguration cfg ∧ ObeysOptions [argument "--max_clients", argument "5"] (sampleConfig "10") cfg := by
  have hin : OptionsInFile [argument "--max_clients", argument "5"] (sampleConfig "10") := by
    refine ⟨fun i _ habsent => ?_, fun v _ => rfl⟩
    have hone := sampleConfig_once i
    rw [habsent] at hone
    cases hone
  obtain ⟨cfg, hloads⟩ := sampleConfig_loads
  exact ⟨cfg, hloads, (options_obeyed_iff ⟨_, _, hloads⟩).mpr hin _ _ hloads⟩

/-- The option for the permissions is not looked at, and neither is one for an item that the file
leaves out. -/
theorem options_not_obeyed :
    (∃ cfg, Loads (oneFile (ascii "[server]\nunix_domain_perm = 700\n"))
        [argument "--unix_domain_perm", argument "777"] (ascii "[server]\nunix_domain_perm = 700\n")
        zeroedConfiguration cfg ∧
      cfg.unixSockPerm = 0o700 ∧
      ¬ ObeysOptions [argument "--unix_domain_perm", argument "777"] (ascii "[server]\nunix_domain_perm = 700\n")
        cfg) ∧
    ∃ cfg, Loads (oneFile (ascii "[network]\nport = 6000\n")) [argument "--max_clients", argument "5"]
        (ascii "[network]\nport = 6000\n") zeroedConfiguration cfg ∧
      cfg.maxClients = zeroedConfiguration.maxClients ∧
      ¬ ObeysOptions [argument "--max_clients", argument "5"] (ascii "[network]\nport = 6000\n") cfg := by
  constructor
  · obtain ⟨cfg, hloads, hperm⟩ := exists_loads (ascii "[server]\nunix_domain_perm = 700\n")
      [argument "--unix_domain_perm", argument "777"] zeroedConfiguration (fun cfg => cfg.unixSockPerm = 0o700)
      (by decide +kernel)
    have hset := of_decide_eq_true hperm
    refine ⟨cfg, hloads, hset, fun hobeys => ?_⟩
    have hwanted := (hobeys .unixDomainPerm).1 (ascii "777") (by decide +kernel)
    rw [Configuration.setting, hset] at hwanted
    revert hwanted
    decide +kernel
  · obtain ⟨cfg, hloads, hclients⟩ := exists_loads (ascii "[network]\nport = 6000\n")
      [argument "--max_clients", argument "5"] zeroedConfiguration
      (fun cfg => cfg.maxClients = zeroedConfiguration.maxClients) (by decide +kernel)
    have hset := of_decide_eq_true hclients
    refine ⟨cfg, hloads, hset, fun hobeys => ?_⟩
    have hwanted := (hobeys .maxClients).1 (ascii "5") (by decide +kernel)
    rw [Configuration.setting, hset] at hwanted
    revert hwanted
    decide +kernel

end RhinoRox
