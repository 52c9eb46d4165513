import RhinoRox.Configuration
import RhinoRox.DictInvariant

/-!
# What a loaded configuration holds

A setting is a number or a text. An accepted load leaves in each setting what the conversion makes
of one text: the last value that the file has for the item, or the option that replaces it. A
setting that the file leaves out keeps what was in memory.
-/

namespace RhinoRox

/-- The value of a setting. -/
inductive Setting where
  | number (n : ℤ)
  | text (s : Bytes)
  deriving DecidableEq

/-- The configuration, by item. -/
def Configuration.setting (cfg : Configuration) : ConfigItem → Setting
  | .maxClients => .number cfg.maxClients
  | .cronFrequency => .number cfg.cronFrequency
  | .maxMemory => .number cfg.maxMemory
  | .pidfile => .text cfg.pidfile
  | .unixDomainSocket => .text cfg.unixDomainSock
  | .unixDomainPerm => .number cfg.unixSockPerm
  | .logLevel => .number cfg.logLevel
  | .logFile => .text cfg.logFile
  | .port => .number cfg.port
  | .bind => .text cfg.bind
  | .tcpBacklog => .number cfg.tcpBacklog
  | .serverDel => .number cfg.lazyfreeServerDel
  | .maxDbs => .number cfg.maxDbs

theorem errorIf_eq_none {failed : Prop} [Decidable failed] {text : Bytes} :
    errorIf failed text = none ↔ ¬ failed := by
  simp [errorIf]

namespace ConfigItem

/-- What a text means for an item. -/
def convert (val : Bytes) : ConfigItem → Option Setting
  | maxClients | cronFrequency | port | tcpBacklog | serverDel | maxDbs => some (.number (atoi val))
  | maxMemory => some (.number (memtoll val).1)
  | unixDomainPerm => some (.number ((strtolOctal val).1 % 2 ^ 32).toNat)
  | logLevel => (cfgEnumGetValue logLevelEnum val).map .number
  | pidfile | unixDomainSocket | logFile | bind => some (.text val)

/-- The settings that pass a check of their own. -/
def Admits : ConfigItem → Setting → Prop
  | maxClients, .number n | maxMemory, .number n => 0 ≤ n
  | cronFrequency, .number n => 0 ≤ n ∧ n ≤ 1000
  | unixDomainPerm, .number n => n ≤ 0o777
  | port, .number n => 0 ≤ n ∧ n ≤ 65535
  | _, _ => True

/-- An accepted branch stores what the text means, and changes nothing else. -/
theorem store_spec {env : ConfigEnv} {cfg cfg' : Configuration} {val : Bytes} {i : ConfigItem}
    (h : i.store env cfg val = (cfg', none)) :
    i.convert val = some (cfg'.setting i) ∧ i.Admits (cfg'.setting i) ∧
      ∀ j ≠ i, cfg'.setting j = cfg.setting j := by
  obtain ⟨hcfg, herr⟩ := Prod.mk.inj h
  cases i with
  | logLevel =>
    cases hl : cfgEnumGetValue logLevelEnum val with
    | none => simp [store, hl] at h
    | some level =>
      simp only [store, hl, Prod.mk.injEq] at h
      obtain rfl := h.1
      refine ⟨by simp [convert, hl, Configuration.setting], trivial, fun j hj => ?_⟩
      cases j <;> first | rfl | exact absurd rfl hj
  | maxClients | cronFrequency | maxMemory | unixDomainPerm | port =>
    simp only at hcfg herr
    subst hcfg
    rw [errorIf_eq_none] at herr
    refine ⟨rfl, ?_, fun j hj => ?_⟩
    · simp only [Admits, Configuration.setting, serverCronMaxFrequency] at herr ⊢
      omega
    · cases j <;> first | rfl | exact absurd rfl hj
  | _ =>
    simp only at hcfg
    subst hcfg
    refine ⟨rfl, trivial, fun j hj => ?_⟩
    cases j <;> first | rfl | exact absurd rfl hj

/-- Of the configuration before, the checks only see whether the port is negative. -/
theorem store_accepted {env : ConfigEnv} {cfg cfg' c : Configuration} {val : Bytes} {i : ConfigItem}
    (h : i.store env cfg val = (cfg', none)) (hc : 0 ≤ c.port) :
    ∃ c', i.store env c val = (c', none) ∧ 0 ≤ c'.port := by
  obtain ⟨hcfg, herr⟩ := Prod.mk.inj h
  cases i with
  | logLevel =>
    cases hl : cfgEnumGetValue logLevelEnum val with
    | none => simp [store, hl] at h
    | some level =>
      simp only [store, hl, Prod.mk.injEq, errorIf_eq_none] at h
      refine ⟨{ c with logLevel := level }, ?_, hc⟩
      simp only [store, hl, Prod.mk.injEq, true_and]
      exact errorIf_eq_none.mpr h.2
  | port =>
    simp only at herr
    refine ⟨{ c with port := atoi val }, Prod.ext rfl herr, ?_⟩
    rw [errorIf_eq_none] at herr
    simp only
    omega
  | tcpBacklog => exact ⟨_, Prod.ext rfl (errorIf_eq_none.mpr (not_lt.mpr hc)), hc⟩
  | serverDel => exact ⟨_, Prod.ext rfl (errorIf_eq_none.mpr (not_lt.mpr hc)), hc⟩
  | maxDbs => exact ⟨_, Prod.ext rfl (errorIf_eq_none.mpr (not_lt.mpr hc)), hc⟩
  | _ => exact ⟨_, Prod.ext rfl herr, hc⟩

theorem cStr_option (i : ConfigItem) : cStr i.option = i.option := by
  cases i <;> decide

end ConfigItem

/-! ## Accepted loads -/

/-- The value that a line has for an item. -/
def IniCall.valueFor (i : ConfigItem) (c : IniCall) : Option Bytes :=
  if configItem c.inSection c.name = some i then some c.value else none

/-- The values in events of a file for an item, in order. -/
def eventValues (events : List (Option IniCall)) (i : ConfigItem) : List Bytes :=
  events.filterMap fun e => e.bind (IniCall.valueFor i)

/-- The values that a file has for an item, in order. -/
def fileValues (file : Bytes) (i : ConfigItem) : List Bytes := eventValues (iniEvents file) i

/-- The text that the branch of an item converts: the option, or the value in the file. -/
def settingText (options : DictT Bytes) (i : ConfigItem) (value : Bytes) : Bytes :=
  cStr ((options.toMap.lookup i.option).getD value)

theorem handler_accepts {env : ConfigEnv} {ctx ctx' : ConfigurationContext} {c : IniCall}
    (hopts : ctx.options.Inv) :
    handler env ctx c.inSection c.name c.value = .ok (ctx', true) ↔
      ∃ i cfg, configItem c.inSection c.name = some i ∧
        i.store env ctx.configs (settingText ctx.options i c.value) = (cfg, none) ∧
        ctx' = ⟨cfg, ctx.options, ctx.log ++ i.notes (settingText ctx.options i c.value)⟩ := by
  rw [handler]
  cases hi : configItem c.inSection c.name with
  | none => simp
  | some i =>
    have hget : dictGet ctx.options i.option = .ok (ctx.options.toMap.lookup i.option) := by
      rw [dictGet_spec hopts, i.cStr_option]
    simp only [hget, Exec.ok_bind, Exec.pure_eq, Except.ok.injEq,
      Prod.mk.injEq, Option.isNone_iff_eq_none, Option.some.injEq]
    constructor
    · intro h
      refine ⟨i, _, rfl, Prod.ext rfl h.2, ?_⟩
      rw [← h.1, h.2]
      simp [settingText]
    · intro h
      obtain ⟨_, cfg, rfl, hs, rfl⟩ := h
      rw [settingText] at hs
      rw [hs]
      simp [settingText]

theorem eventValues_cons (c : IniCall) (events : List (Option IniCall)) {i j : ConfigItem}
    (hj : configItem c.inSection c.name = some j) :
    eventValues (some c :: events) i = if j = i then c.value :: eventValues events i else eventValues events i := by
  rw [eventValues, List.filterMap_cons]
  by_cases hji : j = i <;> simp [IniCall.valueFor, hj, hji, eventValues]

/-- An accepted run leaves in a setting what the last text for it means, or what was there before. -/
theorem IniAccepts.setting_spec {env : ConfigEnv} {ctx ctx' : ConfigurationContext}
    {events : List (Option IniCall)} (h : IniAccepts (handler env) ctx events ctx') (hopts : ctx.options.Inv)
    (i : ConfigItem) :
    (eventValues events i = [] → ctx'.configs.setting i = ctx.configs.setting i) ∧
    ∀ v, (eventValues events i).getLast? = some v →
      i.convert (settingText ctx.options i v) = some (ctx'.configs.setting i) ∧
        i.Admits (ctx'.configs.setting i) := by
  induction h with
  | nil u => simp [eventValues]
  | @cons u v w c events hc hr ih =>
    obtain ⟨j, cfg, hj, hs, rfl⟩ := (handler_accepts hopts).mp hc
    obtain ⟨hkept, hlast⟩ := ih hopts
    obtain ⟨hconv, hadm, hframe⟩ := ConfigItem.store_spec hs
    rw [eventValues_cons c events hj]
    by_cases hji : j = i
    · subst hji
      rw [if_pos rfl]
      refine ⟨fun he => absurd he (List.cons_ne_nil _ _), fun v hv => ?_⟩
      rw [List.getLast?_cons] at hv
      cases hl : (eventValues events j).getLast? with
      | some x =>
        rw [hl, Option.getD_some] at hv
        exact hlast v (hl.trans hv)
      | none =>
        rw [hl, Option.getD_none, Option.some.injEq] at hv
        subst hv
        rw [hkept (List.getLast?_eq_none_iff.mp hl)]
        exact ⟨hconv, hadm⟩
    · rw [if_neg hji]
      exact ⟨fun he => (hkept he).trans (hframe i (Ne.symm hji)), hlast⟩

/-- A file that is accepted once is accepted from any memory in which the port is not negative. -/
theorem IniAccepts.from_memory {env : ConfigEnv} {ctx ctx' c : ConfigurationContext}
    {events : List (Option IniCall)} (h : IniAccepts (handler env) ctx events ctx') (hopts : ctx.options.Inv)
    (hc : c.options = ctx.options) (hport : 0 ≤ c.configs.port) :
    ∃ c', IniAccepts (handler env) c events c' := by
  induction h generalizing c with
  | nil u => exact ⟨c, .nil c⟩
  | @cons u v w call events hcall hr ih =>
    obtain ⟨i, cfg, hi, hs, rfl⟩ := (handler_accepts hopts).mp hcall
    obtain ⟨cfg', hs', hport'⟩ := ConfigItem.store_accepted hs hport
    rw [← hc] at hs'
    have hstep := (handler_accepts (hc ▸ hopts)).mpr ⟨i, cfg', hi, hs', rfl⟩
    obtain ⟨c', hrest⟩ := ih (c := ⟨cfg', c.options, _⟩) hopts hc hport'
    exact ⟨c', .cons hstep hrest⟩

theorem rrConfigLoad_ok {env : ConfigEnv} {path file : Bytes} {ctx ctx' : ConfigurationContext}
    (hfile : env.contents path = some file) :
    rrConfigLoad env path ctx = .ok (.ok, ctx') ↔ IniAccepts (handler env) ctx (iniEvents file) ctx' := by
  rw [← iniParseStream_eq_zero, rrConfigLoad, hfile]
  simp only
  rw [Exec.bind_eq_ok]
  constructor
  · intro h
    obtain ⟨⟨c, error⟩, hparse, hres⟩ := h
    obtain ⟨hstatus, rfl⟩ := Prod.mk.inj (Except.ok.inj hres)
    have hzero : error = 0 := by
      by_contra hne
      rw [if_neg hne] at hstatus
      cases hstatus
    rw [hparse, hzero]
  · intro h
    exact ⟨(ctx', 0), h, rfl⟩

/-! ## Options on the command line -/

/-- The option names of a command line with the values that directly follow them. -/
def optionPairs : List CString → List (Bytes × Bytes)
  | [] => []
  | [_] => []
  | a :: b :: args =>
    if isOptionName a ∧ ¬ isOptionName b then (a.1.drop 2, b.1) :: optionPairs (b :: args)
    else optionPairs (b :: args)

/-- The value that a command line gives to an option: the last one counts. -/
def givenOption (argv : List CString) (n : Bytes) : Option Bytes :=
  ((optionPairs argv).filterMap fun p => if p.1 = n then some p.2 else none).getLast?

theorem optionPairs_of_not {a : CString} (h : ¬ isOptionName a) (args : List CString) :
    optionPairs (a :: args) = optionPairs args := by
  cases args with
  | nil => rfl
  | cons b args => rw [optionPairs, if_neg (fun hab => h hab.1)]

theorem givenOption_of_not {a : CString} (h : ¬ isOptionName a) (args : List CString) (n : Bytes) :
    givenOption (a :: args) n = givenOption args n := by
  rw [givenOption, optionPairs_of_not h, givenOption]

theorem givenOption_pair {a b : CString} (ha : isOptionName a) (hb : ¬ isOptionName b) (args : List CString)
    (n : Bytes) :
    givenOption (a :: b :: args) n =
      (givenOption args n).or (if a.1.drop 2 = n then some b.1 else none) := by
  rw [givenOption, optionPairs, if_pos ⟨ha, hb⟩, optionPairs_of_not hb, List.filterMap_cons]
  by_cases hn : a.1.drop 2 = n
  · simp only [hn, if_true, List.getLast?_cons, givenOption]
    cases ((optionPairs args).filterMap fun p => if p.1 = n then some p.2 else none).getLast? <;> rfl
  · simp [hn, givenOption]

theorem zero_notMem_of_mem_optionPairs {argv : List CString} {p : Bytes × Bytes} (h : p ∈ optionPairs argv) :
    0 ∉ p.2 := by
  fun_induction optionPairs argv with
  | case1 => cases h
  | case2 a => cases h
  | case3 a b args hab ih =>
    cases h with
    | head => exact b.2
    | tail _ hmem => exact ih hmem
  | case4 a b args hab ih => exact ih h

theorem optionLoop_name {x : CString} (hx : isOptionName x) (option : Option Bytes) (d : DictT Bytes)
    (args : List CString) :
    optionLoop option d (x :: args) = optionLoop (some (x.1.drop 2)) d args := by
  cases option <;> rw [optionLoop, if_pos hx]

/-- The options dict holds the last value of each option. -/
theorem optionLoop_spec {d d' : DictT Bytes} (hd : d.Inv) (args : List CString) (prev : Option CString)
    (hprev : ∀ a ∈ prev, isOptionName a)
    (h : optionLoop (prev.map fun a => a.1.drop 2) d args = .ok (some d')) :
    d'.Inv ∧ ∀ n, d'.toMap.lookup n = (givenOption (prev.toList ++ args) n).or (d.toMap.lookup n) := by
  induction args generalizing d prev with
  | nil =>
    obtain rfl := Option.some.inj (Except.ok.inj h)
    refine ⟨hd, fun n => ?_⟩
    cases prev <;> rfl
  | cons x args ih =>
    by_cases hx : isOptionName x
    · rw [optionLoop_name hx] at h
      obtain ⟨hinv, hget⟩ := ih hd (some x) (by simpa using hx) h
      refine ⟨hinv, fun n => ?_⟩
      rw [hget n]
      cases prev with
      | none => rfl
      | some a =>
        -- the name that was pending has no value
        rw [Option.toList_some, Option.toList_some, List.singleton_append, List.singleton_append,
          givenOption, givenOption, optionPairs, if_neg (fun hab => hab.2 hx)]
    · cases prev with
      | none =>
        rw [Option.map_none, optionLoop, if_neg hx] at h
        cases h
      | some a =>
        rw [Option.map_some, optionLoop, if_neg hx] at h
        have ha : isOptionName a := hprev a rfl
        have hname : cStr (a.1.drop 2) = a.1.drop 2 :=
          cStr_of_notMem fun hmem => a.2 (List.mem_of_mem_drop hmem)
        obtain ⟨d₁, freed, hset, hinv₁, hmap, -, -⟩ := dictSet_spec hd (a.1.drop 2) x.1
        simp only [hset, Exec.ok_bind] at h
        obtain ⟨hinv, hget⟩ := ih hinv₁ none (by simp) h
        refine ⟨hinv, fun n => ?_⟩
        rw [hget n, hmap, hname, Option.toList_none, List.nil_append, Option.toList_some,
          List.singleton_append, givenOption_pair ha hx]
        by_cases hn : a.1.drop 2 = n
        · subst hn
          simp [Finmap.lookup_insert]
        · rw [Finmap.lookup_insert_of_ne _ (Ne.symm hn), if_neg hn, Option.or_none]

theorem parseArguments_load {env : ConfigEnv} {argv : List CString} {path : Bytes} {options : DictT Bytes}
    (h : parseArguments env argv = .ok (.load path options)) :
    options.Inv ∧ ∀ n, options.toMap.lookup n = givenOption argv n := by
  have hnew : (dictSetFreecb dictCreate : DictT Bytes).Inv := dictSetFreecb_inv dictCreate_inv
  have hloop : ∀ {configfile : Bytes} {args : List CString},
      (do let loaded ← optionLoop none (dictSetFreecb dictCreate) args
          pure (loaded.elim Startup.usage (Startup.load configfile)) : Exec Startup) = .ok (.load path options) →
      options.Inv ∧ ∀ n, options.toMap.lookup n = givenOption args n := by
    intro configfile args hl
    obtain ⟨loaded, hrun, hres⟩ := Exec.bind_eq_ok.mp hl
    cases loaded with
    | none => cases hres
    | some d =>
      cases hres
      obtain ⟨hinv, hget⟩ := optionLoop_spec hnew args none (by simp) hrun
      exact ⟨hinv, fun n => by simpa using hget n⟩
  cases argv with
  | nil =>
    cases h
    exact ⟨hnew, fun n => rfl⟩
  | cons arg args =>
    rw [parseArguments] at h
    by_cases hversion : arg.1 = ascii "-v" ∨ arg.1 = ascii "--version"
    · rw [if_pos hversion] at h
      cases h
    rw [if_neg hversion] at h
    by_cases hhelp : arg.1 = ascii "--help" ∨ arg.1 = ascii "-h"
    · rw [if_pos hhelp] at h
      cases h
    rw [if_neg hhelp] at h
    by_cases hname : isOptionName arg
    · rw [if_pos hname] at h
      exact hloop h
    · rw [if_neg hname] at h
      obtain ⟨hinv, hget⟩ := hloop h
      exact ⟨hinv, fun n => (hget n).trans (givenOption_of_not hname args n).symm⟩

end RhinoRox
