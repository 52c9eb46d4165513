import RhinoRox.EventTable

/-!
# The descriptor limit and the number of clients

`rr_server_adjust_max_clients` asks for a higher descriptor limit in steps of 16 and fits the
number of clients to the limit it got. When neither the old limit nor any limit that it obtains
reaches the reserved descriptors, the subtraction wraps around.
-/

namespace RhinoRox

/-- The descriptor limit after the calls of `setrlimit` in the loop that starts at `bestlimit`. -/
def limitAfterProbes (setrlimit : ℕ → Bool) (oldlimit bestlimit : ℕ) : ℕ :=
  if bestlimit > oldlimit then
    if setrlimit bestlimit then bestlimit
    else if bestlimit < 16 then oldlimit
    else limitAfterProbes setrlimit oldlimit (bestlimit - 16)
  else oldlimit
termination_by bestlimit

/-- The descriptor limit in force when `rr_server_adjust_max_clients` returns. -/
def limitInForce (setrlimit : ℕ → Bool) (oldlimit maxClients : ℕ) : ℕ :=
  let maxfiles := (maxClients + serverReservedFds) % 2 ^ 32
  if oldlimit < maxfiles then limitAfterProbes setrlimit oldlimit maxfiles else oldlimit

/-- The `k`-th limit that the loop tries is above the old one and granted. -/
def Granted (setrlimit : ℕ → Bool) (oldlimit maxfiles k : ℕ) : Prop :=
  16 * k ≤ maxfiles ∧ oldlimit < maxfiles - 16 * k ∧ setrlimit (maxfiles - 16 * k) = true

theorem granted_succ {setrlimit : ℕ → Bool} {oldlimit maxfiles k : ℕ} (h : 16 ≤ maxfiles) :
    Granted setrlimit oldlimit maxfiles (k + 1) ↔ Granted setrlimit oldlimit (maxfiles - 16) k := by
  have he : maxfiles - 16 * (k + 1) = maxfiles - 16 - 16 * k := by omega
  rw [Granted, Granted, he]
  constructor
  · intro hg
    exact ⟨by omega, hg.2⟩
  · intro hg
    exact ⟨by omega, hg.2⟩

/-- The loop ends at the first limit that is granted. If none is, the old limit stays and the loop
ends at or below it, or below 16. -/
theorem bestLimit_spec (setrlimit : ℕ → Bool) (oldlimit maxfiles : ℕ) :
    (∃ k, Granted setrlimit oldlimit maxfiles k ∧ (∀ j, Granted setrlimit oldlimit maxfiles j → k ≤ j) ∧
      bestLimit setrlimit oldlimit maxfiles = maxfiles - 16 * k ∧
      limitAfterProbes setrlimit oldlimit maxfiles = maxfiles - 16 * k) ∨
    (∀ k, ¬ Granted setrlimit oldlimit maxfiles k) ∧
      (bestLimit setrlimit oldlimit maxfiles ≤ oldlimit ∨ bestLimit setrlimit oldlimit maxfiles < 16) ∧
      bestLimit setrlimit oldlimit maxfiles ≤ maxfiles ∧
      limitAfterProbes setrlimit oldlimit maxfiles = oldlimit := by
  fun_induction bestLimit setrlimit oldlimit maxfiles with
  | case1 m hm hs =>
    rw [limitAfterProbes, if_pos hm, if_pos hs]
    exact Or.inl ⟨0, ⟨Nat.zero_le _, hm, hs⟩, fun j _ => Nat.zero_le j, rfl, rfl⟩
  | case2 m hm hs h16 =>
    rw [limitAfterProbes, if_pos hm, if_neg hs, if_pos h16]
    refine Or.inr ⟨fun k hg => ?_, Or.inr h16, le_rfl, rfl⟩
    obtain rfl : k = 0 := by
      have := hg.1
      omega
    exact hs hg.2.2
  | case3 m hm hs h16 ih =>
    rw [limitAfterProbes, if_pos hm, if_neg hs, if_neg h16]
    have h16' : 16 ≤ m := not_lt.mp h16
    have h0 : ¬ Granted setrlimit oldlimit m 0 := fun hg => hs hg.2.2
    rcases ih with ⟨k, hg, hmin, hb, hl⟩ | ⟨hnone, hb, hle, hl⟩
    · refine Or.inl ⟨k + 1, (granted_succ h16').mpr hg, fun j hj => ?_, by omega, by omega⟩
      cases j with
      | zero => exact absurd hj h0
      | succ j =>
        have := hmin j ((granted_succ h16').mp hj)
        omega
    · refine Or.inr ⟨fun k hg => ?_, hb, by omega, hl⟩
      cases k with
      | zero => exact h0 hg
      | succ k => exact hnone k ((granted_succ h16').mp hg)
  | case4 m hm =>
    rw [limitAfterProbes, if_neg hm]
    refine Or.inr ⟨fun k hg => ?_, Or.inl (not_lt.mp hm), le_rfl, rfl⟩
    have := hg.2.1
    omega

/-- What the number of clients must be when the function returns. -/
def LimitRespected (r : Exec ℕ) (maxClients limit : ℕ) : Prop :=
  r = .error .exit ∨ ∃ m, r = .ok m ∧ 1 ≤ m ∧ m ≤ maxClients ∧ m + serverReservedFds ≤ limit

/-- The part after the loop, with the limit `limit` in force. -/
theorem limitRespected_reduced {maxClients maxfiles bestlimit limit : ℕ} (hm : maxfiles ≤ maxClients + 32)
    (hb : bestlimit < maxfiles) (h32 : maxfiles < 2 ^ 32) (hl : limit ≤ bestlimit) :
    LimitRespected
        (if subSize bestlimit serverReservedFds % 2 ^ 32 < 1 then throw .exit
          else pure (subSize bestlimit serverReservedFds % 2 ^ 32)) maxClients limit ↔
      bestlimit = 32 ∨ 32 < bestlimit ∧ limit = bestlimit := by
  have hr : serverReservedFds = 32 := rfl
  rw [hr]
  by_cases h : 32 ≤ bestlimit
  · have hsub : subSize bestlimit 32 % 2 ^ 32 = bestlimit - 32 := by
      rw [subSize_of_le h (by omega)]
      omega
    rw [hsub]
    by_cases h1 : bestlimit - 32 < 1
    · rw [if_pos h1]
      exact ⟨fun _ => by omega, fun _ => Or.inl rfl⟩
    · rw [if_neg h1]
      constructor
      · rintro (he | ⟨m, he, -, -, hle⟩)
        · cases he
        · obtain rfl : bestlimit - 32 = m := Except.ok.inj he
          omega
      · intro he
        exact Or.inr ⟨_, rfl, by omega, by omega, by omega⟩
  · have hsub : subSize bestlimit 32 % 2 ^ 32 = 2 ^ 32 + bestlimit - 32 := by
      unfold subSize
      omega
    rw [hsub, if_neg (by omega)]
    constructor
    · rintro (he | ⟨m, he, -, -, hle⟩)
      · cases he
      · obtain rfl : 2 ^ 32 + bestlimit - 32 = m := Except.ok.inj he
        omega
    · intro he
      omega

theorem limitRespected_pure {maxClients limit : ℕ} (h1 : 1 ≤ maxClients) :
    LimitRespected (pure maxClients) maxClients limit ↔ maxClients + 32 ≤ limit := by
  constructor
  · rintro (he | ⟨m, he, -, -, hle⟩)
    · cases he
    · obtain rfl : maxClients = m := Except.ok.inj he
      exact hle
  · intro hle
    exact Or.inr ⟨_, rfl, h1, le_rfl, hle⟩

section Adjust
variable {maxClients oldlimit : ℕ} (setrlimit : ℕ → Bool)

/-- The sum does not wrap around: the clients fit the limit unless all limits are below 32. -/
theorem adjust_fits (h1 : 1 ≤ maxClients) (h32 : maxClients + 32 < 2 ^ 32) :
    LimitRespected (rrServerAdjustMaxClients (some oldlimit) setrlimit maxClients) maxClients
        (limitInForce setrlimit oldlimit maxClients) ↔
      32 ≤ oldlimit ∨ ∃ k, 16 * k ≤ maxClients ∧ setrlimit (maxClients + 32 - 16 * k) = true := by
  have hmod : (maxClients + serverReservedFds) % 2 ^ 32 = maxClients + 32 := Nat.mod_eq_of_lt h32
  -- a limit of at least 32 that the kernel grants is tried when the old one is below 32
  have hgrant : ¬ 32 ≤ oldlimit → ∀ k, 16 * k ≤ maxClients → setrlimit (maxClients + 32 - 16 * k) = true →
      Granted setrlimit oldlimit (maxClients + 32) k := fun hold k hk hs => ⟨by omega, by omega, hs⟩
  simp only [rrServerAdjustMaxClients, limitInForce, hmod]
  by_cases hold : oldlimit < maxClients + 32
  · rw [if_pos hold, if_pos hold]
    rcases bestLimit_spec setrlimit oldlimit (maxClients + 32) with
      ⟨k, hg, hmin, hb, hl⟩ | ⟨hnone, hb, hle, hl⟩
    · obtain ⟨hk, hgt, hs⟩ := hg
      rw [hb, hl, max_eq_left hgt.le]
      by_cases hk0 : k = 0
      · subst hk0
        rw [if_neg (by omega), limitRespected_pure h1]
        exact ⟨fun _ => Or.inr ⟨0, by omega, hs⟩, fun _ => by omega⟩
      · rw [if_pos (by omega), limitRespected_reduced le_rfl (by omega) h32 le_rfl]
        constructor
        · intro h
          exact Or.inr ⟨k, by omega, hs⟩
        · intro h
          by_cases ho : 32 ≤ oldlimit
          · omega
          · obtain ⟨j, hj, hsj⟩ := h.resolve_left ho
            have := hmin j (hgrant ho j hj hsj)
            omega
    · have hlt : max (bestLimit setrlimit oldlimit (maxClients + 32)) oldlimit < maxClients + 32 := by
        rcases hb with hb | hb <;> omega
      rw [hl, if_pos hlt, limitRespected_reduced le_rfl hlt h32 (le_max_right _ _)]
      constructor
      · intro h
        rcases hb with hb | hb
        · rw [max_eq_right hb] at h
          omega
        · omega
      · intro h
        have ho : 32 ≤ oldlimit := by
          by_contra ho
          obtain ⟨j, hj, hsj⟩ := h.resolve_left ho
          exact hnone j (hgrant ho j hj hsj)
        have hbo : bestLimit setrlimit oldlimit (maxClients + 32) ≤ oldlimit := by
          rcases hb with hb | hb <;> omega
        rw [max_eq_right hbo]
        omega
  · rw [if_neg hold, if_neg hold, limitRespected_pure h1]
    exact ⟨fun _ => Or.inl (by omega), fun _ => by omega⟩

/-- The sum wraps around, and the descriptors that are asked for are too few. -/
theorem adjust_wraps (h1 : 1 ≤ maxClients) (h : maxClients < 2 ^ 32) (h32 : 2 ^ 32 ≤ maxClients + 32) :
    LimitRespected (rrServerAdjustMaxClients (some oldlimit) setrlimit maxClients) maxClients
      (limitInForce setrlimit oldlimit maxClients) ↔ maxClients + 32 ≤ oldlimit := by
  have hr : serverReservedFds = 32 := rfl
  simp only [rrServerAdjustMaxClients, limitInForce]
  generalize hm : (maxClients + serverReservedFds) % 2 ^ 32 = maxfiles
  have hsmall : maxfiles < 32 := by omega
  by_cases hold : oldlimit < maxfiles
  · rw [if_pos hold, if_pos hold]
    have hbound : bestLimit setrlimit oldlimit maxfiles ≤ maxfiles ∧
        limitAfterProbes setrlimit oldlimit maxfiles ≤ max (bestLimit setrlimit oldlimit maxfiles) oldlimit := by
      rcases bestLimit_spec setrlimit oldlimit maxfiles with ⟨k, -, -, hb, hl⟩ | ⟨-, -, hle, hl⟩
      · exact ⟨by omega, by rw [hb, hl]; exact le_max_left _ _⟩
      · exact ⟨hle, by rw [hl]; exact le_max_right _ _⟩
    by_cases hlt : max (bestLimit setrlimit oldlimit maxfiles) oldlimit < maxfiles
    · rw [if_pos hlt, limitRespected_reduced (by omega) hlt (by omega) hbound.2]
      omega
    · rw [if_neg hlt, limitRespected_pure h1]
      omega
  · rw [if_neg hold, if_neg hold, limitRespected_pure h1]

/-- The number of clients ends up between one and the configured one, with room for the reserved
descriptors, exactly when the old limit or some limit that is tried and granted reaches 32. A
number so close to the largest that the sum wraps around needs an old limit that is large enough. -/
theorem adjust_max_clients_iff (h1 : 1 ≤ maxClients) (h : maxClients < 2 ^ 32) :
    LimitRespected (rrServerAdjustMaxClients (some oldlimit) setrlimit maxClients) maxClients
        (limitInForce setrlimit oldlimit maxClients) ↔
      if maxClients + 32 < 2 ^ 32 then
        32 ≤ oldlimit ∨ ∃ k, 16 * k ≤ maxClients ∧ setrlimit (maxClients + 32 - 16 * k) = true
      else maxClients + 32 ≤ oldlimit := by
  by_cases h32 : maxClients + 32 < 2 ^ 32
  · rw [if_pos h32, adjust_fits setrlimit h1 h32]
  · rw [if_neg h32, adjust_wraps setrlimit h1 h (not_lt.mp h32)]

end Adjust

theorem adjust_max_clients_iff_hundred :
    LimitRespected (rrServerAdjustMaxClients (some 1024) (fun _ => false) 100) 100
      (limitInForce (fun _ => false) 1024 100) :=
  (adjust_max_clients_iff (fun _ => false) (by decide) (by decide)).mpr (Or.inl (by decide))

/-- A limit of 16 that cannot be raised leaves room for four thousand million clients. -/
theorem adjust_max_clients_wraps :
    rrServerAdjustMaxClients (some 16) (fun _ => false) 100 = .ok 4294967280 ∧
      limitInForce (fun _ => false) 16 100 = 16 ∧
      ¬ LimitRespected (rrServerAdjustMaxClients (some 16) (fun _ => false) 100) 100
        (limitInForce (fun _ => false) 16 100) := by
  refine ⟨by decide +kernel, by decide +kernel, ?_⟩
  rw [adjust_fits (fun _ => false) (by decide) (by decide)]
  simp

end RhinoRox
