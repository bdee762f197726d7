import NsxPmu.CounterReadout

set_option autoImplicit false

/-!
# What the driver relies on in the hardware

The vendor layer and the CMSIS accessors are not in the repository. The
properties below are what the code takes for granted of them; every theorem
that needs one names it as a hypothesis.
-/
namespace NsxPmu

variable {H : Type}

/-- The event type registers `PMU_EVTYPERn` hold what the last successful
`nsx_ambiq_pmu_init` put there; a failing one and the other accessors leave them. -/
structure Programs (P : Platform H) (evtyper : H → ℕ → Word) : Prop where
  checkApi : ∀ a b c hw, ∀ k < maxCounters, evtyper (P.coreCheckApi a b c hw).2 k = evtyper hw k
  enable : ∀ hw, ∀ k < maxCounters, evtyper (P.ambiqPmuEnable hw).2 k = evtyper hw k
  init : ∀ cfg hw, (P.ambiqPmuInit cfg hw).1 = 0 →
    ∀ k < maxCounters, evtyper (P.ambiqPmuInit cfg hw).2 k = cfg.eventTypes k
  initFailed : ∀ cfg hw, (P.ambiqPmuInit cfg hw).1 ≠ 0 →
    ∀ k < maxCounters, evtyper (P.ambiqPmuInit cfg hw).2 k = evtyper hw k
  cntrEnable : ∀ mask hw, ∀ k < maxCounters, evtyper (P.cntrEnable mask hw) k = evtyper hw k
  cntrDisable : ∀ mask hw, ∀ k < maxCounters, evtyper (P.cntrDisable mask hw) k = evtyper hw k
  cyccntReset : ∀ hw, ∀ k < maxCounters, evtyper (P.cyccntReset hw) k = evtyper hw k
  evcntrAllReset : ∀ hw, ∀ k < maxCounters, evtyper (P.evcntrAllReset hw) k = evtyper hw k
  setCntrOvs : ∀ mask hw, ∀ k < maxCounters, evtyper (P.setCntrOvs mask hw) k = evtyper hw k

/-- The counters count: `nsx_ambiq_pmu_init` programs, zeroes and enables them, an enabled
counter advances modulo 2^16 with each occurrence of its event, and a chain counter at
an odd index advances when the counter just below it wraps. `occur x` is one occurrence
of the event `x`. -/
structure Counts (P : Platform H) (evtyper : H → ℕ → Word) (enabled : H → ℕ → Bool)
    (occur : Word → H → H) : Prop where
  init : ∀ cfg hw, (P.ambiqPmuInit cfg hw).1 = 0 → ∀ k < maxCounters,
    evtyper (P.ambiqPmuInit cfg hw).2 k = cfg.eventTypes k ∧
    enabled (P.ambiqPmuInit cfg hw).2 k = cfg.counters.getLsbD k ∧
    P.getEvcntr k (P.ambiqPmuInit cfg hw).2 = 0
  cntrEnable : ∀ mask hw, ∀ k < maxCounters,
    evtyper (P.cntrEnable mask hw) k = evtyper hw k ∧
    enabled (P.cntrEnable mask hw) k = (enabled hw k || mask.getLsbD k) ∧
    P.getEvcntr k (P.cntrEnable mask hw) = P.getEvcntr k hw
  cntrDisable : ∀ mask hw, ∀ k < maxCounters,
    evtyper (P.cntrDisable mask hw) k = evtyper hw k ∧
    enabled (P.cntrDisable mask hw) k = (enabled hw k && !mask.getLsbD k) ∧
    P.getEvcntr k (P.cntrDisable mask hw) = P.getEvcntr k hw
  cyccntReset : ∀ hw, ∀ k < maxCounters,
    evtyper (P.cyccntReset hw) k = evtyper hw k ∧ enabled (P.cyccntReset hw) k = enabled hw k ∧
    P.getEvcntr k (P.cyccntReset hw) = P.getEvcntr k hw
  evcntrAllReset : ∀ hw, ∀ k < maxCounters,
    evtyper (P.evcntrAllReset hw) k = evtyper hw k ∧
    enabled (P.evcntrAllReset hw) k = enabled hw k ∧ P.getEvcntr k (P.evcntrAllReset hw) = 0
  setCntrOvs : ∀ mask hw, ∀ k < maxCounters,
    evtyper (P.setCntrOvs mask hw) k = evtyper hw k ∧
    enabled (P.setCntrOvs mask hw) k = enabled hw k ∧
    P.getEvcntr k (P.setCntrOvs mask hw) = P.getEvcntr k hw
  occurs : ∀ x hw, ∀ k < maxCounters,
    evtyper (occur x hw) k = evtyper hw k ∧ enabled (occur x hw) k = enabled hw k
  event : ∀ x hw, ∀ k < maxCounters, evtyper hw k ≠ armPmuChain →
    (P.getEvcntr k (occur x hw)).toNat =
      if enabled hw k = true ∧ evtyper hw k = x then ((P.getEvcntr k hw).toNat + 1) % 65536
      else (P.getEvcntr k hw).toNat
  chain : ∀ x hw k, k + 1 < maxCounters → k % 2 = 0 →
    evtyper hw k ≠ armPmuChain → evtyper hw (k + 1) = armPmuChain →
    (P.getEvcntr (k + 1) (occur x hw)).toNat =
      if enabled hw (k + 1) = true ∧ enabled hw k = true ∧ evtyper hw k = x ∧
          (P.getEvcntr k hw).toNat = 65535 then ((P.getEvcntr (k + 1) hw).toNat + 1) % 65536
      else (P.getEvcntr (k + 1) hw).toNat

/-- Every call of the vendor layer succeeds, and the API check of this API does. -/
structure Answers (P : Platform H) (api : CoreApi) : Prop where
  checkApi : ∀ hw, (P.coreCheckApi api pmuOldestSupportedVersion pmuCurrentVersion hw).1 =
    statusSuccess
  enable : ∀ hw, (P.ambiqPmuEnable hw).1 = 0
  init : ∀ cfg hw, (P.ambiqPmuInit cfg hw).1 = 0

variable {P : Platform H} {evtyper : H → ℕ → Word}

/-- One of the calls that a programming of `config` makes from `hw` on fails. -/
def PlatformFails (P : Platform H) (api : CoreApi) (config : AmbiqPmuConfig) (hw : H) : Prop :=
  let checked := P.coreCheckApi api pmuOldestSupportedVersion pmuCurrentVersion hw
  let on := P.ambiqPmuEnable checked.2
  checked.1 ≠ statusSuccess ∨ on.1 ≠ 0 ∨ (P.ambiqPmuInit config on.2).1 ≠ 0

section Placeable
variable {api : CoreApi} {cfg : PmuConfig} {s : Pmu H} {total : ℕ}

theorem pmuInit_refused (version : cfg.api = some api)
    (counted : countCounters cfg.events (List.range maxCounters) 0 = some total)
    (fits : total ≤ maxCounters)
    (known : ∀ i < maxCounters, (cfg.events i).enabled = true →
      (getMapIndex (cfg.events i).eventId).isSome)
    (failed : (pmuInit P cfg s).1 ≠ statusSuccess) :
    PlatformFails P api (pmuInit P cfg s).2.2.driver.ambiqPmuConfig s.hw := by
  have accepts : (P.coreCheckApi api pmuOldestSupportedVersion pmuCurrentVersion s.hw).1 =
      statusSuccess → acceptedHw P cfg s.hw =
        some (P.coreCheckApi api pmuOldestSupportedVersion pmuCurrentVersion s.hw).2 := by
    intro checked
    unfold acceptedHw
    rw [version]
    dsimp only
    rw [if_neg (not_not_intro checked), counted]
    dsimp only
    rw [if_neg (by omega)]
  have found : (stageConfig cfg s.driver).1 = none := by
    unfold stageConfig
    dsimp only
    rw [(resolveEvents_known _ _ List.nodup_range
      fun i hi on => known i (List.mem_range.mp hi) on).1]
  have outcome := pmuInitCall_outcome P cfg s
  change (pmuInitCall P cfg s).1 ≠ statusSuccess at failed
  change PlatformFails P api (pmuInitCall P cfg s).2.2.driver.ambiqPmuConfig s.hw
  by_cases checked : (P.coreCheckApi api pmuOldestSupportedVersion pmuCurrentVersion s.hw).1 =
      statusSuccess
  · have accepts := accepts checked
    generalize pmuInitCall P cfg s = r at outcome failed ⊢
    obtain ⟨status, cfg', s'⟩ := r
    dsimp only at outcome failed ⊢
    cases outcome with
    | rejected refused => exact absurd (refused.symm.trans accepts) (by simp)
    | unknownEvent _ unknown => exact absurd found unknown
    | enableFailed here _ refused =>
      obtain rfl := Option.some.inj (accepts.symm.trans here)
      exact .inr (.inl refused)
    | initFailed here _ _ refused driver =>
      obtain rfl := Option.some.inj (accepts.symm.trans here)
      rw [driver]
      exact .inr (.inr refused)
    | programmed => exact absurd rfl failed
  · exact .inl checked

theorem Answers.programmed (answers : Answers P api) (version : cfg.api = some api)
    (counted : countCounters cfg.events (List.range maxCounters) 0 = some total)
    (fits : total ≤ maxCounters)
    (known : ∀ i < maxCounters, (cfg.events i).enabled = true →
      (getMapIndex (cfg.events i).eventId).isSome) :
    (pmuInit P cfg s).1 = statusSuccess := by
  by_contra failed
  rcases pmuInit_refused version counted fits known failed with checked | on | init
  · exact checked (answers.checkApi _)
  · exact on (answers.enable _)
  · exact init (answers.init _ _)

end Placeable

theorem Programs.pmuInit_success (laws : Programs P evtyper) {cfg : PmuConfig} {s : Pmu H}
    (ok : (pmuInit P cfg s).1 = statusSuccess) {k : ℕ} (hk : k < maxCounters) :
    evtyper (pmuInit P cfg s).2.2.hw k =
      (pmuInit P cfg s).2.2.driver.ambiqPmuConfig.eventTypes k := by
  obtain ⟨hw, programmed, eq⟩ := (pmuInit_session ok).hw
  rw [eq, laws.init _ _ programmed k hk]

theorem Programs.pmuResetCounters (laws : Programs P evtyper) (s : Pmu H) {k : ℕ}
    (hk : k < maxCounters) : evtyper (pmuResetCounters P s).hw k = evtyper s.hw k := by
  unfold NsxPmu.pmuResetCounters
  rw [laws.setCntrOvs _ _ k hk, laws.evcntrAllReset _ k hk, laws.cyccntReset _ k hk]

theorem Programs.pausedHw (laws : Programs P evtyper) (s : Pmu H) {k : ℕ} (hk : k < maxCounters) :
    evtyper (pausedHw P s) k = evtyper s.hw k := by
  unfold NsxPmu.pausedHw NsxPmu.cntrDisable
  split
  · rfl
  · exact laws.cntrDisable _ _ k hk

theorem Programs.pmuGetCounters (laws : Programs P evtyper) (cfg : PmuConfig) (s : Pmu H) {k : ℕ}
    (hk : k < maxCounters) : evtyper (pmuGetCounters P cfg s).2.2.hw k = evtyper s.hw k := by
  by_cases ready : s.driver.initialized = true ∧ s.driver.profiling = true
  · rw [pmuGetCounters_ready cfg ready.1 ready.2]
    dsimp only [resumedHw]
    have cleared := (laws.pmuResetCounters { s with hw := NsxPmu.pausedHw P s } hk).trans
      (laws.pausedHw s hk)
    unfold NsxPmu.cntrEnable
    split
    · exact cleared
    · exact (laws.cntrEnable _ _ k hk).trans cleared
  · rw [pmuGetCounters_refused P cfg ready]

end NsxPmu
