import NsxPmu.ReferencePmu
import NsxPmu.Lib.LabelledRuns

set_option autoImplicit false

/-!
# Whether the driver reads the PMU as it is programmed

A call of `nsx_pmu_init` changes the driver's globals before it can still fail.
The results below say when a failed call leaves a driver whose read-outs are
those of the last configuration that was really programmed.
-/
namespace NsxPmu
open ConsecutiveIntervals LabelledRuns

variable {H : Type} {P : Platform H} {evtyper : H → ℕ → Word}

inductive DriverCall where
  | init (cfg : PmuConfig)
  | getCounters (cfg : PmuConfig)

def driverStep (P : Platform H) (s : Pmu H) : DriverCall → Pmu H
  | .init cfg => (pmuInit P cfg s).2.2
  | .getCounters cfg => (pmuGetCounters P cfg s).2.2

def driverStart (hw : H) : Pmu H := ⟨.start, hw, [], []⟩

/-- The record of the last successful call of `nsx_pmu_init`, which is the last one that
`nsx_ambiq_pmu_init` was successful in. -/
def Pmu.programmed (s : Pmu H) : Option InitRecord :=
  s.inits.find? fun r => r.status == statusSuccess

/-- Two driver states interpret the counters in the same way. -/
structure SameReading (d d' : Driver) : Prop where
  counters : d'.ambiqPmuConfig.counters = d.ambiqPmuConfig.counters
  eventTypes : ∀ k < maxCounters, d'.ambiqPmuConfig.eventTypes k = d.ambiqPmuConfig.eventTypes k
  configIndex : ∀ k < maxCounters, d'.configIndex k = d.configIndex k

theorem SameReading.refl (d : Driver) : SameReading d d := ⟨rfl, fun _ _ => rfl, fun _ _ => rfl⟩

theorem SameReading.symm {d d' : Driver} (h : SameReading d d') : SameReading d' d :=
  ⟨h.counters.symm, fun k hk => (h.eventTypes k hk).symm, fun k hk => (h.configIndex k hk).symm⟩

theorem SameReading.trans {a b c : Driver} (h : SameReading a b) (h' : SameReading b c) :
    SameReading a c :=
  ⟨h'.counters.trans h.counters, fun k hk => (h'.eventTypes k hk).trans (h.eventTypes k hk),
    fun k hk => (h'.configIndex k hk).trans (h.configIndex k hk)⟩

/-- Whenever a read-out succeeds, the driver interprets the counters as the last successful
programming asked for, and the hardware is programmed in this way. -/
def Agreement (P : Platform H) (evtyper : H → ℕ → Word) (s : Pmu H) : Prop :=
  ∀ cfg, (pmuGetCounters P cfg s).1 = statusSuccess →
    ∃ r, s.programmed = some r ∧ SameReading r.driver s.driver ∧
      ∀ k < maxCounters, evtyper s.hw k = s.driver.ambiqPmuConfig.eventTypes k

/-- All enabled slots have ids of the catalogue. -/
def AllKnown (events : ℕ → PmuEvent) : Prop :=
  ∀ i < maxCounters, (events i).enabled = true → (getMapIndex (events i).eventId).isSome

/-- The call passes its validation and fails later: an id is unknown, or one of the two
calls of the vendor layer fails. -/
def FailsLate (P : Platform H) (cfg : PmuConfig) (s : Pmu H) : Prop :=
  ∃ hw, acceptedHw P cfg s.hw = some hw ∧
    (¬ AllKnown cfg.events ∨ (P.ambiqPmuEnable hw).1 ≠ 0 ∨
      (P.ambiqPmuInit (stageConfig cfg s.driver).2.2.ambiqPmuConfig
        (P.ambiqPmuEnable hw).2).1 ≠ 0)

/-- An initialised driver is not asked for a programming that fails late, unless the driver is
already laid out for it. -/
def KeepsSession (P : Platform H) (s : Pmu H) : DriverCall → Prop
  | .init cfg => s.driver.initialized = true → FailsLate P cfg s →
      AllKnown cfg.events ∧ Layout cfg.events s.driver
  | .getCounters _ => True

theorem stageConfig_known_iff (cfg : PmuConfig) (d : Driver) :
    (stageConfig cfg d).1 = none ↔ AllKnown cfg.events := by
  constructor
  · intro known i hi
    exact resolveEvents_none (stageConfig_known known) i (List.mem_range.mpr hi)
  · intro known
    unfold stageConfig
    dsimp only
    rw [(resolveEvents_known _ _ List.nodup_range fun i hi on => known i (List.mem_range.mp hi) on).1]

theorem stageConfig_unknown {cfg : PmuConfig} {d : Driver} (unknown : (stageConfig cfg d).1 ≠ none) :
    (stageConfig cfg d).2.2.ambiqPmuConfig.counters = 0 := by
  unfold stageConfig at unknown ⊢
  dsimp only at unknown ⊢
  split
  · rfl
  · rename_i found
    rw [found] at unknown
    exact absurd rfl unknown

theorem stageConfig_flags (cfg : PmuConfig) (d : Driver) :
    (stageConfig cfg d).2.2.initialized = d.initialized ∧
      (stageConfig cfg d).2.2.profiling = d.profiling := by
  unfold stageConfig
  dsimp only
  split <;> exact ⟨rfl, rfl⟩

/-- The three ways a call can end: refused before it changes anything, failed after the
globals have changed, or successful. -/
inductive InitEnd (P : Platform H) (cfg : PmuConfig) (s : Pmu H) (status : Status)
    (s' : Pmu H) : Prop where
  | refused (early : ¬ FailsLate P cfg s) (failed : status ≠ statusSuccess)
      (driver : s'.driver = s.driver)
  | late (late : FailsLate P cfg s) (failed : status ≠ statusSuccess)
      (driver : s'.driver = (stageConfig cfg s.driver).2.2)
  | success (early : ¬ FailsLate P cfg s) (ok : status = statusSuccess)

theorem pmuInit_end (P : Platform H) (cfg : PmuConfig) (s : Pmu H) :
    InitEnd P cfg s (pmuInit P cfg s).1 (pmuInit P cfg s).2.2 := by
  have outcome := pmuInitCall_outcome P cfg s
  have call : InitEnd P cfg s (pmuInitCall P cfg s).1 (pmuInitCall P cfg s).2.2 := by
    generalize pmuInitCall P cfg s = r at outcome
    obtain ⟨status, cfg', s'⟩ := r
    dsimp only at outcome ⊢
    cases outcome with
    | rejected accepts failed driver =>
      refine .refused ?_ failed driver
      rintro ⟨hw, other, -⟩
      rw [accepts] at other
      cases other
    | unknownEvent accepts unknown driver =>
      exact .late ⟨_, accepts, .inl fun known =>
        unknown ((stageConfig_known_iff cfg s.driver).mpr known)⟩
        statusInvalidConfig_ne driver
    | enableFailed accepts known failed driver =>
      exact .late ⟨_, accepts, .inr (.inl failed)⟩ statusInitFailed_ne driver
    | initFailed accepts known enabled failed driver =>
      exact .late ⟨_, accepts, .inr (.inr failed)⟩ statusInitFailed_ne driver
    | programmed accepts known enabled ok =>
      refine .success ?_ rfl
      rintro ⟨hw, other, late⟩
      rw [accepts] at other
      obtain rfl := Option.some.inj other
      rcases late with unknown | failed | failed
      · exact unknown ((stageConfig_known_iff cfg s.driver).mp known)
      · exact failed enabled
      · exact failed ok
  cases call with
  | refused early failed driver => exact .refused early failed driver
  | late late failed driver => exact .late late failed driver
  | success early ok => exact .success early ok

theorem acceptedHw_checked {P : Platform H} {cfg : PmuConfig} {hw hw' : H}
    (h : acceptedHw P cfg hw = some hw') :
    ∃ api, hw' = (P.coreCheckApi api pmuOldestSupportedVersion pmuCurrentVersion hw).2 := by
  unfold acceptedHw at h
  split at h
  · cases h
  · rename_i api _
    dsimp only at h
    split at h
    · cases h
    · split at h
      · cases h
      · split at h
        · cases h
        · exact ⟨api, (Option.some.inj h).symm⟩

theorem Programs.pmuInit_failed (laws : Programs P evtyper) {cfg : PmuConfig} {s : Pmu H}
    (failed : (pmuInit P cfg s).1 ≠ statusSuccess) {k : ℕ} (hk : k < maxCounters) :
    evtyper (pmuInit P cfg s).2.2.hw k = evtyper s.hw k := by
  have outcome := pmuInitCall_outcome P cfg s
  change (pmuInitCall P cfg s).1 ≠ statusSuccess at failed
  change evtyper (pmuInitCall P cfg s).2.2.hw k = evtyper s.hw k
  generalize pmuInitCall P cfg s = r at failed outcome
  obtain ⟨status, cfg', s'⟩ := r
  dsimp only at failed outcome ⊢
  have checked : ∀ hw, acceptedHw P cfg s.hw = some hw → evtyper hw k = evtyper s.hw k := by
    intro hw accepts
    obtain ⟨api, rfl⟩ := acceptedHw_checked accepts
    exact laws.checkApi _ _ _ _ k hk
  cases outcome with
  | rejected _ _ _ hw =>
    rcases hw with same | ⟨api, same⟩
    · rw [same]
    · rw [same, laws.checkApi _ _ _ _ k hk]
  | unknownEvent accepts _ _ hw => rw [hw, checked _ accepts]
  | enableFailed accepts _ _ _ hw => rw [hw, laws.enable _ k hk, checked _ accepts]
  | initFailed accepts _ _ refused _ hw =>
    rw [hw, laws.initFailed _ _ refused k hk, laws.enable _ k hk, checked _ accepts]
  | programmed => exact absurd rfl failed

theorem Layout.of_sameReading {events : ℕ → PmuEvent} {d d' : Driver} (layout : Layout events d)
    (same : SameReading d d') : Layout events d' := by
  have size := layout.size
  have base : ∀ p ∈ place (width events) 0 (allocationOrder events), p.2 < maxCounters := by
    intro p hp
    have := (place_bounds hp).2
    have := width_pos events p.1
    omega
  refine ⟨size, ?_, ?_, ?_, ?_, ?_⟩
  · intro m hm
    rw [same.counters]
    exact layout.counters m hm
  · intro p hp
    rw [same.configIndex _ (base p hp)]
    exact layout.index p hp
  · intro p hp
    rw [same.eventTypes _ (base p hp)]
    exact layout.types p hp
  · intro p hp wide
    have inside := (place_bounds hp).2
    rw [width_of_size32 wide] at inside
    rw [same.eventTypes _ (by omega)]
    exact layout.chained p hp wide
  · intro m hm free
    rw [same.eventTypes m hm]
    exact layout.unused m hm free

theorem stageConfig_unindexed {cfg : PmuConfig} {d : Driver} {total : ℕ}
    (counted : countCounters cfg.events (List.range maxCounters) 0 = some total)
    (fits : total ≤ maxCounters) (known : AllKnown cfg.events) {m : ℕ}
    (free : ∀ p ∈ place (width cfg.events) 0 (allocationOrder cfg.events), p.2 ≠ m) :
    (stageConfig cfg d).2.2.configIndex m = d.configIndex m := by
  obtain ⟨rfl, -⟩ := countCounters_slots counted
  have found := stageConfig_known ((stageConfig_known_iff cfg d).mpr known)
  obtain ⟨-, values, -⟩ := resolveEvents_known cfg.counter d.ambiqPmuConfig.eventTypes
    List.nodup_range (resolveEvents_none found)
  simp only [stageConfig, found]
  apply (allocateCounters_claims cfg.events ?_ ?_).unindexed m free
  · intro i hi
    simp [values i, hi]
  · dsimp only [maxCounters] at fits ⊢
    omega

theorem stageConfig_same {cfg : PmuConfig} {d : Driver} {total : ℕ}
    (counted : countCounters cfg.events (List.range maxCounters) 0 = some total)
    (fits : total ≤ maxCounters) (known : AllKnown cfg.events) (layout : Layout cfg.events d) :
    SameReading d (stageConfig cfg d).2.2 := by
  have staged := (stageConfig_staged counted fits
    ((stageConfig_known_iff cfg d).mpr known)).layout
  refine ⟨?_, ?_, ?_⟩
  · apply BitVec.eq_of_getLsbD_eq
    intro m hm
    rw [Bool.eq_iff_iff, staged.counters m hm, layout.counters m hm]
  · intro k hk
    by_cases used : k < extent (width cfg.events) (allocationOrder cfg.events)
    · obtain ⟨p, hp, lo, hi⟩ := place_covers (Nat.zero_le k) (by rwa [Nat.zero_add])
      by_cases first : k = p.2
      · rw [first, staged.types p hp, layout.types p hp]
      · have wide : (cfg.events p.1).counterSize = .size32 := by
          by_contra narrow
          have one : width cfg.events p.1 = 1 := if_neg narrow
          omega
        rw [width_of_size32 wide] at hi
        obtain rfl : k = p.2 + 1 := by omega
        rw [staged.chained p hp wide, layout.chained p hp wide]
    · rw [staged.unused k hk (by omega), layout.unused k hk (by omega)]
  · intro k hk
    by_cases base : ∃ p ∈ place (width cfg.events) 0 (allocationOrder cfg.events), p.2 = k
    · obtain ⟨p, hp, rfl⟩ := base
      rw [staged.index p hp, layout.index p hp]
    · exact stageConfig_unindexed counted fits known fun p hp eq => base ⟨p, hp, eq⟩

/-- What every history of calls leaves: the driver is on exactly when a programming has
succeeded, and the hardware is programmed as the last one that did asked for. -/
structure SessionHistory (evtyper : H → ℕ → Word) (s : Pmu H) : Prop where
  initialized : s.driver.initialized = true ↔ s.programmed.isSome
  profiling : s.driver.profiling = s.driver.initialized
  layout : ∀ r, s.programmed = some r → ∃ events, Layout events r.driver
  hw : ∀ r, s.programmed = some r → ∀ k < maxCounters,
    evtyper s.hw k = r.driver.ambiqPmuConfig.eventTypes k

theorem pmuInit_programmed_failed {cfg : PmuConfig} {s : Pmu H}
    (failed : (pmuInit P cfg s).1 ≠ statusSuccess) :
    (pmuInit P cfg s).2.2.programmed = s.programmed := by
  unfold Pmu.programmed
  rw [pmuInit_history]
  exact List.find?_cons_of_neg (by simpa using failed)

theorem pmuInit_programmed_success {cfg : PmuConfig} {s : Pmu H}
    (ok : (pmuInit P cfg s).1 = statusSuccess) :
    (pmuInit P cfg s).2.2.programmed =
      some ⟨(pmuInit P cfg s).1, (pmuInit P cfg s).2.1, (pmuInit P cfg s).2.2.driver⟩ := by
  unfold Pmu.programmed
  rw [pmuInit_history]
  exact List.find?_cons_of_pos (by simpa using ok)

theorem SessionHistory.failed (laws : Programs P evtyper) {cfg : PmuConfig} {s : Pmu H}
    (history : SessionHistory evtyper s) (failed : (pmuInit P cfg s).1 ≠ statusSuccess)
    (initialized : (pmuInit P cfg s).2.2.driver.initialized = s.driver.initialized)
    (profiling : (pmuInit P cfg s).2.2.driver.profiling = s.driver.profiling) :
    SessionHistory evtyper (pmuInit P cfg s).2.2 := by
  have programmed := pmuInit_programmed_failed failed
  refine ⟨?_, ?_, ?_, ?_⟩
  · rw [initialized, programmed]
    exact history.initialized
  · rw [initialized, profiling]
    exact history.profiling
  · rw [programmed]
    exact history.layout
  · intro r last k hk
    rw [programmed] at last
    rw [laws.pmuInit_failed failed hk]
    exact history.hw r last k hk

theorem SessionHistory.step (laws : Programs P evtyper) {s : Pmu H}
    (history : SessionHistory evtyper s) (call : DriverCall) :
    SessionHistory evtyper (driverStep P s call) := by
  cases call with
  | init cfg =>
    dsimp only [driverStep]
    cases pmuInit_end P cfg s with
    | refused _ failed driver =>
      exact history.failed laws failed (by rw [driver]) (by rw [driver])
    | late _ failed driver =>
      have flags := stageConfig_flags cfg s.driver
      exact history.failed laws failed (by rw [driver, flags.1]) (by rw [driver, flags.2])
    | success _ ok =>
      obtain ⟨-, layout, initialized, profiling⟩ := pmuInit_success ok
      have programmed := pmuInit_programmed_success ok
      refine ⟨?_, ?_, ?_, ?_⟩
      · simp [initialized, programmed]
      · rw [initialized, profiling]
      · intro r last
        obtain rfl := Option.some.inj (programmed.symm.trans last)
        exact ⟨cfg.events, layout⟩
      · intro r last k hk
        obtain rfl := Option.some.inj (programmed.symm.trans last)
        exact laws.pmuInit_success ok hk
  | getCounters cfg =>
    dsimp only [driverStep]
    have frame := pmuGetCounters_frame P cfg s
    have programmed : (pmuGetCounters P cfg s).2.2.programmed = s.programmed := by
      unfold Pmu.programmed
      rw [frame.inits]
    refine ⟨?_, ?_, ?_, ?_⟩
    · rw [frame.driver, programmed]
      exact history.initialized
    · rw [frame.driver]
      exact history.profiling
    · rw [programmed]
      exact history.layout
    · intro r last k hk
      rw [programmed] at last
      rw [laws.pmuGetCounters cfg s hk]
      exact history.hw r last k hk

/-- Along such histories agreement is a matter of the driver's globals alone. -/
theorem SessionHistory.agreement_iff {s : Pmu H} (history : SessionHistory evtyper s) :
    Agreement P evtyper s ↔ ∀ r, s.programmed = some r → SameReading r.driver s.driver := by
  constructor
  · intro agrees r last
    have on := history.initialized.mpr (by rw [last]; rfl)
    obtain ⟨r', last', same, -⟩ := agrees .zero
      ((pmuGetCounters_frame P .zero s).status.mpr ⟨on, history.profiling.trans on⟩)
    obtain rfl := Option.some.inj (last.symm.trans last')
    exact same
  · intro same cfg ok
    have on := ((pmuGetCounters_frame P cfg s).status.mp ok).1
    obtain ⟨r, last⟩ := Option.isSome_iff_exists.mp (history.initialized.mp on)
    refine ⟨r, last, same r last, ?_⟩
    intro k hk
    rw [history.hw r last k hk, (same r last).eventTypes k hk]

theorem late_sameReading_iff {cfg : PmuConfig} {s : Pmu H} (late : FailsLate P cfg s)
    {events : ℕ → PmuEvent} (before : Layout events s.driver) :
    SameReading s.driver (stageConfig cfg s.driver).2.2 ↔
      AllKnown cfg.events ∧ Layout cfg.events s.driver := by
  obtain ⟨hw, accepts, -⟩ := late
  obtain ⟨total, counted, fits⟩ := acceptedHw_counted accepts
  constructor
  · intro same
    have known : (stageConfig cfg s.driver).1 = none := by
      by_contra unknown
      -- the mask of the session has the bit of the cycle counter, the cleared one has no bit
      have cycle := (before.counters 31 (by omega)).mpr (.inl rfl)
      rw [← same.counters, stageConfig_unknown unknown] at cycle
      cases cycle
    exact ⟨(stageConfig_known_iff cfg s.driver).mp known,
      (stageConfig_staged counted fits known).layout.of_sameReading same.symm⟩
  · rintro ⟨known, layout⟩
    exact stageConfig_same counted fits known layout

theorem agreement_step_iff (laws : Programs P evtyper) {s : Pmu H} (call : DriverCall)
    (history : SessionHistory evtyper s) (agrees : Agreement P evtyper s) :
    Agreement P evtyper (driverStep P s call) ↔ KeepsSession P s call := by
  have same := history.agreement_iff.mp agrees
  rw [(history.step laws call).agreement_iff]
  cases call with
  | init cfg =>
    dsimp only [driverStep, KeepsSession]
    cases pmuInit_end P cfg s with
    | refused early failed driver =>
      rw [pmuInit_programmed_failed failed, driver]
      exact ⟨fun _ _ late => absurd late early, fun _ => same⟩
    | late late failed driver =>
      rw [pmuInit_programmed_failed failed, driver]
      constructor
      · intro after on
        obtain ⟨r, last⟩ := Option.isSome_iff_exists.mp (history.initialized.mp on)
        obtain ⟨events, layout⟩ := history.layout r last
        have before := layout.of_sameReading (same r last)
        exact fun _ => (late_sameReading_iff late before).mp ((same r last).symm.trans (after r last))
      · intro keeps r last
        have on := history.initialized.mpr (by rw [last]; rfl)
        have kept := keeps on late
        exact (same r last).trans ((late_sameReading_iff late kept.2).mpr kept)
    | success early ok =>
      refine ⟨fun _ _ late => absurd late early, fun _ r last => ?_⟩
      obtain rfl := Option.some.inj ((pmuInit_programmed_success ok).symm.trans last)
      exact .refl _
  | getCounters cfg =>
    dsimp only [driverStep, KeepsSession]
    have frame := pmuGetCounters_frame P cfg s
    refine ⟨fun _ => trivial, fun _ r last => ?_⟩
    unfold Pmu.programmed at last
    rw [frame.inits] at last
    rw [frame.driver]
    exact same r last

theorem sessionHistory_start (hw : H) : SessionHistory evtyper (driverStart hw) := by
  refine ⟨by simp [driverStart, Driver.start, Pmu.programmed], rfl, ?_, ?_⟩
  · intro r last
    cases last
  · intro r last
    cases last

/-- From program start on, the driver and the hardware agree in every state of a run exactly
when no initialised driver is asked for a programming that fails late, unless the driver is
already laid out for it. -/
theorem driver_agreement_iff (laws : Programs P evtyper) (hw : H) (calls : List DriverCall) :
    (∀ before after, calls = before ++ after →
      Agreement P evtyper (run (driverStep P) (driverStart hw) before)) ↔
    AllSteps (driverStep P) (KeepsSession P) (driverStart hw) calls := by
  refine (AllSteps_iff_states (I := SessionHistory evtyper) (Agreement P evtyper)
    (fun _ call history => history.step laws call)
    (fun _ call history agrees => agreement_step_iff laws call history agrees)
    (sessionHistory_start hw) ?_ calls).symm
  apply (sessionHistory_start hw).agreement_iff.mpr
  intro r last
  cases last

def refPairConfig (eventId : Word) : PmuConfig :=
  { PmuConfig.zero with
      api := some pmuV1_0_0
      events := fun i => if i = 0 then ⟨true, eventId, .size32⟩ else ⟨false, 0, .size16⟩ }

theorem driver_agreement_iff_ref :
    Agreement refPlatform RefPmu.evtyper (run (driverStep refPlatform) (driverStart .start)
      [.init (refPairConfig (mapEventId 3)), .getCounters (refPairConfig (mapEventId 3))]) :=
  (driver_agreement_iff refPlatform_programs .start
    [.init (refPairConfig (mapEventId 3)), .getCounters (refPairConfig (mapEventId 3))]).mpr
    ⟨fun on => absurd on (by decide), trivial, trivial⟩ _ [] rfl

/-- A second call of `nsx_pmu_init` fails at an unknown id. Read-outs go on to succeed, with a
mask under which no counter is read, while the hardware counts as the first call asked for. -/
theorem driver_agreement_broken :
    let s := run (driverStep refPlatform) (driverStart .start)
      [.init (refPairConfig (mapEventId 3)), .init (refPairConfig armPmuChain)]
    (pmuGetCounters refPlatform (refPairConfig (mapEventId 3)) s).1 = statusSuccess ∧
    s.driver.ambiqPmuConfig.counters = 0 ∧ s.hw.enabled = 0x80000003 ∧
    ¬ Agreement refPlatform RefPmu.evtyper s := by
  refine ⟨by decide, by decide, by decide, ?_⟩
  intro agrees
  obtain ⟨r, last, same, -⟩ := agrees (refPairConfig (mapEventId 3)) (by decide)
  obtain rfl := Option.some.inj last
  exact absurd same.counters (by decide)

end NsxPmu
