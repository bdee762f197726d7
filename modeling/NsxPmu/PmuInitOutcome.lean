import NsxPmu.CounterAllocation

set_option autoImplicit false

/-!
# What a call of `nsx_pmu_init` does

The staged configuration of an accepted call, and every way in which a call can
end. Later proofs read the driver through these facts and do not unfold it.
-/
namespace NsxPmu
open Function (update)
open ConsecutiveIntervals

variable {H : Type}

theorem countCounters_disabled {events : ℕ → PmuEvent} {i : ℕ} (off : (events i).enabled = false)
    (l : List ℕ) (start : ℕ) : countCounters events (i :: l) start = countCounters events l start := by
  simp [countCounters, off]

theorem countCounters_size32 {events : ℕ → PmuEvent} {i : ℕ} (on : (events i).enabled = true)
    (size : (events i).counterSize = .size32) (l : List ℕ) (start : ℕ) :
    countCounters events (i :: l) start = countCounters events l (start + 2) := by
  simp [countCounters, on, size]

theorem countCounters_size16 {events : ℕ → PmuEvent} {i : ℕ} (on : (events i).enabled = true)
    (size : (events i).counterSize = .size16) (l : List ℕ) (start : ℕ) :
    countCounters events (i :: l) start = countCounters events l (start + 1) := by
  simp [countCounters, on, size]

/-- The validation loop accepts exactly the configurations whose enabled slots have a
valid size, and counts the counters that the allocation will place. -/
theorem countCounters_eq_some {events : ℕ → PmuEvent} {l : List ℕ} {start total : ℕ} :
    countCounters events l start = some total ↔
      (∀ i ∈ l, (events i).enabled = true →
        (events i).counterSize = .size32 ∨ (events i).counterSize = .size16) ∧
      start +
        extent (width events) (l.filter fun i =>
          (events i).enabled && (events i).counterSize == .size32) +
        extent (width events) (l.filter fun i =>
          (events i).enabled && (events i).counterSize == .size16) =
          total := by
  induction l generalizing start with
  | nil => simp [countCounters]
  | cons i l ih =>
    by_cases on : (events i).enabled = true
    · cases size : (events i).counterSize with
      | size32 =>
        have two := width_of_size32 size
        rw [countCounters_size32 on size, ih, List.filter_cons_of_pos (by simp [on, size]),
          List.filter_cons_of_neg (by simp [size]), extent_cons, two, ← Nat.add_assoc start 2]
        simp [size]
      | size16 =>
        have one : width events i = 1 := by simp [width, size]
        rw [countCounters_size16 on size, ih, List.filter_cons_of_neg (by simp [size]),
          List.filter_cons_of_pos (by simp [on, size]), extent_cons, one, ← Nat.add_assoc,
          Nat.add_right_comm start 1]
        simp [size]
      | other raw => simp [countCounters, on, size]
    · rw [countCounters_disabled (by simpa using on), ih, List.filter_cons_of_neg (by simp [on]),
        List.filter_cons_of_neg (by simp [on])]
      simp [on]

theorem countCounters_slots {events : ℕ → PmuEvent} {total : ℕ}
    (h : countCounters events (List.range maxCounters) 0 = some total) :
    total = extent (width events) (allocationOrder events) ∧
      ∀ i < maxCounters, (events i).enabled = true → i ∈ allocationOrder events := by
  obtain ⟨sizes, rfl⟩ := countCounters_eq_some.mp h
  refine ⟨?_, ?_⟩
  · rw [allocationOrder, extent_append, Nat.zero_add]
    rfl
  · intro i hi on
    exact mem_allocationOrder.mpr ⟨hi, on, sizes i (List.mem_range.mpr hi) on⟩

theorem resolveEvents_known {events : ℕ → PmuEvent} {l : List ℕ} (counter : ℕ → PmuCounter)
    (types : ℕ → Word) (nodup : l.Nodup)
    (known : ∀ i ∈ l, (events i).enabled = true → (getMapIndex (events i).eventId).isSome) :
    (resolveEvents events l counter types).1 = none ∧
    (∀ i, (resolveEvents events l counter types).2.1 i =
      if i ∈ l then
        ⟨false, if (events i).enabled then (getMapIndex (events i).eventId).getD 0
          else (counter i).mapIndex, 0⟩
      else counter i) ∧
    ∀ i, (resolveEvents events l counter types).2.2 i = if i ∈ l then 0xFFFF else types i := by
  induction l generalizing counter types with
  | nil => simp [resolveEvents]
  | cons j l ih =>
    rw [List.nodup_cons] at nodup
    have rest := fun counter types =>
      ih counter types nodup.2 (fun i hi => known i (by simp [hi]))
    cases on : (events j).enabled with
    | false =>
      have step : resolveEvents events (j :: l) counter types = resolveEvents events l
          (update counter j { counter j with counterValue := 0, added := false })
          (update types j 0xFFFF) := by
        simp [resolveEvents, on]
      rw [step]
      obtain ⟨none, values, typed⟩ := rest
        (update counter j { counter j with counterValue := 0, added := false }) (update types j 0xFFFF)
      refine ⟨none, ?_, ?_⟩
      · intro i
        rw [values]
        by_cases hi : i = j
        · subst hi
          simp [nodup.1, on]
        · simp [hi]
      · intro i
        rw [typed]
        by_cases hi : i = j <;> simp [hi]
    | true =>
      obtain ⟨m, hm⟩ := Option.isSome_iff_exists.mp (known j (by simp) on)
      have step : resolveEvents events (j :: l) counter types = resolveEvents events l
          (update (update counter j { counter j with counterValue := 0, added := false }) j
            ⟨false, m, 0⟩) (update types j 0xFFFF) := by
        simp [resolveEvents, on, hm]
      rw [step]
      obtain ⟨none, values, typed⟩ := rest
        (update (update counter j { counter j with counterValue := 0, added := false }) j
          ⟨false, m, 0⟩) (update types j 0xFFFF)
      refine ⟨none, ?_, ?_⟩
      · intro i
        rw [values]
        by_cases hi : i = j
        · subst hi
          simp [nodup.1, on, hm]
        · simp [hi]
      · intro i
        rw [typed]
        by_cases hi : i = j <;> simp [hi]

theorem resolveEvents_none {events : ℕ → PmuEvent} {l : List ℕ} {counter : ℕ → PmuCounter}
    {types : ℕ → Word} (h : (resolveEvents events l counter types).1 = none) :
    ∀ i ∈ l, (events i).enabled = true → (getMapIndex (events i).eventId).isSome := by
  induction l generalizing counter types with
  | nil => simp
  | cons j l ih =>
    rw [resolveEvents] at h
    cases on : (events j).enabled with
    | false =>
      simp only [on, Bool.not_false, if_true] at h
      intro i hi oni
      rcases List.mem_cons.mp hi with rfl | hi
      · rw [on] at oni
        cases oni
      · exact ih h i hi oni
    | true =>
      cases hm : getMapIndex (events j).eventId with
      | none => simp [on, hm] at h
      | some m =>
        simp only [on, hm, Bool.not_true, Bool.false_eq_true, if_false] at h
        intro i hi oni
        rcases List.mem_cons.mp hi with rfl | hi
        · simp [hm]
        · exact ih h i hi oni

theorem resolveEvents_cleared {events : ℕ → PmuEvent} {l : List ℕ} {counter : ℕ → PmuCounter}
    {types : ℕ → Word} {i : ℕ} (zero : (counter i).counterValue = 0) :
    ((resolveEvents events l counter types).2.1 i).counterValue = 0 := by
  induction l generalizing counter types with
  | nil => exact zero
  | cons j l ih =>
    have cleared :
        (update counter j { counter j with counterValue := 0, added := false } i).counterValue
        = 0 := by
      by_cases here : i = j
      · simp [here]
      · simpa [here] using zero
    rw [resolveEvents]
    dsimp only
    split
    · exact ih cleared
    · split
      · exact cleared
      · apply ih
        by_cases here : i = j
        · simp [here]
        · simpa [here] using zero

/-- The driver's state interprets the counters as `events` asks for. -/
structure Layout (events : ℕ → PmuEvent) (d : Driver) : Prop where
  size : extent (width events) (allocationOrder events) ≤ maxCounters
  counters : ∀ m < 32, d.ambiqPmuConfig.counters.getLsbD m = true ↔
    m = 31 ∨ m < extent (width events) (allocationOrder events)
  index : ∀ p ∈ place (width events) 0 (allocationOrder events), d.configIndex p.2 = p.1
  types : ∀ p ∈ place (width events) 0 (allocationOrder events),
    d.ambiqPmuConfig.eventTypes p.2 = (events p.1).eventId
  chained : ∀ p ∈ place (width events) 0 (allocationOrder events),
    (events p.1).counterSize = .size32 → d.ambiqPmuConfig.eventTypes (p.2 + 1) = armPmuChain
  unused : ∀ m < maxCounters, extent (width events) (allocationOrder events) ≤ m →
    d.ambiqPmuConfig.eventTypes m = 0xFFFF

structure Staged (cfg : PmuConfig) (cfg' : PmuConfig) (d' : Driver) : Prop where
  api : cfg'.api = cfg.api
  events : cfg'.events = cfg.events
  layout : Layout cfg.events d'
  slots : ∀ i < maxCounters, (cfg.events i).enabled = true → i ∈ allocationOrder cfg.events
  cleared : ∀ i < maxCounters, (cfg'.counter i).counterValue = 0
  added : ∀ i < maxCounters, (cfg'.counter i).added = true ↔ i ∈ allocationOrder cfg.events
  mapped : ∀ i < maxCounters, (cfg.events i).enabled = true →
    getMapIndex (cfg.events i).eventId = some (cfg'.counter i).mapIndex

theorem stageConfig_known {cfg : PmuConfig} {d : Driver} (known : (stageConfig cfg d).1 = none) :
    (resolveEvents cfg.events (List.range maxCounters) cfg.counter
      d.ambiqPmuConfig.eventTypes).1 = none := by
  unfold stageConfig at known
  dsimp only at known
  split at known
  · cases known
  · assumption

theorem stageConfig_staged {cfg : PmuConfig} {d : Driver} {total : ℕ}
    (counted : countCounters cfg.events (List.range maxCounters) 0 = some total)
    (fits : total ≤ maxCounters) (known : (stageConfig cfg d).1 = none) :
    Staged cfg (stageConfig cfg d).2.1 (stageConfig cfg d).2.2 := by
  obtain ⟨rfl, slots⟩ := countCounters_slots counted
  have found := stageConfig_known known
  have ids := resolveEvents_none found
  obtain ⟨-, values, typed⟩ := resolveEvents_known cfg.counter d.ambiqPmuConfig.eventTypes
    List.nodup_range ids
  simp only [stageConfig, found]
  generalize (resolveEvents cfg.events (List.range maxCounters) cfg.counter
    d.ambiqPmuConfig.eventTypes).2.1 = counter at values ⊢
  generalize (resolveEvents cfg.events (List.range maxCounters) cfg.counter
    d.ambiqPmuConfig.eventTypes).2.2 = types at typed ⊢
  have claims := allocateCounters_claims cfg.events
    (a := ⟨0, ccntrMask, types, d.configIndex, counter⟩)
    (by intro i hi; simp [values i, hi]) (by dsimp only [maxCounters] at fits ⊢; omega)
  generalize allocateCounters cfg.events ⟨0, ccntrMask, types, d.configIndex, counter⟩ = a at claims ⊢
  have reached := claims.total
  simp only [Nat.zero_add] at reached
  refine ⟨rfl, rfl, ⟨fits, ?_, claims.index, claims.types, claims.chained, ?_⟩, slots, ?_, ?_, ?_⟩
  · intro m hm
    have bits := claims.mask m hm
    rw [reached, ccntrMask_bit hm, decide_eq_true_iff] at bits
    dsimp only at bits ⊢
    rw [bits]
    omega
  · intro m hm free
    have kept := claims.outside m (by rw [reached]; exact .inr free)
    dsimp only at kept ⊢
    rw [kept, typed m]
    simp [hm]
  · intro i hi
    rw [(claims.kept i).2]
    simp [values i, hi]
  · intro i hi
    rw [claims.added i]
    simp [values i, hi]
  · intro i hi on
    obtain ⟨m, hm⟩ := Option.isSome_iff_exists.mp (ids i (List.mem_range.mpr hi) on)
    rw [(claims.kept i).1]
    simp [values i, hi, on, hm]

/-- The hardware state in which a call starts to program, or nothing for a call that the
API check, a slot's size or the number of counters rejects. -/
def acceptedHw (P : Platform H) (cfg : PmuConfig) (hw : H) : Option H :=
  match cfg.api with
  | none => none
  | some api =>
    let checked := P.coreCheckApi api pmuOldestSupportedVersion pmuCurrentVersion hw
    if checked.1 ≠ statusSuccess then none
    else match countCounters cfg.events (List.range maxCounters) 0 with
      | none => none
      | some total => if total > maxCounters then none else some checked.2

/-- Every way a call of `nsx_pmu_init` can end: the status, the configuration and the
state it leaves, and what decided it. -/
inductive InitOutcome (P : Platform H) (cfg : PmuConfig) (s : Pmu H) :
    Status → PmuConfig → Pmu H → Prop where
  | rejected {status : Status} {s' : Pmu H} (accepts : acceptedHw P cfg s.hw = none)
      (failed : status ≠ statusSuccess) (driver : s'.driver = s.driver)
      (hw : s'.hw = s.hw ∨ ∃ api, s'.hw =
        (P.coreCheckApi api pmuOldestSupportedVersion pmuCurrentVersion s.hw).2)
      (inits : s'.inits = s.inits) : InitOutcome P cfg s status cfg s'
  | unknownEvent {hw : H} {s' : Pmu H} (accepts : acceptedHw P cfg s.hw = some hw)
      (unknown : (stageConfig cfg s.driver).1 ≠ none)
      (driver : s'.driver = (stageConfig cfg s.driver).2.2) (hw : s'.hw = hw)
      (inits : s'.inits = s.inits) :
      InitOutcome P cfg s statusInvalidConfig (stageConfig cfg s.driver).2.1 s'
  | enableFailed {hw : H} {s' : Pmu H} (accepts : acceptedHw P cfg s.hw = some hw)
      (known : (stageConfig cfg s.driver).1 = none) (failed : (P.ambiqPmuEnable hw).1 ≠ 0)
      (driver : s'.driver = (stageConfig cfg s.driver).2.2)
      (hw : s'.hw = (P.ambiqPmuEnable hw).2) (inits : s'.inits = s.inits) :
      InitOutcome P cfg s statusInitFailed (stageConfig cfg s.driver).2.1 s'
  | initFailed {hw : H} {s' : Pmu H} (accepts : acceptedHw P cfg s.hw = some hw)
      (known : (stageConfig cfg s.driver).1 = none) (enabled : (P.ambiqPmuEnable hw).1 = 0)
      (failed : (P.ambiqPmuInit (stageConfig cfg s.driver).2.2.ambiqPmuConfig
        (P.ambiqPmuEnable hw).2).1 ≠ 0)
      (driver : s'.driver = (stageConfig cfg s.driver).2.2)
      (hw : s'.hw = (P.ambiqPmuInit (stageConfig cfg s.driver).2.2.ambiqPmuConfig
        (P.ambiqPmuEnable hw).2).2) (inits : s'.inits = s.inits) :
      InitOutcome P cfg s statusInitFailed (stageConfig cfg s.driver).2.1 s'
  | programmed {hw : H} {s' : Pmu H} (accepts : acceptedHw P cfg s.hw = some hw)
      (known : (stageConfig cfg s.driver).1 = none) (enabled : (P.ambiqPmuEnable hw).1 = 0)
      (ok : (P.ambiqPmuInit (stageConfig cfg s.driver).2.2.ambiqPmuConfig
        (P.ambiqPmuEnable hw).2).1 = 0)
      (driver : s'.driver =
        { (stageConfig cfg s.driver).2.2 with initialized := true, profiling := true })
      (hw : s'.hw = (P.ambiqPmuInit (stageConfig cfg s.driver).2.2.ambiqPmuConfig
        (P.ambiqPmuEnable hw).2).2) (inits : s'.inits = s.inits) :
      InitOutcome P cfg s statusSuccess (stageConfig cfg s.driver).2.1 s'

theorem programPmu_outcome (P : Platform H) (cfg : PmuConfig) (s : Pmu H) {hw : H}
    (accepts : acceptedHw P cfg s.hw = some hw) :
    InitOutcome P cfg s (programPmu P cfg { s with hw := hw }).1
      (programPmu P cfg { s with hw := hw }).2.1 (programPmu P cfg { s with hw := hw }).2.2 := by
  unfold programPmu
  dsimp only
  cases known : (stageConfig cfg s.driver).1 with
  | some eventId => exact .unknownEvent accepts (by simp [known]) rfl rfl rfl
  | none =>
    by_cases enabled : (P.ambiqPmuEnable hw).1 = 0
    · by_cases ok : (P.ambiqPmuInit (stageConfig cfg s.driver).2.2.ambiqPmuConfig
          (P.ambiqPmuEnable hw).2).1 = 0
      · simp only [enabled, ok, ne_eq, not_true_eq_false, if_false]
        exact .programmed accepts known enabled ok rfl rfl rfl
      · simp only [enabled, ok, ne_eq, not_true_eq_false, not_false_eq_true, if_false, if_true]
        exact .initFailed accepts known enabled ok rfl rfl rfl
    · simp only [enabled, ne_eq, not_false_eq_true, if_true]
      exact .enableFailed accepts known enabled rfl rfl rfl

theorem pmuInitCall_outcome (P : Platform H) (cfg : PmuConfig) (s : Pmu H) :
    InitOutcome P cfg s (pmuInitCall P cfg s).1 (pmuInitCall P cfg s).2.1
      (pmuInitCall P cfg s).2.2 := by
  unfold pmuInitCall
  cases api : cfg.api with
  | none =>
    exact .rejected (by simp [acceptedHw, api]) statusInvalidVersion_ne rfl (.inl rfl) rfl
  | some version =>
    dsimp only
    by_cases checked : (P.coreCheckApi version pmuOldestSupportedVersion pmuCurrentVersion s.hw).1 =
        statusSuccess
    · simp only [checked, ne_eq, not_true_eq_false, if_false]
      cases counted : countCounters cfg.events (List.range maxCounters) 0 with
      | none =>
        exact .rejected (by simp [acceptedHw, api, checked, counted]) statusInvalidConfig_ne rfl
          (.inr ⟨version, rfl⟩) rfl
      | some total =>
        dsimp only
        by_cases fits : total > maxCounters
        · rw [if_pos fits]
          exact .rejected (by simp [acceptedHw, api, checked, counted, fits]) statusInvalidConfig_ne rfl
            (.inr ⟨version, rfl⟩) rfl
        · rw [if_neg fits]
          exact programPmu_outcome P cfg s (by simp [acceptedHw, api, checked, counted, fits])
    · simp only [checked, ne_eq, not_false_eq_true, if_true]
      exact .rejected (by simp [acceptedHw, api, checked]) statusInvalidVersion_ne rfl
        (.inr ⟨version, rfl⟩) rfl

theorem acceptedHw_counted {P : Platform H} {cfg : PmuConfig} {hw hw' : H}
    (h : acceptedHw P cfg hw = some hw') :
    ∃ total, countCounters cfg.events (List.range maxCounters) 0 = some total ∧
      total ≤ maxCounters := by
  unfold acceptedHw at h
  split at h
  · cases h
  · dsimp only at h
    split at h
    · cases h
    · split at h
      · cases h
      · rename_i total counted
        split at h
        · cases h
        · exact ⟨total, counted, by omega⟩

theorem Layout.of_driver {events : ℕ → PmuEvent} {d d' : Driver} (layout : Layout events d)
    (config : d'.ambiqPmuConfig = d.ambiqPmuConfig) (index : d'.configIndex = d.configIndex) :
    Layout events d' where
  size := layout.size
  counters := config ▸ layout.counters
  index := index ▸ layout.index
  types := config ▸ layout.types
  chained := config ▸ layout.chained
  unused := config ▸ layout.unused

/-- What a successful call leaves: its staged configuration, and a driver that is on and
agrees with what was handed to `nsx_ambiq_pmu_init`. -/
structure Session (P : Platform H) (cfg cfg' : PmuConfig) (s' : Pmu H) : Prop where
  staged : Staged cfg cfg' s'.driver
  known : ∀ i < maxCounters, (cfg.events i).enabled = true →
    (getMapIndex (cfg.events i).eventId).isSome
  initialized : s'.driver.initialized = true
  profiling : s'.driver.profiling = true
  hw : ∃ hw, (P.ambiqPmuInit s'.driver.ambiqPmuConfig hw).1 = 0 ∧
    s'.hw = (P.ambiqPmuInit s'.driver.ambiqPmuConfig hw).2

theorem pmuInit_session {P : Platform H} {cfg : PmuConfig} {s : Pmu H}
    (ok : (pmuInit P cfg s).1 = statusSuccess) :
    Session P cfg (pmuInit P cfg s).2.1 (pmuInit P cfg s).2.2 := by
  have outcome := pmuInitCall_outcome P cfg s
  change (pmuInitCall P cfg s).1 = statusSuccess at ok
  have call : Session P cfg (pmuInitCall P cfg s).2.1 (pmuInitCall P cfg s).2.2 := by
    generalize pmuInitCall P cfg s = r at ok outcome
    obtain ⟨status, cfg', s'⟩ := r
    dsimp only at ok outcome ⊢
    cases outcome with
    | rejected _ failed => exact absurd ok failed
    | unknownEvent => exact absurd ok statusInvalidConfig_ne
    | enableFailed => exact absurd ok statusInitFailed_ne
    | initFailed => exact absurd ok statusInitFailed_ne
    | programmed accepts known _ programmed driver hw =>
      obtain ⟨total, counted, fits⟩ := acceptedHw_counted accepts
      have staged := stageConfig_staged counted fits known
      have ids := resolveEvents_none (stageConfig_known known)
      have config : s'.driver.ambiqPmuConfig = (stageConfig cfg s.driver).2.2.ambiqPmuConfig := by
        rw [driver]
      refine ⟨⟨staged.api, staged.events, ?_, staged.slots, staged.cleared, staged.added,
        staged.mapped⟩, fun i hi => ids i (List.mem_range.mpr hi), by rw [driver], by rw [driver], ?_⟩
      · exact staged.layout.of_driver config (by rw [driver])
      · rw [config]
        exact ⟨_, programmed, hw⟩
  exact ⟨call.staged, call.known, call.initialized, call.profiling, call.hw⟩

theorem pmuInit_success {P : Platform H} {cfg : PmuConfig} {s : Pmu H}
    (ok : (pmuInit P cfg s).1 = statusSuccess) :
    (pmuInit P cfg s).2.1.events = cfg.events ∧
    Layout cfg.events (pmuInit P cfg s).2.2.driver ∧
    (pmuInit P cfg s).2.2.driver.initialized = true ∧
    (pmuInit P cfg s).2.2.driver.profiling = true :=
  have session := pmuInit_session ok
  ⟨session.staged.events, session.staged.layout, session.initialized, session.profiling⟩

theorem pmuInit_events (P : Platform H) (cfg : PmuConfig) (s : Pmu H) :
    (pmuInit P cfg s).2.1.events = cfg.events := by
  have staged : (stageConfig cfg s.driver).2.1.events = cfg.events := by
    unfold stageConfig
    dsimp only
    split <;> rfl
  have outcome := pmuInitCall_outcome P cfg s
  change (pmuInitCall P cfg s).2.1.events = cfg.events
  generalize pmuInitCall P cfg s = r at outcome
  obtain ⟨status, cfg', s'⟩ := r
  cases outcome with
  | rejected => rfl
  | unknownEvent => exact staged
  | enableFailed => exact staged
  | initFailed => exact staged
  | programmed => exact staged

theorem pmuInit_history (P : Platform H) (cfg : PmuConfig) (s : Pmu H) :
    (pmuInit P cfg s).2.2.inits =
      ⟨(pmuInit P cfg s).1, (pmuInit P cfg s).2.1, (pmuInit P cfg s).2.2.driver⟩ :: s.inits := by
  have outcome := pmuInitCall_outcome P cfg s
  have kept : (pmuInitCall P cfg s).2.2.inits = s.inits := by
    generalize pmuInitCall P cfg s = r at outcome
    obtain ⟨status, cfg', s'⟩ := r
    cases outcome <;> assumption
  change _ :: (pmuInitCall P cfg s).2.2.inits = _
  rw [kept]
  rfl

theorem programPmu_silent {P : Platform H} {cfg : PmuConfig} {s : Pmu H}
    (ok : (programPmu P cfg s).1 = statusSuccess) : (programPmu P cfg s).2.2.console = s.console := by
  unfold programPmu at ok ⊢
  dsimp only at ok ⊢
  split at ok
  · exact absurd ok statusInvalidConfig_ne
  · split at ok
    · exact absurd ok statusInitFailed_ne
    · rename_i enabled
      rw [if_neg enabled]
      split
      · rfl
      · rfl

theorem pmuInit_silent {P : Platform H} {cfg : PmuConfig} {s : Pmu H}
    (ok : (pmuInit P cfg s).1 = statusSuccess) :
    (pmuInit P cfg s).2.2.console = s.console := by
  change (pmuInitCall P cfg s).1 = statusSuccess at ok
  change (pmuInitCall P cfg s).2.2.console = s.console
  unfold pmuInitCall at ok ⊢
  split at ok
  · exact absurd ok statusInvalidVersion_ne
  · dsimp only at ok ⊢
    split at ok
    · exact absurd ok statusInvalidVersion_ne
    · rename_i checked
      rw [if_neg checked]
      split at ok
      · exact absurd ok statusInvalidConfig_ne
      · split at ok
        · exact absurd ok statusInvalidConfig_ne
        · rename_i fits
          rw [if_neg fits]
          exact programPmu_silent ok

theorem pmuInit_cleared (P : Platform H) {cfg : PmuConfig} (s : Pmu H)
    (zero : ∀ i < maxCounters, (cfg.counter i).counterValue = 0) :
    ∀ i < maxCounters, ((pmuInit P cfg s).2.1.counter i).counterValue = 0 := by
  have outcome := pmuInitCall_outcome P cfg s
  change ∀ i < maxCounters, ((pmuInitCall P cfg s).2.1.counter i).counterValue = 0
  generalize pmuInitCall P cfg s = r at outcome
  obtain ⟨status, cfg', s'⟩ := r
  dsimp only at outcome ⊢
  have known : ∀ hw, acceptedHw P cfg s.hw = some hw → (stageConfig cfg s.driver).1 = none →
      ∀ i < maxCounters, ((stageConfig cfg s.driver).2.1.counter i).counterValue = 0 := by
    intro hw accepts found
    obtain ⟨total, counted, fits⟩ := acceptedHw_counted accepts
    exact (stageConfig_staged counted fits found).cleared
  cases outcome with
  | rejected => exact zero
  | unknownEvent _ unknown =>
    intro i hi
    unfold stageConfig at unknown ⊢
    dsimp only at unknown ⊢
    split
    · exact resolveEvents_cleared (zero i hi)
    · rename_i found
      rw [found] at unknown
      exact absurd rfl unknown
  | enableFailed accepts found => exact known _ accepts found
  | initFailed accepts found => exact known _ accepts found
  | programmed accepts found => exact known _ accepts found

end NsxPmu
