import NsxPmu.PmuInitOutcome

set_option autoImplicit false

/-!
# What `nsx_pmu_get_counters` reads

Under a layout, the read-out visits the base counters in placement order and
stores each slot's reading in that slot.
-/
namespace NsxPmu
open Function (update)
open ConsecutiveIntervals

variable {H : Type}

/-- The hardware while its counters are stopped for the read-out. -/
def pausedHw (P : Platform H) (s : Pmu H) : H :=
  (cntrDisable P s.driver.ambiqPmuConfig.counters s).2.hw

/-- The two halves of a 32-bit reading as the code joins them. -/
def pairReading (P : Platform H) (hw : H) (base : ℕ) : Word :=
  P.getEvcntr base hw + (P.getEvcntr (base + 1) hw <<< 16)

theorem pairReading_eq (P : Platform H) (hw : H) (base : ℕ) :
    pairReading P hw base = P.getEvcntr base hw + 65536 * P.getEvcntr (base + 1) hw := by
  have shift : ∀ w : Word, w <<< 16 = 65536 * w := by
    intro w
    have power : BitVec.twoPow 32 16 = 65536 := by decide
    rw [BitVec.shiftLeft_eq_mul_twoPow, BitVec.mul_comm, power]
  rw [pairReading, shift]

def slotReading (P : Platform H) (hw : H) (events : ℕ → PmuEvent) (i base : ℕ) : Word :=
  if (events i).counterSize = .size32 then pairReading P hw base else P.getEvcntr base hw

theorem readCounters_idle (P : Platform H) (d : Driver) (hw : H) (events : ℕ → PmuEvent)
    (rounds : ℕ) {n : ℕ} (counter : ℕ → PmuCounter)
    (clear : ∀ m < maxCounters, n ≤ m → d.ambiqPmuConfig.counters.getLsbD m = false) :
    readCounters P d hw events rounds n counter = counter := by
  induction rounds generalizing n with
  | zero => rfl
  | succ rounds ih =>
    rw [readCounters]
    by_cases done : n ≥ maxCounters
    · rw [if_pos done]
    · rw [if_neg done]
      have off := clear n (by omega) (le_refl n)
      rw [if_pos ((mask_test (by dsimp only [maxCounters] at done; omega)).mpr off)]
      exact ih (fun m hm h => clear m hm (by omega))

theorem readCounters_slot {P : Platform H} {d : Driver} {hw : H} {events : ℕ → PmuEvent}
    {n i : ℕ} (hn : n < maxCounters) (on : d.ambiqPmuConfig.counters.getLsbD n = true)
    (index : d.configIndex n = i) (rounds : ℕ) (counter : ℕ → PmuCounter) :
    readCounters P d hw events (rounds + 1) n counter =
      readCounters P d hw events rounds (n + width events i)
        (update counter i { counter i with counterValue := slotReading P hw events i n }) := by
  have set : ¬ d.ambiqPmuConfig.counters &&& counterMask n = 0 := by
    rw [mask_test (by dsimp only [maxCounters] at hn; omega), on]
    simp
  rw [readCounters, if_neg (by omega), if_neg set, index]
  by_cases wide : (events i).counterSize = .size32 <;> simp [wide, width, slotReading, pairReading]

/-- The counters at which the read-out loop starts a reading, from counter `n` on. -/
def readBases (d : Driver) (events : ℕ → PmuEvent) : ℕ → ℕ → List ℕ
  | 0, _ => []
  | rounds + 1, n =>
    if n ≥ maxCounters then []
    else if d.ambiqPmuConfig.counters &&& counterMask n = 0 then
      readBases d events rounds (n + 1)
    else n :: readBases d events rounds (n + width events (d.configIndex n))

/-- The counter that gives a slot its value, the last one that is assigned to it. -/
def slotBase (d : Driver) (bases : List ℕ) (slot : ℕ) : Option ℕ :=
  (bases.filter fun base => d.configIndex base = slot).getLast?

theorem readCounters_value (P : Platform H) (d : Driver) (hw : H) (events : ℕ → PmuEvent)
    (rounds n slot : ℕ) (counter : ℕ → PmuCounter) :
    (readCounters P d hw events rounds n counter slot).counterValue =
      match slotBase d (readBases d events rounds n) slot with
      | some base => slotReading P hw events slot base
      | none => (counter slot).counterValue := by
  induction rounds generalizing n counter with
  | zero => rfl
  | succ rounds ih =>
    unfold readBases
    by_cases done : n ≥ maxCounters
    · rw [readCounters, if_pos done, if_pos done]
      rfl
    rw [if_neg done]
    by_cases off : d.ambiqPmuConfig.counters &&& counterMask n = 0
    · rw [readCounters, if_neg done, if_pos off, if_pos off]
      exact ih (n + 1) counter
    have on : d.ambiqPmuConfig.counters.getLsbD n = true := by
      rw [mask_test (by dsimp only [maxCounters] at done; omega)] at off
      simpa using off
    rw [if_neg off, readCounters_slot (by omega) on rfl, ih, slotBase, slotBase, List.filter_cons]
    by_cases here : d.configIndex n = slot
    · -- a later counter of the same slot overwrites this reading
      rw [if_pos (by simpa using here), List.getLast?_cons, here, Function.update_self]
      cases ((readBases d events rounds (n + width events slot)).filter
        fun base => d.configIndex base = slot).getLast? <;> rfl
    · rw [if_neg (by simpa using here), Function.update_of_ne (Ne.symm here)]

theorem readCounters_placed {P : Platform H} {d : Driver} {hw : H} {events : ℕ → PmuEvent}
    {l : List ℕ} {n rounds : ℕ} {counter : ℕ → PmuCounter} (nodup : l.Nodup)
    (fits : n + extent (width events) l ≤ maxCounters) (enough : maxCounters ≤ n + rounds)
    (bits : ∀ m < maxCounters, n ≤ m →
      (d.ambiqPmuConfig.counters.getLsbD m = true ↔ m < n + extent (width events) l))
    (index : ∀ p ∈ place (width events) n l, d.configIndex p.2 = p.1) :
    (∀ p ∈ place (width events) n l, readCounters P d hw events rounds n counter p.1 =
      { counter p.1 with counterValue := slotReading P hw events p.1 p.2 }) ∧
    ∀ i ∉ l, readCounters P d hw events rounds n counter i = counter i := by
  induction l generalizing n rounds counter with
  | nil =>
    have idle := readCounters_idle P d hw events rounds (n := n) counter (by
      intro m hm h
      rw [← Bool.not_eq_true, bits m hm h]
      simp only [extent_nil]
      omega)
    simp [idle]
  | cons i l ih =>
    rw [List.nodup_cons] at nodup
    have pos := width_pos events i
    rw [extent_cons] at fits bits
    have hn : n < maxCounters := by omega
    obtain ⟨rounds, rfl⟩ : ∃ r, rounds = r + 1 := ⟨rounds - 1, by omega⟩
    rw [readCounters_slot hn ((bits n hn (le_refl n)).mpr (by omega)) (index (i, n) (by simp))]
    obtain ⟨placed, others⟩ := @ih (n + width events i) rounds
      (update counter i { counter i with counterValue := slotReading P hw events i n })
      nodup.2 (by omega) (by omega)
      (fun m hm h => (bits m hm (by omega)).trans (by omega))
      (fun p hp => index p (by simp [hp]))
    refine ⟨?_, ?_⟩
    · intro p hp
      rw [place_cons, List.mem_cons] at hp
      rcases hp with rfl | hp
      · rw [others i nodup.1]
        simp
      · have other : p.1 ≠ i := fun eq => nodup.1 (eq ▸ mem_of_mem_place hp)
        rw [placed p hp]
        simp [other]
    · intro j hj
      rw [List.mem_cons, not_or] at hj
      rw [others j hj.2]
      simp [hj.1]

/-- The statuses and the frame of a read-out, whatever the driver's state. -/
structure ReadFrame (cfg : PmuConfig) (s : Pmu H) (r : Status × PmuConfig × Pmu H) : Prop where
  status : r.1 = statusSuccess ↔ s.driver.initialized = true ∧ s.driver.profiling = true
  api : r.2.1.api = cfg.api
  events : r.2.1.events = cfg.events
  driver : r.2.2.driver = s.driver
  inits : r.2.2.inits = s.inits
  console : r.2.2.console = s.console

theorem cntrDisable_frame (P : Platform H) (mask : Word) (s : Pmu H) :
    (cntrDisable P mask s).2 = { s with hw := (cntrDisable P mask s).2.hw } := by
  unfold cntrDisable
  split <;> rfl

theorem cntrEnable_frame (P : Platform H) (mask : Word) (s : Pmu H) :
    (cntrEnable P mask s).2 = { s with hw := (cntrEnable P mask s).2.hw } := by
  unfold cntrEnable
  split <;> rfl

theorem pmuGetCounters_frame (P : Platform H) (cfg : PmuConfig) (s : Pmu H) :
    ReadFrame cfg s (pmuGetCounters P cfg s) := by
  unfold pmuGetCounters
  by_cases ready : (!s.driver.initialized || !s.driver.profiling) = true
  · rw [if_pos ready]
    refine ⟨?_, rfl, rfl, rfl, rfl, rfl⟩
    simp only [statusInitFailed_ne, false_iff]
    rintro ⟨a, b⟩
    simp [a, b] at ready
  · rw [if_neg ready]
    dsimp only
    rw [cntrEnable_frame, cntrDisable_frame]
    refine ⟨?_, rfl, rfl, rfl, rfl, rfl⟩
    simpa using ready

theorem pmuGetCounters_refused (P : Platform H) (cfg : PmuConfig) {s : Pmu H}
    (off : ¬ (s.driver.initialized = true ∧ s.driver.profiling = true)) :
    pmuGetCounters P cfg s = (statusInitFailed, cfg, s) := by
  apply if_pos
  cases initialized : s.driver.initialized with
  | false => rfl
  | true => simpa [initialized] using off

def resumedHw (P : Platform H) (s : Pmu H) : H :=
  (cntrEnable P s.driver.ambiqPmuConfig.counters
    (pmuResetCounters P { s with hw := pausedHw P s })).2.hw

theorem pmuGetCounters_ready {P : Platform H} {s : Pmu H} (cfg : PmuConfig)
    (initialized : s.driver.initialized = true) (profiling : s.driver.profiling = true) :
    pmuGetCounters P cfg s =
      (statusSuccess,
        { cfg with
            counter := readCounters P s.driver (pausedHw P s) cfg.events maxCounters 0 cfg.counter },
        { s with hw := resumedHw P s }) := by
  unfold pmuGetCounters resumedHw pausedHw
  simp only [initialized, profiling, Bool.not_true, Bool.or_self, Bool.false_eq_true, if_false]
  rw [cntrEnable_frame, cntrDisable_frame]
  rfl

/-- Under a layout of its own events a configuration reads every enabled slot. -/
theorem pmuGetCounters_layout {P : Platform H} {cfg : PmuConfig} {s : Pmu H}
    (layout : Layout cfg.events s.driver) (initialized : s.driver.initialized = true)
    (profiling : s.driver.profiling = true) :
    (∀ p ∈ place (width cfg.events) 0 (allocationOrder cfg.events),
      (pmuGetCounters P cfg s).2.1.counter p.1 =
        { cfg.counter p.1 with counterValue := slotReading P (pausedHw P s) cfg.events p.1 p.2 }) ∧
    ∀ i ∉ allocationOrder cfg.events, (pmuGetCounters P cfg s).2.1.counter i = cfg.counter i := by
  rw [pmuGetCounters_ready cfg initialized profiling]
  apply readCounters_placed (allocationOrder_nodup cfg.events)
  · rw [Nat.zero_add]
    exact layout.size
  · simp
  · intro m hm _
    rw [layout.counters m (by dsimp only [maxCounters] at hm; omega), Nat.zero_add]
    dsimp only [maxCounters] at hm
    omega
  · exact layout.index

/-- The mask of a layout passes the driver's own test, so its counters are really stopped. -/
theorem Layout.mask_valid {events : ℕ → PmuEvent} {d : Driver} (layout : Layout events d) :
    d.ambiqPmuConfig.counters &&& ~~~validCounters = 0 := by
  apply valid_mask
  intro m hm bit
  have size := layout.size
  dsimp only [maxCounters] at size
  rcases (layout.counters m hm).mp bit with h | h <;> omega

theorem Layout.pausedHw_eq {P : Platform H} {events : ℕ → PmuEvent} {s : Pmu H}
    (layout : Layout events s.driver) :
    pausedHw P s = P.cntrDisable s.driver.ambiqPmuConfig.counters s.hw := by
  simp [pausedHw, cntrDisable, layout.mask_valid]

theorem Layout.resumedHw_eq {P : Platform H} {events : ℕ → PmuEvent} {s : Pmu H}
    (layout : Layout events s.driver) :
    resumedHw P s = P.cntrEnable s.driver.ambiqPmuConfig.counters
      (P.setCntrOvs validOvsclrs (P.evcntrAllReset (P.cyccntReset
        (P.cntrDisable s.driver.ambiqPmuConfig.counters s.hw)))) := by
  simp [resumedHw, layout.pausedHw_eq, cntrEnable, pmuResetCounters, layout.mask_valid]

end NsxPmu
