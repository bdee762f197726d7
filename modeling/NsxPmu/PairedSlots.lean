import NsxPmu.Hardware

set_option autoImplicit false

/-!
# Passes of 32-bit events

The configurations that the collectors build: the first slots measure one event
each, with a pair of counters, and the other slots are off.
-/
namespace NsxPmu
open ConsecutiveIntervals

variable {H : Type}

/-- The first `n` slots are 32-bit slots with the ids `id`; the others are off. -/
def PairedSlots (n : ℕ) (id : ℕ → Word) (events : ℕ → PmuEvent) : Prop :=
  ∀ i < maxCounters, events i = if i < n then ⟨true, id i, .size32⟩ else ⟨false, 0, .size16⟩

/-- A cleared configuration with the first `n` slots set to the ids `id`. -/
def pairedConfig (api : Option CoreApi) (old : PmuConfig) (n : ℕ) (id : ℕ → Word) : PmuConfig :=
  { pmuResetConfig old with
      api := api
      events := fun i => if i < n then ⟨true, id i, .size32⟩ else (pmuResetConfig old).events i }

theorem pairedConfig_slots (api : Option CoreApi) (old : PmuConfig) (n : ℕ) (id : ℕ → Word) :
    PairedSlots n id (pairedConfig api old n id).events := by
  intro i hi
  dsimp only [pairedConfig, pmuResetConfig]
  rw [if_pos hi]

/-- Set the slots of a list to the ids `id` until one of them is to stop at. -/
def createUntil (stop : ℕ → Bool) (id : ℕ → Word) : List ℕ → PmuConfig → PmuConfig
  | [], cfg => cfg
  | i :: rest, cfg =>
    if stop i then cfg else createUntil stop id rest (pmuEventCreate cfg i (id i) .size32)

theorem createUntil_eq {stop : ℕ → Bool} {id : ℕ → Word} {n : ℕ} (s k : ℕ) (cfg : PmuConfig)
    (stops : ∀ i, s ≤ i → i < s + k → (stop i = true ↔ n ≤ i)) :
    createUntil stop id (List.range' s k) cfg =
      { cfg with
          events := fun i =>
            if s ≤ i ∧ i < s + k ∧ i < n then ⟨true, id i, .size32⟩ else cfg.events i } := by
  induction k generalizing s cfg with
  | zero =>
    have never : ∀ i, ¬ (s ≤ i ∧ i < s + 0 ∧ i < n) := by
      intro i
      omega
    simp only [never, if_false]
    rfl
  | succ k ih =>
    rw [List.range'_succ, createUntil]
    by_cases last : stop s = true
    · have past := (stops s (by omega) (by omega)).mp last
      have never : ∀ i, ¬ (s ≤ i ∧ i < s + (k + 1) ∧ i < n) := by
        intro i
        omega
      simp only [last, never, if_true, if_false]
    · have before : s < n := by
        have h := stops s (by omega) (by omega)
        rw [eq_false last, false_iff] at h
        omega
      rw [if_neg last, ih (s + 1) _ fun i lo hi => stops i (by omega) (by omega)]
      congr 1
      funext i
      by_cases here : i = s
      · subst here
        rw [if_neg (by omega), if_pos (by omega)]
        simp [pmuEventCreate]
      · have same : (s + 1 ≤ i ∧ i < s + 1 + k ∧ i < n) ↔
            (s ≤ i ∧ i < s + (k + 1) ∧ i < n) := by omega
        simp only [same, pmuEventCreate, Function.update_of_ne here]

theorem createUntil_paired {stop : ℕ → Bool} {id id' : ℕ → Word} {n : ℕ} (api : Option CoreApi)
    (old : PmuConfig) (few : n ≤ 4) (stops : ∀ i < 4, stop i = true ↔ n ≤ i)
    (ids : ∀ i < n, id i = id' i) :
    createUntil stop id (List.range 4) { pmuResetConfig old with api := api } =
      pairedConfig api old n id' := by
  rw [List.range_eq_range', createUntil_eq 0 4 _ fun i _ hi => stops i (by omega)]
  unfold pairedConfig
  congr 1
  funext i
  by_cases inside : i < n
  · rw [if_pos (by omega), if_pos inside, ids i inside]
  · rw [if_neg (by omega), if_neg inside]

section PairedSlots
variable {n : ℕ} {id : ℕ → Word} {events : ℕ → PmuEvent}

theorem PairedSlots.on (h : PairedSlots n id events) (hn : n ≤ 4) {i : ℕ} (hi : i < n) :
    events i = ⟨true, id i, .size32⟩ := by
  rw [h i (by dsimp only [maxCounters]; omega), if_pos hi]

theorem PairedSlots.range_split (hn : n ≤ 4) : List.range maxCounters =
    List.range n ++ (List.range (maxCounters - n)).map (n + ·) := by
  rw [← List.range_add]
  congr 1
  dsimp only [maxCounters]
  omega

theorem PairedSlots.off (h : PairedSlots n id events) :
    ∀ i ∈ (List.range (maxCounters - n)).map (n + ·), (events i).enabled = false := by
  intro i hi
  obtain ⟨j, hj, rfl⟩ := List.mem_map.mp hi
  have hj := List.mem_range.mp hj
  rw [h (n + j) (by omega), if_neg (by omega)]

theorem PairedSlots.wide (h : PairedSlots n id events) (hn : n ≤ 4) :
    enabledSlots events .size32 = List.range n := by
  unfold enabledSlots
  rw [range_split hn, List.filter_append, List.filter_eq_self.mpr, List.filter_eq_nil_iff.mpr,
    List.append_nil]
  · intro i hi
    simp [h.off i hi]
  · intro i hi
    simp [h.on hn (List.mem_range.mp hi)]

theorem PairedSlots.narrow (h : PairedSlots n id events) (hn : n ≤ 4) :
    enabledSlots events .size16 = [] := by
  unfold enabledSlots
  rw [range_split hn, List.filter_append, List.filter_eq_nil_iff.mpr, List.filter_eq_nil_iff.mpr,
    List.append_nil]
  · intro i hi
    simp [h.off i hi]
  · intro i hi
    simp [h.on hn (List.mem_range.mp hi)]

theorem PairedSlots.order (h : PairedSlots n id events) (hn : n ≤ 4) :
    allocationOrder events = List.range n := by
  rw [allocationOrder, h.wide hn, h.narrow hn, List.append_nil]

theorem PairedSlots.two (h : PairedSlots n id events) (hn : n ≤ 4) :
    ∀ i ∈ List.range n, width events i = 2 := by
  intro i hi
  exact width_of_size32 (by rw [h.on hn (List.mem_range.mp hi)])

theorem PairedSlots.counted (h : PairedSlots n id events) (hn : n ≤ 4) :
    countCounters events (List.range maxCounters) 0 = some (2 * n) := by
  rw [countCounters_eq_some]
  refine ⟨?_, ?_⟩
  · intro i hi on
    rw [h i (List.mem_range.mp hi)] at on ⊢
    split
    · exact .inl rfl
    · exact .inr rfl
  · have wide := h.wide hn
    have narrow := h.narrow hn
    unfold enabledSlots at wide narrow
    rw [wide, narrow, extent_const (h.two hn), List.length_range]
    simp

theorem PairedSlots.placed (h : PairedSlots n id events) (hn : n ≤ 4) {i : ℕ} (hi : i < n) :
    (i, 2 * i) ∈ place (width events) 0 (allocationOrder events) := by
  have member := place_const (n := 0) (h.two hn) (k := i) (i := i) (by simp [hi])
  rw [Nat.zero_add] at member
  rwa [h.order hn]

end PairedSlots

/-- The configuration has the paired slots, and the driver reads the counters as it asks. -/
structure PairsReady (n : ℕ) (id : ℕ → Word) (cfg : PmuConfig) (d : Driver) : Prop where
  slots : PairedSlots n id cfg.events
  few : n ≤ 4
  layout : Layout cfg.events d
  initialized : d.initialized = true
  profiling : d.profiling = true

/-- The hardware is programmed for the paired slots. -/
def PairsProgrammed (evtyper : H → ℕ → Word) (n : ℕ) (id : ℕ → Word) (hw : H) : Prop :=
  ∀ i < n, evtyper hw (2 * i) = id i ∧ evtyper hw (2 * i + 1) = armPmuChain

section Sessions
variable {P : Platform H} {evtyper : H → ℕ → Word} {n : ℕ} {id : ℕ → Word} {cfg : PmuConfig}
  {s : Pmu H}

theorem PairsReady.types {d : Driver} (ready : PairsReady n id cfg d) {i : ℕ} (hi : i < n) :
    d.ambiqPmuConfig.eventTypes (2 * i) = id i ∧
      d.ambiqPmuConfig.eventTypes (2 * i + 1) = armPmuChain := by
  have placed := ready.slots.placed ready.few hi
  have on := ready.slots.on ready.few hi
  refine ⟨?_, ready.layout.chained _ placed (by rw [on])⟩
  rw [ready.layout.types _ placed, on]

theorem pairsReady_of_init (slots : PairedSlots n id cfg.events) (few : n ≤ 4)
    (ok : (pmuInit P cfg s).1 = statusSuccess) :
    PairsReady n id (pmuInit P cfg s).2.1 (pmuInit P cfg s).2.2.driver := by
  obtain ⟨events, layout, initialized, profiling⟩ := pmuInit_success ok
  exact ⟨by rwa [events], few, by rwa [events], initialized, profiling⟩

theorem PairedSlots.known (slots : PairedSlots n id cfg.events)
    (known : ∀ i < n, (getMapIndex (id i)).isSome) :
    ∀ i < maxCounters, (cfg.events i).enabled = true →
      (getMapIndex (cfg.events i).eventId).isSome := by
  intro i hi on
  rw [slots i hi] at on ⊢
  split at on
  · rename_i here
    rw [if_pos here]
    exact known i here
  · cases on

theorem PairedSlots.refused {api : CoreApi} (version : cfg.api = some api)
    (slots : PairedSlots n id cfg.events) (few : n ≤ 4)
    (known : ∀ i < n, (getMapIndex (id i)).isSome)
    (failed : (pmuInit P cfg s).1 ≠ statusSuccess) :
    PlatformFails P api (pmuInit P cfg s).2.2.driver.ambiqPmuConfig s.hw :=
  pmuInit_refused version (slots.counted few) (by dsimp only [maxCounters]; omega)
    (slots.known known) failed

theorem Answers.pairs {api : CoreApi} (answers : Answers P api) (version : cfg.api = some api)
    (slots : PairedSlots n id cfg.events) (few : n ≤ 4)
    (known : ∀ i < n, (getMapIndex (id i)).isSome) : (pmuInit P cfg s).1 = statusSuccess :=
  answers.programmed version (slots.counted few) (by dsimp only [maxCounters]; omega)
    (slots.known known)

theorem Programs.pairs_of_init (laws : Programs P evtyper) (slots : PairedSlots n id cfg.events)
    (few : n ≤ 4) (ok : (pmuInit P cfg s).1 = statusSuccess) :
    PairsProgrammed evtyper n id (pmuInit P cfg s).2.2.hw := by
  intro i hi
  have types := (pairsReady_of_init slots few ok).types hi
  rw [laws.pmuInit_success ok (by dsimp only [maxCounters]; omega),
    laws.pmuInit_success ok (by dsimp only [maxCounters]; omega)]
  exact types

theorem PairsProgrammed.of_evtyper {hw hw' : H} (h : PairsProgrammed evtyper n id hw)
    (few : n ≤ 4) (same : ∀ k < maxCounters, evtyper hw' k = evtyper hw k) :
    PairsProgrammed evtyper n id hw' := by
  intro i hi
  rw [same _ (by dsimp only [maxCounters]; omega), same _ (by dsimp only [maxCounters]; omega)]
  exact h i hi

theorem PairsReady.getCounters (ready : PairsReady n id cfg s.driver) :
    (pmuGetCounters P cfg s).1 = statusSuccess ∧
    PairsReady n id (pmuGetCounters P cfg s).2.1 (pmuGetCounters P cfg s).2.2.driver ∧
    ∀ i < n, ((pmuGetCounters P cfg s).2.1.counter i).counterValue =
      pairReading P (pausedHw P s) (2 * i) := by
  have frame := pmuGetCounters_frame P cfg s
  refine ⟨frame.status.mpr ⟨ready.initialized, ready.profiling⟩, ?_, ?_⟩
  · rw [frame.driver]
    exact ⟨by rw [frame.events]; exact ready.slots, ready.few,
      by rw [frame.events]; exact ready.layout, ready.initialized, ready.profiling⟩
  · intro i hi
    have read := (pmuGetCounters_layout (P := P) ready.layout ready.initialized
      ready.profiling).1 _ (ready.slots.placed ready.few hi)
    rw [read]
    simp [slotReading, ready.slots.on ready.few hi]

end Sessions

end NsxPmu
