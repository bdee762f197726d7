import NsxPmu.AccumulatorAccounting

set_option autoImplicit false

/-!
# One PMU for all collectors

What each call of a collector does to the PMU that all of them share, and what a
collector's own configuration says about its current pass or batch.
-/
namespace NsxPmu
open ConsecutiveIntervals

variable {H X : Type} {P : Platform H} {evtyper : H → ℕ → Word}

/-- The driver and the hardware hold the slots `events`. -/
structure SetUpFor (evtyper : H → ℕ → Word) (events : ℕ → PmuEvent) (s : Pmu H) : Prop where
  layout : Layout events s.driver
  initialized : s.driver.initialized = true
  profiling : s.driver.profiling = true
  types : ∀ k < maxCounters, evtyper s.hw k = s.driver.ambiqPmuConfig.eventTypes k

/-- The PMU is set up as the latest call of `nsx_pmu_init` asked for. -/
def LatestHolds (evtyper : H → ℕ → Word) (s : Pmu H) : Prop :=
  ∀ r, s.inits.head? = some r → SetUpFor evtyper r.cfg.events s

/-- The latest call of `nsx_pmu_init` asked for the slots of this configuration. -/
def HoldsPmu (cfg : PmuConfig) (s : Pmu H) : Prop :=
  ∃ r, s.inits.head? = some r ∧ ∀ i < maxCounters, cfg.events i = r.cfg.events i

theorem Layout.of_events {events events' : ℕ → PmuEvent} {d : Driver} (layout : Layout events d)
    (same : ∀ i < maxCounters, events' i = events i) : Layout events' d := by
  have slots : ∀ size, enabledSlots events' size = enabledSlots events size := by
    intro size
    apply List.filter_congr
    intro i hi
    rw [same i (List.mem_range.mp hi)]
  have order : allocationOrder events' = allocationOrder events := by
    rw [allocationOrder, allocationOrder, slots, slots]
  have slot : ∀ i ∈ allocationOrder events, events' i = events i :=
    fun i hi => same i (mem_allocationOrder.mp hi).1
  have placed : ∀ n, place (width events') n (allocationOrder events) =
      place (width events) n (allocationOrder events) ∧
      extent (width events') (allocationOrder events) =
        extent (width events) (allocationOrder events) := by
    intro n
    apply place_congr
    intro i hi
    rw [width, width, slot i hi]
  have member : ∀ p ∈ place (width events) 0 (allocationOrder events), events' p.1 = events p.1 :=
    fun p hp => slot p.1 (mem_of_mem_place hp)
  constructor
  all_goals rw [order]
  all_goals simp only [(placed 0).1, (placed 0).2]
  · exact layout.size
  · exact layout.counters
  · exact layout.index
  · intro p hp
    rw [member p hp]
    exact layout.types p hp
  · intro p hp
    rw [member p hp]
    exact layout.chained p hp
  · exact layout.unused

theorem HoldsPmu.setUp {cfg : PmuConfig} {s : Pmu H} (holds : HoldsPmu cfg s)
    (latest : LatestHolds evtyper s) : SetUpFor evtyper cfg.events s := by
  obtain ⟨r, newest, same⟩ := holds
  have setUp := latest r newest
  exact ⟨setUp.layout.of_events same, setUp.initialized, setUp.profiling, setUp.types⟩

theorem SetUpFor.pairs {n : ℕ} {id : ℕ → Word} {cfg : PmuConfig} {s : Pmu H}
    (setUp : SetUpFor evtyper cfg.events s) (slots : PairedSlots n id cfg.events) (few : n ≤ 4) :
    PairsReady n id cfg s.driver ∧ PairsProgrammed evtyper n id s.hw := by
  have ready : PairsReady n id cfg s.driver :=
    ⟨slots, few, setUp.layout, setUp.initialized, setUp.profiling⟩
  refine ⟨ready, ?_⟩
  intro i hi
  rw [setUp.types _ (by dsimp only [maxCounters]; omega),
    setUp.types _ (by dsimp only [maxCounters]; omega)]
  exact ready.types hi

/-- What a call of a collector can do to the PMU: leave driver and event types alone, or make
one call of `nsx_pmu_init`. -/
inductive PmuAdvances (P : Platform H) (evtyper : H → ℕ → Word) (s s' : Pmu H) : Prop where
  | kept (inits : s'.inits = s.inits) (driver : s'.driver = s.driver)
      (types : ∀ k < maxCounters, evtyper s'.hw k = evtyper s.hw k)
  | programmed (cfg : PmuConfig) (eq : s' = (pmuInit P cfg s).2.2)

theorem PmuAdvances.refl (P : Platform H) (evtyper : H → ℕ → Word) (s : Pmu H) :
    PmuAdvances P evtyper s s := .kept rfl rfl fun _ _ => rfl

theorem LatestHolds.advance (laws : Programs P evtyper) {s s' : Pmu H}
    (latest : LatestHolds evtyper s) (advances : PmuAdvances P evtyper s s')
    (successes : ∀ r ∈ s'.inits, r.status = statusSuccess) : LatestHolds evtyper s' := by
  intro r newest
  cases advances with
  | kept inits driver types =>
    rw [inits] at newest
    have setUp := latest r newest
    refine ⟨?_, ?_, ?_, ?_⟩
    · rw [driver]
      exact setUp.layout
    · rw [driver]
      exact setUp.initialized
    · rw [driver]
      exact setUp.profiling
    · intro k hk
      rw [types k hk, driver]
      exact setUp.types k hk
  | programmed cfg eq =>
    subst eq
    rw [pmuInit_history] at newest successes
    obtain rfl := Option.some.inj newest
    have ok : (pmuInit P cfg s).1 = statusSuccess := successes _ List.mem_cons_self
    obtain ⟨events, layout, initialized, profiling⟩ := pmuInit_success ok
    dsimp only
    rw [events]
    exact ⟨layout, initialized, profiling, fun k hk => laws.pmuInit_success ok hk⟩

theorem pmuResetCounters_advances (laws : Programs P evtyper) (s : Pmu H) :
    PmuAdvances P evtyper s (pmuResetCounters P s) :=
  .kept rfl rfl fun _ hk => laws.pmuResetCounters s hk

theorem pmuGetCounters_advances (laws : Programs P evtyper) (cfg : PmuConfig) (s : Pmu H) :
    PmuAdvances P evtyper s (pmuGetCounters P cfg s).2.2 :=
  have frame := pmuGetCounters_frame P cfg s
  .kept frame.inits frame.driver fun _ hk => laws.pmuGetCounters cfg s hk

section Captures

/-- The map has an event for every column of the current pass. -/
def Capture.PassKnown (c : Capture) : Prop :=
  ∀ slot < c.currentPassEvents, c.mapEntry (c.currentEventBase + slot) < pmuMapSize

def Capture.OwnPass (c : Capture) : Prop :=
  c.PassKnown → PairedSlots c.currentPassEvents c.slotId c.pmuCfg.events

theorem capturePreparePass_own (P : Platform H) (evtyper : H → ℕ → Word) {c : Capture} (s : Pmu H)
    (setup : CaptureSetup c) (base : c.currentEventBase < c.totalEventCount) :
    (capturePreparePass P c s).2.1.OwnPass ∧
      PmuAdvances P evtyper s (capturePreparePass P c s).2.2 := by
  have capture := capturePreparePass_capture P s setup base
  rcases capturePreparePass_cases P s setup base with ⟨-, eq⟩ | ⟨⟨slot, hs, unknown⟩, -, eq⟩
  · rw [eq]
    refine ⟨fun _ => ?_, .programmed _ rfl⟩
    dsimp only
    rw [pmuInit_events]
    exact pairedConfig_slots c.api c.pmuCfg c.passSize c.slotId
  · refine ⟨fun known => ?_, ?_⟩
    · rw [capture] at known
      exact absurd (known slot hs) unknown
    · rw [eq]
      exact .refl P evtyper s

theorem captureResetChunk_own (P : Platform H) (evtyper : H → ℕ → Word) {c : Capture} (w : World H)
    {chunkStart : ℕ} (setup : CaptureSetup c) (start : chunkStart < c.totalOps) :
    (captureResetChunk P c chunkStart w).2.1.OwnPass ∧
      PmuAdvances P evtyper w.pmu (captureResetChunk P c chunkStart w).2.2.pmu := by
  rw [captureResetChunk_eq P w setup start]
  exact capturePreparePass_own P evtyper w.pmu (setup.of_same (c.openChunk_same chunkStart))
    setup.eventCount_pos

/-- Between two calls the hardware runs on without being programmed. -/
def CaptureCall.Quiet (evtyper : H → ℕ → Word) (hw : H) : CaptureCall H X → Prop
  | .elapse f => ∀ k < maxCounters, evtyper (f hw) k = evtyper hw k
  | _ => True

theorem captureStep_own (laws : Programs P evtyper) {x : CaptureState H}
    (inv : CaptureInvariant x.capture) (own : x.capture.OwnPass) {call : CaptureCall H X}
    (quiet : call.Quiet evtyper x.world.pmu.hw) :
    (captureStep P x call).capture.OwnPass ∧
      PmuAdvances P evtyper x.world.pmu (captureStep P x call).world.pmu := by
  have setup := inv.toCaptureSetup
  have stays := PmuAdvances.refl P evtyper x.world.pmu
  cases call with
  | reset =>
    dsimp only [captureStep]
    rw [captureReset_eq P x.world setup]
    exact captureResetChunk_own P evtyper x.world setup.incomplete setup.totalOps_pos
  | modelBegin => exact ⟨own, stays⟩
  | modelEnd =>
    dsimp only [captureStep]
    rcases captureModelEnd_cases P x.world inv with ⟨-, eq⟩ | ⟨-, -, -, eq⟩ | ⟨-, -, -, more, eq⟩
    · rw [eq]
      exact ⟨own, stays⟩
    · rw [eq]
      exact ⟨own, stays⟩
    · rw [eq]
      have same : SameSetup x.capture x.capture.nextPass := .progress
      exact capturePreparePass_own P evtyper x.world.pmu (setup.of_same same) more
  | layerBegin op =>
    dsimp only [captureStep, captureLayerBegin]
    split
    · exact ⟨own, stays⟩
    · exact ⟨own, pmuResetCounters_advances laws x.world.pmu⟩
  | layerEnd op =>
    dsimp only [captureStep]
    by_cases inside : x.capture.currentChunkStart ≤ op.toNat ∧
        op.toNat < x.capture.currentChunkStart + x.capture.currentChunkOps
    · rw [captureLayerEnd_inside P x.world inv inside]
      refine ⟨?_, pmuGetCounters_advances laws x.capture.pmuCfg x.world.pmu⟩
      intro known
      have slots := own known
      dsimp only
      rw [(pmuGetCounters_frame P x.capture.pmuCfg x.world.pmu).events]
      exact slots
    · rw [captureLayerEnd_outside P x.world inv inside]
      exact ⟨own, stays⟩
  | advanceChunk =>
    dsimp only [captureStep]
    rcases captureAdvanceChunk_cases P x.world inv with
      ⟨-, eq⟩ | ⟨-, -, eq⟩ | ⟨-, -, -, more, eq⟩
    · rw [eq]
      exact ⟨own, stays⟩
    · rw [eq]
      exact ⟨own, stays⟩
    · rw [eq]
      exact captureResetChunk_own P evtyper x.world setup more
  | serializeCsv _ _ _ => exact ⟨own, stays⟩
  | elapse f => exact ⟨own, .kept rfl rfl quiet⟩

end Captures

section Accumulators

def Acc.OwnBatch (a : Acc) : Prop :=
  a.complete = false → PairedSlots a.batchSize a.slotId a.cfg.events

def AccCall.Quiet (evtyper : H → ℕ → Word) (hw : H) : AccCall H → Prop
  | .elapse f => ∀ k < maxCounters, evtyper (f hw) k = evtyper hw k
  | _ => True

theorem accStep_own (laws : Programs P evtyper) {a : Acc} {w : World H} (inv : AccInvariant a)
    (own : a.OwnBatch) {call : AccCall H} (quiet : call.Quiet evtyper w.pmu.hw) :
    (accStep P a w call).1.OwnBatch ∧ PmuAdvances P evtyper w.pmu (accStep P a w call).2.pmu := by
  cases ends : call.endsInference with
  | false =>
    have keeps := accStep_keeps P w inv ends
    have quiet' : AccQuiet P evtyper a w call := by
      cases call with
      | inferenceEnd => cases ends
      | elapse f => exact quiet
      | _ => trivial
    refine ⟨fun open_ => ?_, .kept keeps.inits keeps.driver (accStep_types laws inv ends quiet')⟩
    rw [keeps.entry.complete] at open_
    rw [keeps.entry.batchSize, keeps.entry.slotId, keeps.entry.slots]
    exact own open_
  | true =>
    obtain rfl := AccCall.inferenceEnd_of ends
    have stays := PmuAdvances.refl P evtyper w.pmu
    dsimp only [accStep]
    rcases inferenceEnd_cases P w inv with ⟨-, eq⟩ | ⟨-, -, eq⟩ | ⟨-, -, eq⟩
    · rw [eq]
      exact ⟨own, stays⟩
    · rw [eq]
      exact ⟨fun open_ => (by cases open_), stays⟩
    · rw [eq]
      refine ⟨fun _ => ?_, .programmed _ rfl⟩
      dsimp only
      rw [pmuInit_events]
      exact pairedConfig_slots (some pmuV1_0_0) a.cfg a.nextBatch.batchSize a.nextBatch.slotId

end Accumulators

end NsxPmu
