import NsxPmu.SharedPmu

set_option autoImplicit false

/-!
# Several collectors at once

Any number of captures and accumulators share the PMU, and their calls come in
any order. A reading is that of the collector's own events as long as the PMU is
set up for them; nothing in the code makes sure that it is.
-/
namespace NsxPmu
open Function (update)
open WordMemory LabelledRuns

variable {H X : Type} {P : Platform H} {evtyper : H → ℕ → Word} {B : AccBuild}

/-- The captures that were initialised, the table of accumulators and the one PMU. -/
structure Collectors (H : Type) where
  captures : ℕ → Option Capture
  accs : ℕ → Acc
  world : World H

/-- A call on the capture or the accumulator with the given name. The object handed to
`nsx_pmu_capture_init` may hold anything before. -/
inductive CollectorCall (H X : Type) where
  | captureInit (i : ℕ) (object : Capture) (cfg : CaptureCfg)
  | capture (i : ℕ) (call : CaptureCall H X)
  | accmCreate (ops events : BitVec 16) (backingBuf : ℕ)
  | accmDestroy (h : BitVec 8)
  | accm (h : BitVec 8) (call : AccCall H)

def collectorStep (B : AccBuild) (P : Platform H) (x : Collectors H) :
    CollectorCall H X → Collectors H
  | .captureInit i object cfg =>
    let r := captureInit P object cfg x.world
    { x with captures := update x.captures i (some r.2.1), world := r.2.2 }
  | .capture i call =>
    match x.captures i with
    | none => x
    | some c =>
      let y := captureStep P ⟨c, x.world⟩ call
      { x with captures := update x.captures i (some y.capture), world := y.world }
  | .accmCreate ops events backingBuf =>
    let r := accmCreate B P x.accs ops events backingBuf x.world
    { x with accs := r.2.1, world := r.2.2 }
  | .accmDestroy h =>
    let r := accmDestroy B x.accs h x.world
    { x with accs := r.1, world := r.2 }
  | .accm h call =>
    let y := accmStep B P h ⟨x.accs, x.world⟩ call
    { x with accs := y.accs, world := y.world }

def collectorsStart (hw : H) (mem : ℕ → Word) : Collectors H :=
  ⟨fun _ => none, fun _ => .zero, ⟨⟨.start, hw, [], []⟩, mem⟩⟩

/-- Captures are created successfully, every programming of the PMU succeeds, and nobody but
the collectors programs it. -/
def Cooperative (B : AccBuild) (P : Platform H) (evtyper : H → ℕ → Word) (x : Collectors H)
    (call : CollectorCall H X) : Prop :=
  (match call with
    | .captureInit _ object cfg => (captureInit P object cfg x.world).1 = statusSuccess
    | .capture _ call => call.Quiet evtyper x.world.pmu.hw
    | .accm _ call => call.Quiet evtyper x.world.pmu.hw
    | _ => True) ∧
  ∀ r ∈ (collectorStep B P x call).world.pmu.inits, r.status = statusSuccess

structure Attended (evtyper : H → ℕ → Word) (x : Collectors H) : Prop where
  latest : LatestHolds evtyper x.world.pmu
  captures : ∀ i c, x.captures i = some c → CaptureInvariant c ∧ c.OwnPass
  accs : ∀ i, (x.accs i).inUse = true → AccInvariant (x.accs i) ∧ (x.accs i).OwnBatch

theorem entries_update {accs : ℕ → Acc}
    (kept : ∀ i, (accs i).inUse = true → AccInvariant (accs i) ∧ (accs i).OwnBatch)
    {i : ℕ} {a : Acc} (new : a.inUse = true → AccInvariant a ∧ a.OwnBatch) :
    ∀ j, (update accs i a j).inUse = true →
      AccInvariant (update accs i a j) ∧ (update accs i a j).OwnBatch :=
  (Function.forall_update_iff accs fun _ b => b.inUse = true → AccInvariant b ∧ b.OwnBatch).mpr
    ⟨new, fun j _ => kept j⟩

theorem Attended.captureInit (laws : Programs P evtyper) {x : Collectors H}
    (attended : Attended evtyper x) {i : ℕ} {object : Capture} {cfg : CaptureCfg}
    (ok : Cooperative B P evtyper x (.captureInit (X := X) i object cfg)) :
    Attended evtyper (collectorStep B P x (.captureInit (X := X) i object cfg)) := by
  obtain ⟨created, successes⟩ := ok
  dsimp only at created
  obtain ⟨inv, -⟩ := captureStart_invariant created
  obtain ⟨valid, eq⟩ := captureStart_eq created
  have setup := valid.setup object
  have own := captureResetChunk_own P evtyper x.world setup setup.totalOps_pos
  rw [← eq] at own
  refine ⟨attended.latest.advance laws own.2 successes, ?_, attended.accs⟩
  intro j c here
  dsimp only [collectorStep] at here
  by_cases same : j = i
  · subst same
    rw [Function.update_self, Option.some.injEq] at here
    subst here
    exact ⟨inv, own.1⟩
  · rw [Function.update_of_ne same] at here
    exact attended.captures j c here

theorem Attended.capture (laws : Programs P evtyper) {x : Collectors H}
    (attended : Attended evtyper x) {i : ℕ} {call : CaptureCall H X}
    (ok : Cooperative B P evtyper x (.capture i call)) :
    Attended evtyper (collectorStep B P x (.capture i call)) := by
  obtain ⟨quiet, successes⟩ := ok
  dsimp only [collectorStep] at quiet successes ⊢
  cases here : x.captures i with
  | none => exact attended
  | some c =>
    rw [here] at successes
    dsimp only at successes ⊢
    obtain ⟨inv, own⟩ := attended.captures i c here
    have own' := captureStep_own laws (x := ⟨c, x.world⟩) inv own quiet
    refine ⟨attended.latest.advance laws own'.2 successes, ?_, attended.accs⟩
    intro j c' there
    dsimp only at there
    by_cases same : j = i
    · subst same
      rw [Function.update_self, Option.some.injEq] at there
      subst there
      exact ⟨(captureStep_invariant P call inv).1, own'.1⟩
    · rw [Function.update_of_ne same] at there
      exact attended.captures j c' there

theorem Attended.accmCreate (laws : Programs P evtyper) {x : Collectors H}
    (attended : Attended evtyper x) {ops events : BitVec 16} {backingBuf : ℕ}
    (ok : Cooperative B P evtyper x (.accmCreate (X := X) ops events backingBuf)) :
    Attended evtyper (collectorStep B P x (.accmCreate (X := X) ops events backingBuf)) := by
  have successes := ok.2
  dsimp only [collectorStep] at successes ⊢
  by_cases failed : (NsxPmu.accmCreate B P x.accs ops events backingBuf x.world).1 = 0xFF
  · have same := accmCreate_failed failed
    rw [same]
    exact ⟨attended.latest, attended.captures, attended.accs⟩
  · have new := accmCreate_created failed
    have invariant := new.invariant
    rw [new.entry] at invariant
    rw [new.world] at successes
    rw [new.world, new.table]
    refine ⟨attended.latest.advance laws (.programmed _ rfl) successes, attended.captures,
      entries_update attended.accs fun _ => ⟨invariant, fun _ => ?_⟩⟩
    dsimp only [firstBatchInit]
    rw [pmuInit_events]
    exact pairedConfig_slots (some pmuV1_0_0) _ _ _

theorem Attended.accmDestroy {x : Collectors H} (attended : Attended evtyper x) (h : BitVec 8) :
    Attended evtyper (collectorStep B P x (.accmDestroy (X := X) h)) := by
  dsimp only [collectorStep, NsxPmu.accmDestroy, onHandle]
  cases handleToAcc B x.accs h with
  | none => exact attended
  | some i =>
    exact ⟨attended.latest, attended.captures,
      entries_update attended.accs fun used => by cases used⟩

theorem Attended.accm (laws : Programs P evtyper) {x : Collectors H}
    (attended : Attended evtyper x) {h : BitVec 8} {call : AccCall H}
    (ok : Cooperative B P evtyper x (.accm (X := X) h call)) :
    Attended evtyper (collectorStep B P x (.accm (X := X) h call)) := by
  obtain ⟨quiet, successes⟩ := ok
  dsimp only [collectorStep] at quiet successes ⊢
  cases live : handleToAcc B x.accs h with
  | none =>
    rcases accmStep_dead (P := P) (x := ⟨x.accs, x.world⟩) live call with eq | ⟨f, rfl, eq⟩
    · rw [eq]
      exact ⟨attended.latest, attended.captures, attended.accs⟩
    · rw [eq] at successes ⊢
      exact ⟨attended.latest.advance laws (.kept rfl rfl quiet) successes, attended.captures,
        attended.accs⟩
  | some i =>
    obtain rfl := handleToAcc_some live
    obtain ⟨inv, own⟩ := attended.accs h.toNat (handleToAcc_live.mp live).2
    have own' := accStep_own laws (w := x.world) inv own quiet
    rw [accmStep_live P (x := ⟨x.accs, x.world⟩) live call] at successes ⊢
    exact ⟨attended.latest.advance laws own'.2 successes, attended.captures,
      entries_update attended.accs fun _ => ⟨(accStep_invariant inv call).1, own'.1⟩⟩

theorem Attended.step (laws : Programs P evtyper) {x : Collectors H} (attended : Attended evtyper x)
    {call : CollectorCall H X} (ok : Cooperative B P evtyper x call) :
    Attended evtyper (collectorStep B P x call) := by
  cases call with
  | captureInit i object cfg => exact attended.captureInit laws ok
  | capture i call => exact attended.capture laws ok
  | accmCreate ops events backingBuf => exact attended.accmCreate laws ok
  | accmDestroy h => exact attended.accmDestroy h
  | accm h call => exact attended.accm laws ok

theorem attended_start (hw : H) (mem : ℕ → Word) : Attended evtyper (collectorsStart hw mem) := by
  refine ⟨?_, ?_, ?_⟩
  · intro r newest
    cases newest
  · intro i c here
    cases here
  · intro i used
    cases used

/-- The readings that the end of an operator adds to the matrix of an accumulator. -/
def accSamples (P : Platform H) (evtyper : H → ℕ → Word) (a : Acc) (w : World H)
    (opIdx : BitVec 16) : List Sample :=
  if opIdx.toNat < a.ops then
    (List.range a.batchSize).map (pairSample P evtyper (pausedHw P w.pmu) opIdx.toNat a.nextEvent)
  else []

theorem opEnd_samples {a : Acc} {w : World H} (inv : AccInvariant a)
    (ready : BatchReady evtyper a w.pmu) (opIdx : BitVec 16) {r e : ℕ} (hr : r < a.ops)
    (he : e < a.events) :
    (opEnd P opIdx.toNat a w).2.mem (a.cell r e) =
      w.mem (a.cell r e) + sampleTotal r e (accSamples P evtyper a w opIdx) := by
  rw [opEnd_cell inv ready opIdx.toNat hr he]
  congr 1
  unfold accSamples
  by_cases target : opIdx.toNat = r ∧ a.nextEvent ≤ e ∧ e < a.nextEvent + a.batchSize
  · rw [if_pos target]
    obtain ⟨rfl, lo, hi⟩ := target
    obtain ⟨slot, rfl⟩ : ∃ slot, e = a.nextEvent + slot := ⟨e - a.nextEvent, by omega⟩
    rw [if_pos hr, pairSamples_total P evtyper _ (by omega), Nat.add_sub_cancel_left]
  · rw [if_neg target]
    split
    · exact (pairSamples_other P evtyper _ (by omega)).symm
    · rfl

theorem accSamples_attributed (laws : Programs P evtyper) {a : Acc} {w : World H}
    (inv : AccInvariant a) (ready : BatchReady evtyper a w.pmu) (opIdx : BitVec 16) :
    ∀ s ∈ accSamples P evtyper a w opIdx,
      s.lowEvent = mapEventId s.column ∧ s.highEvent = armPmuChain := by
  intro s hs
  unfold accSamples at hs
  split at hs
  · obtain ⟨slot, hslot, rfl⟩ := List.mem_map.mp hs
    have hslot := List.mem_range.mp hslot
    have measuring : a.complete = false := by
      by_contra complete
      rw [inv.batchSize_complete (by simpa using complete)] at hslot
      omega
    exact (ready.programmed measuring).of_evtyper a.batchSize_le
      (fun _ hk => laws.pausedHw w.pmu hk) slot hslot
  · cases hs

theorem Attended.passReady {x : Collectors H} (attended : Attended evtyper x) {i : ℕ} {c : Capture}
    (here : x.captures i = some c) (known : c.PassKnown) (holds : HoldsPmu c.pmuCfg x.world.pmu) :
    PassReady evtyper ⟨c, x.world⟩ := by
  obtain ⟨inv, own⟩ := attended.captures i c here
  have few : c.currentPassEvents ≤ 4 := by
    have pass := inv.passEvents
    have le := inv.eventsPerPass_le
    omega
  obtain ⟨ready, programmed⟩ := (holds.setUp attended.latest).pairs (own known) few
  exact ⟨known, ready, programmed⟩

theorem Attended.batchReady {x : Collectors H} (attended : Attended evtyper x) {i : ℕ}
    (used : (x.accs i).inUse = true) (holds : HoldsPmu (x.accs i).cfg x.world.pmu) :
    BatchReady evtyper (x.accs i) x.world.pmu := by
  have setUp := holds.setUp attended.latest
  have own := (attended.accs i used).2
  have few := (x.accs i).batchSize_le
  exact ⟨fun open_ => (setUp.pairs (own open_) few).1, fun open_ => (setUp.pairs (own open_) few).2⟩

/-- Whatever the collectors have done so far: when the latest programming of the PMU asked for
the slots a collector is configured for, the end of an operator adds to the cells of that
collector, and to no other word, readings of counters that are programmed for their event. -/
theorem collectors_attribution (laws : Programs P evtyper) (hw : H) (mem : ℕ → Word)
    (calls : List (CollectorCall H X))
    (ok : AllSteps (collectorStep B P) (Cooperative B P evtyper) (collectorsStart hw mem) calls) :
    let x := run (collectorStep B P) (collectorsStart hw mem) calls
    (∀ i c, x.captures i = some c → c.PassKnown → HoldsPmu c.pmuCfg x.world.pmu → ∀ op,
      let samples := captureSamples P evtyper ⟨c, x.world⟩ (.layerEnd (X := X) op)
      let y := collectorStep B P x (.capture i (.layerEnd (X := X) op))
      (∀ row, ∀ e < c.totalEventCount, y.world.mem (c.cell row e) =
        x.world.mem (c.cell row e) + sampleTotal (c.currentChunkStart + row) e samples) ∧
      (∀ m, ¬ c.storageRange m → y.world.mem m = x.world.mem m) ∧
      ∀ s ∈ samples, s.lowEvent = c.columnId s.column ∧ s.highEvent = armPmuChain) ∧
    ∀ h i, handleToAcc B x.accs h = some i → HoldsPmu (x.accs i).cfg x.world.pmu → ∀ op,
      let a := x.accs i
      let samples := accSamples P evtyper a x.world op
      let y := collectorStep B P x (.accm (X := X) h (.opEnd op))
      (∀ row < a.ops, ∀ e < a.events, y.world.mem (a.cell row e) =
        x.world.mem (a.cell row e) + sampleTotal row e samples) ∧
      (∀ m, m < a.sum ∨ a.sum + a.ops * a.events ≤ m → y.world.mem m = x.world.mem m) ∧
      ∀ s ∈ samples, s.lowEvent = mapEventId s.column ∧ s.highEvent = armPmuChain := by
  intro x
  have kept : ∀ x (call : CollectorCall H X), Attended evtyper x → Cooperative B P evtyper x call →
      Attended evtyper (collectorStep B P x call) :=
    fun _ _ attended ok => attended.step laws ok
  have attended : Attended evtyper x := run_invariant kept (attended_start hw mem) ok
  constructor
  · intro i c here known holds op samples y
    have inv := (attended.captures i c here).1
    have ready := attended.passReady here known holds
    have step : y.world = (captureStep P ⟨c, x.world⟩ (.layerEnd (X := X) op)).world := by
      dsimp only [y, collectorStep]
      rw [here]
    rw [step]
    refine ⟨fun row e he => captureLayerEnd_cell inv ready op he,
      fun m outside => captureStep_memory P (x := ⟨c, x.world⟩) _ inv outside, ?_⟩
    intro s hs
    have attributed := captureSamples_attributed laws inv ready _ s hs
    exact ⟨attributed.low, attributed.high⟩
  · intro h i live holds op a samples y
    obtain rfl := handleToAcc_some live
    have used := (handleToAcc_live.mp live).2
    have inv := (attended.accs h.toNat used).1
    have ready := attended.batchReady used holds
    have step : y.world = (accStep P a x.world (.opEnd op)).2 := by
      dsimp only [y, collectorStep]
      rw [accmStep_live P (x := ⟨x.accs, x.world⟩) live]
    rw [step]
    exact ⟨fun row hr e he => opEnd_samples inv ready op hr he,
      fun m outside => accStep_memory inv _ outside, accSamples_attributed laws inv ready op⟩

def columnsCfg (columns : List (BitVec 16)) (storage : ℕ) : CaptureCfg :=
  { refCaptureCfg 1 0 (BitVec.ofNat 16 columns.length) 0 with
      eventMapIndices := some fun e => columns.getD e 0
      matrixStorage := storage }

def refInterleaving : List (CollectorCall RefPmu Unit) :=
  [.captureInit 0 .zero (columnsCfg [5] 4096), .accmCreate 1 1 8192, .capture 0 (.layerBegin 0),
    .accm 0 (.elapse (RefPmu.occur (mapEventId 0)))]

theorem collectors_attribution_ref :
    let x := run (collectorStep .default refPlatform) (collectorsStart RefPmu.start fun _ => 0)
      refInterleaving
    (collectorStep .default refPlatform x (.accm (X := Unit) 0 (.opEnd 0))).world.mem
      (8192 + (0 * 1 + 0)) = 1 :=
  (((collectors_attribution (B := .default) refPlatform_programs RefPmu.start (fun _ => 0)
      refInterleaving ⟨⟨by decide, by decide +kernel⟩, ⟨trivial, by decide +kernel⟩,
        ⟨trivial, by decide +kernel⟩, ⟨fun _ _ => rfl, by decide +kernel⟩, trivial⟩).2
    0 0 (by decide +kernel) ⟨_, rfl, by decide +kernel⟩ 0).1 0 (by decide +kernel) 0
      (by decide +kernel)).trans (by decide +kernel)

/-- Two captures of one event each: the second one programs the PMU, the first one samples its
operator, and the occurrence of the second one's event ends up in the first one's matrix. And a
capture whose second pass is refused at the index 70, while the PMU is programmed for what that
pass has before it: the column of that index gets what a counter of another pass held. -/
theorem collectors_misattribution :
    (let calls : List (CollectorCall RefPmu Unit) :=
      [.captureInit 0 .zero (columnsCfg [4] 4096), .captureInit 1 .zero (columnsCfg [5] 8192),
        .capture 1 (.elapse (RefPmu.occur (mapEventId 5)))]
    let x := run (collectorStep .default refPlatform) (collectorsStart RefPmu.start fun _ => 0) calls
    let y := collectorStep .default refPlatform x (.capture (X := Unit) 0 (.layerEnd 0))
    x.world.pmu.inits.map InitRecord.status = [statusSuccess, statusSuccess] ∧
    x.world.mem 4096 = 0 ∧ y.world.mem 4096 = 1 ∧
    x.world.pmu.hw.evtyper 0 = mapEventId 5 ∧ mapEventId 4 ≠ mapEventId 5) ∧
    (let calls : List (CollectorCall RefPmu Unit) :=
      [.captureInit 0 .zero (columnsCfg [0, 1, 2, 3, 5, 70] 4096),
        .captureInit 1 .zero (columnsCfg [10, 11, 12, 13, 5] 8192), .capture 0 .modelEnd,
        .capture 0 (.elapse fun hw => { hw with evcntr := BitVec.ofNat 32 }),
        .capture 0 (.layerEnd 0), .capture 1 .modelEnd]
    let x := run (collectorStep .default refPlatform) (collectorsStart RefPmu.start fun _ => 0) calls
    let y := collectorStep .default refPlatform x (.capture (X := Unit) 0 (.layerEnd 0))
    x.world.pmu.inits.map InitRecord.status = [statusSuccess, statusSuccess, statusSuccess] ∧
    (x.captures 0).map (fun c => (List.range 8).map c.pmuCfg.events) =
      x.world.pmu.inits.head?.map (fun r => (List.range 8).map r.cfg.events) ∧
    x.world.mem (4096 + 5) = 2 ∧ y.world.mem (4096 + 5) = 4) := by
  decide +kernel

end NsxPmu
