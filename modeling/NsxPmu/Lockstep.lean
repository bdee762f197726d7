import NsxPmu.AccumulatorAccounting

set_option autoImplicit false

/-!
# A capture of one chunk and an accumulator in lockstep

An accumulator and a capture whose only chunk is the whole model make the same
calls of the driver, however these calls end, and collect the same matrix.
-/
namespace NsxPmu
open Function (update)
open WordMemory LabelledRuns

variable {H : Type} {P : Platform H} {B : AccBuild} {h : BitVec 8}

/-- A capture set up for what an accumulator does. -/
structure WholeModel (a : Acc) (c : Capture) : Prop where
  api : c.api = some pmuV1_0_0
  eventMapIndices : c.eventMapIndices = none
  totalOps : c.totalOps = a.ops
  totalEventCount : c.totalEventCount = a.events
  eventsPerPass : c.eventsPerPass = 4
  chunkStart : c.currentChunkStart = 0
  chunkOps : c.currentChunkOps = a.ops

theorem WholeModel.of_same {a a' : Acc} {c c' : Capture} (whole : WholeModel a c)
    (matrix : SameMatrix a a') (chunk : SameChunk c c') : WholeModel a' c' where
  api := chunk.api.trans whole.api
  eventMapIndices := chunk.eventMapIndices.trans whole.eventMapIndices
  totalOps := by rw [chunk.totalOps, whole.totalOps, matrix.ops]
  totalEventCount := by rw [chunk.totalEventCount, whole.totalEventCount, matrix.events]
  eventsPerPass := chunk.eventsPerPass.trans whole.eventsPerPass
  chunkStart := chunk.chunkStart.trans whole.chunkStart
  chunkOps := by rw [chunk.chunkOps, whole.chunkOps, matrix.ops]

/-- An accumulator and a capture, each in its own world, at the same point of their work. -/
structure Aligned (a : Acc) (w : World H) (c : Capture) (w' : World H) : Prop where
  acc : AccInvariant a
  capture : CaptureInvariant c
  whole : WholeModel a c
  pmu : w'.pmu = w.pmu
  cfg : c.pmuCfg = a.cfg
  complete : c.complete = a.complete
  unready : a.complete = false → c.chunkReady = false
  eventBase : a.complete = false → c.currentEventBase = a.nextEvent
  cells : ∀ op < a.ops, ∀ e < a.events, w'.mem (c.cell op e) = w.mem (a.cell op e)
  unread : ¬ (w.pmu.driver.initialized = true ∧ w.pmu.driver.profiling = true) →
    ∀ i < maxCounters, (a.cfg.counter i).counterValue = 0

section Steps
variable {a : Acc} {w : World H} {c : Capture} {w' : World H}

theorem Aligned.passEvents (al : Aligned a w c w') (measuring : a.complete = false) :
    c.currentPassEvents = a.batchSize := by
  rw [al.capture.passEvents, al.whole.eventsPerPass, al.whole.totalEventCount,
    al.eventBase measuring]
  rfl

theorem Aligned.inside_iff (al : Aligned a w c w') (op : ℕ) :
    (c.currentChunkStart ≤ op ∧ op < c.currentChunkStart + c.currentChunkOps) ↔ op < a.ops := by
  rw [al.whole.chunkStart, al.whole.chunkOps]
  omega

theorem Aligned.opBegin (al : Aligned a w c w') (op : ℕ) :
    Aligned (opBegin P op a w).1 (opBegin P op a w).2 c (captureLayerBegin P c op w') := by
  unfold NsxPmu.opBegin captureLayerBegin
  rw [captureShouldSampleLayer_eq al.capture]
  by_cases inside : op < a.ops
  · rw [if_neg (by omega), if_pos ((al.inside_iff op).mpr inside)]
    refine ⟨al.acc, al.capture, al.whole, ?_, al.cfg, al.complete, al.unready, al.eventBase,
      al.cells, al.unread⟩
    dsimp only
    rw [al.pmu]
  · rw [if_pos (by omega), if_neg fun both => inside ((al.inside_iff op).mp both)]
    exact al

theorem Aligned.layerEnd (al : Aligned a w c w') (measuring : a.complete = false) {op : ℕ}
    (inside : op < a.ops) :
    captureLayerEnd P c op w' =
      ({ c with pmuCfg := (pmuGetCounters P a.cfg w.pmu).2.1 },
        ⟨(pmuGetCounters P a.cfg w.pmu).2.2,
          if (pmuGetCounters P a.cfg w.pmu).1 = statusSuccess then
            addAll (fun i => c.cell op (a.nextEvent + i))
              (fun i => ((pmuGetCounters P a.cfg w.pmu).2.1.counter i).counterValue)
              (List.range a.batchSize) w'.mem
          else w'.mem⟩) := by
  rw [captureLayerEnd_inside P w' al.capture ((al.inside_iff op).mpr inside), al.pmu, al.cfg,
    al.passEvents measuring]
  have row : op - c.currentChunkStart = op := by
    rw [al.whole.chunkStart]
    exact Nat.sub_zero op
  rw [row, al.eventBase measuring]

/-- Both end an operator by adding the same readings to the same cells. When the driver
refuses to read, the capture adds nothing and the accumulator adds counters that are zero. -/
theorem Aligned.opEnd (al : Aligned a w c w') (measuring : a.complete = false) (op : ℕ) :
    Aligned (opEnd P op a w).1 (opEnd P op a w).2
      (captureLayerEnd P c op w').1 (captureLayerEnd P c op w').2 := by
  by_cases inside : op < a.ops
  · have frame := pmuGetCounters_frame P a.cfg w.pmu
    have kept := captureLayerEnd_invariant P w' op al.capture
    have chunk := (captureLayerEnd_pass P w' al.capture op).toSameChunk
    have columns : ∀ i < a.batchSize, a.nextEvent + i < a.events := by
      unfold Acc.batchSize
      omega
    rw [al.layerEnd measuring inside] at kept chunk ⊢
    rw [opEnd_inside P w al.acc.small inside]
    refine ⟨⟨al.acc.ops_pos, al.acc.events_pos, al.acc.events_le, al.acc.nextEvent_lt,
      al.acc.complete⟩, kept.1, al.whole.of_same ⟨rfl, rfl, rfl, rfl⟩ chunk, rfl, rfl, al.complete,
      al.unready, al.eventBase, ?_, ?_⟩
    · intro r hr e he
      refine Eq.trans ?_ (addAll_row columns he).symm
      have before := al.cells r hr e he
      dsimp only
      split
      · have width := al.whole.totalEventCount
        refine (addAll_row (by rwa [width]) (by rwa [width])).trans ?_
        exact congrArg (· + _) before
      · rename_i refused
        have off := fun on => refused (frame.status.mpr on)
        have zero := al.unread off
        rw [pmuGetCounters_refused P a.cfg off]
        have nothing : (if op = r ∧ a.nextEvent ≤ e ∧ e < a.nextEvent + a.batchSize then
            (a.cfg.counter (e - a.nextEvent)).counterValue else 0) = 0 := by
          split
          · apply zero
            have := a.batchSize_le
            dsimp only [maxCounters]
            omega
          · rfl
        dsimp only
        rw [nothing, add_zero]
        exact before
    · dsimp only
      rw [frame.driver]
      intro off
      rw [pmuGetCounters_refused P a.cfg off]
      exact al.unread off
  · rw [opEnd_outside P w inside, captureLayerEnd_outside P w' al.capture
      fun both => inside ((al.inside_iff op).mp both)]
    exact al

theorem WholeModel.preparePass {b : Acc} {d : Capture} (whole : WholeModel b d)
    (setup : CaptureSetup d) (base : d.currentEventBase = b.nextEvent) (cfg : d.pmuCfg = b.cfg)
    (more : b.nextEvent < b.events) (s : Pmu H) :
    (capturePreparePass P d s).2 =
      ({ d with
          currentPassEvents := d.passSize
          pmuCfg := (pmuInit P (pairedConfig (some pmuV1_0_0) b.cfg b.batchSize b.slotId) s).2.1 },
        (pmuInit P (pairedConfig (some pmuV1_0_0) b.cfg b.batchSize b.slotId) s).2.2) := by
  have entry : ∀ e, d.mapEntry e = e := by
    intro e
    unfold Capture.mapEntry
    rw [whole.eventMapIndices]
  have size : d.passSize = b.batchSize := by
    unfold Capture.passSize Acc.batchSize
    rw [whole.eventsPerPass, whole.totalEventCount, base]
  have id : d.slotId = b.slotId := by
    funext slot
    unfold Capture.slotId Capture.columnId Acc.slotId
    rw [entry, base]
  have count := setup.eventCount_le
  have width := whole.totalEventCount
  have inside : d.currentEventBase < d.totalEventCount := by
    rw [base, width]
    exact more
  rcases capturePreparePass_cases P s setup inside with ⟨-, eq⟩ | ⟨⟨slot, hs, unknown⟩, -⟩
  · rw [eq, whole.api, cfg, size, id]
  · rw [entry] at unknown
    unfold Capture.passSize at hs
    dsimp only [pmuMapSize] at unknown
    omega

theorem Aligned.inferenceEnd (al : Aligned a w c w') (measuring : a.complete = false) :
    Aligned (inferenceEnd P a w).1 (inferenceEnd P a w).2
      (captureModelEnd P c w').2.1 (captureModelEnd P c w').2.2 := by
  obtain ⟨inv, matrix⟩ := inferenceEnd_invariant (P := P) (w := w) al.acc
  have inv' := (captureModelEnd_invariant P w' al.capture).1
  have chunk := captureModelEnd_chunk P w' al.capture
  have whole := al.whole.of_same matrix chunk
  have size := al.passEvents measuring
  have base := al.eventBase measuring
  have width := al.whole.totalEventCount
  have incomplete := al.complete.trans measuring
  have next := al.acc.nextEvent_open measuring
  unfold Acc.batchSize at size
  rcases inferenceEnd_cases P w al.acc with ⟨complete, -⟩ | ⟨-, last, eq⟩ | ⟨-, more, eq⟩
  · exact absurd (measuring.symm.trans complete) (by simp)
  · rcases captureModelEnd_cases P w' al.capture with
      ⟨frozen, -⟩ | ⟨-, -, full, eq'⟩ | ⟨-, -, full, more, -⟩
    · rw [al.unready measuring, incomplete] at frozen
      simp at frozen
    · rw [eq] at inv whole ⊢
      rw [eq'] at inv' whole ⊢
      refine ⟨inv, inv', whole, al.pmu, al.cfg, ?_, ?_, ?_, al.cells, al.unread⟩
      · have all : c.currentChunkStart + c.currentChunkOps = c.totalOps := by
          rw [al.whole.chunkStart, al.whole.chunkOps, al.whole.totalOps, Nat.zero_add]
        exact decide_eq_true all
      · exact fun open_ => by cases open_
      · exact fun open_ => by cases open_
    · omega
  · rcases captureModelEnd_cases P w' al.capture with
      ⟨frozen, -⟩ | ⟨-, -, full, eq'⟩ | ⟨-, -, full, more, eq'⟩
    · rw [al.unready measuring, incomplete] at frozen
      simp at frozen
    · omega
    · have same : SameSetup c c.nextPass := .progress
      have nextWhole : WholeModel a.nextBatch c.nextPass :=
        al.whole.of_same ⟨rfl, rfl, rfl, rfl⟩ ⟨same, rfl, rfl⟩
      have nextBase : c.nextPass.currentEventBase = a.nextBatch.nextEvent := by
        dsimp only [Capture.nextPass, Acc.nextBatch]
        rw [base, al.whole.eventsPerPass]
      have pass := nextWhole.preparePass (P := P) (al.capture.toCaptureSetup.of_same same) nextBase
        al.cfg (by assumption) w.pmu
      rw [eq] at inv whole ⊢
      rw [eq', al.pmu, pass] at inv' whole ⊢
      refine ⟨inv, inv', whole, rfl, rfl, al.complete, fun _ => al.unready measuring,
        fun _ => nextBase, al.cells, ?_⟩
      exact fun _ => batch_unread P a.nextBatch w.pmu

end Steps

inductive LockCall (H : Type) where
  | opBegin (opIdx : BitVec 16)
  | opEnd (opIdx : BitVec 16)
  | inferenceEnd
  | elapse (f : H → H)

def LockCall.onAccumulator : LockCall H → AccCall H
  | .opBegin op => .opBegin op
  | .opEnd op => .opEnd op
  | .inferenceEnd => .inferenceEnd
  | .elapse f => .elapse f

def LockCall.onCapture : LockCall H → CaptureCall H Unit
  | .opBegin op => .layerBegin op
  | .opEnd op => .layerEnd op
  | .inferenceEnd => .modelEnd
  | .elapse f => .elapse f

structure LockState (H : Type) where
  acc : AccStore H
  cap : CaptureState H

def lockStep (B : AccBuild) (P : Platform H) (h : BitVec 8) (s : LockState H)
    (call : LockCall H) : LockState H :=
  ⟨accmStep B P h s.acc call.onAccumulator, captureStep P s.cap call.onCapture⟩

def NeitherComplete (B : AccBuild) (h : BitVec 8) (s : LockState H) : Prop :=
  accmComplete B s.acc.accs h = false ∧ captureComplete s.cap.capture = false

theorem Aligned.step {a : Acc} {w : World H} {x : CaptureState H}
    (al : Aligned a w x.capture x.world) (measuring : a.complete = false) (call : LockCall H) :
    Aligned (accStep P a w call.onAccumulator).1 (accStep P a w call.onAccumulator).2
      (captureStep P x call.onCapture).capture (captureStep P x call.onCapture).world := by
  cases call with
  | opBegin op => exact al.opBegin op.toNat
  | opEnd op => exact al.opEnd measuring op.toNat
  | inferenceEnd => exact al.inferenceEnd measuring
  | elapse f =>
    refine ⟨al.acc, al.capture, al.whole, ?_, al.cfg, al.complete, al.unready, al.eventBase,
      al.cells, al.unread⟩
    dsimp only [accStep, captureStep, LockCall.onAccumulator, LockCall.onCapture, World.elapse]
    rw [al.pmu]

/-- The entry of a live handle is aligned with the capture. -/
structure InLockstep (B : AccBuild) (h : BitVec 8) (a₀ : Acc) (c₀ : Capture) (s : LockState H) :
    Prop where
  live : handleToAcc B s.acc.accs h = some h.toNat
  matrix : SameMatrix a₀ (s.acc.accs h.toNat)
  setup : SameSetup c₀ s.cap.capture
  aligned : Aligned (s.acc.accs h.toNat) s.acc.world s.cap.capture s.cap.world

theorem InLockstep.complete {a₀ : Acc} {c₀ : Capture} {s : LockState H}
    (lock : InLockstep B h a₀ c₀ s) :
    accmComplete B s.acc.accs h = captureComplete s.cap.capture := by
  unfold accmComplete captureComplete
  rw [lock.live, lock.aligned.complete]

theorem InLockstep.step {a₀ : Acc} {c₀ : Capture} {s : LockState H} (lock : InLockstep B h a₀ c₀ s)
    (neither : NeitherComplete B h s) (call : LockCall H) :
    InLockstep B h a₀ c₀ (lockStep B P h s call) := by
  have measuring : (s.acc.accs h.toNat).complete = false := by
    have open_ := neither.2
    unfold captureComplete at open_
    rw [← lock.aligned.complete, open_]
  obtain ⟨entry, world⟩ := accmStep_entry (P := P) (w := s.acc.world) lock.live call.onAccumulator
  have matrix := (accStep_invariant (P := P) (w := s.acc.world) lock.aligned.acc
    call.onAccumulator).2
  have live := handleToAcc_live.mp lock.live
  constructor
  · refine handleToAcc_live.mpr ⟨live.1, ?_⟩
    dsimp only [lockStep]
    rw [entry, matrix.inUse, live.2]
  all_goals dsimp only [lockStep]
  · rw [entry]
    exact lock.matrix.trans matrix
  · exact lock.setup.trans (captureStep_invariant P call.onCapture lock.aligned.capture).2
  · rw [entry, world]
    exact lock.aligned.step measuring call

/-- The configuration of a capture whose only chunk is a model of `ops` operators. -/
def wholeModelCfg (ops events : BitVec 16) (storage : ℕ) (count : Word) : CaptureCfg :=
  ⟨none, ops, 0, events, 0, none, storage, count⟩

def lockStart (B : AccBuild) (P : Platform H) (accs : ℕ → Acc) (c : Capture)
    (ops events : BitVec 16) (backingBuf storage : ℕ) (count : Word) (w w' : World H) :
    LockState H :=
  ⟨(accmStart B P accs ops events backingBuf w).store,
    captureStart P c (wholeModelCfg ops events storage count) w'⟩

section Start
variable {accs : ℕ → Acc} {c : Capture} {ops events : BitVec 16} {backingBuf storage : ℕ}
  {count : Word} {w w' : World H}

theorem wholeModelCfg_events (ops : BitVec 16) (storage : ℕ) (count : Word)
    (events_pos : 1 ≤ events.toNat) :
    captureGetEventCount (wholeModelCfg ops events storage count) = events.toNat := by
  apply if_neg
  dsimp only [wholeModelCfg]
  omega

theorem wholeModelCfg_valid (ops_pos : 1 ≤ ops.toNat) (events_pos : 1 ≤ events.toNat)
    (events_le : events.toNat ≤ 70) (buffer : storage ≠ 0)
    (fits : ops.toNat * events.toNat ≤ count.toNat) :
    (wholeModelCfg ops events storage count).Valid := by
  have eventCount := wholeModelCfg_events ops storage count events_pos
  have perChunk : captureGetOpsPerChunk (wholeModelCfg ops events storage count) = ops.toNat :=
    if_pos rfl
  refine ⟨buffer, ?_, by rwa [eventCount], by rw [perChunk]; exact le_refl _, Nat.zero_le 4,
    by rwa [eventCount, perChunk]⟩
  dsimp only [wholeModelCfg]
  omega

theorem wholeModelCfg_cell (c : Capture) (ops : BitVec 16) (storage : ℕ) (count : Word)
    (events_pos : 1 ≤ events.toNat) (row e : ℕ) :
    ((wholeModelCfg ops events storage count).fresh c).cell row e =
      storage + (row * events.toNat + e) := by
  unfold Capture.cell
  dsimp only [CaptureCfg.fresh]
  rw [wholeModelCfg_events _ _ _ events_pos]
  rfl

theorem lockstep_start (same : w'.pmu = w.pmu)
    (created : (accmCreate B P accs ops events backingBuf w).1 ≠ 0xFF) (buffer : storage ≠ 0)
    (fits : ops.toNat * events.toNat ≤ count.toNat) :
    InLockstep B (accmCreate B P accs ops events backingBuf w).1 (.fresh ops events backingBuf)
      ((wholeModelCfg ops events storage count).fresh c)
      (lockStart B P accs c ops events backingBuf storage count w w') := by
  have new := accmCreate_created created
  have valid := wholeModelCfg_valid new.ops_pos new.events_pos new.events_le buffer fits
  have setup := valid.setup c
  have whole : WholeModel (.fresh ops events backingBuf)
      (((wholeModelCfg ops events storage count).fresh c).openChunk 0) := by
    have all : min ops.toNat (ops.toNat - 0) = ops.toNat := by omega
    exact ⟨rfl, rfl, rfl, wholeModelCfg_events _ _ _ new.events_pos, rfl, rfl, all⟩
  have init : captureInit P c (wholeModelCfg ops events storage count) w' =
      captureResetChunk P ((wholeModelCfg ops events storage count).fresh c) 0 w' := by
    rcases captureInit_cases P c (wholeModelCfg ops events storage count) w' with
      ⟨-, eq⟩ | ⟨refused, -⟩
    · exact eq
    · exact absurd valid refused
  have open_ := setup.of_same (Capture.openChunk_same _ 0)
  have capture := captureResetChunk_invariant P w' setup setup.totalOps_pos (Nat.dvd_zero _) rfl
  have kept := captureResetChunk_same P w' setup setup.totalOps_pos
  have chunk := capturePreparePass_chunk P w.pmu open_ setup.eventCount_pos
  have pass := whole.preparePass (P := P) open_ rfl rfl new.events_pos w.pmu
  have cleared : ∀ op < ops.toNat, ∀ e < events.toNat,
      (captureResetChunk P ((wholeModelCfg ops events storage count).fresh c) 0 w').2.2.mem
        (((wholeModelCfg ops events storage count).fresh c).cell op e) = 0 := by
    intro op hop e he
    have row : op < min ops.toNat (ops.toNat - 0) := by omega
    exact captureResetChunk_cleared P w' setup setup.totalOps_pos row
      (he.trans_eq (wholeModelCfg_events _ _ _ new.events_pos).symm)
  rw [captureResetChunk_eq P w' setup setup.totalOps_pos, same] at capture kept
  rw [captureResetChunk_eq P w' setup setup.totalOps_pos] at cleared
  refine ⟨new.live, new.matrix, ?_, ?_⟩
  all_goals dsimp only [lockStart, captureStart, accmStart]
  all_goals rw [init, captureResetChunk_eq P w' setup setup.totalOps_pos, same]
  · exact kept
  · refine ⟨new.invariant, capture, whole.of_same new.matrix chunk, ?_, ?_, ?_, ?_, ?_, ?_, ?_⟩
    · rw [new.world, pass]
      rfl
    · rw [new.entry, pass]
      rfl
    · rw [new.entry, pass]
      rfl
    · rw [pass]
      exact fun _ => rfl
    · rw [new.entry, pass]
      exact fun _ => rfl
    · intro op hop e he
      rw [new.matrix.ops] at hop
      rw [new.matrix.events] at he
      rw [chunk.toSameSetup.cell, (Capture.openChunk_same _ 0).cell, new.matrix.cell,
        new.zeroed hop he]
      exact cleared op hop e he
    · rw [new.entry]
      exact fun _ => batch_unread P (.fresh ops events backingBuf) w.pmu

end Start

/-- From the same PMU on, whatever the driver and the vendor layer answer, the two matrices,
configurations and drivers agree after every step up to the first one that completes a side,
and the two sides complete together. -/
theorem accumulator_capture_lockstep (P : Platform H) (B : AccBuild) (accs : ℕ → Acc) (c : Capture)
    (ops events : BitVec 16) (backingBuf storage : ℕ) (count : Word) (w w' : World H)
    (same : w'.pmu = w.pmu) (h : BitVec 8)
    (handle : h = (accmCreate B P accs ops events backingBuf w).1) (created : h ≠ 0xFF)
    (buffer : storage ≠ 0) (fits : ops.toNat * events.toNat ≤ count.toNat)
    (calls : List (LockCall H))
    (first : AllSteps (lockStep B P h) (fun s _ => NeitherComplete B h s)
      (lockStart B P accs c ops events backingBuf storage count w w') calls) :
    let s := run (lockStep B P h) (lockStart B P accs c ops events backingBuf storage count w w') calls
    (∀ op < ops.toNat, ∀ e < events.toNat,
      s.acc.world.mem (backingBuf + (op * events.toNat + e)) =
        s.cap.world.mem (storage + (op * events.toNat + e))) ∧
    (s.acc.accs h.toNat).cfg = s.cap.capture.pmuCfg ∧
    s.acc.world.pmu = s.cap.world.pmu ∧
    accmComplete B s.acc.accs h = captureComplete s.cap.capture := by
  subst handle
  have lock := run_invariant
    (I := InLockstep B (accmCreate B P accs ops events backingBuf w).1
      (.fresh ops events backingBuf) ((wholeModelCfg ops events storage count).fresh c))
    (fun _ call lock neither => lock.step neither call)
    (lockstep_start (c := c) same created buffer fits) first
  intro s
  refine ⟨?_, lock.aligned.cfg.symm, lock.aligned.pmu.symm, lock.complete⟩
  intro op hop e he
  have events_pos := (accmCreate_created created).events_pos
  have cells := lock.aligned.cells op (by rwa [lock.matrix.ops]) e (by rwa [lock.matrix.events])
  rw [lock.setup.cell, lock.matrix.cell, wholeModelCfg_cell _ _ _ _ events_pos] at cells
  exact cells.symm

theorem accumulator_capture_lockstep_ref :
    let s := run (lockStep .default refPlatform 0)
      (lockStart .default refPlatform (fun _ => .zero) .zero 1 5 4096 8192 5
        ({ RefPmu.start with outcomes := [0, 0, 1] } : RefPmu).world
        ({ RefPmu.start with outcomes := [0, 0, 1] } : RefPmu).world)
      [.opBegin 0, .elapse (RefPmu.occur (mapEventId 2)), .opEnd 0, .inferenceEnd, .opEnd 0,
        .inferenceEnd]
    s.acc.world.mem (4096 + (0 * 5 + 2)) = s.cap.world.mem (8192 + (0 * 5 + 2)) :=
  (accumulator_capture_lockstep refPlatform .default (fun _ => .zero) .zero 1 5 4096 8192 5
    ({ RefPmu.start with outcomes := [0, 0, 1] } : RefPmu).world
    ({ RefPmu.start with outcomes := [0, 0, 1] } : RefPmu).world rfl 0 rfl (by decide) (by decide)
    (by decide)
    [.opBegin 0, .elapse (RefPmu.occur (mapEventId 2)), .opEnd 0, .inferenceEnd, .opEnd 0,
      .inferenceEnd]
    ⟨⟨rfl, rfl⟩, ⟨rfl, rfl⟩, ⟨rfl, rfl⟩, ⟨rfl, rfl⟩, ⟨rfl, rfl⟩, ⟨rfl, rfl⟩, trivial⟩).1
    0 (by decide) 2 (by decide)

end NsxPmu
