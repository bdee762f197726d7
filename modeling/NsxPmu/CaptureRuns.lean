import NsxPmu.CaptureInvariant
import NsxPmu.ReferencePmu

set_option autoImplicit false

/-!
# Runs of a capture

The calls a caller can make on a capture, in any order, with the hardware
running between them. One case lemma a call says everything it can do to a
capture that satisfies the invariant.
-/
namespace NsxPmu
open WordMemory LabelledRuns

variable {H X : Type}

def Capture.nextPass (c : Capture) : Capture :=
  { c with currentEventBase := c.currentEventBase + c.eventsPerPass }

theorem captureModelEnd_cases (P : Platform H) {c : Capture} (w : World H)
    (inv : CaptureInvariant c) :
    ((c.chunkReady = true ∨ c.complete = true) ∧ captureModelEnd P c w = (statusSuccess, c, w)) ∨
    (c.chunkReady = false ∧ c.complete = false ∧
      c.currentEventBase + c.currentPassEvents = c.totalEventCount ∧
      captureModelEnd P c w = (statusSuccess,
        { c with
            chunkReady := true
            complete := decide (c.currentChunkStart + c.currentChunkOps = c.totalOps) }, w)) ∨
    (c.chunkReady = false ∧ c.complete = false ∧ c.currentPassEvents = c.eventsPerPass ∧
      c.currentEventBase + c.eventsPerPass < c.totalEventCount ∧
      captureModelEnd P c w =
        ((capturePreparePass P c.nextPass w.pmu).1, (capturePreparePass P c.nextPass w.pmu).2.1,
          { w with pmu := (capturePreparePass P c.nextPass w.pmu).2.2 })) := by
  have lt := inv.totalOps_lt
  have count := inv.eventCount_le
  have base := inv.eventBase_lt
  have start := inv.chunkStart_lt
  have pass := inv.passEvents
  have ops := inv.chunkOps
  by_cases frozen : c.chunkReady = true ∨ c.complete = true
  · exact .inl ⟨frozen, if_pos (by simpa using frozen)⟩
  right
  obtain ⟨ready, complete⟩ : c.chunkReady = false ∧ c.complete = false := by simpa using frozen
  unfold captureModelEnd
  rw [if_neg (by simpa using frozen), u16_of_lt (by omega)]
  by_cases last : c.currentEventBase + c.currentPassEvents ≥ c.totalEventCount
  · rw [if_pos last]
    refine .inl ⟨ready, complete, by omega, ?_⟩
    have reached : (c.currentChunkStart + c.currentChunkOps ≥ c.totalOps) =
        (c.currentChunkStart + c.currentChunkOps = c.totalOps) := by
      apply propext
      omega
    simp only [reached]
  · rw [if_neg last]
    have full : c.currentPassEvents = c.eventsPerPass := by omega
    have next : c.currentEventBase + c.currentPassEvents =
        c.currentEventBase + c.eventsPerPass := by rw [full]
    rw [next] at last ⊢
    exact .inr ⟨ready, complete, full, by omega, rfl⟩

theorem captureAdvanceChunk_cases (P : Platform H) {c : Capture} (w : World H)
    (inv : CaptureInvariant c) :
    (c.chunkReady = false ∧ captureAdvanceChunk P c w = (statusInvalidConfig, c, w)) ∨
    (c.chunkReady = true ∧ c.complete = true ∧
      captureAdvanceChunk P c w = (statusSuccess, { c with chunkReady := false }, w)) ∨
    (c.chunkReady = true ∧ c.complete = false ∧ c.currentChunkOps = c.opsPerChunk ∧
      c.currentChunkStart + c.opsPerChunk < c.totalOps ∧
      captureAdvanceChunk P c w =
        captureResetChunk P c (c.currentChunkStart + c.opsPerChunk) w) := by
  have lt := inv.totalOps_lt
  have start := inv.chunkStart_lt
  have ops := inv.chunkOps
  unfold captureAdvanceChunk
  by_cases ready : c.chunkReady = true
  · right
    rw [if_neg (by simpa using ready)]
    by_cases complete : c.complete = true
    · exact .inl ⟨ready, complete, if_pos complete⟩
    · have more : ¬ c.currentChunkStart + c.currentChunkOps = c.totalOps :=
        fun reached => complete ((inv.ready ready).2.mpr reached)
      have full : c.currentChunkOps = c.opsPerChunk := by omega
      rw [if_neg complete, u16_of_lt (by omega), full]
      exact .inr ⟨ready, by simpa using complete, rfl, by omega, rfl⟩
  · exact .inl ⟨by simpa using ready, if_pos (by simpa using ready)⟩

theorem captureShouldSampleLayer_eq {c : Capture} (inv : CaptureInvariant c) (op : ℕ) :
    captureShouldSampleLayer c op =
      if c.currentChunkStart ≤ op ∧ op < c.currentChunkStart + c.currentChunkOps then
        some (op - c.currentChunkStart)
      else none := by
  have lt := inv.totalOps_lt
  have start := inv.chunkStart_lt
  have ops := inv.chunkOps
  unfold captureShouldSampleLayer
  by_cases inside : c.currentChunkStart ≤ op ∧ op < c.currentChunkStart + c.currentChunkOps
  · rw [if_neg (by omega), if_pos inside, u16Sub_of_le inside.1 (by omega)]
  · rw [if_pos (by omega), if_neg inside]

def Capture.cell (c : Capture) (row event : ℕ) : ℕ :=
  c.matrixStorage + (row * c.totalEventCount + event)

theorem SameSetup.cell {c c' : Capture} (same : SameSetup c c') (row event : ℕ) :
    c'.cell row event = c.cell row event := by
  unfold Capture.cell
  rw [same.matrixStorage, same.totalEventCount]

theorem captureCurrentChunkOffset_eq {c : Capture} (inv : CaptureInvariant c) {row event : ℕ}
    (hr : row < c.currentChunkOps) (he : event < c.totalEventCount) :
    captureCurrentChunkOffset c row event = row * c.totalEventCount + event := by
  have lt := inv.totalOps_lt
  have perChunk := inv.opsPerChunk_le
  have ops := inv.chunkOps
  have count := inv.eventCount_le
  apply u32_of_lt
  have inside := rowMajor_lt hr he
  have size : c.currentChunkOps * c.totalEventCount ≤ 65535 * 70 :=
    Nat.mul_le_mul (by omega) count
  omega

theorem addPassReadings_eq {c : Capture} (inv : CaptureInvariant c) {row : ℕ}
    (hr : row < c.currentChunkOps) (pmuCfg : PmuConfig) (mem : ℕ → Word) :
    addPassReadings { c with pmuCfg := pmuCfg } row mem =
      addAll (fun slot => c.cell row (c.currentEventBase + slot))
        (fun slot => (pmuCfg.counter slot).counterValue) (List.range c.currentPassEvents) mem := by
  have count := inv.eventCount_le
  have pass := inv.passEvents
  apply addAll_congr
  · intro slot hs
    have hs : slot < c.currentPassEvents := List.mem_range.mp hs
    dsimp only [Capture.cell]
    rw [u16_of_lt (by omega)]
    change c.matrixStorage + captureCurrentChunkOffset c row (c.currentEventBase + slot) = _
    rw [captureCurrentChunkOffset_eq inv hr (by omega)]
  · exact fun _ _ => rfl

theorem captureLayerEnd_outside (P : Platform H) {c : Capture} (w : World H)
    (inv : CaptureInvariant c) {op : ℕ}
    (outside : ¬ (c.currentChunkStart ≤ op ∧ op < c.currentChunkStart + c.currentChunkOps)) :
    captureLayerEnd P c op w = (c, w) := by
  unfold captureLayerEnd
  rw [captureShouldSampleLayer_eq inv, if_neg outside]

theorem captureLayerEnd_inside (P : Platform H) {c : Capture} (w : World H)
    (inv : CaptureInvariant c) {op : ℕ}
    (inside : c.currentChunkStart ≤ op ∧ op < c.currentChunkStart + c.currentChunkOps) :
    captureLayerEnd P c op w =
      ({ c with pmuCfg := (pmuGetCounters P c.pmuCfg w.pmu).2.1 },
        ⟨(pmuGetCounters P c.pmuCfg w.pmu).2.2,
          if (pmuGetCounters P c.pmuCfg w.pmu).1 = statusSuccess then
            addAll (fun slot => c.cell (op - c.currentChunkStart) (c.currentEventBase + slot))
              (fun slot => ((pmuGetCounters P c.pmuCfg w.pmu).2.1.counter slot).counterValue)
              (List.range c.currentPassEvents) w.mem
          else w.mem⟩) := by
  unfold captureLayerEnd
  rw [captureShouldSampleLayer_eq inv, if_pos inside]
  dsimp only
  by_cases ok : (pmuGetCounters P c.pmuCfg w.pmu).1 = statusSuccess
  · rw [if_neg (not_not_intro ok), if_pos ok, addPassReadings_eq inv (by omega)]
  · rw [if_pos ok, if_neg ok]

/-- The calls on a capture, and the hardware running on between two calls. -/
inductive CaptureCall (H X : Type) where
  | reset
  | modelBegin
  | modelEnd
  | layerBegin (globalOpIndex : BitVec 16)
  | layerEnd (globalOpIndex : BitVec 16)
  | advanceChunk
  | serializeCsv (transport : Transport X) (includeHeader : Bool) (context : X)
  | elapse (f : H → H)

structure CaptureState (H : Type) where
  capture : Capture
  world : World H

/-- The hardware runs on; no other state changes. -/
def World.elapse (w : World H) (f : H → H) : World H :=
  { w with pmu := { w.pmu with hw := f w.pmu.hw } }

/-- One call. Serialising reads the capture and the memory through pointers to constants
and changes the context of its transport only. -/
def captureStep (P : Platform H) (x : CaptureState H) : CaptureCall H X → CaptureState H
  | .reset => ⟨(captureReset P x.capture x.world).2.1, (captureReset P x.capture x.world).2.2⟩
  | .modelBegin => ⟨captureModelBegin x.capture, x.world⟩
  | .modelEnd =>
    ⟨(captureModelEnd P x.capture x.world).2.1, (captureModelEnd P x.capture x.world).2.2⟩
  | .layerBegin op => ⟨x.capture, captureLayerBegin P x.capture op.toNat x.world⟩
  | .layerEnd op =>
    ⟨(captureLayerEnd P x.capture op.toNat x.world).1,
      (captureLayerEnd P x.capture op.toNat x.world).2⟩
  | .advanceChunk =>
    ⟨(captureAdvanceChunk P x.capture x.world).2.1, (captureAdvanceChunk P x.capture x.world).2.2⟩
  | .serializeCsv _ _ _ => x
  | .elapse f => ⟨x.capture, x.world.elapse f⟩

theorem captureReset_eq (P : Platform H) {c : Capture} (w : World H) (setup : CaptureSetup c) :
    captureReset P c w = captureResetChunk P { c with complete := false } 0 w :=
  if_neg setup.storage

theorem CaptureSetup.incomplete {c : Capture} (setup : CaptureSetup c) :
    CaptureSetup { c with complete := false } :=
  setup.of_same .progress

theorem CaptureSetup.totalOps_pos {c : Capture} (setup : CaptureSetup c) : 0 < c.totalOps := by
  have := setup.opsPerChunk_pos
  have := setup.opsPerChunk_le
  omega

theorem capturePreparePass_nextPass (P : Platform H) {c : Capture} (s : Pmu H)
    (inv : CaptureInvariant c) (more : c.currentEventBase + c.eventsPerPass < c.totalEventCount)
    (unready : c.chunkReady = false) (incomplete : c.complete = false) :
    CaptureInvariant (capturePreparePass P c.nextPass s).2.1 ∧
      SameSetup c (capturePreparePass P c.nextPass s).2.1 := by
  have same : SameSetup c c.nextPass := .progress
  have setup := inv.toCaptureSetup.of_same same
  rw [capturePreparePass_capture P s setup more]
  refine ⟨⟨setup.of_same .progress, inv.chunkStart_dvd,
    inv.chunkStart_lt, inv.chunkOps, ?_, more, rfl, ?_, ?_⟩, .progress⟩
  · exact Nat.dvd_add inv.eventBase_dvd (Nat.dvd_refl _)
  · intro ready
    exact absurd (unready.symm.trans ready) (by decide)
  · intro complete
    exact absurd (incomplete.symm.trans complete) (by decide)

theorem captureModelEnd_invariant (P : Platform H) {c : Capture} (w : World H)
    (inv : CaptureInvariant c) :
    CaptureInvariant (captureModelEnd P c w).2.1 ∧ SameSetup c (captureModelEnd P c w).2.1 := by
  rcases captureModelEnd_cases P w inv with ⟨-, eq⟩ | ⟨-, -, last, eq⟩ | ⟨ready, complete, -, more, eq⟩
  · rw [eq]
    exact ⟨inv, .refl c⟩
  · rw [eq]
    refine ⟨⟨inv.toCaptureSetup.of_same .progress,
      inv.chunkStart_dvd, inv.chunkStart_lt, inv.chunkOps, inv.eventBase_dvd, inv.eventBase_lt,
      inv.passEvents, ?_, ?_⟩, .progress⟩
    · intro _
      exact ⟨last, decide_eq_true_iff⟩
    · intro complete
      exact ⟨last, of_decide_eq_true complete⟩
  · rw [eq]
    exact capturePreparePass_nextPass P w.pmu inv more ready complete

theorem captureAdvanceChunk_invariant (P : Platform H) {c : Capture} (w : World H)
    (inv : CaptureInvariant c) :
    CaptureInvariant (captureAdvanceChunk P c w).2.1 ∧
      SameSetup c (captureAdvanceChunk P c w).2.1 := by
  rcases captureAdvanceChunk_cases P w inv with
    ⟨-, eq⟩ | ⟨-, -, eq⟩ | ⟨-, incomplete, -, more, eq⟩
  · rw [eq]
    exact ⟨inv, .refl c⟩
  · rw [eq]
    refine ⟨⟨inv.toCaptureSetup.of_same .progress,
      inv.chunkStart_dvd, inv.chunkStart_lt, inv.chunkOps, inv.eventBase_dvd, inv.eventBase_lt,
      inv.passEvents, ?_, inv.completed⟩, .progress⟩
    intro ready
    cases ready
  · rw [eq]
    have dvd := Nat.dvd_add inv.chunkStart_dvd (Nat.dvd_refl c.opsPerChunk)
    exact ⟨captureResetChunk_invariant P w inv.toCaptureSetup more dvd incomplete,
      captureResetChunk_same P w inv.toCaptureSetup more⟩

theorem captureLayerEnd_invariant (P : Platform H) {c : Capture} (w : World H) (op : ℕ)
    (inv : CaptureInvariant c) :
    CaptureInvariant (captureLayerEnd P c op w).1 ∧ SameSetup c (captureLayerEnd P c op w).1 := by
  by_cases inside : c.currentChunkStart ≤ op ∧ op < c.currentChunkStart + c.currentChunkOps
  · rw [captureLayerEnd_inside P w inv inside]
    exact ⟨⟨inv.toCaptureSetup.of_same .progress,
      inv.chunkStart_dvd, inv.chunkStart_lt, inv.chunkOps, inv.eventBase_dvd, inv.eventBase_lt,
      inv.passEvents, inv.ready, inv.completed⟩, .progress⟩
  · rw [captureLayerEnd_outside P w inv inside]
    exact ⟨inv, .refl c⟩

theorem captureStep_invariant (P : Platform H) {x : CaptureState H} (call : CaptureCall H X)
    (inv : CaptureInvariant x.capture) :
    CaptureInvariant (captureStep P x call).capture ∧
      SameSetup x.capture (captureStep P x call).capture := by
  have setup := inv.toCaptureSetup
  cases call with
  | reset =>
    dsimp only [captureStep]
    rw [captureReset_eq P x.world setup]
    have same : SameSetup x.capture { x.capture with complete := false } :=
      .progress
    exact ⟨captureResetChunk_invariant P x.world setup.incomplete setup.totalOps_pos
        (Nat.dvd_zero _) rfl,
      same.trans (captureResetChunk_same P x.world setup.incomplete setup.totalOps_pos)⟩
  | modelBegin => exact ⟨inv, .refl _⟩
  | modelEnd => exact captureModelEnd_invariant P x.world inv
  | layerBegin _ => exact ⟨inv, .refl _⟩
  | layerEnd op => exact captureLayerEnd_invariant P x.world op.toNat inv
  | advanceChunk => exact captureAdvanceChunk_invariant P x.world inv
  | serializeCsv _ _ _ => exact ⟨inv, .refl _⟩
  | elapse _ => exact ⟨inv, .refl _⟩

def Capture.storageRange (c : Capture) (a : ℕ) : Prop :=
  c.matrixStorage ≤ a ∧ a < c.matrixStorage + c.matrixStorageCount

theorem CaptureInvariant.rows_fit {c : Capture} (inv : CaptureInvariant c) :
    c.currentChunkOps * c.totalEventCount ≤ c.matrixStorageCount := by
  have ops := inv.chunkOps
  have rows : c.currentChunkOps ≤ c.opsPerChunk := by omega
  exact (Nat.mul_le_mul_right _ rows).trans inv.fits

theorem Capture.cell_range {c : Capture} (inv : CaptureInvariant c) {row event : ℕ}
    (hr : row < c.currentChunkOps) (he : event < c.totalEventCount) :
    c.storageRange (c.cell row event) := by
  have inside := rowMajor_lt hr he
  have fits := inv.rows_fit
  unfold Capture.storageRange Capture.cell
  omega

theorem captureResetChunk_memory (P : Platform H) {c : Capture} (w : World H) {chunkStart a : ℕ}
    (setup : CaptureSetup c) (start : chunkStart < c.totalOps) (ha : ¬ c.storageRange a) :
    (captureResetChunk P c chunkStart w).2.2.mem a = w.mem a := by
  rw [captureResetChunk_eq P w setup start]
  apply zeroRange_outside
  have rows : min c.opsPerChunk (c.totalOps - chunkStart) ≤ c.opsPerChunk := by omega
  have fits := (Nat.mul_le_mul_right c.totalEventCount rows).trans setup.fits
  unfold Capture.storageRange at ha
  omega

theorem captureResetChunk_cleared (P : Platform H) {c : Capture} (w : World H) {chunkStart : ℕ}
    (setup : CaptureSetup c) (start : chunkStart < c.totalOps) {r e : ℕ}
    (hr : r < min c.opsPerChunk (c.totalOps - chunkStart)) (he : e < c.totalEventCount) :
    (captureResetChunk P c chunkStart w).2.2.mem (c.cell r e) = 0 := by
  have inside := rowMajor_lt hr he
  rw [captureResetChunk_eq P w setup start]
  unfold Capture.cell
  exact zeroRange_inside _ (Nat.le_add_right _ _) (by omega)

theorem captureStep_memory (P : Platform H) {x : CaptureState H} (call : CaptureCall H X)
    (inv : CaptureInvariant x.capture) {a : ℕ} (ha : ¬ x.capture.storageRange a) :
    (captureStep P x call).world.mem a = x.world.mem a := by
  cases call with
  | reset =>
    dsimp only [captureStep]
    rw [captureReset_eq P x.world inv.toCaptureSetup]
    exact captureResetChunk_memory P x.world inv.toCaptureSetup.incomplete
      inv.toCaptureSetup.totalOps_pos ha
  | modelBegin => rfl
  | modelEnd =>
    dsimp only [captureStep]
    rcases captureModelEnd_cases P x.world inv with ⟨-, eq⟩ | ⟨-, -, -, eq⟩ | ⟨-, -, -, -, eq⟩ <;>
      rw [eq]
  | layerBegin op =>
    dsimp only [captureStep, captureLayerBegin]
    split <;> rfl
  | layerEnd op =>
    dsimp only [captureStep]
    by_cases inside : x.capture.currentChunkStart ≤ op.toNat ∧
        op.toNat < x.capture.currentChunkStart + x.capture.currentChunkOps
    · rw [captureLayerEnd_inside P x.world inv inside]
      dsimp only
      split
      · apply addAll_other
        intro slot hs eq
        have hs : slot < x.capture.currentPassEvents := List.mem_range.mp hs
        have pass := inv.passEvents
        exact ha (eq ▸ Capture.cell_range inv (by omega) (by omega))
      · rfl
    · rw [captureLayerEnd_outside P x.world inv inside]
  | advanceChunk =>
    dsimp only [captureStep]
    rcases captureAdvanceChunk_cases P x.world inv with
      ⟨-, eq⟩ | ⟨-, -, eq⟩ | ⟨-, -, -, more, eq⟩ <;> rw [eq]
    exact captureResetChunk_memory P x.world inv.toCaptureSetup more ha
  | serializeCsv _ _ _ => rfl
  | elapse _ => rfl

def captureStart (P : Platform H) (c : Capture) (cfg : CaptureCfg) (w : World H) : CaptureState H :=
  ⟨(captureInit P c cfg w).2.1, (captureInit P c cfg w).2.2⟩

/-- The states after a successful `nsx_pmu_capture_init` and any calls. -/
def CaptureReached (X : Type) (P : Platform H) (x : CaptureState H) : Prop :=
  ∃ (c : Capture) (cfg : CaptureCfg) (w : World H) (calls : List (CaptureCall H X)),
    (captureInit P c cfg w).1 = statusSuccess ∧ x = run (captureStep P) (captureStart P c cfg w) calls

variable {P : Platform H} {c : Capture} {cfg : CaptureCfg} {w : World H}

theorem captureStart_eq (ok : (captureInit P c cfg w).1 = statusSuccess) :
    cfg.Valid ∧ captureInit P c cfg w = captureResetChunk P (cfg.fresh c) 0 w := by
  rcases captureInit_cases P c cfg w with accepted | ⟨-, failed, -⟩
  · exact accepted
  · exact absurd ok failed

theorem captureStart_invariant (ok : (captureInit P c cfg w).1 = statusSuccess) :
    CaptureInvariant (captureStart P c cfg w).capture ∧
      SameSetup (cfg.fresh c) (captureStart P c cfg w).capture := by
  obtain ⟨valid, eq⟩ := captureStart_eq ok
  have setup := valid.setup c
  unfold captureStart
  rw [eq]
  exact ⟨captureResetChunk_invariant P w setup setup.totalOps_pos (Nat.dvd_zero _) rfl,
    captureResetChunk_same P w setup setup.totalOps_pos⟩

theorem captureStart_memory (ok : (captureInit P c cfg w).1 = statusSuccess) {a : ℕ}
    (ha : ¬ (cfg.fresh c).storageRange a) : (captureStart P c cfg w).world.mem a = w.mem a := by
  obtain ⟨valid, eq⟩ := captureStart_eq ok
  have setup := valid.setup c
  unfold captureStart
  rw [eq]
  exact captureResetChunk_memory P w setup setup.totalOps_pos ha

theorem SameSetup.storageRange {c c' : Capture} (same : SameSetup c c') (a : ℕ) :
    c'.storageRange a ↔ c.storageRange a := by
  unfold Capture.storageRange
  rw [same.matrixStorage, same.matrixStorageCount]

theorem captureRun_invariant (P : Platform H) {x : CaptureState H}
    (inv : CaptureInvariant x.capture) (calls : List (CaptureCall H X)) :
    CaptureInvariant (run (captureStep P) x calls).capture ∧
      SameSetup x.capture (run (captureStep P) x calls).capture ∧
      ∀ a, ¬ x.capture.storageRange a → (run (captureStep P) x calls).world.mem a = x.world.mem a := by
  refine run_invariant_of_step (I := fun y : CaptureState H => CaptureInvariant y.capture ∧
    SameSetup x.capture y.capture ∧
    ∀ a, ¬ x.capture.storageRange a → y.world.mem a = x.world.mem a) ?_ ?_ calls
  · rintro y call ⟨inv, same, frame⟩
    obtain ⟨inv', same'⟩ := captureStep_invariant P call inv
    refine ⟨inv', same.trans same', ?_⟩
    intro a ha
    rw [captureStep_memory P call inv (by rwa [same.storageRange]), frame a ha]
  · exact ⟨inv, .refl _, fun _ _ => rfl⟩

theorem CaptureReached.invariant {x : CaptureState H} (reached : CaptureReached X P x) :
    CaptureInvariant x.capture := by
  obtain ⟨c, cfg, w, calls, ok, rfl⟩ := reached
  exact (captureRun_invariant P (captureStart_invariant ok).1 calls).1

/-- The indices a capture computes: each is inside its array, and no store to a narrow
field or argument changes its value. -/
structure IndexSafe (c : Capture) : Prop where
  slots : 2 * c.currentPassEvents ≤ maxCounters
  mapIndex : ∀ e m, captureGetEventMapIndex c e = .ok m → e < c.totalEventCount ∧ m < pmuMapSize
  sampled : ∀ op row, captureShouldSampleLayer c op = some row →
    op = c.currentChunkStart + row ∧ row < c.currentChunkOps
  cell : ∀ row < c.currentChunkOps, ∀ e < c.totalEventCount,
    captureCurrentChunkOffset c row e = row * c.totalEventCount + e ∧
      captureCurrentChunkOffset c row e < c.matrixStorageCount
  passEvent : ∀ slot < c.currentPassEvents,
    u16 (c.currentEventBase + slot) = c.currentEventBase + slot ∧
      c.currentEventBase + slot < c.totalEventCount
  cleared : captureRequiredStorage c.currentChunkOps c.totalEventCount =
    c.currentChunkOps * c.totalEventCount ∧
      c.currentChunkOps * c.totalEventCount ≤ c.matrixStorageCount
  nextPass : u16 (c.currentEventBase + c.currentPassEvents) =
    c.currentEventBase + c.currentPassEvents
  nextChunk : u16 (c.currentChunkStart + c.currentChunkOps) =
    c.currentChunkStart + c.currentChunkOps

theorem CaptureInvariant.indexSafe {c : Capture} (inv : CaptureInvariant c) : IndexSafe c := by
  have lt := inv.totalOps_lt
  have start := inv.chunkStart_lt
  have ops := inv.chunkOps
  have pass := inv.passEvents
  have perPass := inv.eventsPerPass_le
  have count := inv.eventCount_le
  have base := inv.eventBase_lt
  refine ⟨?_, ?_, ?_, ?_, ?_, ?_, u16_of_lt (by omega),
    u16_of_lt (by omega)⟩
  · dsimp only [maxCounters]
    omega
  · intro e m h
    obtain ⟨he, hm, -⟩ := captureGetEventMapIndex_ok.mp h
    exact ⟨he, hm⟩
  · intro op row sampled
    rw [captureShouldSampleLayer_eq inv] at sampled
    split at sampled
    · obtain rfl := Option.some.inj sampled
      omega
    · cases sampled
  · intro row hr e he
    have inside := rowMajor_lt hr he
    rw [captureCurrentChunkOffset_eq inv hr he]
    exact ⟨rfl, inside.trans_le inv.rows_fit⟩
  · intro slot hs
    exact ⟨u16_of_lt (by omega), by omega⟩
  · exact ⟨captureRequiredStorage_eq (by omega) count, inv.rows_fit⟩

/-- Whatever is called after a successful `nsx_pmu_capture_init`, and whatever the vendor
layer answers, the capture satisfies its invariant, computes no index outside its arrays
and writes no word outside the matrix. -/
theorem capture_representation_invariant (P : Platform H) (c : Capture) (cfg : CaptureCfg)
    (w : World H) (calls : List (CaptureCall H X))
    (ok : (captureInit P c cfg w).1 = statusSuccess) :
    CaptureInvariant (run (captureStep P) (captureStart P c cfg w) calls).capture ∧
    IndexSafe (run (captureStep P) (captureStart P c cfg w) calls).capture ∧
    SameSetup (cfg.fresh c) (run (captureStep P) (captureStart P c cfg w) calls).capture ∧
    ∀ a, ¬ (cfg.matrixStorage ≤ a ∧ a < cfg.matrixStorage + cfg.matrixStorageCount.toNat) →
      (run (captureStep P) (captureStart P c cfg w) calls).world.mem a = w.mem a := by
  obtain ⟨start, same⟩ := captureStart_invariant ok
  obtain ⟨inv, same', frame⟩ := captureRun_invariant P start calls
  refine ⟨inv, inv.indexSafe, same.trans same', ?_⟩
  intro a ha
  rw [frame a (by rwa [same.storageRange]), captureStart_memory ok ha]

def Capture.zero : Capture := ⟨none, none, 0, 0, 0, 0, 0, 0, 0, 0, 0, 0, false, false, .zero⟩

def RefPmu.world (hw : RefPmu) : World RefPmu := ⟨⟨.start, hw, [], []⟩, fun _ => 0⟩

def refCaptureCfg (totalOps opsPerChunk eventCount : BitVec 16) (eventsPerPass : BitVec 8) :
    CaptureCfg :=
  ⟨none, totalOps, opsPerChunk, eventCount, eventsPerPass, none, 4096, 1024⟩

theorem capture_representation_invariant_ref :
    CaptureInvariant (run (captureStep refPlatform)
      (captureStart refPlatform .zero (refCaptureCfg 3 2 5 0) RefPmu.start.world)
      [CaptureCall.layerEnd (X := Unit) 1, .modelEnd, .modelEnd, .advanceChunk,
        .layerEnd 7]).capture :=
  (capture_representation_invariant refPlatform .zero (refCaptureCfg 3 2 5 0) RefPmu.start.world
    [CaptureCall.layerEnd (X := Unit) 1, .modelEnd, .modelEnd, .advanceChunk, .layerEnd 7]
    (by decide)).1

end NsxPmu
