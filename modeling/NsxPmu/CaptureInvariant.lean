import NsxPmu.CaptureCsv
import NsxPmu.Lib.LabelledRuns

set_option autoImplicit false

/-!
# The representation invariant of a capture

What an accepted configuration fixes, where a capture can stand in its chunks
and passes, and that every call keeps both, whatever the calls of the vendor
layer answer.
-/
namespace NsxPmu
open WordMemory LabelledRuns

variable {H X : Type}

/-- What an accepted configuration fixes. -/
structure CaptureSetup (c : Capture) : Prop where
  storage : c.matrixStorage ≠ 0
  eventsPerPass_pos : 1 ≤ c.eventsPerPass
  eventsPerPass_le : c.eventsPerPass ≤ 4
  eventCount_pos : 1 ≤ c.totalEventCount
  eventCount_le : c.totalEventCount ≤ 70
  opsPerChunk_pos : 1 ≤ c.opsPerChunk
  opsPerChunk_le : c.opsPerChunk ≤ c.totalOps
  totalOps_lt : c.totalOps < 65536
  fits : c.opsPerChunk * c.totalEventCount ≤ c.matrixStorageCount

structure CaptureInvariant (c : Capture) : Prop extends CaptureSetup c where
  chunkStart_dvd : c.opsPerChunk ∣ c.currentChunkStart
  chunkStart_lt : c.currentChunkStart < c.totalOps
  chunkOps : c.currentChunkOps = min c.opsPerChunk (c.totalOps - c.currentChunkStart)
  eventBase_dvd : c.eventsPerPass ∣ c.currentEventBase
  eventBase_lt : c.currentEventBase < c.totalEventCount
  passEvents : c.currentPassEvents =
    min c.eventsPerPass (c.totalEventCount - c.currentEventBase)
  ready : c.chunkReady = true →
    c.currentEventBase + c.currentPassEvents = c.totalEventCount ∧
    (c.complete = true ↔ c.currentChunkStart + c.currentChunkOps = c.totalOps)
  completed : c.complete = true →
    c.currentEventBase + c.currentPassEvents = c.totalEventCount ∧
    c.currentChunkStart + c.currentChunkOps = c.totalOps

theorem captureMinU16_eq (left right : ℕ) : captureMinU16 left right = min left right := by
  unfold captureMinU16
  split <;> omega

theorem captureRequiredStorage_eq {ops events : ℕ} (ho : ops < 65536) (he : events ≤ 70) :
    captureRequiredStorage ops events = ops * events := by
  apply u32_of_lt
  calc
    ops * events ≤ 65535 * 70 := Nat.mul_le_mul (by omega) he
    _ < 4294967296 := by decide

/-- The fields a configuration fixes are the same in two captures. -/
structure SameSetup (c c' : Capture) : Prop where
  api : c'.api = c.api
  eventMapIndices : c'.eventMapIndices = c.eventMapIndices
  matrixStorage : c'.matrixStorage = c.matrixStorage
  matrixStorageCount : c'.matrixStorageCount = c.matrixStorageCount
  totalOps : c'.totalOps = c.totalOps
  opsPerChunk : c'.opsPerChunk = c.opsPerChunk
  totalEventCount : c'.totalEventCount = c.totalEventCount
  eventsPerPass : c'.eventsPerPass = c.eventsPerPass

theorem SameSetup.refl (c : Capture) : SameSetup c c := ⟨rfl, rfl, rfl, rfl, rfl, rfl, rfl, rfl⟩

theorem SameSetup.trans {a b c : Capture} (h : SameSetup a b) (h' : SameSetup b c) :
    SameSetup a c :=
  ⟨h'.api.trans h.api, h'.eventMapIndices.trans h.eventMapIndices,
    h'.matrixStorage.trans h.matrixStorage, h'.matrixStorageCount.trans h.matrixStorageCount,
    h'.totalOps.trans h.totalOps, h'.opsPerChunk.trans h.opsPerChunk,
    h'.totalEventCount.trans h.totalEventCount, h'.eventsPerPass.trans h.eventsPerPass⟩

theorem SameSetup.progress {c : Capture} {start ops base pass : ℕ} {ready complete : Bool}
    {pmuCfg : PmuConfig} :
    SameSetup c { c with
      currentChunkStart := start
      currentChunkOps := ops
      currentEventBase := base
      currentPassEvents := pass
      chunkReady := ready
      complete := complete
      pmuCfg := pmuCfg } :=
  ⟨rfl, rfl, rfl, rfl, rfl, rfl, rfl, rfl⟩

theorem CaptureSetup.of_same {c c' : Capture} (h : CaptureSetup c) (same : SameSetup c c') :
    CaptureSetup c' := by
  obtain ⟨-, -, storage, count, ops, perChunk, events, perPass⟩ := same
  exact ⟨storage ▸ h.storage, perPass ▸ h.eventsPerPass_pos, perPass ▸ h.eventsPerPass_le,
    events ▸ h.eventCount_pos, events ▸ h.eventCount_le, perChunk ▸ h.opsPerChunk_pos,
    by rw [perChunk, ops]; exact h.opsPerChunk_le, ops ▸ h.totalOps_lt,
    by rw [perChunk, events, count]; exact h.fits⟩

/-- The map entry a capture measures in the column of a logical event. -/
def Capture.mapEntry (c : Capture) (event : ℕ) : ℕ :=
  match c.eventMapIndices with
  | none => event
  | some indices => (indices event).toNat

theorem captureGetEventMapIndex_eq {c : Capture} {e : ℕ} (he : e < c.totalEventCount) :
    captureGetEventMapIndex c e =
      if c.mapEntry e < pmuMapSize then .ok (c.mapEntry e) else .error statusInvalidConfig := by
  unfold captureGetEventMapIndex
  rw [if_neg (by omega)]
  change (if c.mapEntry e ≥ pmuMapSize then _ else _) = _
  by_cases known : c.mapEntry e < pmuMapSize
  · rw [if_pos known, if_neg (by omega)]
    rfl
  · rw [if_neg known, if_pos (by omega)]

theorem captureGetEventMapIndex_ok {c : Capture} {e m : ℕ} :
    captureGetEventMapIndex c e = .ok m ↔
      e < c.totalEventCount ∧ m < pmuMapSize ∧ m = c.mapEntry e := by
  by_cases he : e < c.totalEventCount
  · rw [captureGetEventMapIndex_eq he]
    split
    · rename_i known
      rw [Except.ok.injEq]
      constructor
      · rintro rfl
        exact ⟨he, known, rfl⟩
      · rintro ⟨-, -, rfl⟩
        rfl
    · rename_i unknown
      simp only [reduceCtorEq, false_iff]
      rintro ⟨-, known, rfl⟩
      exact unknown known
  · simp only [captureGetEventMapIndex, he, false_and, iff_false]
    rw [if_pos (by omega)]
    simp

theorem capturePreparePass_capture (P : Platform H) {c : Capture} (s : Pmu H)
    (setup : CaptureSetup c) (base : c.currentEventBase < c.totalEventCount) :
    (capturePreparePass P c s).2.1 =
      { c with
          currentPassEvents := min c.eventsPerPass (c.totalEventCount - c.currentEventBase)
          pmuCfg := (capturePreparePass P c s).2.1.pmuCfg } := by
  have le := setup.eventsPerPass_le
  have count := setup.eventCount_le
  have size : u8 (captureMinU16 c.eventsPerPass (u16Sub c.totalEventCount c.currentEventBase)) =
      min c.eventsPerPass (c.totalEventCount - c.currentEventBase) := by
    rw [u16Sub_of_le (by omega) (by omega), captureMinU16_eq, u8_of_lt (by omega)]
  unfold capturePreparePass
  dsimp only
  rw [if_neg (by omega), size]
  split <;> rfl

/-- The capture at the start of a chunk, before its first pass is prepared. -/
def Capture.openChunk (c : Capture) (chunkStart : ℕ) : Capture :=
  { c with
      currentChunkStart := chunkStart
      currentChunkOps := min c.opsPerChunk (c.totalOps - chunkStart)
      currentEventBase := 0
      currentPassEvents := 0
      chunkReady := false }

theorem Capture.openChunk_same (c : Capture) (chunkStart : ℕ) : SameSetup c (c.openChunk chunkStart) :=
  .progress

theorem captureResetChunk_eq (P : Platform H) {c : Capture} (w : World H) {chunkStart : ℕ}
    (setup : CaptureSetup c) (start : chunkStart < c.totalOps) :
    captureResetChunk P c chunkStart w =
      ((capturePreparePass P (c.openChunk chunkStart) w.pmu).1,
        (capturePreparePass P (c.openChunk chunkStart) w.pmu).2.1,
        ⟨(capturePreparePass P (c.openChunk chunkStart) w.pmu).2.2,
          zeroRange w.mem c.matrixStorage
            (min c.opsPerChunk (c.totalOps - chunkStart) * c.totalEventCount)⟩) := by
  have lt := setup.totalOps_lt
  have size : captureMinU16 c.opsPerChunk (u16Sub c.totalOps chunkStart) =
      min c.opsPerChunk (c.totalOps - chunkStart) := by
    rw [u16Sub_of_le (by omega) lt, captureMinU16_eq]
  unfold captureResetChunk
  dsimp only
  rw [size, captureRequiredStorage_eq (by omega) setup.eventCount_le]
  rfl

theorem captureResetChunk_capture (P : Platform H) {c : Capture} (w : World H) {chunkStart : ℕ}
    (setup : CaptureSetup c) (start : chunkStart < c.totalOps) :
    (captureResetChunk P c chunkStart w).2.1 =
      { c with
          currentChunkStart := chunkStart
          currentChunkOps := min c.opsPerChunk (c.totalOps - chunkStart)
          currentEventBase := 0
          currentPassEvents := min c.eventsPerPass c.totalEventCount
          chunkReady := false
          pmuCfg := (captureResetChunk P c chunkStart w).2.1.pmuCfg } := by
  rw [captureResetChunk_eq P w setup start]
  exact capturePreparePass_capture P w.pmu (setup.of_same (c.openChunk_same chunkStart))
    setup.eventCount_pos

theorem captureResetChunk_same (P : Platform H) {c : Capture} (w : World H) {chunkStart : ℕ}
    (setup : CaptureSetup c) (start : chunkStart < c.totalOps) :
    SameSetup c (captureResetChunk P c chunkStart w).2.1 := by
  rw [captureResetChunk_capture P w setup start]
  exact .progress

theorem captureResetChunk_invariant (P : Platform H) {c : Capture} (w : World H) {chunkStart : ℕ}
    (setup : CaptureSetup c) (start : chunkStart < c.totalOps) (dvd : c.opsPerChunk ∣ chunkStart)
    (incomplete : c.complete = false) : CaptureInvariant (captureResetChunk P c chunkStart w).2.1 := by
  have kept := setup.of_same (captureResetChunk_same P w setup start)
  rw [captureResetChunk_capture P w setup start] at kept ⊢
  refine ⟨kept, dvd, start, rfl, Nat.dvd_zero _, setup.eventCount_pos, rfl, ?_, ?_⟩
  · intro ready
    cases ready
  · intro complete
    exact absurd (incomplete.symm.trans complete) (by decide)

/-- The capture that a validated configuration sets up, before its first chunk. -/
def CaptureCfg.fresh (cfg : CaptureCfg) (c : Capture) : Capture :=
  { c with
      api := some (cfg.api.getD pmuV1_0_0)
      eventMapIndices := cfg.eventMapIndices
      matrixStorage := cfg.matrixStorage
      matrixStorageCount := cfg.matrixStorageCount.toNat
      totalOps := cfg.totalOps.toNat
      opsPerChunk := captureGetOpsPerChunk cfg
      totalEventCount := captureGetEventCount cfg
      eventsPerPass :=
        if cfg.eventsPerPass.toNat = 0 then maxEventsPerPass else cfg.eventsPerPass.toNat
      complete := false
      pmuCfg := .zero }

/-- The configurations that pass the validation of `nsx_pmu_capture_init`. -/
structure CaptureCfg.Valid (cfg : CaptureCfg) : Prop where
  storage : cfg.matrixStorage ≠ 0
  totalOps_pos : cfg.totalOps.toNat ≠ 0
  eventCount_le : captureGetEventCount cfg ≤ 70
  opsPerChunk_le : captureGetOpsPerChunk cfg ≤ cfg.totalOps.toNat
  eventsPerPass_le : cfg.eventsPerPass.toNat ≤ 4
  fits : captureGetOpsPerChunk cfg * captureGetEventCount cfg ≤ cfg.matrixStorageCount.toNat

/-- The validation before the first assignment to the capture. -/
def CaptureCfg.RefusedEarly (cfg : CaptureCfg) : Prop :=
  cfg.matrixStorage = 0 ∨ cfg.totalOps.toNat = 0 ∨ captureGetEventCount cfg > pmuMapSize ∨
    captureGetOpsPerChunk cfg > cfg.totalOps.toNat

/-- The capture with the fields that `nsx_pmu_capture_init` assigns before it checks the pass
size and the room in the storage. -/
def CaptureCfg.assigned (cfg : CaptureCfg) (c : Capture) : Capture :=
  { cfg.fresh c with complete := c.complete, pmuCfg := c.pmuCfg }

theorem captureGetEventCount_pos (cfg : CaptureCfg) : 1 ≤ captureGetEventCount cfg := by
  unfold captureGetEventCount
  dsimp only [pmuMapSize]
  split <;> omega

theorem captureGetOpsPerChunk_pos {cfg : CaptureCfg} (h : cfg.totalOps.toNat ≠ 0) :
    1 ≤ captureGetOpsPerChunk cfg := by
  unfold captureGetOpsPerChunk
  split <;> omega

theorem CaptureCfg.Valid.setup {cfg : CaptureCfg} (valid : cfg.Valid) (c : Capture) :
    CaptureSetup (cfg.fresh c) where
  storage := valid.storage
  eventsPerPass_pos := by
    dsimp only [CaptureCfg.fresh, maxEventsPerPass, maxCounters]
    split <;> omega
  eventsPerPass_le := by
    have := valid.eventsPerPass_le
    dsimp only [CaptureCfg.fresh, maxEventsPerPass, maxCounters]
    split <;> omega
  eventCount_pos := captureGetEventCount_pos cfg
  eventCount_le := valid.eventCount_le
  opsPerChunk_pos := captureGetOpsPerChunk_pos valid.totalOps_pos
  opsPerChunk_le := valid.opsPerChunk_le
  totalOps_lt := cfg.totalOps.isLt
  fits := valid.fits

/-- A valid configuration starts the first chunk of the fresh capture. One that is refused early
changes nothing, and one that is refused later leaves the assigned fields. -/
theorem captureInit_outcome (P : Platform H) (c : Capture) (cfg : CaptureCfg) (w : World H) :
    (cfg.Valid ∧ captureInit P c cfg w = captureResetChunk P (cfg.fresh c) 0 w) ∨
    (¬ cfg.Valid ∧ cfg.RefusedEarly ∧ ∃ status,
      (status = statusInvalidHandle ∨ status = statusInvalidConfig) ∧
        captureInit P c cfg w = (status, c, w)) ∨
    (¬ cfg.Valid ∧ ¬ cfg.RefusedEarly ∧
      captureInit P c cfg w = (statusInvalidConfig, cfg.assigned c, w)) := by
  unfold captureInit
  by_cases storage : cfg.matrixStorage = 0
  · rw [if_pos storage]
    exact .inr (.inl ⟨fun valid => valid.storage storage, .inl storage, _, .inl rfl, rfl⟩)
  rw [if_neg storage]
  by_cases ops : cfg.totalOps.toNat = 0
  · rw [if_pos ops]
    exact .inr (.inl ⟨fun valid => valid.totalOps_pos ops, .inr (.inl ops), _, .inr rfl, rfl⟩)
  rw [if_neg ops]
  have events := captureGetEventCount_pos cfg
  have perChunk := captureGetOpsPerChunk_pos ops
  have lt := cfg.totalOps.isLt
  dsimp only
  by_cases range : captureGetEventCount cfg = 0 ∨ captureGetEventCount cfg > pmuMapSize ∨
      captureGetOpsPerChunk cfg = 0 ∨ captureGetOpsPerChunk cfg > cfg.totalOps.toNat
  · rw [if_pos range]
    have early : cfg.RefusedEarly := by
      unfold CaptureCfg.RefusedEarly
      omega
    refine .inr (.inl ⟨fun valid => ?_, early, _, .inr rfl, rfl⟩)
    have := valid.eventCount_le
    have := valid.opsPerChunk_le
    dsimp only [pmuMapSize] at range
    omega
  rw [if_neg range]
  have late : ¬ cfg.RefusedEarly := by
    unfold CaptureCfg.RefusedEarly
    omega
  dsimp only [pmuMapSize] at range
  rw [u16_of_lt (by omega), u16_of_lt (by omega), captureRequiredStorage_eq (by omega) (by omega)]
  have perPass : (if cfg.eventsPerPass.toNat = 0 then maxEventsPerPass else cfg.eventsPerPass.toNat) >
      maxEventsPerPass ↔ ¬ cfg.eventsPerPass.toNat ≤ 4 := by
    dsimp only [maxEventsPerPass, maxCounters]
    split <;> omega
  by_cases passes : cfg.eventsPerPass.toNat ≤ 4
  · rw [if_neg (by rw [perPass]; exact not_not_intro passes)]
    by_cases fits : captureGetOpsPerChunk cfg * captureGetEventCount cfg ≤
        cfg.matrixStorageCount.toNat
    · rw [if_neg (by omega)]
      exact .inl ⟨⟨storage, ops, by omega, by omega, passes, fits⟩, rfl⟩
    · rw [if_pos (by omega)]
      exact .inr (.inr ⟨fun valid => fits valid.fits, late, rfl⟩)
  · rw [if_pos (perPass.mpr passes)]
    exact .inr (.inr ⟨fun valid => passes valid.eventsPerPass_le, late, rfl⟩)

theorem captureInit_cases (P : Platform H) (c : Capture) (cfg : CaptureCfg) (w : World H) :
    (cfg.Valid ∧ captureInit P c cfg w = captureResetChunk P (cfg.fresh c) 0 w) ∨
    (¬ cfg.Valid ∧ (captureInit P c cfg w).1 ≠ statusSuccess ∧ (captureInit P c cfg w).2.2 = w) := by
  rcases captureInit_outcome P c cfg w with accepted | ⟨invalid, -, status, either, eq⟩ |
    ⟨invalid, -, eq⟩
  · exact .inl accepted
  · rw [eq]
    refine .inr ⟨invalid, ?_, rfl⟩
    rcases either with rfl | rfl
    · exact statusInvalidHandle_ne
    · exact statusInvalidConfig_ne
  · rw [eq]
    exact .inr ⟨invalid, statusInvalidConfig_ne, rfl⟩

end NsxPmu
