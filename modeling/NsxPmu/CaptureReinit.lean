import NsxPmu.CapturePass
import NsxPmu.InitAllocation

set_option autoImplicit false

/-!
# Initialising a capture again

`nsx_pmu_capture_init` on a capture that is in use. With the configuration the
capture was made from it does what `nsx_pmu_capture_reset` does; with one that it
rejects it may have assigned the fields of the rejected configuration before.
-/
namespace NsxPmu
open WordMemory LabelledRuns

variable {H X : Type}

structure SameCapture (c c' : Capture) : Prop where
  fields : c' = { c with pmuCfg := c'.pmuCfg }
  pmuCfg : SameSlots c.pmuCfg c'.pmuCfg

/-- Two calls that return the same status and leave the same capture, memory, driver
globals and hardware. -/
structure SameOutcome (r r' : Status × Capture × World H) : Prop where
  status : r'.1 = r.1
  capture : SameCapture r.2.1 r'.2.1
  memory : r'.2.2.mem = r.2.2.mem
  driver : r'.2.2.pmu.driver = r.2.2.pmu.driver
  hw : r'.2.2.pmu.hw = r.2.2.pmu.hw

theorem pmuResetConfig_slots (cfg q : PmuConfig) (api : Option CoreApi) :
    SameSlots { pmuResetConfig cfg with api := api } { pmuResetConfig q with api := api } where
  api := rfl
  events := by
    intro i hi
    dsimp only [pmuResetConfig]
    rw [if_pos hi, if_pos hi]
  counter := by
    intro i hi
    dsimp only [pmuResetConfig]
    rw [if_pos hi, if_pos hi]

theorem SameSlots.eventCreate {cfg cfg' : PmuConfig} (h : SameSlots cfg cfg') (i : ℕ) (id : Word)
    (size : CounterSize) : SameSlots (pmuEventCreate cfg i id size) (pmuEventCreate cfg' i id size) where
  api := h.api
  events := by
    intro j hj
    dsimp only [pmuEventCreate]
    by_cases here : j = i
    · subst here
      rw [Function.update_self, Function.update_self]
    · rw [Function.update_of_ne here, Function.update_of_ne here, h.events j hj]
  counter := h.counter

theorem selectPassEvents_congr (c : Capture) (q : PmuConfig) {l : List ℕ} {cfg cfg' : PmuConfig}
    (h : SameSlots cfg cfg') :
    (selectPassEvents { c with pmuCfg := q } l cfg').1 = (selectPassEvents c l cfg).1 ∧
    SameSlots (selectPassEvents c l cfg).2 (selectPassEvents { c with pmuCfg := q } l cfg').2 := by
  induction l generalizing cfg cfg' with
  | nil => exact ⟨rfl, h⟩
  | cons slot l ih =>
    have entry : captureGetEventMapIndex { c with pmuCfg := q } (u16 (c.currentEventBase + slot)) =
        captureGetEventMapIndex c (u16 (c.currentEventBase + slot)) := rfl
    simp only [selectPassEvents, entry]
    cases captureGetEventMapIndex c (u16 (c.currentEventBase + slot)) with
    | error status => exact ⟨rfl, h⟩
    | ok mapIndex => exact ih (h.eventCreate slot _ _)

theorem capturePreparePass_anew (P : Platform H) (c : Capture) (q : PmuConfig) (s : Pmu H)
    (mem : ℕ → Word) :
    SameOutcome
      ((capturePreparePass P c s).1, (capturePreparePass P c s).2.1,
        ⟨(capturePreparePass P c s).2.2, mem⟩)
      ((capturePreparePass P { c with pmuCfg := q } s).1,
        (capturePreparePass P { c with pmuCfg := q } s).2.1,
        ⟨(capturePreparePass P { c with pmuCfg := q } s).2.2, mem⟩) := by
  have cleared := pmuResetConfig_slots c.pmuCfg q c.api
  unfold capturePreparePass
  dsimp only
  split
  · exact ⟨rfl, ⟨rfl, cleared⟩, rfl, rfl, rfl⟩
  · generalize captureMinU16 c.eventsPerPass (u16Sub c.totalEventCount c.currentEventBase) = size
    obtain ⟨ended, slots⟩ := selectPassEvents_congr
      { c with
          currentPassEvents := u8 size
          pmuCfg := { pmuResetConfig c.pmuCfg with api := c.api } }
      { pmuResetConfig q with api := c.api } (l := List.range size) cleared
    dsimp only at ended slots
    rw [ended]
    split
    · exact ⟨rfl, ⟨rfl, slots⟩, rfl, rfl, rfl⟩
    · obtain ⟨status, left, driver, hw⟩ := pmuInit_congr P slots s
      exact ⟨status, ⟨rfl, left⟩, rfl, driver, hw⟩

theorem captureResetChunk_anew (P : Platform H) (c : Capture) (q : PmuConfig) (chunkStart : ℕ)
    (w : World H) :
    SameOutcome (captureResetChunk P { c with pmuCfg := q } chunkStart w)
      (captureResetChunk P c chunkStart w) :=
  capturePreparePass_anew P _ _ w.pmu _

theorem CaptureCfg.fresh_of_same {cfg : CaptureCfg} {c c' : Capture}
    (same : SameSetup (cfg.fresh c) c') :
    cfg.fresh c' = { c' with complete := false, pmuCfg := .zero } := by
  obtain ⟨api, indices, storage, count, ops, perChunk, events, perPass⟩ := same
  unfold CaptureCfg.fresh at api indices storage count ops perChunk events perPass ⊢
  simp only [Capture.mk.injEq, true_and, and_true]
  exact ⟨api.symm, indices.symm, storage.symm, count.symm, ops.symm, perChunk.symm, events.symm,
    perPass.symm⟩

/-- Wherever a capture stands, resetting it is the same as initialising it again with the
configuration it was made from. -/
theorem capture_reset_reinitialises (P : Platform H) (c : Capture) (cfg : CaptureCfg) (w : World H)
    (calls : List (CaptureCall H X)) {x : CaptureState H}
    (ok : (captureInit P c cfg w).1 = statusSuccess)
    (reached : x = run (captureStep P) (captureStart P c cfg w) calls) :
    SameOutcome (captureInit P x.capture cfg x.world) (captureReset P x.capture x.world) := by
  obtain ⟨valid, -⟩ := captureStart_eq ok
  obtain ⟨start, first⟩ := captureStart_invariant ok
  obtain ⟨inv, later, -⟩ := captureRun_invariant P start calls
  rw [← reached] at inv later
  have again : captureInit P x.capture cfg x.world =
      captureResetChunk P (cfg.fresh x.capture) 0 x.world := by
    rcases captureInit_cases P x.capture cfg x.world with ⟨-, eq⟩ | ⟨rejected, -⟩
    · exact eq
    · exact absurd valid rejected
  rw [again, CaptureCfg.fresh_of_same (first.trans later), captureReset_eq P x.world inv.toCaptureSetup]
  exact captureResetChunk_anew P { x.capture with complete := false } .zero 0 x.world

theorem capture_reset_reinitialises_ref :
    SameOutcome
      (captureInit refPlatform
        (run (captureStep refPlatform)
          (captureStart refPlatform .zero (refCaptureCfg 1 0 5 0) RefPmu.start.world)
          [CaptureCall.modelEnd (X := Unit), .modelEnd, .advanceChunk]).capture
        (refCaptureCfg 1 0 5 0)
        (run (captureStep refPlatform)
          (captureStart refPlatform .zero (refCaptureCfg 1 0 5 0) RefPmu.start.world)
          [CaptureCall.modelEnd (X := Unit), .modelEnd, .advanceChunk]).world)
      (captureReset refPlatform
        (run (captureStep refPlatform)
          (captureStart refPlatform .zero (refCaptureCfg 1 0 5 0) RefPmu.start.world)
          [CaptureCall.modelEnd (X := Unit), .modelEnd, .advanceChunk]).capture
        (run (captureStep refPlatform)
          (captureStart refPlatform .zero (refCaptureCfg 1 0 5 0) RefPmu.start.world)
          [CaptureCall.modelEnd (X := Unit), .modelEnd, .advanceChunk]).world) :=
  capture_reset_reinitialises refPlatform .zero (refCaptureCfg 1 0 5 0) RefPmu.start.world
    [CaptureCall.modelEnd (X := Unit), .modelEnd, .advanceChunk] (by decide) rfl

/-- `nsx_pmu_capture_init` of pointers that may be NULL. -/
def captureInitPtr (P : Platform H) (capture : Option Capture) (cfg : Option CaptureCfg)
    (w : World H) : Status × Option Capture × World H :=
  match capture, cfg with
  | some c, some cfg =>
    ((captureInit P c cfg w).1, some (captureInit P c cfg w).2.1, (captureInit P c cfg w).2.2)
  | _, _ => (statusInvalidHandle, capture, w)

/-- The capture already has all the fields that the configuration would give it. -/
structure Capture.MadeFor (c : Capture) (cfg : CaptureCfg) : Prop where
  api : c.api = some (cfg.api.getD pmuV1_0_0)
  eventMapIndices : c.eventMapIndices = cfg.eventMapIndices
  matrixStorage : c.matrixStorage = cfg.matrixStorage
  matrixStorageCount : c.matrixStorageCount = cfg.matrixStorageCount.toNat
  totalOps : c.totalOps = cfg.totalOps.toNat
  opsPerChunk : c.opsPerChunk = captureGetOpsPerChunk cfg
  totalEventCount : c.totalEventCount = captureGetEventCount cfg
  eventsPerPass : c.eventsPerPass =
    if cfg.eventsPerPass.toNat = 0 then maxEventsPerPass else cfg.eventsPerPass.toNat

theorem CaptureCfg.assigned_eq_iff {cfg : CaptureCfg} {c : Capture} :
    cfg.assigned c = c ↔ c.MadeFor cfg := by
  constructor
  · intro same
    have field {α : Type} (f : Capture → α) : f c = f (cfg.assigned c) := congrArg f same.symm
    exact ⟨field Capture.api, field Capture.eventMapIndices, field Capture.matrixStorage,
      field Capture.matrixStorageCount, field Capture.totalOps, field Capture.opsPerChunk,
      field Capture.totalEventCount, field Capture.eventsPerPass⟩
  · rintro ⟨api, indices, storage, count, ops, perChunk, events, perPass⟩
    unfold CaptureCfg.assigned CaptureCfg.fresh
    rw [← api, ← indices, ← storage, ← count, ← ops, ← perChunk, ← events, ← perPass]

theorem captureInit_rejected (P : Platform H) (c : Capture) {cfg : CaptureCfg} (w : World H)
    (rejected : ¬ cfg.Valid) :
    ((captureInit P c cfg w).1 = statusInvalidHandle ∨
      (captureInit P c cfg w).1 = statusInvalidConfig) ∧
    (cfg.RefusedEarly ∧ (captureInit P c cfg w).2 = (c, w) ∨
      ¬ cfg.RefusedEarly ∧ (captureInit P c cfg w).2 = (cfg.assigned c, w)) := by
  rcases captureInit_outcome P c cfg w with ⟨valid, -⟩ | ⟨-, early, status, either, eq⟩ |
    ⟨-, late, eq⟩
  · exact absurd valid rejected
  · rw [eq]
    exact ⟨either, .inl ⟨early, rfl⟩⟩
  · rw [eq]
    exact ⟨.inr rfl, .inr ⟨late, rfl⟩⟩

/-- A rejected configuration leaves the capture and the memory as they were exactly when it is
rejected before the first assignment, or has nothing new to assign. -/
theorem rejected_init_unchanged_iff (P : Platform H) (capture : Option Capture)
    (cfg : Option CaptureCfg) (w : World H)
    (rejected : ∀ c ∈ capture, ∀ g ∈ cfg, ¬ g.Valid) :
    ((captureInitPtr P capture cfg w).1 = statusInvalidHandle ∨
      (captureInitPtr P capture cfg w).1 = statusInvalidConfig) ∧
    ((captureInitPtr P capture cfg w).2 = (capture, w) ↔
      ∀ c ∈ capture, ∀ g ∈ cfg, g.RefusedEarly ∨ c.MadeFor g) := by
  cases capture with
  | none => exact ⟨.inl rfl, fun _ _ h => by simp at h, fun _ => rfl⟩
  | some c =>
    cases cfg with
    | none => exact ⟨.inl rfl, fun _ _ _ _ h => by simp at h, fun _ => rfl⟩
    | some cfg =>
      simp only [Option.mem_some_iff, forall_eq'] at rejected ⊢
      obtain ⟨status, left⟩ := captureInit_rejected P c w rejected
      refine ⟨status, ?_⟩
      have pair : (captureInitPtr P (some c) (some cfg) w).2 =
          (some (captureInit P c cfg w).2.1, (captureInit P c cfg w).2.2) := rfl
      rw [pair, Prod.mk.injEq, Option.some.injEq]
      rcases left with ⟨early, eq⟩ | ⟨late, eq⟩
      · rw [eq]
        exact ⟨fun _ => .inl early, fun _ => ⟨rfl, rfl⟩⟩
      · rw [eq]
        dsimp only
        rw [CaptureCfg.assigned_eq_iff]
        exact ⟨fun h => .inr h.1, fun h => ⟨h.resolve_left late, rfl⟩⟩

def oneCellCfg : CaptureCfg := ⟨none, 1, 0, 1, 0, none, 4096, 1⟩

def hundredOpsCfg : CaptureCfg := { oneCellCfg with totalOps := 100 }

def refInUse : CaptureState RefPmu := captureStart refPlatform .zero oneCellCfg RefPmu.start.world

theorem rejected_init_unchanged_iff_ref :
    ((captureInitPtr refPlatform (some refInUse.capture) (some hundredOpsCfg) refInUse.world).1 =
        statusInvalidHandle ∨
      (captureInitPtr refPlatform (some refInUse.capture) (some hundredOpsCfg) refInUse.world).1 =
        statusInvalidConfig) ∧
    ((captureInitPtr refPlatform (some refInUse.capture) (some hundredOpsCfg) refInUse.world).2 =
        (some refInUse.capture, refInUse.world) ↔
      ∀ c ∈ some refInUse.capture, ∀ g ∈ some hundredOpsCfg, g.RefusedEarly ∨ c.MadeFor g) :=
  rejected_init_unchanged_iff refPlatform (some refInUse.capture) (some hundredOpsCfg)
    refInUse.world (by
      intro c _ g hg valid
      obtain rfl : hundredOpsCfg = g := by simpa using hg
      exact absurd valid.fits (by decide))

/-- A capture of one cell, a rejected configuration of a hundred operators and a reset: the
rejected call leaves its number of operators, and the reset clears a word behind the storage. -/
theorem rejected_init_corrupts_capture :
    let w : World RefPmu := ⟨⟨.start, .start, [], []⟩, fun _ => 7⟩
    let x := captureStart refPlatform .zero oneCellCfg w
    let r := captureInitPtr refPlatform (some x.capture) (some hundredOpsCfg) x.world
    (captureInit refPlatform .zero oneCellCfg w).1 = statusSuccess ∧
    r.1 = statusInvalidConfig ∧
    x.capture.opsPerChunk = 1 ∧ r.2.1.map Capture.opsPerChunk = some 100 ∧
    (captureReset refPlatform x.capture x.world).2.2.mem 4097 = 7 ∧
    r.2.1.map (fun c => (captureReset refPlatform c r.2.2).2.2.mem 4097) = some 0 := by
  decide +kernel

end NsxPmu
