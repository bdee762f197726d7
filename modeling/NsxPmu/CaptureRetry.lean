import NsxPmu.CaptureFinished

set_option autoImplicit false

/-!
# Calling again after a failed pass or chunk change

`nsx_pmu_capture_model_end` and `nsx_pmu_capture_advance_chunk` move the capture
before the pass they move to is programmed, and leave it there when that fails.
-/
namespace NsxPmu
open WordMemory LabelledRuns

variable {H X : Type} {P : Platform H}

inductive PassMove where
  | modelEnd
  | advanceChunk

def PassMove.call (P : Platform H) (x : CaptureState H) : PassMove → Status × CaptureState H
  | .modelEnd => ((captureModelEnd P x.capture x.world).1,
      ⟨(captureModelEnd P x.capture x.world).2.1, (captureModelEnd P x.capture x.world).2.2⟩)
  | .advanceChunk => ((captureAdvanceChunk P x.capture x.world).1,
      ⟨(captureAdvanceChunk P x.capture x.world).2.1,
        (captureAdvanceChunk P x.capture x.world).2.2⟩)

/-- The capture at the pass that the call is to prepare, when there is one to prepare. -/
def PassMove.target (c : Capture) : PassMove → Option Capture
  | .modelEnd =>
    if c.chunkReady = true ∨ c.complete = true ∨
        c.currentEventBase + c.currentPassEvents = c.totalEventCount then none
    else some c.nextPass
  | .advanceChunk =>
    if c.chunkReady = false ∨ c.complete = true then none
    else some (c.openChunk (c.currentChunkStart + c.opsPerChunk))

def Capture.passConfig (c : Capture) : PmuConfig :=
  pairedConfig c.api c.pmuCfg c.passSize c.slotId

def Capture.passKnown (c : Capture) : Prop :=
  ∀ slot < c.passSize, c.mapEntry (c.currentEventBase + slot) < pmuMapSize

/-- The call makes a call of `nsx_pmu_init`, and that fails. -/
def PmuFailed (P : Platform H) (m : PassMove) (x : CaptureState H) : Prop :=
  ∃ r : InitRecord, (m.call P x).2.world.pmu.inits = r :: x.world.pmu.inits ∧
    r.status ≠ statusSuccess

structure SamePosition (x y : CaptureState H) : Prop where
  chunkStart : y.capture.currentChunkStart = x.capture.currentChunkStart
  chunkOps : y.capture.currentChunkOps = x.capture.currentChunkOps
  eventBase : y.capture.currentEventBase = x.capture.currentEventBase
  chunkReady : y.capture.chunkReady = x.capture.chunkReady
  complete : y.capture.complete = x.capture.complete
  rows : SameRows x.capture x.world.mem y.world.mem

/-- In whatever state the hardware programs the pass of `t` again, calling again succeeds and
programs it. -/
def Resumes (P : Platform H) (m : PassMove) (t : Capture) (y : CaptureState H) : Prop :=
  ∀ f : H → H, (pmuInit P t.passConfig (y.world.elapse f).pmu).1 = statusSuccess →
    let again := m.call P ⟨y.capture, y.world.elapse f⟩
    again.1 = statusSuccess ∧
    again.2.capture.currentChunkStart = t.currentChunkStart ∧
    again.2.capture.currentChunkOps = t.currentChunkOps ∧
    again.2.capture.currentEventBase = t.currentEventBase ∧
    ∃ r : InitRecord, again.2.world.pmu.inits = r :: y.world.pmu.inits ∧
      r.status = statusSuccess ∧ PairedSlots t.passSize t.slotId r.cfg.events

/-- A failure of the PMU in the call loses nothing and leaves a call that can be made again. -/
def RetrySafe (P : Platform H) (m : PassMove) (x : CaptureState H) : Prop :=
  PmuFailed P m x → (m.call P x).1 ≠ statusSuccess →
    SamePosition x (m.call P x).2 ∧ ∀ t ∈ m.target x.capture, Resumes P m t (m.call P x).2

/-- The `nsx_pmu_init` of the pass to be prepared, if the call gets there, succeeds. -/
def PassProgrammable (P : Platform H) (m : PassMove) (x : CaptureState H) : Prop :=
  ∀ t ∈ m.target x.capture, t.passKnown →
    (pmuInit P t.passConfig x.world.pmu).1 = statusSuccess

/-- Either there is nothing to prepare and the PMU is not touched, or the capture is moved
to another pass, which is then prepared. -/
inductive MoveOutcome (P : Platform H) (m : PassMove) (x : CaptureState H) : Prop where
  | rests (target : m.target x.capture = none)
      (pmu : (m.call P x).2.world.pmu = x.world.pmu)
  | prepares (t : Capture) (target : m.target x.capture = some t) (setup : CaptureSetup t)
      (base : t.currentEventBase < t.totalEventCount)
      (status : (m.call P x).1 = (capturePreparePass P t x.world.pmu).1)
      (capture : (m.call P x).2.capture = (capturePreparePass P t x.world.pmu).2.1)
      (pmu : (m.call P x).2.world.pmu = (capturePreparePass P t x.world.pmu).2.2)
      (moved : t.currentEventBase ≠ x.capture.currentEventBase ∨
        t.chunkReady ≠ x.capture.chunkReady)

theorem modelEnd_outcome {x : CaptureState H} (inv : CaptureInvariant x.capture) :
    MoveOutcome P .modelEnd x := by
  have perPass := inv.eventsPerPass_pos
  rcases captureModelEnd_cases P x.world inv with
    ⟨frozen, eq⟩ | ⟨-, -, last, eq⟩ | ⟨unready, incomplete, pass, more, eq⟩
  · refine .rests ?_ (by simp only [PassMove.call, eq])
    rcases frozen with frozen | frozen <;> simp [PassMove.target, frozen]
  · exact .rests (by simp [PassMove.target, last]) (by simp only [PassMove.call, eq])
  · have same : SameSetup x.capture x.capture.nextPass := .progress
    refine .prepares x.capture.nextPass ?_ (inv.toCaptureSetup.of_same same) more
      (by simp only [PassMove.call, eq]) (by simp only [PassMove.call, eq])
      (by simp only [PassMove.call, eq]) (.inl ?_)
    · unfold PassMove.target
      exact if_neg (by simp [unready, incomplete]; omega)
    · dsimp only [Capture.nextPass]
      omega

theorem advanceChunk_outcome {x : CaptureState H} (inv : CaptureInvariant x.capture) :
    MoveOutcome P .advanceChunk x := by
  have setup := inv.toCaptureSetup
  rcases captureAdvanceChunk_cases P x.world inv with
    ⟨unready, eq⟩ | ⟨-, complete, eq⟩ | ⟨ready, incomplete, -, more, eq⟩
  · exact .rests (by simp [PassMove.target, unready]) (by simp only [PassMove.call, eq])
  · exact .rests (by simp [PassMove.target, complete]) (by simp only [PassMove.call, eq])
  · have same := x.capture.openChunk_same (x.capture.currentChunkStart + x.capture.opsPerChunk)
    have chunk := captureResetChunk_eq P x.world setup more
    refine .prepares _ ?_ (setup.of_same same) setup.eventCount_pos
      (by simp only [PassMove.call, eq, chunk]) (by simp only [PassMove.call, eq, chunk])
      (by simp only [PassMove.call, eq, chunk]) (.inr ?_)
    · unfold PassMove.target
      exact if_neg (by simp [ready, incomplete])
    · rw [ready]
      exact Bool.false_ne_true

theorem PassMove.outcome {x : CaptureState H} (inv : CaptureInvariant x.capture) (m : PassMove) :
    MoveOutcome P m x := by
  cases m with
  | modelEnd => exact modelEnd_outcome inv
  | advanceChunk => exact advanceChunk_outcome inv

theorem pmuFailed_iff {x : CaptureState H} (inv : CaptureInvariant x.capture) (m : PassMove) :
    PmuFailed P m x ↔ ¬ PassProgrammable P m x := by
  have grown {r : InitRecord} {l : List InitRecord} (eq : l = r :: l) : False := by
    have := congrArg List.length eq
    simp at this
  unfold PmuFailed PassProgrammable
  rcases m.outcome (P := P) inv with ⟨target, pmu⟩ | ⟨t, target, setup, base, -, -, pmu, -⟩
  · rw [pmu, target]
    constructor
    · rintro ⟨r, eq, -⟩
      exact (grown eq).elim
    · intro failed
      exact absurd (fun _ h => by simp at h) failed
  · rw [pmu, target]
    simp only [Option.mem_some_iff, forall_eq']
    rcases capturePreparePass_cases P x.world.pmu setup base with ⟨known, eq⟩ | ⟨unknown, -, same⟩
    · have history := pmuInit_history P t.passConfig x.world.pmu
      rw [eq]
      change (∃ r : InitRecord, (pmuInit P t.passConfig x.world.pmu).2.2.inits = _ ∧ _) ↔ _
      rw [history]
      constructor
      · rintro ⟨r, recorded, failed⟩ programmable
        obtain rfl := (List.cons.inj recorded).1
        exact failed (programmable known)
      · intro failed
        exact ⟨_, rfl, fun ok => failed fun _ => ok⟩
    · rw [same]
      constructor
      · rintro ⟨r, recorded, -⟩
        exact (grown recorded).elim
      · intro failed
        obtain ⟨slot, hs, bad⟩ := unknown
        exact absurd (fun known : t.passKnown => absurd (known slot hs) bad) failed

theorem PmuFailed.moved {x : CaptureState H} (inv : CaptureInvariant x.capture) {m : PassMove}
    (failed : PmuFailed P m x) :
    (m.call P x).1 ≠ statusSuccess ∧ ¬ SamePosition x (m.call P x).2 := by
  rw [pmuFailed_iff inv] at failed
  unfold PassProgrammable at failed
  rcases m.outcome (P := P) inv with ⟨target, -⟩ | ⟨t, target, setup, base, status, capture, -, moved⟩
  · exact absurd (fun t ht => by simp [target] at ht) failed
  · rw [target] at failed
    simp only [Option.mem_some_iff, forall_eq', Classical.not_imp] at failed
    obtain ⟨known, unprogrammed⟩ := failed
    refine ⟨?_, fun same => ?_⟩
    · rw [status]
      rcases capturePreparePass_cases P x.world.pmu setup base with ⟨-, eq⟩ | ⟨⟨slot, hs, bad⟩, -⟩
      · rw [eq]
        exact unprogrammed
      · exact absurd (known slot hs) bad
    · have left := capturePreparePass_capture P x.world.pmu setup base
      have eventBase := same.eventBase
      have chunkReady := same.chunkReady
      rw [capture, left] at eventBase chunkReady
      rcases moved with moved | moved
      · exact moved eventBase
      · exact moved chunkReady

/-- A call of `nsx_pmu_capture_model_end` or `nsx_pmu_capture_advance_chunk` in which the PMU
fails always loses the place of the capture: such a call can be made again only when the
programming in it does not fail. -/
theorem failed_move_retry_iff {x : CaptureState H} (reached : CaptureReached X P x) (m : PassMove) :
    RetrySafe P m x ↔ PassProgrammable P m x := by
  have inv := reached.invariant
  constructor
  · intro safe
    by_contra unprogrammable
    have failed := (pmuFailed_iff inv m).mpr unprogrammable
    obtain ⟨status, moved⟩ := failed.moved inv
    exact moved (safe failed status).1
  · intro programmable failed
    exact absurd programmable ((pmuFailed_iff inv m).mp failed)

def RefPmu.failingThird : RefPmu := { RefPmu.start with outcomes := [0, 0, 1] }

def refMeasuredChunk : CaptureState RefPmu :=
  run (captureStep refPlatform)
    (captureStart refPlatform .zero (refCaptureCfg 2 1 1 0) RefPmu.failingThird.world)
    [CaptureCall.elapse (X := Unit) (RefPmu.occur 0), .layerEnd 0, .modelEnd]

theorem failed_move_retry_iff_ref :
    RetrySafe refPlatform .advanceChunk refMeasuredChunk ↔
      PassProgrammable refPlatform .advanceChunk refMeasuredChunk :=
  failed_move_retry_iff (X := Unit)
    ⟨.zero, refCaptureCfg 2 1 1 0, RefPmu.failingThird.world,
      [.elapse (RefPmu.occur 0), .layerEnd 0, .modelEnd], by decide +kernel, rfl⟩ .advanceChunk

def refFailedAdvance : Status × CaptureState RefPmu :=
  PassMove.advanceChunk.call refPlatform refMeasuredChunk

/-- The failed call has cleared the finished chunk and gives the next one up: called again
with a PMU that works, it refuses. -/
theorem failed_advance_loses_chunk :
    refMeasuredChunk.capture.chunkReady = true ∧
    refMeasuredChunk.world.mem (refMeasuredChunk.capture.cell 0 0) = 1 ∧
    refFailedAdvance.1 = statusInitFailed ∧ refFailedAdvance.2.world.pmu.hw.outcomes = [] ∧
    refFailedAdvance.2.capture.currentChunkStart = 1 ∧
    refFailedAdvance.2.capture.chunkReady = false ∧
    refFailedAdvance.2.world.mem (refMeasuredChunk.capture.cell 0 0) = 0 ∧
    (PassMove.advanceChunk.call refPlatform refFailedAdvance.2).1 = statusInvalidConfig := by
  decide +kernel

end NsxPmu
