import NsxPmu.AccumulatorLedger
import NsxPmu.CaptureDelivery

set_option autoImplicit false

/-!
# What a failed programming spoils

A capture on a platform that may fail. The calls that program the PMU for a
pass return its failure and go on, so the rest of the table is what it would be
without it.
-/
namespace NsxPmu
open LabelledRuns WindowCounts BoundedLoops

variable {H : Type} {P : Platform H}

theorem capturePreparePass_latest {c : Capture} (s : Pmu H) (setup : CaptureSetup c)
    (base : c.currentEventBase < c.totalEventCount)
    (known : ∀ e < c.totalEventCount, c.mapEntry e < pmuMapSize) :
    (capturePreparePass P c s).2.2.latestInit = some (capturePreparePass P c s).1 := by
  rcases capturePreparePass_cases P s setup base with ⟨-, eq⟩ | ⟨⟨slot, hs, unknown⟩, -⟩
  · rw [eq]
    exact pmuInit_latest ..
  · exact absurd (known _ (Capture.passSize_inside (List.mem_range.mpr hs))) unknown

section Moves
variable {c : Capture} (w : World H) (inv : CaptureInvariant c)
  (known : ∀ e < c.totalEventCount, c.mapEntry e < pmuMapSize)
include inv known

theorem captureModelEnd_latest :
    (captureModelEnd P c w).1 = statusSuccess ∨
      (captureModelEnd P c w).2.1.chunkReady = false ∧
        (captureModelEnd P c w).2.2.pmu.latestInit = some (captureModelEnd P c w).1 := by
  rcases captureModelEnd_cases P w inv with ⟨-, eq⟩ | ⟨-, -, -, eq⟩ | ⟨unready, -, -, more, eq⟩
  · left
    rw [eq]
  · left
    rw [eq]
  · right
    have same : SameSetup c c.nextPass := .progress
    have setup := inv.toCaptureSetup.of_same same
    rw [eq]
    refine ⟨?_, capturePreparePass_latest w.pmu setup more (same.known known)⟩
    dsimp only
    rw [capturePreparePass_capture P w.pmu setup more]
    exact unready

theorem captureAdvanceChunk_latest (ready : c.chunkReady = true) :
    (captureAdvanceChunk P c w).1 = statusSuccess ∨
      c.complete = false ∧
        (captureAdvanceChunk P c w).2.2.pmu.latestInit = some (captureAdvanceChunk P c w).1 := by
  have setup := inv.toCaptureSetup
  rcases captureAdvanceChunk_cases P w inv with
    ⟨unready, -⟩ | ⟨-, -, eq⟩ | ⟨-, incomplete, -, more, eq⟩
  · exact absurd (unready.symm.trans ready) (by decide)
  · left
    rw [eq]
  · right
    have same := c.openChunk_same (c.currentChunkStart + c.opsPerChunk)
    rw [eq, captureResetChunk_eq P w setup more]
    exact ⟨incomplete, capturePreparePass_latest w.pmu (setup.of_same same) setup.eventCount_pos
      (same.known known)⟩

end Moves

variable {S X : Type} {evtyper : H → ℕ → Word} {enabled : H → ℕ → Bool} {occur : Word → H → H}
  {programmed : ℕ → Prop} {N : ℕ} {inference : ℕ → Inference}
  {take : CaptureState H → S → CaptureState H × S} {Taken : ℕ → (ℕ → Word) → S → Prop}

theorem Caller.next_state (c : Caller H S) :
    (c.next X P occur inference take).state =
      if (c.measured X P occur inference).capture.chunkReady = true then
        if (c.measured X P occur inference).capture.complete = true then
          (take (c.measured X P occur inference) c.store).1
        else liveStep P occur (take (c.measured X P occur inference) c.store).1
          (.advanceChunk (X := X))
      else c.measured X P occur inference := by
  unfold Caller.next callerRound
  dsimp only [captureGetChunkInfo]
  cases (c.measured X P occur inference).capture.chunkReady <;>
    cases (c.measured X P occur inference).capture.complete <;> rfl

def Programmed (X : Type) (P : Platform H) (occur : Word → H → H) (inference : ℕ → Inference)
    (take : CaptureState H → S → CaptureState H × S) (start : Caller H S) (n : ℕ) : Prop :=
  (callerAfter X P occur inference take start n).state.world.pmu.latestInit = some statusSuccess

theorem CallerAt.programs_of_latest {x : CaptureState H} {n : ℕ} {c : Caller H S}
    {m : Meter Word (ℕ × ℕ)}
    (known : ∀ e < x.capture.totalEventCount, x.capture.mapEntry e < pmuMapSize)
    (alone : ∀ z s, (take z s).1.capture = z.capture)
    (current : CallerAt P evtyper enabled programmed inference x Taken n c m)
    (latest : (c.next X P occur inference take).state.world.pmu.latestInit = some statusSuccess) :
    c.Programs X P occur inference take := by
  have here := current.follows.setup.known known
  obtain ⟨ending, same, -⟩ := liveRun_invariant P occur current.follows.metered.inv
    ((inference c.inferences).body (X := X) (captureGetChunkInfo c.state.capture).totalOps)
  obtain ⟨ended, same', -⟩ := liveRun_invariant P occur current.follows.metered.inv
    ((inference c.inferences).calls (X := X) (captureGetChunkInfo c.state.capture).totalOps)
  have taken := alone (c.measured X P occur inference) c.store
  rw [Caller.next_state] at latest
  constructor
  · rcases captureModelEnd_latest (P := P) (c.reported X P occur inference).world ending
      (same.known here) with done | ⟨unready, status⟩
    · exact done
    · have stays : ¬ (c.measured X P occur inference).capture.chunkReady = true := by
        intro ready
        rw [c.measured_eq] at ready
        exact absurd (unready.symm.trans ready) (by decide)
      rw [if_neg stays, c.measured_eq] at latest
      exact Option.some.inj (status.symm.trans latest)
  · intro ready
    rw [taken] at ready
    rw [if_pos ready] at latest
    rcases captureAdvanceChunk_latest (P := P)
      (take (c.measured X P occur inference) c.store).1.world (taken ▸ ended)
      (taken ▸ same'.known here) (taken ▸ ready) with done | ⟨incomplete, status⟩
    · exact done
    · rw [taken] at incomplete
      rw [if_neg (by rw [incomplete]; decide)] at latest
      exact Option.some.inj (status.symm.trans latest)

theorem CallerAt.programs_of_programmed {x : CaptureState H} {n : ℕ} {start : Caller H S}
    {m : Meter Word (ℕ × ℕ)}
    (known : ∀ e < x.capture.totalEventCount, x.capture.mapEntry e < pmuMapSize)
    (alone : ∀ z s, (take z s).1.capture = z.capture)
    (current : CallerAt P evtyper enabled programmed inference x Taken n
      (callerAfter X P occur inference take start n) m)
    (latest : Programmed X P occur inference take start (n + 1)) :
    (callerAfter X P occur inference take start n).Programs X P occur inference take := by
  rw [Programmed, callerAfter_succ] at latest
  exact current.programs_of_latest known alone latest

end NsxPmu
