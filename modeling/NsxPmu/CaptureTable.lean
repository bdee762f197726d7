import NsxPmu.CaptureContainment

set_option autoImplicit false

/-!
# A table of a caller's own

A caller that copies every chunk that is ready out of the matrix of a capture,
into a table of its own that has room for all operators.
-/
namespace NsxPmu
open LabelledRuns WindowCounts BoundedLoops WordMemory

variable {H : Type}

/-- Copies a chunk to its rows of the table at `out`. -/
def copyChunk (out : ℕ) (z : CaptureState H) (store : Unit) : CaptureState H × Unit :=
  let info := captureGetChunkInfo z.capture
  (⟨z.capture, { z.world with
    mem := copyRange z.world.mem (out + info.chunkStart * info.eventCount)
      (captureGetChunkMatrix z.capture) (info.chunkOps * info.eventCount) }⟩, store)

def Plan.tableRange (p : Plan) (out a : ℕ) : Prop :=
  out ≤ a ∧ a < out + p.totalOps * p.events

structure CopiedBefore (programmed : ℕ → Prop) (inference : ℕ → Inference) (x : Capture) (out : ℕ)
    (before : ℕ → Word) (chunk : ℕ) (mem : ℕ → Word) : Prop where
  rows : x.plan.Faithful x.columnId inference programmed
    (fun op e => (mem (out + (op * x.totalEventCount + e))).toNat) (x.plan.opsBefore chunk)
  frame : ∀ a, ¬ x.storageRange a → ¬ x.plan.tableRange out a → mem a = before a

section Copying
variable {programmed : ℕ → Prop} {inference : ℕ → Inference} {x : Capture} {out : ℕ}
  {before : ℕ → Word}

theorem Plan.tableRange_cell {p : Plan} {out op e : ℕ} (hop : op < p.totalOps) (he : e < p.events) :
    p.tableRange out (out + (op * p.events + e)) := by
  have inside := rowMajor_lt hop he
  unfold Plan.tableRange
  omega

theorem CountedChunk.tableRange {k : ℕ} {z : CaptureState H}
    (counted : CountedChunk programmed inference x k z) {a : ℕ}
    (target : out + z.capture.currentChunkStart * z.capture.totalEventCount ≤ a ∧
      a < out + z.capture.currentChunkStart * z.capture.totalEventCount +
        z.capture.currentChunkOps * z.capture.totalEventCount) : x.plan.tableRange out a := by
  have below := counted.below
  have ops := counted.ops
  have rows : (z.capture.currentChunkStart + z.capture.currentChunkOps) *
      z.capture.totalEventCount ≤ x.totalOps * x.totalEventCount := by
    rw [counted.setup.totalEventCount, counted.start]
    exact Nat.mul_le_mul_right _ (by omega)
  rw [Nat.add_mul] at rows
  unfold Plan.tableRange
  dsimp only [Capture.plan]
  omega

theorem copyChunk_rows {k : ℕ} {z : CaptureState H} {s : Unit}
    (counted : CountedChunk programmed inference x k z)
    (copied : CopiedBefore programmed inference x out before k z.world.mem) :
    x.plan.Faithful x.columnId inference programmed
      (fun op e => ((copyChunk out z s).1.world.mem (out + (op * x.totalEventCount + e))).toNat)
      (x.plan.opsBefore (k + 1)) := by
  intro op hop e he now
  have below : k * x.plan.opsPerChunk < x.plan.totalOps := counted.below
  have start := Plan.opsBefore_of_lt below
  change e < x.totalEventCount at he
  dsimp only [copyChunk, captureGetChunkInfo, captureGetChunkMatrix]
  rw [counted.setup.totalEventCount, counted.start]
  by_cases earlier : op < x.plan.opsBefore k
  · have above : op * x.totalEventCount + e < k * x.opsPerChunk * x.totalEventCount :=
      rowMajor_lt (earlier.trans_eq start) he
    rw [copyRange_outside _ (by omega)]
    exact copied.rows op earlier e he now
  · obtain ⟨row, inside, rfl⟩ := counted.row earlier hop
    have cell := counted.counts row inside e he now
    rw [Capture.cell, counted.setup.totalEventCount] at cell
    rw [Nat.add_mul, Nat.add_assoc, ← Nat.add_assoc out,
      copyRange_inside _ (rowMajor_lt inside he)]
    exact cell

theorem copyChunk_takes (programmed : ℕ → Prop) (inference : ℕ → Inference) (before : ℕ → Word)
    (apart : ∀ a, x.storageRange a → ¬ x.plan.tableRange out a) :
    Takes (H := H) programmed inference x (copyChunk out) fun k mem _ =>
      CopiedBefore programmed inference x out before k mem where
  capture _ _ := rfl
  pmu _ _ := rfl
  storage := by
    intro k z s counted a stored
    exact copyRange_outside _ fun target => apart a stored (counted.tableRange target)
  outside := by
    rintro k s mem mem' same ⟨rows, frame⟩
    refine ⟨fun op hop e he now => ?_, fun a unstored untabled => ?_⟩
    · have cell : x.plan.tableRange out (out + (op * x.totalEventCount + e)) :=
        Plan.tableRange_cell (hop.trans_le (Nat.min_le_right ..)) he
      dsimp only
      rw [same _ fun stored => apart _ stored cell]
      exact rows op hop e he now
    · rw [same a unstored]
      exact frame a unstored untabled
  chunk := by
    intro k z s counted copied
    refine ⟨copyChunk_rows counted copied, fun a unstored untabled => ?_⟩
    rw [← copied.frame a unstored untabled]
    exact copyRange_outside _ fun target => untabled (counted.tableRange target)

end Copying

/-- A caller that copies every chunk that is ready into a table of its own, apart from the matrix of
the capture, ends with the whole table after one inference for each chunk and pass, on any platform
once the capture has been started with an event list that the map knows. A cell has its count if the
latest call of `nsx_pmu_init` before the inference that samples it succeeded, and no memory but the
table and the matrix has changed. -/
theorem capture_fills_table {P : Platform H} {evtyper : H → ℕ → Word} {enabled : H → ℕ → Bool}
    {occur : Word → H → H} (laws : Counts P evtyper enabled occur) (c : Capture) (cfg : CaptureCfg)
    (w : World H) (ok : (captureInit P c cfg w).1 = statusSuccess)
    (known : ∀ e < cfg.plan.events, cfg.mapEntry e < pmuMapSize) (inference : ℕ → Inference)
    (out : ℕ) (apart : out + cfg.plan.totalOps * cfg.plan.events ≤ cfg.matrixStorage ∨
      cfg.matrixStorage + cfg.matrixStorageCount.toNat ≤ out) :
    let start : Caller H Unit := ⟨captureStart P c cfg w, (), 0⟩
    let after := callerAfter Unit P occur inference (copyChunk out) start
    ∃ final : Caller H Unit,
      (∀ fuel, loop (callerRound Unit P occur inference (copyChunk out)) fuel start =
        if cfg.plan.chunks * cfg.plan.passes ≤ fuel then some final else none) ∧
      (∀ op < cfg.plan.totalOps, ∀ e < cfg.plan.events,
        (after (cfg.plan.round op e)).state.world.pmu.latestInit = some statusSuccess →
        (final.state.world.mem (out + (op * cfg.plan.events + e))).toNat =
          ((inference (cfg.plan.round op e)).work op).count (cfg.columnId e) % 2 ^ 32) ∧
      ∀ a, ¬ (cfg.matrixStorage ≤ a ∧ a < cfg.matrixStorage + cfg.matrixStorageCount.toNat) →
        ¬ cfg.plan.tableRange out a → final.state.world.mem a = w.mem a := by
  intro start after
  obtain ⟨-, plan⟩ := captureStart_position ok
  obtain ⟨inv, same⟩ := captureStart_invariant ok
  have known := captureStart_known ok known
  have disjoint : ∀ a, (captureStart P c cfg w).capture.storageRange a →
      ¬ (captureStart P c cfg w).capture.plan.tableRange out a := by
    intro a stored tabled
    obtain ⟨lo, hi⟩ := (same.storageRange a).mp stored
    rw [plan] at tabled
    obtain ⟨lo', hi'⟩ := tabled
    change cfg.matrixStorage ≤ a at lo
    change a < cfg.matrixStorage + cfg.matrixStorageCount.toNat at hi
    omega
  have takes := copyChunk_takes (H := H) (Programmed Unit P occur inference (copyChunk out) start)
    inference w.mem disjoint
  have none : CopiedBefore (Programmed Unit P occur inference (copyChunk out) start) inference
      (captureStart P c cfg w).capture out w.mem 0 (captureStart P c cfg w).world.mem := by
    refine ⟨fun op hop => ?_, fun a unstored _ => ?_⟩
    · rw [Plan.opsBefore_zero] at hop
      exact absurd hop op.not_lt_zero
    · exact captureStart_memory ok (by rwa [same.storageRange] at unstored)
  obtain ⟨final, ⟨-, rows, frame⟩, ends⟩ := callerStart_ends (s := ()) ok laws takes none
    fun n m current latest => current.programs_of_programmed known (fun _ _ => rfl) latest
  have perChunk : 0 < (captureStart P c cfg w).capture.plan.opsPerChunk := inv.opsPerChunk_pos
  have events : (captureStart P c cfg w).capture.totalEventCount = cfg.plan.events :=
    congrArg Plan.events plan
  rw [plan] at perChunk
  rw [plan, Plan.opsBefore_all perChunk, captureStart_columnId ok, events] at rows
  refine ⟨final, ends, rows, fun a unstored untabled => frame a ?_ (by rwa [plan])⟩
  rw [same.storageRange]
  exact unstored

/-- The second programming fails. The table has the counts of the chunk that comes after it. -/
theorem capture_fills_table_ref :
    let start : Caller RefPmu Unit := ⟨captureStart refPlatform .zero (refCaptureCfg 2 1 5 0)
      { RefPmu.start with outcomes := [0, 0, 1] }.world, (), 0⟩
    (callerAfter Unit refPlatform RefPmu.occur refInference (copyChunk 8192)
        start 1).state.world.pmu.latestInit = some statusInitFailed ∧
      ∃ final : Caller RefPmu Unit,
        loop (callerRound Unit refPlatform RefPmu.occur refInference (copyChunk 8192)) 4 start =
          some final ∧
        (final.state.world.mem (8192 + (1 * 5 + 2))).toNat = 2 := by
  intro start
  obtain ⟨final, ends, counted, -⟩ := capture_fills_table refPlatform_counts .zero
    (refCaptureCfg 2 1 5 0) { RefPmu.start with outcomes := [0, 0, 1] }.world (by decide)
    (by decide) refInference 8192 (by decide)
  refine ⟨by decide +kernel, final, (ends 4).trans (if_pos (by decide)), ?_⟩
  exact (counted 1 (by decide) 2 (by decide) (by decide +kernel)).trans (by decide +kernel)

end NsxPmu
