import NsxPmu.CaptureLedger

set_option autoImplicit false

/-!
# Finished chunks

The rows of a chunk that is ready, or of a complete capture, while the caller goes
on reporting operators and inferences.
-/
namespace NsxPmu
open WordMemory LabelledRuns

variable {H X : Type} {P : Platform H}

/-- The chunk waits to be read, or the capture is complete. -/
def Capture.finished (c : Capture) : Prop := c.chunkReady = true ∨ c.complete = true

/-- The calls that start no chunk: advancing a complete capture is one of them. -/
def Draining (x : CaptureState H) (call : CaptureCall H X) : Prop :=
  call.measures = true ∨ (x.capture.complete = true ∧ call = .advanceChunk)

theorem captureAdvanceChunk_complete {c : Capture} (w : World H) (complete : c.complete = true) :
    (captureAdvanceChunk P c w).2 = ({ c with chunkReady := false }, w) ∨
      (captureAdvanceChunk P c w).2 = (c, w) := by
  unfold captureAdvanceChunk
  by_cases ready : c.chunkReady = true
  · rw [if_neg (by simpa using ready), if_pos complete]
    exact .inl rfl
  · rw [if_pos (by simpa using ready)]
    exact .inr rfl

theorem captureModelEnd_finished {c : Capture} (w : World H) (finished : c.finished) :
    captureModelEnd P c w = (statusSuccess, c, w) :=
  if_pos (by simpa [Capture.finished] using finished)

theorem Draining.finished {x : CaptureState H} {call : CaptureCall H X}
    (inv : CaptureInvariant x.capture) (finished : x.capture.finished) (draining : Draining x call) :
    (captureStep P x call).capture.finished ∧
      SameChunk x.capture (captureStep P x call).capture := by
  rcases draining with measures | ⟨complete, rfl⟩
  · refine ⟨?_, captureStep_chunk P inv measures⟩
    cases call with
    | reset => cases measures
    | advanceChunk => cases measures
    | modelEnd =>
      dsimp only [captureStep]
      rw [captureModelEnd_finished x.world finished]
      exact finished
    | layerEnd op =>
      have same := captureLayerEnd_pass P x.world inv op.toNat
      dsimp only [captureStep, Capture.finished]
      rw [same.chunkReady, same.complete]
      exact finished
    | modelBegin => exact finished
    | layerBegin _ => exact finished
    | serializeCsv _ _ _ => exact finished
    | elapse _ => exact finished
  · dsimp only [captureStep]
    rcases captureAdvanceChunk_complete (P := P) x.world complete with eq | eq
    · rw [eq]
      exact ⟨.inr complete, .progress, rfl, rfl⟩
    · rw [eq]
      exact ⟨finished, .refl _⟩

def SameRows (c : Capture) (mem mem' : ℕ → Word) : Prop :=
  ∀ r < c.currentChunkOps, ∀ e < c.totalEventCount, mem' (c.cell r e) = mem (c.cell r e)

theorem SameChunk.rows {c c' : Capture} (same : SameChunk c c') {mem mem' : ℕ → Word} :
    SameRows c' mem mem' ↔ SameRows c mem mem' := by
  unfold SameRows
  rw [same.chunkOps, same.totalEventCount]
  simp only [same.cell]

/-- What stands in the counter that a slot is read from, or in the two that are chained for
it, when they are stopped. A slot that no counter is assigned to keeps its last value. -/
def slotCount (P : Platform H) (x : CaptureState H) (slot : ℕ) : Word :=
  match slotBase x.world.pmu.driver
      (readBases x.world.pmu.driver x.capture.pmuCfg.events maxCounters 0) slot with
  | some base => slotReading P (pausedHw P x.world.pmu) x.capture.pmuCfg.events slot base
  | none => (x.capture.pmuCfg.counter slot).counterValue

/-- The call samples no operator of the chunk, or the driver is not running, or nothing was
counted for the slots of the pass. -/
def AddsNothing (P : Platform H) (x : CaptureState H) : CaptureCall H X → Prop
  | .layerEnd op =>
    ¬ (x.capture.currentChunkStart ≤ op.toNat ∧
      op.toNat < x.capture.currentChunkStart + x.capture.currentChunkOps) ∨
    ¬ (x.world.pmu.driver.initialized = true ∧ x.world.pmu.driver.profiling = true) ∨
    ∀ slot < x.capture.currentPassEvents, slotCount P x slot = 0
  | _ => True

theorem pmuGetCounters_slotCount {x : CaptureState H}
    (running : x.world.pmu.driver.initialized = true ∧ x.world.pmu.driver.profiling = true)
    (slot : ℕ) :
    ((pmuGetCounters P x.capture.pmuCfg x.world.pmu).2.1.counter slot).counterValue =
      slotCount P x slot := by
  rw [pmuGetCounters_ready x.capture.pmuCfg running.1 running.2]
  exact readCounters_value ..

theorem captureLayerEnd_rows_iff {x : CaptureState H} (inv : CaptureInvariant x.capture)
    (op : BitVec 16) :
    SameRows x.capture x.world.mem (captureLayerEnd P x.capture op.toNat x.world).2.mem ↔
      AddsNothing P x (.layerEnd (X := X) op) := by
  have pass := inv.passEvents
  dsimp only [AddsNothing]
  by_cases inside : x.capture.currentChunkStart ≤ op.toNat ∧
      op.toNat < x.capture.currentChunkStart + x.capture.currentChunkOps
  · rw [captureLayerEnd_inside P x.world inv inside]
    dsimp only
    have status := (pmuGetCounters_frame P x.capture.pmuCfg x.world.pmu).status
    by_cases running : x.world.pmu.driver.initialized = true ∧
        x.world.pmu.driver.profiling = true
    · rw [if_pos (status.mpr running)]
      have row : op.toNat - x.capture.currentChunkStart < x.capture.currentChunkOps := by omega
      generalize op.toNat - x.capture.currentChunkStart = r₀ at row
      have columns : ∀ i < x.capture.currentPassEvents,
          x.capture.currentEventBase + i < x.capture.totalEventCount := by omega
      constructor
      · intro rows
        refine .inr (.inr fun slot hs => ?_)
        have kept := rows r₀ row (x.capture.currentEventBase + slot) (columns slot hs)
        have added := add_eq_left.mp ((addAll_row columns (columns slot hs)).symm.trans kept)
        rw [if_pos (by omega), Nat.add_sub_cancel_left] at added
        rwa [pmuGetCounters_slotCount running] at added
      · rintro (outside | refused | idle)
        · exact absurd inside outside
        · exact absurd running refused
        · intro r _ e he
          refine (addAll_row columns he).trans ?_
          by_cases target : r₀ = r ∧ x.capture.currentEventBase ≤ e ∧
              e < x.capture.currentEventBase + x.capture.currentPassEvents
          · have zero := idle (e - x.capture.currentEventBase) (by omega)
            rw [if_pos target, pmuGetCounters_slotCount running, zero, add_zero]
            rfl
          · rw [if_neg target, add_zero]
            rfl
    · rw [if_neg fun ok => running (status.mp ok)]
      exact ⟨fun _ => .inr (.inl running), fun _ _ _ _ _ => rfl⟩
  · rw [captureLayerEnd_outside P x.world inv inside]
    exact ⟨fun _ => .inl inside, fun _ _ _ _ _ => rfl⟩

theorem captureStep_rows_iff {x : CaptureState H} {call : CaptureCall H X}
    (inv : CaptureInvariant x.capture) (finished : x.capture.finished) (draining : Draining x call) :
    SameRows x.capture x.world.mem (captureStep P x call).world.mem ↔ AddsNothing P x call := by
  rcases draining with measures | ⟨complete, rfl⟩
  · cases call with
    | reset => cases measures
    | advanceChunk => cases measures
    | layerEnd op => exact captureLayerEnd_rows_iff inv op
    | modelEnd =>
      dsimp only [captureStep]
      rw [captureModelEnd_finished x.world finished]
      exact ⟨fun _ => trivial, fun _ _ _ _ _ => rfl⟩
    | layerBegin op =>
      dsimp only [captureStep, captureLayerBegin]
      split <;> exact ⟨fun _ => trivial, fun _ _ _ _ _ => rfl⟩
    | modelBegin => exact ⟨fun _ => trivial, fun _ _ _ _ _ => rfl⟩
    | serializeCsv _ _ _ => exact ⟨fun _ => trivial, fun _ _ _ _ _ => rfl⟩
    | elapse _ => exact ⟨fun _ => trivial, fun _ _ _ _ _ => rfl⟩
  · dsimp only [captureStep]
    rcases captureAdvanceChunk_complete (P := P) x.world complete with eq | eq <;>
    · rw [eq]
      exact ⟨fun _ => trivial, fun _ _ _ _ _ => rfl⟩

theorem SameRows.trans {c : Capture} {a b d : ℕ → Word} (h : SameRows c a b) (h' : SameRows c b d) :
    SameRows c a d := fun r hr e he => (h' r hr e he).trans (h r hr e he)

theorem SameRows.symm {c : Capture} {a b : ℕ → Word} (h : SameRows c a b) : SameRows c b a :=
  fun r hr e he => (h r hr e he).symm

/-- Once a chunk is finished, and until another one is started, its rows stay as they are
exactly as long as nothing was counted for the operators that are still sampled. -/
theorem finished_chunk_frozen_iff {x : CaptureState H} (reached : CaptureReached X P x)
    (finished : x.capture.finished) (calls : List (CaptureCall H X))
    (draining : AllSteps (captureStep P) Draining x calls) :
    (∀ before after, calls = before ++ after →
      SameRows x.capture x.world.mem (run (captureStep P) x before).world.mem) ↔
    AllSteps (captureStep P) (AddsNothing P) x calls := by
  have inv := reached.invariant
  clear reached
  induction calls generalizing x with
  | nil =>
    refine ⟨fun _ => trivial, fun _ before after eq => ?_⟩
    obtain ⟨rfl, -⟩ := List.append_eq_nil_iff.mp eq.symm
    exact fun _ _ _ _ => rfl
  | cons call calls ih =>
    obtain ⟨here, later⟩ := draining
    obtain ⟨finished', same⟩ := here.finished (P := P) inv finished
    have inv' := (captureStep_invariant P call inv).1
    have step := captureStep_rows_iff (P := P) inv finished here
    have rest := ih finished' later inv'
    simp only [same.rows] at rest
    rw [AllSteps_cons, ← step]
    constructor
    · intro frozen
      have first : SameRows x.capture x.world.mem (captureStep P x call).world.mem :=
        frozen [call] calls rfl
      refine ⟨first, rest.mp fun before after eq => ?_⟩
      exact first.symm.trans (frozen (call :: before) after (by rw [eq, List.cons_append]))
    · rintro ⟨first, frozen⟩ before after eq
      cases before with
      | nil => exact fun _ _ _ _ => rfl
      | cons _ before =>
        rw [List.cons_append, List.cons.injEq] at eq
        obtain ⟨rfl, eq⟩ := eq
        exact first.trans (rest.mpr frozen before after eq)

def refFinished : CaptureState RefPmu :=
  run (captureStep refPlatform)
    (captureStart refPlatform .zero (refCaptureCfg 1 0 1 0) RefPmu.start.world)
    [CaptureCall.modelEnd (X := Unit)]

theorem finished_chunk_frozen_iff_ref :
    SameRows refFinished.capture refFinished.world.mem
      (run (captureStep refPlatform) refFinished
        [CaptureCall.layerEnd (X := Unit) 0, .elapse (RefPmu.occur 0), .layerEnd 5]).world.mem :=
  (finished_chunk_frozen_iff (X := Unit)
    ⟨.zero, refCaptureCfg 1 0 1 0, RefPmu.start.world, [.modelEnd], by decide, rfl⟩
    (.inl (by decide +kernel)) [.layerEnd 0, .elapse (RefPmu.occur 0), .layerEnd 5]
    ⟨.inl rfl, .inl rfl, .inl rfl, trivial⟩).mpr
    ⟨.inr (.inr (by decide +kernel)), trivial, .inl (by decide +kernel), trivial⟩ _ [] rfl

/-- An inference after the capture is complete is added to the count that it reports. -/
theorem finished_chunk_not_frozen :
    refFinished.capture.chunkReady = true ∧ refFinished.capture.complete = true ∧
    refFinished.world.mem (refFinished.capture.cell 0 0) = 0 ∧
    (run (captureStep refPlatform) refFinished
      [CaptureCall.layerBegin (X := Unit) 0, .elapse (RefPmu.occur 0), .layerEnd 0]).world.mem
        (refFinished.capture.cell 0 0) = 1 := by
  decide +kernel

end NsxPmu
