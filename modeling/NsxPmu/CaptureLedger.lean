import NsxPmu.CapturePass
import Mathlib.Data.BitVec

set_option autoImplicit false

/-!
# Where the counts of a chunk come from

Every cell of a chunk holds the sum of the samples taken for it since the chunk
was started, in any order of the calls that a chunk is measured with.
-/
namespace NsxPmu
open WordMemory LabelledRuns

variable {H X : Type}

/-- A reading of a pair of counters: the operator and the column it is added to, the joined
value, and the events that the two counters are programmed with at that moment. -/
structure Sample where
  op : ℕ
  column : ℕ
  value : Word
  lowEvent : Word
  highEvent : Word

/-- The reading of the counters `2 * slot` and `2 * slot + 1` of stopped hardware. -/
def pairSample (P : Platform H) (evtyper : H → ℕ → Word) (hw : H) (op base slot : ℕ) : Sample where
  op := op
  column := base + slot
  value := P.getEvcntr (2 * slot) hw + 65536 * P.getEvcntr (2 * slot + 1) hw
  lowEvent := evtyper hw (2 * slot)
  highEvent := evtyper hw (2 * slot + 1)

/-- The readings that a call takes: those of the current pass when the end of a sampled
operator is reported. -/
def captureSamples (P : Platform H) (evtyper : H → ℕ → Word) (x : CaptureState H) :
    CaptureCall H X → List Sample
  | .layerEnd op =>
    if x.capture.currentChunkStart ≤ op.toNat ∧
        op.toNat < x.capture.currentChunkStart + x.capture.currentChunkOps then
      (List.range x.capture.currentPassEvents).map
        (pairSample P evtyper (pausedHw P x.world.pmu) op.toNat x.capture.currentEventBase)
    else []
  | _ => []

/-- The sum of the samples of an operator and a column, modulo 2^32. -/
def sampleTotal (op column : ℕ) (l : List Sample) : Word :=
  ((l.filter fun s => s.op = op ∧ s.column = column).map Sample.value).sum

@[simp] theorem sampleTotal_nil (op column : ℕ) : sampleTotal op column [] = 0 := rfl

theorem sampleTotal_append (op column : ℕ) (l k : List Sample) :
    sampleTotal op column (l ++ k) = sampleTotal op column l + sampleTotal op column k := by
  simp [sampleTotal]

theorem sampleTotal_other {op column : ℕ} {l : List Sample}
    (h : ∀ s ∈ l, ¬ (s.op = op ∧ s.column = column)) : sampleTotal op column l = 0 := by
  have none : l.filter (fun s => s.op = op ∧ s.column = column) = [] := by
    rw [List.filter_eq_nil_iff]
    intro s hs
    simpa using h s hs
  rw [sampleTotal, none]
  rfl

section Pass
variable (P : Platform H) (evtyper : H → ℕ → Word) (hw : H)

theorem pairSamples_filter {op base n slot : ℕ} (hs : slot < n) :
    ((List.range n).map (pairSample P evtyper hw op base)).filter
        (fun s => s.op = op ∧ s.column = base + slot) =
      [pairSample P evtyper hw op base slot] := by
  rw [List.filter_map]
  have only : (List.range n).filter ((fun s : Sample => decide (s.op = op ∧ s.column = base + slot)) ∘
      pairSample P evtyper hw op base) = [slot] := by
    have pick : ∀ i, ((fun s : Sample => decide (s.op = op ∧ s.column = base + slot)) ∘
        pairSample P evtyper hw op base) i = (i == slot) := by
      intro i
      simp [pairSample, beq_eq_decide]
    rw [List.filter_congr fun i _ => pick i, List.filter_beq, List.count_eq_one_of_mem]
    · rfl
    · exact List.nodup_range
    · exact List.mem_range.mpr hs
  rw [only]
  rfl

theorem pairSamples_total {op base n slot : ℕ} (hs : slot < n) :
    sampleTotal op (base + slot) ((List.range n).map (pairSample P evtyper hw op base)) =
      pairReading P hw (2 * slot) := by
  rw [sampleTotal, pairSamples_filter P evtyper hw hs, pairReading_eq]
  simp [pairSample]

theorem pairSamples_other {op base n op' column : ℕ}
    (h : op' ≠ op ∨ column < base ∨ base + n ≤ column) :
    sampleTotal op' column ((List.range n).map (pairSample P evtyper hw op base)) = 0 := by
  apply sampleTotal_other
  intro s hs
  obtain ⟨slot, hslot, rfl⟩ := List.mem_map.mp hs
  have hslot := List.mem_range.mp hslot
  simp only [pairSample]
  omega

end Pass

/-- The calls that measure a chunk, between its start and the next one. -/
def CaptureCall.measures : CaptureCall H X → Bool
  | .reset => false
  | .advanceChunk => false
  | _ => true

structure SameChunk (c c' : Capture) : Prop extends SameSetup c c' where
  chunkStart : c'.currentChunkStart = c.currentChunkStart
  chunkOps : c'.currentChunkOps = c.currentChunkOps

theorem SameChunk.refl (c : Capture) : SameChunk c c := ⟨.refl c, rfl, rfl⟩

theorem SameChunk.trans {a b c : Capture} (h : SameChunk a b) (h' : SameChunk b c) :
    SameChunk a c :=
  ⟨h.toSameSetup.trans h'.toSameSetup, h'.chunkStart.trans h.chunkStart,
    h'.chunkOps.trans h.chunkOps⟩

theorem capturePreparePass_chunk (P : Platform H) {c : Capture} (s : Pmu H)
    (setup : CaptureSetup c) (base : c.currentEventBase < c.totalEventCount) :
    SameChunk c (capturePreparePass P c s).2.1 := by
  rw [capturePreparePass_capture P s setup base]
  exact ⟨.progress, rfl, rfl⟩

theorem captureModelEnd_chunk (P : Platform H) {c : Capture} (w : World H)
    (inv : CaptureInvariant c) : SameChunk c (captureModelEnd P c w).2.1 := by
  rcases captureModelEnd_cases P w inv with ⟨-, eq⟩ | ⟨-, -, -, eq⟩ | ⟨-, -, -, more, eq⟩
  · rw [eq]
    exact .refl c
  · rw [eq]
    exact ⟨.progress, rfl, rfl⟩
  · rw [eq]
    have next : SameChunk c c.nextPass := ⟨.progress, rfl, rfl⟩
    exact next.trans (capturePreparePass_chunk P w.pmu
      (inv.toCaptureSetup.of_same next.toSameSetup) more)

theorem captureModelEnd_memory (P : Platform H) {c : Capture} (w : World H)
    (inv : CaptureInvariant c) : (captureModelEnd P c w).2.2.mem = w.mem := by
  rcases captureModelEnd_cases P w inv with ⟨-, eq⟩ | ⟨-, -, -, eq⟩ | ⟨-, -, -, -, eq⟩ <;> rw [eq]

structure SamePass (c c' : Capture) : Prop extends SameChunk c c' where
  eventBase : c'.currentEventBase = c.currentEventBase
  passEvents : c'.currentPassEvents = c.currentPassEvents
  chunkReady : c'.chunkReady = c.chunkReady
  complete : c'.complete = c.complete

theorem SamePass.refl (c : Capture) : SamePass c c := ⟨.refl c, rfl, rfl, rfl, rfl⟩

theorem SamePass.trans {a b c : Capture} (h : SamePass a b) (h' : SamePass b c) : SamePass a c :=
  ⟨h.toSameChunk.trans h'.toSameChunk, h'.eventBase.trans h.eventBase,
    h'.passEvents.trans h.passEvents, h'.chunkReady.trans h.chunkReady, h'.complete.trans h.complete⟩

theorem captureLayerEnd_pass (P : Platform H) {c : Capture} (w : World H)
    (inv : CaptureInvariant c) (op : ℕ) : SamePass c (captureLayerEnd P c op w).1 := by
  by_cases inside : c.currentChunkStart ≤ op ∧ op < c.currentChunkStart + c.currentChunkOps
  · rw [captureLayerEnd_inside P w inv inside]
    exact ⟨⟨.progress, rfl, rfl⟩, rfl, rfl, rfl, rfl⟩
  · rw [captureLayerEnd_outside P w inv inside]
    exact .refl c

theorem captureStep_chunk (P : Platform H) {x : CaptureState H} (inv : CaptureInvariant x.capture)
    {call : CaptureCall H X} (measures : call.measures = true) :
    SameChunk x.capture (captureStep P x call).capture := by
  cases call with
  | reset => cases measures
  | advanceChunk => cases measures
  | modelEnd => exact captureModelEnd_chunk P x.world inv
  | layerEnd op => exact (captureLayerEnd_pass P x.world inv op.toNat).toSameChunk
  | modelBegin => exact .refl _
  | layerBegin _ => exact .refl _
  | serializeCsv _ _ _ => exact .refl _
  | elapse _ => exact .refl _

theorem captureLayerEnd_cell {P : Platform H} {evtyper : H → ℕ → Word} {x : CaptureState H}
    (inv : CaptureInvariant x.capture) (ready : PassReady evtyper x) (op : BitVec 16) {r e : ℕ}
    (he : e < x.capture.totalEventCount) :
    (captureLayerEnd P x.capture op.toNat x.world).2.mem (x.capture.cell r e) =
      x.world.mem (x.capture.cell r e) + sampleTotal (x.capture.currentChunkStart + r) e
        (captureSamples P evtyper x (.layerEnd (X := X) op)) := by
  have pass := inv.passEvents
  dsimp only [captureSamples]
  by_cases inside : x.capture.currentChunkStart ≤ op.toNat ∧
      op.toNat < x.capture.currentChunkStart + x.capture.currentChunkOps
  · obtain ⟨status, -, values⟩ := ready.ready.getCounters (P := P)
    rw [captureLayerEnd_inside P x.world inv inside, if_pos inside]
    dsimp only
    rw [if_pos status]
    refine (addAll_row (fun i hi => by omega) he).trans ?_
    by_cases target : op.toNat - x.capture.currentChunkStart = r ∧ x.capture.currentEventBase ≤ e ∧
        e < x.capture.currentEventBase + x.capture.currentPassEvents
    · obtain ⟨here, lo, hi⟩ := target
      obtain ⟨slot, rfl⟩ : ∃ slot, e = x.capture.currentEventBase + slot :=
        ⟨e - x.capture.currentEventBase, by omega⟩
      have hs : slot < x.capture.currentPassEvents := by omega
      have row : x.capture.currentChunkStart + r = op.toNat := by omega
      rw [if_pos ⟨here, lo, hi⟩, row, pairSamples_total P evtyper _ hs, Nat.add_sub_cancel_left,
        values slot hs]
      rfl
    · rw [if_neg target, pairSamples_other P evtyper _ (by omega)]
      rfl
  · rw [captureLayerEnd_outside P x.world inv inside, if_neg inside, sampleTotal_nil,
      add_zero]

/-- Every call that measures a chunk adds its samples to the cells, and nothing else. -/
theorem captureStep_ledger {P : Platform H} {evtyper : H → ℕ → Word} {x : CaptureState H}
    (inv : CaptureInvariant x.capture) (ready : PassReady evtyper x) {call : CaptureCall H X}
    (measures : call.measures = true) {r e : ℕ} (he : e < x.capture.totalEventCount) :
    (captureStep P x call).world.mem (x.capture.cell r e) =
      x.world.mem (x.capture.cell r e) +
        sampleTotal (x.capture.currentChunkStart + r) e (captureSamples P evtyper x call) := by
  cases call with
  | reset => cases measures
  | advanceChunk => cases measures
  | layerEnd op => exact captureLayerEnd_cell inv ready op he
  | modelEnd =>
    dsimp only [captureStep]
    rw [captureModelEnd_memory P x.world inv]
    exact (add_zero _).symm
  | layerBegin op =>
    dsimp only [captureStep, captureLayerBegin]
    split <;> exact (add_zero _).symm
  | modelBegin => exact (add_zero _).symm
  | serializeCsv _ _ _ => exact (add_zero _).symm
  | elapse _ => exact (add_zero _).symm

def Measuring (P : Platform H) (evtyper : H → ℕ → Word) (x : CaptureState H)
    (call : CaptureCall H X) : Prop :=
  call.measures = true ∧ Undisturbed P evtyper x call

structure InChunk (evtyper : H → ℕ → Word) (x y : CaptureState H) : Prop where
  inv : CaptureInvariant y.capture
  ready : PassReady evtyper y
  chunk : SameChunk x.capture y.capture

section Runs
variable {P : Platform H} {evtyper : H → ℕ → Word}

theorem InChunk.step (laws : Programs P evtyper) {x y : CaptureState H} {call : CaptureCall H X}
    (inside : InChunk evtyper x y) (measuring : Measuring P evtyper y call) :
    InChunk evtyper x (captureStep P y call) where
  inv := (captureStep_invariant P call inside.inv).1
  ready := captureStep_ready laws inside.inv inside.ready measuring.2
  chunk := inside.chunk.trans (captureStep_chunk P inside.inv measuring.1)

theorem InChunk.run (laws : Programs P evtyper) {x y : CaptureState H}
    {calls : List (CaptureCall H X)} (inside : InChunk evtyper x y)
    (measuring : AllSteps (captureStep P) (Measuring P evtyper) y calls) :
    InChunk evtyper x (run (captureStep P) y calls) :=
  run_invariant (fun _ _ => InChunk.step laws) inside measuring

theorem InChunk.ledger (laws : Programs P evtyper) {x y : CaptureState H}
    {calls : List (CaptureCall H X)} (inside : InChunk evtyper x y)
    (measuring : AllSteps (captureStep P) (Measuring P evtyper) y calls) {r e : ℕ}
    (he : e < x.capture.totalEventCount) :
    (LabelledRuns.run (captureStep P) y calls).world.mem (x.capture.cell r e) =
      y.world.mem (x.capture.cell r e) + sampleTotal (x.capture.currentChunkStart + r) e
        (collect (captureStep P) (captureSamples P evtyper) y calls) := by
  refine run_ledger (fun z : CaptureState H => z.world.mem (x.capture.cell r e))
    (sampleTotal (x.capture.currentChunkStart + r) e) rfl (sampleTotal_append _ _)
    (fun _ _ => InChunk.step laws) ?_ inside measuring
  intro z call here measuring
  have entry := captureStep_ledger (P := P) here.inv here.ready measuring.1 (r := r)
    (he.trans_eq here.chunk.totalEventCount.symm)
  rwa [here.chunk.toSameSetup.cell, here.chunk.chunkStart] at entry

/-- A sample of the chunk was read from counters that count its column. -/
structure Sample.Attributed (c : Capture) (s : Sample) : Prop where
  column : s.column < c.totalEventCount
  low : s.lowEvent = c.columnId s.column
  high : s.highEvent = armPmuChain

theorem captureSamples_attributed (laws : Programs P evtyper) {x : CaptureState H}
    (inv : CaptureInvariant x.capture) (ready : PassReady evtyper x) (call : CaptureCall H X) :
    ∀ s ∈ captureSamples P evtyper x call, s.Attributed x.capture := by
  intro s hs
  have pass := inv.passEvents
  cases call with
  | layerEnd op =>
    simp only [captureSamples] at hs
    split at hs
    · obtain ⟨slot, hslot, rfl⟩ := List.mem_map.mp hs
      have hslot := List.mem_range.mp hslot
      have few := ready.ready.few
      have programmed := ready.programmed.of_evtyper few
        (fun _ hk => laws.pausedHw x.world.pmu hk) slot hslot
      refine ⟨?_, programmed.1, programmed.2⟩
      simp only [pairSample]
      omega
    · cases hs
  | _ => cases hs

theorem SameSetup.columnId {c c' : Capture} (same : SameSetup c c') (event : ℕ) :
    c'.columnId event = c.columnId event := by
  unfold Capture.columnId Capture.mapEntry
  rw [same.eventMapIndices]

theorem InChunk.attributed (laws : Programs P evtyper) {x y : CaptureState H}
    {calls : List (CaptureCall H X)} (inside : InChunk evtyper x y)
    (measuring : AllSteps (captureStep P) (Measuring P evtyper) y calls) :
    ∀ s ∈ collect (captureStep P) (captureSamples P evtyper) y calls, s.Attributed x.capture := by
  refine collect_forall (fun _ _ => InChunk.step laws) ?_ inside measuring
  intro z call here _ s hs
  obtain ⟨column, low, high⟩ := captureSamples_attributed laws here.inv here.ready call s hs
  exact ⟨column.trans_eq here.chunk.totalEventCount, low.trans (here.chunk.columnId _), high⟩

/-- A capture after a call that has started a chunk. -/
inductive ChunkBegun (X : Type) (P : Platform H) : CaptureState H → Prop where
  | init {c : Capture} {cfg : CaptureCfg} {w : World H}
      (ok : (captureInit P c cfg w).1 = statusSuccess) : ChunkBegun X P (captureStart P c cfg w)
  | reset {x : CaptureState H} (reached : CaptureReached X P x)
      (ok : (captureReset P x.capture x.world).1 = statusSuccess) :
      ChunkBegun X P (captureStep P x (.reset (X := X)))
  | advanceChunk {x : CaptureState H} (reached : CaptureReached X P x)
      (more : x.capture.complete = false)
      (ok : (captureAdvanceChunk P x.capture x.world).1 = statusSuccess) :
      ChunkBegun X P (captureStep P x (.advanceChunk (X := X)))

structure FreshChunk (evtyper : H → ℕ → Word) (x : CaptureState H) : Prop where
  inv : CaptureInvariant x.capture
  ready : PassReady evtyper x
  unready : x.capture.chunkReady = false
  base : x.capture.currentEventBase = 0
  cleared : ∀ r < x.capture.currentChunkOps, ∀ e < x.capture.totalEventCount,
    x.world.mem (x.capture.cell r e) = 0

theorem captureResetChunk_fresh (laws : Programs P evtyper) {c : Capture} {w : World H}
    {chunkStart : ℕ} (setup : CaptureSetup c) (start : chunkStart < c.totalOps)
    (dvd : c.opsPerChunk ∣ chunkStart) (incomplete : c.complete = false)
    (ok : (captureResetChunk P c chunkStart w).1 = statusSuccess) :
    FreshChunk evtyper
      ⟨(captureResetChunk P c chunkStart w).2.1, (captureResetChunk P c chunkStart w).2.2⟩ := by
  have inv := captureResetChunk_invariant P w setup start dvd incomplete
  refine ⟨inv, captureResetChunk_ready laws setup start ok, ?_, ?_, ?_⟩
  · rw [captureResetChunk_capture P w setup start]
  · rw [captureResetChunk_capture P w setup start]
  · intro r hr e he
    have same := captureResetChunk_same P w setup start
    dsimp only at hr he ⊢
    rw [captureResetChunk_capture P w setup start] at hr
    rw [same.cell]
    exact captureResetChunk_cleared P w setup start hr (he.trans_eq same.totalEventCount)

theorem ChunkBegun.fresh (laws : Programs P evtyper) {x : CaptureState H}
    (begun : ChunkBegun X P x) : FreshChunk evtyper x := by
  cases begun with
  | @init c cfg w ok =>
    obtain ⟨valid, eq⟩ := captureStart_eq ok
    have setup := valid.setup c
    unfold captureStart
    rw [eq] at ok ⊢
    exact captureResetChunk_fresh laws setup setup.totalOps_pos (Nat.dvd_zero _) rfl ok
  | @reset x reached ok =>
    have setup := reached.invariant.toCaptureSetup
    dsimp only [captureStep]
    rw [captureReset_eq P x.world setup] at ok ⊢
    exact captureResetChunk_fresh laws setup.incomplete setup.totalOps_pos (Nat.dvd_zero _) rfl ok
  | @advanceChunk x reached more ok =>
    have inv := reached.invariant
    dsimp only [captureStep]
    rcases captureAdvanceChunk_cases P x.world inv with
      ⟨-, eq⟩ | ⟨-, complete, -⟩ | ⟨-, incomplete, -, start, eq⟩
    · rw [eq] at ok
      exact absurd ok statusInvalidConfig_ne
    · exact absurd (more.symm.trans complete) (by decide)
    · rw [eq] at ok ⊢
      exact captureResetChunk_fresh laws inv.toCaptureSetup start
        (Nat.dvd_add inv.chunkStart_dvd (Nat.dvd_refl _)) incomplete ok

theorem FreshChunk.inChunk {x : CaptureState H} (fresh : FreshChunk evtyper x) :
    InChunk evtyper x x := ⟨fresh.inv, fresh.ready, .refl _⟩

/-- Since a chunk was started, each of its cells holds the sum of the readings taken of its
operator while its column was in the pass, each from counters programmed with its event;
an operator outside the chunk changes no cell. -/
theorem capture_cell_accounting (laws : Programs P evtyper) {x : CaptureState H}
    (begun : ChunkBegun X P x) (calls : List (CaptureCall H X))
    (measuring : AllSteps (captureStep P) (Measuring P evtyper) x calls) :
    (∀ r < x.capture.currentChunkOps, ∀ e < x.capture.totalEventCount,
      (run (captureStep P) x calls).world.mem (x.capture.matrixStorage +
          (r * x.capture.totalEventCount + e)) =
        sampleTotal (x.capture.currentChunkStart + r) e
          (collect (captureStep P) (captureSamples P evtyper) x calls)) ∧
    (∀ s ∈ collect (captureStep P) (captureSamples P evtyper) x calls,
      s.lowEvent = mapEventId (x.capture.mapEntry s.column) ∧ s.highEvent = armPmuChain) ∧
    SameChunk x.capture (run (captureStep P) x calls).capture ∧
    ∀ op : BitVec 16, ¬ (x.capture.currentChunkStart ≤ op.toNat ∧
        op.toNat < x.capture.currentChunkStart + x.capture.currentChunkOps) →
      (captureStep P (run (captureStep P) x calls) (.layerEnd (X := X) op)).world.mem =
        (run (captureStep P) x calls).world.mem := by
  have fresh := begun.fresh laws
  have inside := fresh.inChunk
  have last := inside.run laws measuring
  refine ⟨?_, ?_, last.chunk, ?_⟩
  · intro r hr e he
    have total := inside.ledger laws measuring (r := r) he
    rw [fresh.cleared r hr e he, zero_add] at total
    exact total
  · intro s hs
    have attributed := inside.attributed laws measuring s hs
    exact ⟨attributed.low, attributed.high⟩
  · intro op outside
    rw [← last.chunk.chunkStart, ← last.chunk.chunkOps] at outside
    dsimp only [captureStep]
    rw [captureLayerEnd_outside P _ last.inv outside]

end Runs

theorem capture_cell_accounting_ref :
    (run (captureStep refPlatform)
      (captureStart refPlatform .zero (refCaptureCfg 2 1 5 0) RefPmu.start.world)
      [CaptureCall.layerBegin (X := Unit) 0, .elapse (RefPmu.occur 0x0001), .layerEnd 0, .modelEnd,
        .layerEnd 0, .layerEnd 1]).world.mem (4096 + (0 * 5 + 1)) = 1 :=
  ((capture_cell_accounting refPlatform_programs
    (ChunkBegun.init (X := Unit) (show (captureInit refPlatform .zero (refCaptureCfg 2 1 5 0)
      RefPmu.start.world).1 = statusSuccess by decide))
    [.layerBegin 0, .elapse (RefPmu.occur 0x0001), .layerEnd 0, .modelEnd, .layerEnd 0, .layerEnd 1]
    ⟨⟨rfl, trivial⟩, ⟨rfl, fun _ _ => rfl⟩, ⟨rfl, trivial⟩, ⟨rfl, rfl⟩, ⟨rfl, trivial⟩,
      ⟨rfl, trivial⟩, trivial⟩).1
    0 (by decide) 1 (by decide)).trans (by decide +kernel)

def unknownEntryCfg : CaptureCfg :=
  { refCaptureCfg 1 0 5 0 with
      eventMapIndices := some fun e => if e < 4 then BitVec.ofNat 16 e else 70 }

/-- The second pass is refused without a call of the driver; the operator is sampled all the
same, and counter 7 of the pass before ends up in the fifth column. -/
theorem capture_cell_accounting_unknown_entry :
    let start := captureStart refPlatform .zero unknownEntryCfg RefPmu.start.world
    let calls : List (CaptureCall RefPmu Unit) :=
      [.modelEnd, .elapse fun hw => { hw with evcntr := BitVec.ofNat 32 }, .layerEnd 0]
    let final := run (captureStep refPlatform) start calls
    (captureInit refPlatform .zero unknownEntryCfg RefPmu.start.world).1 = statusSuccess ∧
    final.world.pmu.inits.map InitRecord.status = [statusSuccess] ∧
    final.world.mem (4096 + (0 * 5 + 4)) = 7 ∧
    sampleTotal 0 4 (collect (captureStep refPlatform)
      (captureSamples refPlatform RefPmu.evtyper) start calls) = 65536 := by
  decide +kernel

end NsxPmu
