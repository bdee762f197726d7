import NsxPmu.CaptureSchedule

set_option autoImplicit false

/-!
# What a whole capture yields

The caller's loop ends, its chunks tile the operators, and the rows it reads form
one matrix in which every cell is a single reading.
-/
namespace NsxPmu
open WordMemory LabelledRuns

variable {H X : Type} {P : Platform H} {evtyper : H → ℕ → Word} {api : CoreApi}

structure InferenceEffect (evtyper : H → ℕ → Word) (x z : CaptureState H) (log : List Sample) :
    Prop where
  inside : InChunk evtyper x z
  cells : ∀ r, ∀ e < x.capture.totalEventCount, z.world.mem (x.capture.cell r e) =
    x.world.mem (x.capture.cell r e) + sampleTotal (x.capture.currentChunkStart + r) e log
  counts : ∀ op < x.capture.totalOps, ∀ e,
    sampleCount op e log = if x.capture.samples op e then 1 else 0
  within : ∀ s ∈ log, x.capture.currentChunkStart ≤ s.op ∧
    s.op < x.capture.currentChunkStart + x.capture.currentChunkOps
  attributed : ∀ s ∈ log, s.Attributed x.capture

theorem Midway.inChunk {x : CaptureState H} (mid : Midway evtyper api x) : InChunk evtyper x x :=
  ⟨mid.inv, mid.ready, .refl _⟩

theorem inferenceCalls_members {totalOps : ℕ} {work : ℕ → H → H} {call : CaptureCall H X}
    (h : call ∈ (List.range totalOps).flatMap (operatorCalls work)) :
    ∃ op, call ∈ operatorCalls work op := by
  obtain ⟨op, -, member⟩ := List.mem_flatMap.mp h
  exact ⟨op, member⟩

theorem Midway.operators (laws : Programs P evtyper) {work : ℕ → H → H}
    (quiet : ∀ op, Quiet evtyper (work op)) {x : CaptureState H} (mid : Midway evtyper api x)
    (totalOps : ℕ) :
    InPass evtyper x (run (captureStep P) x
      ((List.range totalOps).flatMap (operatorCalls (X := X) work))) :=
  InPass.run laws quiet ⟨mid.inChunk, .refl _⟩ fun _ => inferenceCalls_members

theorem InPass.midway {x y : CaptureState H} (inside : InPass evtyper x y)
    (mid : Midway evtyper api x) : Midway evtyper api y :=
  mid.of_pass inside.chunk.inv inside.chunk.ready inside.pass.toSameSetup
    (inside.pass.chunkReady.trans mid.unready) (inside.pass.complete.trans mid.incomplete)

theorem inference_measuring (laws : Programs P evtyper) (answers : Answers P api)
    {work : ℕ → H → H} (quiet : ∀ op, Quiet evtyper (work op)) {x : CaptureState H}
    (mid : Midway evtyper api x) (totalOps : ℕ) :
    AllSteps (captureStep P) (Measuring P evtyper) x (inferenceCalls (X := X) totalOps work) := by
  have last := (mid.operators (X := X) laws quiet totalOps).midway mid
  rw [inferenceCalls, AllSteps_append]
  refine ⟨AllSteps_of_forall ?_ x, ⟨rfl, last.modelEnd_succeeds answers⟩, trivial⟩
  intro call h y
  obtain ⟨op, member⟩ := inferenceCalls_members h
  exact operatorCalls_measuring quiet y member

theorem captureSamples_within (P : Platform H) (evtyper : H → ℕ → Word) (x : CaptureState H)
    (call : CaptureCall H X) : ∀ s ∈ captureSamples P evtyper x call,
      x.capture.currentChunkStart ≤ s.op ∧
        s.op < x.capture.currentChunkStart + x.capture.currentChunkOps := by
  intro s hs
  cases call with
  | layerEnd op =>
    simp only [captureSamples] at hs
    split at hs
    · rename_i inside
      obtain ⟨slot, -, rfl⟩ := List.mem_map.mp hs
      exact inside
    · cases hs
  | _ => cases hs

theorem inference_effect (laws : Programs P evtyper) (answers : Answers P api) {work : ℕ → H → H}
    (quiet : ∀ op, Quiet evtyper (work op)) {x : CaptureState H} (mid : Midway evtyper api x) :
    InferenceEffect evtyper x
      (run (captureStep P) x (inferenceCalls (X := X) x.capture.totalOps work))
      (collect (captureStep P) (captureSamples P evtyper) x
        (inferenceCalls (X := X) x.capture.totalOps work)) := by
  have lt := mid.inv.totalOps_lt
  have measuring := inference_measuring (X := X) laws answers quiet mid x.capture.totalOps
  have inside := mid.inChunk
  refine ⟨inside.run laws measuring, ?_, ?_, ?_, inside.attributed laws measuring⟩
  · intro r e he
    exact inside.ledger laws measuring he
  · intro op hop e
    have once : (List.range x.capture.totalOps).count op = 1 :=
      List.count_eq_one_of_mem List.nodup_range (List.mem_range.mpr hop)
    have small : ∀ i ∈ List.range x.capture.totalOps, i < 65536 :=
      fun i hi => (List.mem_range.mp hi).trans lt
    rw [inferenceCalls, collect_append, sampleCount_append,
      operators_count laws quiet ⟨inside, .refl _⟩ small, once]
    simp [captureSamples]
  · refine collect_forall (fun _ _ => InChunk.step laws) ?_ inside measuring
    intro y call here _ s hs
    have within := captureSamples_within P evtyper y call s hs
    rwa [here.chunk.chunkStart, here.chunk.chunkOps] at within

theorem inference_cases (laws : Programs P evtyper) (answers : Answers P api) {work : ℕ → H → H}
    (quiet : ∀ op, Quiet evtyper (work op)) {x z : CaptureState H} (mid : Midway evtyper api x)
    (end_eq : run (captureStep P) x (inferenceCalls (X := X) x.capture.totalOps work) = z) :
    (x.capture.currentEventBase + x.capture.currentPassEvents = x.capture.totalEventCount ∧
      z.capture.chunkReady = true ∧
      z.capture.complete =
        decide (x.capture.currentChunkStart + x.capture.currentChunkOps = x.capture.totalOps)) ∨
    (x.capture.currentPassEvents = x.capture.eventsPerPass ∧
      x.capture.currentEventBase + x.capture.eventsPerPass < x.capture.totalEventCount ∧
      z.capture.currentEventBase = x.capture.currentEventBase + x.capture.eventsPerPass ∧
      Midway evtyper api z) := by
  have effect := inference_effect (X := X) laws answers quiet mid
  rw [end_eq] at effect
  rw [inferenceCalls, run_append] at end_eq
  have before := mid.operators (X := X) laws quiet x.capture.totalOps
  generalize run (captureStep P) x
    ((List.range x.capture.totalOps).flatMap (operatorCalls (X := X) work)) = y at before end_eq
  have midY := before.midway mid
  obtain ⟨chunk, pass⟩ := before
  simp only [run_cons, run_nil, captureStep] at end_eq
  rcases captureModelEnd_cases P y.world midY.inv with
    ⟨frozen, -⟩ | ⟨-, -, last, eq⟩ | ⟨-, -, full, more, eq⟩
  · rw [midY.unready, midY.incomplete] at frozen
    simp at frozen
  · left
    rw [pass.eventBase, pass.passEvents, pass.totalEventCount] at last
    rw [eq] at end_eq
    subst end_eq
    exact ⟨last, rfl, by simp only [pass.chunkStart, pass.chunkOps, pass.totalOps]⟩
  · right
    have same : SameSetup y.capture y.capture.nextPass := .progress
    have kept := capturePreparePass_capture P y.world.pmu
      (midY.inv.toCaptureSetup.of_same same) more
    rw [eq] at end_eq
    have capture : z.capture = (capturePreparePass P y.capture.nextPass y.world.pmu).2.1 := by
      rw [← end_eq]
    rw [kept] at capture
    rw [pass.passEvents, pass.eventsPerPass] at full
    rw [pass.eventBase, pass.eventsPerPass, pass.totalEventCount] at more
    refine ⟨full, more, ?_, mid.of_pass effect.inside.inv effect.inside.ready
      effect.inside.chunk.toSameSetup ?_ ?_⟩
    · rw [capture]
      simp only [Capture.nextPass, pass.eventBase, pass.eventsPerPass]
    · rw [capture]
      exact midY.unready
    · rw [capture]
      exact midY.incomplete

theorem captureResetChunk_midway (laws : Programs P evtyper) (answers : Answers P api)
    {c : Capture} {w : World H} {chunkStart : ℕ} (setup : CaptureSetup c)
    (start : chunkStart < c.totalOps) (dvd : c.opsPerChunk ∣ chunkStart)
    (incomplete : c.complete = false) (version : c.api = some api)
    (known : ∀ e < c.totalEventCount, c.mapEntry e < pmuMapSize) :
    FreshChunk evtyper
      ⟨(captureResetChunk P c chunkStart w).2.1, (captureResetChunk P c chunkStart w).2.2⟩ ∧
    Midway evtyper api
      ⟨(captureResetChunk P c chunkStart w).2.1, (captureResetChunk P c chunkStart w).2.2⟩ := by
  have ok : (captureResetChunk P c chunkStart w).1 = statusSuccess := by
    rw [captureResetChunk_eq P w setup start]
    exact capturePreparePass_succeeds answers _ (setup.of_same (c.openChunk_same chunkStart))
      setup.eventCount_pos version known
  have fresh := captureResetChunk_fresh laws setup start dvd incomplete ok
  have same := captureResetChunk_same P w setup start
  refine ⟨fresh, fresh.inv, fresh.ready, fresh.unready, ?_, same.api.trans version, ?_⟩
  · rw [captureResetChunk_capture P w setup start]
    exact incomplete
  · intro e he
    dsimp only at he ⊢
    rw [same.totalEventCount] at he
    rw [same.mapEntry]
    exact known e he

theorem advance_midway (laws : Programs P evtyper) (answers : Answers P api) {z : CaptureState H}
    (inv : CaptureInvariant z.capture) (ready : z.capture.chunkReady = true)
    (incomplete : z.capture.complete = false) (version : z.capture.api = some api)
    (known : ∀ e < z.capture.totalEventCount, z.capture.mapEntry e < pmuMapSize) :
    let next := captureStep P z (.advanceChunk (X := X))
    FreshChunk evtyper next ∧ Midway evtyper api next ∧ SameSetup z.capture next.capture ∧
      z.capture.currentChunkOps = z.capture.opsPerChunk ∧
      next.capture.currentChunkStart = z.capture.currentChunkStart + z.capture.opsPerChunk := by
  dsimp only [captureStep]
  rcases captureAdvanceChunk_cases P z.world inv with
    ⟨unready, -⟩ | ⟨-, complete, -⟩ | ⟨-, -, full, more, eq⟩
  · exact absurd (unready.symm.trans ready) (by decide)
  · exact absurd (incomplete.symm.trans complete) (by decide)
  · rw [eq]
    obtain ⟨fresh, mid⟩ := captureResetChunk_midway laws answers (w := z.world) inv.toCaptureSetup
      more (Nat.dvd_add inv.chunkStart_dvd (Nat.dvd_refl _)) incomplete version known
    refine ⟨fresh, mid, captureResetChunk_same P z.world inv.toCaptureSetup more, full, ?_⟩
    rw [captureResetChunk_capture P z.world inv.toCaptureSetup more]

/-- What a row of the current chunk holds already. Rows of later chunks start at zero. -/
def pending (x : CaptureState H) (row event : ℕ) : Word :=
  if row < x.capture.currentChunkOps then x.world.mem (x.capture.cell row event) else 0

/-- What the rest of a capture yields from the state `x` on: the chunks tile the remaining
operators, the rows join the counts of `x` with the samples, and every cell that was not
sampled before is sampled once. -/
structure Harvest (x : CaptureState H) (chunks : List ChunkRead) (log : List Sample) : Prop where
  tiles : chunks.flatMap (fun k => List.range' k.start k.ops) =
    List.range' x.capture.currentChunkStart (x.capture.totalOps - x.capture.currentChunkStart)
  sizes : ∀ k ∈ chunks, k.ops = min x.capture.opsPerChunk (x.capture.totalOps - k.start) ∧
    k.rows.length = k.ops
  rows : chunks.flatMap ChunkRead.rows =
    (List.range (x.capture.totalOps - x.capture.currentChunkStart)).map fun i =>
      (List.range x.capture.totalEventCount).map fun e =>
        pending x i e + sampleTotal (x.capture.currentChunkStart + i) e log
  counts : ∀ i < x.capture.totalOps - x.capture.currentChunkStart,
    ∀ e < x.capture.totalEventCount, sampleCount (x.capture.currentChunkStart + i) e log =
      if i < x.capture.currentChunkOps ∧ e < x.capture.currentEventBase then 0 else 1
  within : ∀ s ∈ log, x.capture.currentChunkStart ≤ s.op
  attributed : ∀ s ∈ log, s.Attributed x.capture

theorem InferenceEffect.count_row {x z : CaptureState H} {log : List Sample}
    (effect : InferenceEffect evtyper x z log) {i : ℕ}
    (hi : x.capture.currentChunkStart + i < x.capture.totalOps) (e : ℕ) :
    sampleCount (x.capture.currentChunkStart + i) e log =
      if i < x.capture.currentChunkOps ∧ x.capture.currentEventBase ≤ e ∧
        e < x.capture.currentEventBase + x.capture.currentPassEvents then 1 else 0 := by
  rw [effect.counts _ hi]
  apply if_congr _ rfl rfl
  unfold Capture.samples
  omega

theorem readChunk_rows {x z : CaptureState H} {log : List Sample}
    (effect : InferenceEffect evtyper x z log) :
    (readChunk z).rows = (List.range x.capture.currentChunkOps).map fun i =>
      (List.range x.capture.totalEventCount).map fun e =>
        pending x i e + sampleTotal (x.capture.currentChunkStart + i) e log := by
  unfold readChunk
  dsimp only
  rw [effect.inside.chunk.chunkOps, effect.inside.chunk.totalEventCount]
  apply List.map_congr_left
  intro i hi
  apply List.map_congr_left
  intro e he
  rw [effect.inside.chunk.cell, effect.cells i e (List.mem_range.mp he), pending,
    if_pos (List.mem_range.mp hi)]

theorem Harvest.last {x z : CaptureState H} {log : List Sample} (inv : CaptureInvariant x.capture)
    (effect : InferenceEffect evtyper x z log)
    (columns : x.capture.currentEventBase + x.capture.currentPassEvents = x.capture.totalEventCount)
    (ops : x.capture.currentChunkStart + x.capture.currentChunkOps = x.capture.totalOps) :
    Harvest x [readChunk z] log := by
  have same := effect.inside.chunk
  have size := inv.chunkOps
  have rest : x.capture.totalOps - x.capture.currentChunkStart = x.capture.currentChunkOps := by omega
  refine ⟨?_, ?_, ?_, ?_, fun s hs => (effect.within s hs).1, effect.attributed⟩
  · simp only [readChunk, List.flatMap_cons, List.flatMap_nil, List.append_nil, same.chunkStart,
      same.chunkOps, rest]
  · intro k hk
    rw [List.mem_singleton] at hk
    subst hk
    simp only [readChunk, same.chunkStart, same.chunkOps, List.length_map, List.length_range]
    exact ⟨size, trivial⟩
  · rw [List.flatMap_cons, List.flatMap_nil, List.append_nil, readChunk_rows effect, rest]
  · intro i hi e he
    rw [effect.count_row (by omega)]
    split <;> split <;> omega

theorem FreshChunk.pending {x : CaptureState H} (fresh : FreshChunk evtyper x) (op : ℕ) {e : ℕ}
    (he : e < x.capture.totalEventCount) : NsxPmu.pending x op e = 0 := by
  unfold NsxPmu.pending
  split
  · rename_i row
    exact fresh.cleared op row e he
  · rfl

theorem attributed_append {c c' : Capture} (same : SameSetup c c') {log log' : List Sample}
    (first : ∀ s ∈ log, s.Attributed c) (rest : ∀ s ∈ log', s.Attributed c') :
    ∀ s ∈ log ++ log', s.Attributed c := by
  intro s hs
  rcases List.mem_append.mp hs with h | h
  · exact first s h
  · obtain ⟨column, low, high⟩ := rest s h
    exact ⟨column.trans_eq same.totalEventCount, low.trans (same.columnId _), high⟩

theorem Harvest.nextPass {x z : CaptureState H} {log log' : List Sample} {chunks : List ChunkRead}
    (effect : InferenceEffect evtyper x z log)
    (full : x.capture.currentPassEvents = x.capture.eventsPerPass)
    (base : z.capture.currentEventBase = x.capture.currentEventBase + x.capture.eventsPerPass)
    (rest : Harvest z chunks log') : Harvest x chunks (log ++ log') := by
  have same := effect.inside.chunk
  obtain ⟨tiles, sizes, rows, counts, within, attributed⟩ := rest
  rw [same.chunkStart, same.totalOps] at tiles
  rw [same.opsPerChunk, same.totalOps] at sizes
  rw [same.chunkStart, same.totalOps, same.totalEventCount] at rows
  rw [same.chunkStart, same.totalOps, same.totalEventCount, same.chunkOps, base] at counts
  rw [same.chunkStart] at within
  refine ⟨tiles, sizes, ?_, ?_, ?_, ?_⟩
  · rw [rows]
    apply List.map_congr_left
    intro i hi
    apply List.map_congr_left
    intro e he
    have he := List.mem_range.mp he
    rw [sampleTotal_append, ← add_assoc]
    congr 1
    unfold pending
    rw [same.chunkOps, same.cell]
    split
    · exact effect.cells i e he
    · rw [sampleTotal_other, add_zero]
      intro s hs
      have := effect.within s hs
      omega
  · intro i hi e he
    rw [sampleCount_append, effect.count_row (by omega), counts i hi e he]
    split <;> split <;> split <;> omega
  · intro s hs
    rcases List.mem_append.mp hs with h | h
    · exact (effect.within s h).1
    · exact within s h
  · exact attributed_append same.toSameSetup effect.attributed attributed

theorem Harvest.nextChunk {x z y : CaptureState H} {log log' : List Sample}
    {chunks : List ChunkRead} (inv : CaptureInvariant x.capture)
    (effect : InferenceEffect evtyper x z log)
    (columns : x.capture.currentEventBase + x.capture.currentPassEvents = x.capture.totalEventCount)
    (same : SameSetup x.capture y.capture) (fresh : FreshChunk evtyper y)
    (start : y.capture.currentChunkStart =
      x.capture.currentChunkStart + x.capture.currentChunkOps)
    (rest : Harvest y chunks log') : Harvest x (readChunk z :: chunks) (log ++ log') := by
  have kept := effect.inside.chunk
  have size := inv.chunkOps
  have inside := inv.chunkStart_lt
  obtain ⟨tiles, sizes, rows, counts, within, attributed⟩ := rest
  rw [start, same.totalOps] at tiles
  rw [same.opsPerChunk, same.totalOps] at sizes
  rw [start, same.totalOps, same.totalEventCount] at rows
  rw [start, same.totalOps, same.totalEventCount, fresh.base] at counts
  rw [start] at within
  have split : x.capture.totalOps - x.capture.currentChunkStart = x.capture.currentChunkOps +
      (x.capture.totalOps - (x.capture.currentChunkStart + x.capture.currentChunkOps)) := by omega
  -- the samples of this inference and of the rest belong to different operators
  have early : ∀ i < x.capture.currentChunkOps, ∀ e,
      sampleTotal (x.capture.currentChunkStart + i) e log' = 0 ∧
        sampleCount (x.capture.currentChunkStart + i) e log' = 0 := by
    intro i hi e
    refine ⟨sampleTotal_other fun s hs => ?_, sampleCount_other fun s hs => ?_⟩ <;>
    · have := within s hs
      omega
  have late : ∀ i, x.capture.currentChunkOps ≤ i → ∀ e,
      sampleTotal (x.capture.currentChunkStart + i) e log = 0 := by
    intro i hi e
    refine sampleTotal_other fun s hs => ?_
    have := effect.within s hs
    omega
  refine ⟨?_, ?_, ?_, ?_, ?_, ?_⟩
  · rw [List.flatMap_cons, tiles, split]
    simp only [readChunk, kept.chunkStart, kept.chunkOps]
    exact List.range'_append_1
  · intro k hk
    rcases List.mem_cons.mp hk with rfl | hk
    · simp only [readChunk, kept.chunkStart, kept.chunkOps, List.length_map, List.length_range]
      exact ⟨size, trivial⟩
    · exact sizes k hk
  · rw [List.flatMap_cons, rows, readChunk_rows effect, split, List.range_add, List.map_append,
      List.map_map]
    congr 1
    · apply List.map_congr_left
      intro i hi
      apply List.map_congr_left
      intro e _
      rw [sampleTotal_append, (early i (List.mem_range.mp hi) e).1, add_zero]
    · apply List.map_congr_left
      intro i _
      apply List.map_congr_left
      intro e he
      have he := List.mem_range.mp he
      simp only
      have old : pending y i e = 0 := fresh.pending i (he.trans_eq same.totalEventCount.symm)
      have new : pending x (x.capture.currentChunkOps + i) e = 0 := if_neg (by omega)
      rw [sampleTotal_append, late _ (by omega), old, new, zero_add, zero_add, zero_add,
        Nat.add_assoc]
  · intro i hi e he
    rw [sampleCount_append, effect.count_row (by omega)]
    by_cases here : i < x.capture.currentChunkOps
    · rw [(early i here e).2]
      split <;> split <;> omega
    · have later := counts (i - x.capture.currentChunkOps) (by omega) e he
      rw [show x.capture.currentChunkStart + x.capture.currentChunkOps +
        (i - x.capture.currentChunkOps) = x.capture.currentChunkStart + i by omega] at later
      rw [later]
      split <;> split <;> split <;> omega
  · intro s hs
    rcases List.mem_append.mp hs with h | h
    · exact (effect.within s h).1
    · have := within s h
      omega
  · exact attributed_append same effect.attributed attributed

theorem ceilDiv_step {n c : ℕ} (hc : 0 < c) (hn : 0 < n) : n ⌈/⌉ c = (n - c) ⌈/⌉ c + 1 := by
  simp only [Nat.ceilDiv_eq_add_pred_div]
  by_cases small : n ≤ c
  · rw [Nat.sub_eq_zero_of_le small, Nat.zero_add, Nat.div_eq_of_lt (show c - 1 < c by omega),
      show n + c - 1 = (n - 1) + c by omega, Nat.add_div_right _ hc,
      Nat.div_eq_of_lt (show n - 1 < c by omega)]
  · rw [show n + c - 1 = (n - c + c - 1) + c by omega, Nat.add_div_right _ hc]

def Capture.remaining (c : Capture) : ℕ :=
  (c.totalEventCount - c.currentEventBase) ⌈/⌉ c.eventsPerPass +
    ((c.totalOps - c.currentChunkStart - c.opsPerChunk) ⌈/⌉ c.opsPerChunk) *
      (c.totalEventCount ⌈/⌉ c.eventsPerPass)

theorem Capture.remaining_lastPass {c : Capture} (inv : CaptureInvariant c)
    (columns : c.currentEventBase + c.currentPassEvents = c.totalEventCount) :
    c.remaining = ((c.totalOps - c.currentChunkStart - c.opsPerChunk) ⌈/⌉ c.opsPerChunk) *
      (c.totalEventCount ⌈/⌉ c.eventsPerPass) + 1 := by
  have pass := inv.passEvents
  have pos := inv.eventsPerPass_pos
  have base := inv.eventBase_lt
  rw [Capture.remaining, ceilDiv_step (by omega) (by omega),
    Nat.sub_eq_zero_of_le (show c.totalEventCount - c.currentEventBase ≤ c.eventsPerPass by omega),
    zero_ceilDiv]
  omega

theorem Capture.remaining_nextPass {c c' : Capture} (inv : CaptureInvariant c)
    (same : SameChunk c c')
    (base : c'.currentEventBase = c.currentEventBase + c.eventsPerPass)
    (more : c.currentEventBase + c.eventsPerPass < c.totalEventCount) :
    c.remaining = c'.remaining + 1 := by
  have pos := inv.eventsPerPass_pos
  unfold Capture.remaining
  rw [same.totalEventCount, same.totalOps, same.opsPerChunk, same.eventsPerPass, same.chunkStart,
    base, ceilDiv_step (show 0 < c.eventsPerPass by omega)
      (show 0 < c.totalEventCount - c.currentEventBase by omega), Nat.sub_sub]
  omega

theorem Capture.remaining_nextChunk {c c' : Capture} (inv : CaptureInvariant c)
    (columns : c.currentEventBase + c.currentPassEvents = c.totalEventCount)
    (same : SameSetup c c') (base : c'.currentEventBase = 0)
    (start : c'.currentChunkStart = c.currentChunkStart + c.opsPerChunk)
    (more : c.currentChunkStart + c.opsPerChunk < c.totalOps) :
    c.remaining = c'.remaining + 1 := by
  have pos := inv.opsPerChunk_pos
  rw [Capture.remaining_lastPass inv columns, Capture.remaining, same.totalEventCount,
    same.totalOps, same.opsPerChunk, same.eventsPerPass, start, base,
    ceilDiv_step (n := c.totalOps - c.currentChunkStart - c.opsPerChunk) (by omega) (by omega),
    Nat.sub_zero, Nat.succ_mul, Nat.sub_sub c.totalOps c.currentChunkStart c.opsPerChunk]
  omega

theorem profile_step {totalOps : ℕ} {work : ℕ → ℕ → H → H} {s : Profile H} {z : CaptureState H}
    {seen : List Sample}
    (hz : run (captureStep P) s.state (inferenceCalls (X := Unit) totalOps (work s.inferences)) = z)
    (hs : collect (captureStep P) (captureSamples P evtyper) s.state
      (inferenceCalls (X := Unit) totalOps (work s.inferences)) = seen) (fuel : ℕ) :
    profile P evtyper totalOps work (fuel + 1) s =
      if !z.capture.chunkReady then
        profile P evtyper totalOps work fuel ⟨z, s.inferences + 1, s.chunks, s.log ++ seen⟩
      else if z.capture.complete then
        some ⟨z, s.inferences + 1, s.chunks ++ [readChunk z], s.log ++ seen⟩
      else
        profile P evtyper totalOps work fuel ⟨captureStep P z (.advanceChunk (X := Unit)),
          s.inferences + 1, s.chunks ++ [readChunk z], s.log ++ seen⟩ := by
  subst hz hs
  rfl

structure ProfileEnds (P : Platform H) (evtyper : H → ℕ → Word) (totalOps : ℕ)
    (work : ℕ → ℕ → H → H) (s : Profile H) (n : ℕ) (final : Profile H) : Prop where
  enough : ∀ fuel, n ≤ fuel → profile P evtyper totalOps work fuel s = some final
  short : ∀ fuel < n, profile P evtyper totalOps work fuel s = none

section Loop
variable {totalOps n : ℕ} {work : ℕ → ℕ → H → H} {s s' final : Profile H}

theorem ProfileEnds.last
    (step : ∀ fuel, profile P evtyper totalOps work (fuel + 1) s = some final) :
    ProfileEnds P evtyper totalOps work s 1 final := by
  constructor
  · intro fuel enough
    obtain ⟨fuel, rfl⟩ : ∃ f, fuel = f + 1 := ⟨fuel - 1, by omega⟩
    exact step fuel
  · intro fuel short
    obtain rfl : fuel = 0 := by omega
    rfl

theorem ProfileEnds.resume
    (step : ∀ fuel, profile P evtyper totalOps work (fuel + 1) s =
      profile P evtyper totalOps work fuel s')
    (ends : ProfileEnds P evtyper totalOps work s' n final) :
    ProfileEnds P evtyper totalOps work s (n + 1) final := by
  constructor
  · intro fuel enough
    obtain ⟨fuel, rfl⟩ : ∃ f, fuel = f + 1 := ⟨fuel - 1, by omega⟩
    rw [step fuel, ends.enough fuel (by omega)]
  · intro fuel short
    cases fuel with
    | zero => rfl
    | succ fuel => rw [step fuel, ends.short fuel (by omega)]

def ProfileHarvests (P : Platform H) (evtyper : H → ℕ → Word) (totalOps : ℕ)
    (work : ℕ → ℕ → H → H) (s : Profile H) (n : ℕ) : Prop :=
  ∃ (final : Profile H) (chunks : List ChunkRead) (log : List Sample),
    ProfileEnds P evtyper totalOps work s n final ∧
    final.inferences = s.inferences + n ∧ final.chunks = s.chunks ++ chunks ∧
    final.log = s.log ++ log ∧ Harvest s.state chunks log

theorem ProfileHarvests.resume {front : List ChunkRead} {seen : List Sample}
    (later : ProfileHarvests P evtyper totalOps work s' n)
    (step : ∀ fuel, profile P evtyper totalOps work (fuel + 1) s =
      profile P evtyper totalOps work fuel s')
    (inferences : s'.inferences = s.inferences + 1) (read : s'.chunks = s.chunks ++ front)
    (logged : s'.log = s.log ++ seen)
    (harvest : ∀ chunks log, Harvest s'.state chunks log →
      Harvest s.state (front ++ chunks) (seen ++ log)) :
    ProfileHarvests P evtyper totalOps work s (n + 1) := by
  obtain ⟨final, chunks, log, ends, total, all, whole, rest⟩ := later
  refine ⟨final, front ++ chunks, seen ++ log, ends.resume step, ?_, ?_, ?_, harvest _ _ rest⟩
  · rw [total, inferences]
    omega
  · rw [all, read, List.append_assoc]
  · rw [whole, logged, List.append_assoc]

end Loop

/-- The caller's loop needs exactly the remaining inferences, and yields the harvest. -/
theorem profile_run (laws : Programs P evtyper) (answers : Answers P api) {work : ℕ → ℕ → H → H}
    (quiet : ∀ n op, Quiet evtyper (work n op)) {totalOps n : ℕ} {s : Profile H}
    (mid : Midway evtyper api s.state) (ops : s.state.capture.totalOps = totalOps)
    (rounds : s.state.capture.remaining = n) :
    ProfileHarvests P evtyper totalOps work s n := by
  induction n generalizing s with
  | zero =>
    have pos := mid.inv.eventsPerPass_pos
    have base := mid.inv.eventBase_lt
    rw [Capture.remaining, ceilDiv_step (by omega) (by omega)] at rounds
    omega
  | succ n ih =>
    have inv := mid.inv
    have effect := inference_effect (X := Unit) laws answers (quiet s.inferences) mid
    have cases := inference_cases (X := Unit) laws answers (quiet s.inferences) mid rfl
    rw [ops] at effect cases
    generalize hz : LabelledRuns.run (captureStep P) s.state
      (inferenceCalls (X := Unit) totalOps (work s.inferences)) = z at effect cases
    generalize hs : collect (captureStep P) (captureSamples P evtyper) s.state
      (inferenceCalls (X := Unit) totalOps (work s.inferences)) = seen at effect
    have step := profile_step hz hs
    have same := effect.inside.chunk
    rcases cases with ⟨columns, ready, complete⟩ | ⟨full, more, base, midZ⟩
    · simp only [ready, Bool.not_true, Bool.false_eq_true, if_false] at step
      by_cases last : s.state.capture.currentChunkStart + s.state.capture.currentChunkOps = totalOps
      · -- the last chunk is read and the loop stops
        rw [complete, decide_eq_true last] at step
        have one : n = 0 := by
          have size := inv.chunkOps
          rw [Capture.remaining_lastPass inv columns, Nat.sub_eq_zero_of_le (by omega),
            zero_ceilDiv] at rounds
          omega
        subst one
        exact ⟨⟨z, s.inferences + 1, s.chunks ++ [readChunk z], s.log ++ seen⟩, [readChunk z], seen,
          .last step, rfl, rfl, rfl, Harvest.last inv effect columns (last.trans ops.symm)⟩
      · -- the chunk is read and the next one started
        rw [complete, decide_eq_false last] at step
        simp only [Bool.false_eq_true, if_false] at step
        have invZ := effect.inside.inv
        obtain ⟨fresh, midY, setup, fullOps, start⟩ := advance_midway (X := Unit) laws answers invZ
          ready (by rw [complete, decide_eq_false last]) (same.api.trans mid.api)
          (by
            intro e he
            rw [same.mapEntry]
            exact mid.known e (he.trans_eq same.totalEventCount))
        have setupX := same.toSameSetup.trans setup
        rw [same.chunkOps, same.opsPerChunk] at fullOps
        rw [same.chunkStart, same.opsPerChunk] at start
        have bound := inv.chunkOps
        have below := inv.chunkStart_lt
        have less := Capture.remaining_nextChunk inv columns setupX fresh.base start (by omega)
        have later := ih (s := ⟨captureStep P z (.advanceChunk (X := Unit)), s.inferences + 1,
          s.chunks ++ [readChunk z], s.log ++ seen⟩) midY (setupX.totalOps.trans ops)
          (by dsimp only; omega)
        apply later.resume step rfl rfl rfl
        intro chunks log harvest
        exact Harvest.nextChunk inv effect columns setupX fresh (by rw [start, fullOps]) harvest
    · -- further passes of the same chunk
      simp only [midZ.unready, Bool.not_false, if_true] at step
      have less := Capture.remaining_nextPass inv same base more
      have later := ih (s := ⟨z, s.inferences + 1, s.chunks, s.log ++ seen⟩) midZ
        (same.totalOps.trans ops) (by dsimp only; omega)
      apply later.resume step rfl (List.append_nil _).symm rfl
      intro chunks log harvest
      exact Harvest.nextPass effect full base harvest

def Profile.start (x : CaptureState H) : Profile H := ⟨x, 0, [], []⟩

def Profile.rows (s : Profile H) : List (List Word) := s.chunks.flatMap ChunkRead.rows

theorem sampleTotal_single {op column : ℕ} {log : List Sample} (once : sampleCount op column log = 1) :
    ∃ s, log.filter (fun s => s.op = op ∧ s.column = column) = [s] ∧
      sampleTotal op column log = s.value ∧ s ∈ log ∧ s.op = op ∧ s.column = column := by
  obtain ⟨s, only⟩ := List.length_eq_one_iff.mp once
  have member : s ∈ log.filter fun s => s.op = op ∧ s.column = column := by
    rw [only]
    exact List.mem_singleton_self s
  obtain ⟨inside, here⟩ := List.mem_filter.mp member
  have here := of_decide_eq_true here
  refine ⟨s, only, ?_, inside, here.1, here.2⟩
  rw [sampleTotal, only]
  simp

theorem captureStart_midway (laws : Programs P evtyper) {c : Capture} {cfg : CaptureCfg}
    {w : World H} (answers : Answers P (cfg.api.getD pmuV1_0_0))
    (ok : (captureInit P c cfg w).1 = statusSuccess)
    (known : ∀ e < captureGetEventCount cfg, (cfg.fresh c).mapEntry e < pmuMapSize) :
    FreshChunk evtyper (captureStart P c cfg w) ∧
      Midway evtyper (cfg.api.getD pmuV1_0_0) (captureStart P c cfg w) ∧
      (captureStart P c cfg w).capture.currentChunkStart = 0 := by
  obtain ⟨valid, eq⟩ := captureStart_eq ok
  have setup := valid.setup c
  obtain ⟨fresh, mid⟩ := captureResetChunk_midway laws answers (c := cfg.fresh c) (w := w) setup
    setup.totalOps_pos (Nat.dvd_zero _) rfl rfl known
  rw [← eq] at fresh mid
  refine ⟨fresh, mid, ?_⟩
  unfold captureStart
  rw [eq, captureResetChunk_capture P w setup setup.totalOps_pos]

theorem CaptureCfg.Valid.remaining {cfg : CaptureCfg} (valid : cfg.Valid) {c c' : Capture}
    (same : SameSetup (cfg.fresh c) c') (base : c'.currentEventBase = 0)
    (start : c'.currentChunkStart = 0) :
    c'.remaining = (cfg.totalOps.toNat ⌈/⌉ captureGetOpsPerChunk cfg) *
      (captureGetEventCount cfg ⌈/⌉ (cfg.fresh c).eventsPerPass) := by
  have setup := valid.setup c
  have chunks := ceilDiv_step (n := cfg.totalOps.toNat) setup.opsPerChunk_pos setup.totalOps_pos
  rw [Capture.remaining, base, start, same.totalOps, same.opsPerChunk, same.totalEventCount,
    same.eventsPerPass, Nat.sub_zero, Nat.sub_zero]
  change _ = _ ⌈/⌉ (cfg.fresh c).opsPerChunk * _
  rw [chunks, Nat.succ_mul]
  exact Nat.add_comm _ _

/-- A caller that follows the protocol over an accepted configuration with known events, with
nobody else at the PMU and no failing call, finishes after one inference for each chunk and
pass. The chunks it reads tile the operators, and their rows form one matrix: each cell is
the one reading that was taken of the operator and the event of the column, whatever the
sizes of chunks and passes. -/
theorem capture_whole_run (laws : Programs P evtyper) {c : Capture} {cfg : CaptureCfg} {w : World H}
    (answers : Answers P (cfg.api.getD pmuV1_0_0)) {work : ℕ → ℕ → H → H}
    (quiet : ∀ n op, Quiet evtyper (work n op))
    (ok : (captureInit P c cfg w).1 = statusSuccess)
    (known : ∀ e < captureGetEventCount cfg, (cfg.fresh c).mapEntry e < pmuMapSize) :
    ∃ final : Profile H,
      (∀ fuel,
        profile P evtyper cfg.totalOps.toNat work fuel (.start (captureStart P c cfg w)) =
          if (cfg.totalOps.toNat ⌈/⌉ captureGetOpsPerChunk cfg) *
            (captureGetEventCount cfg ⌈/⌉ (cfg.fresh c).eventsPerPass) ≤ fuel then some final
          else none) ∧
      final.inferences = (cfg.totalOps.toNat ⌈/⌉ captureGetOpsPerChunk cfg) *
        (captureGetEventCount cfg ⌈/⌉ (cfg.fresh c).eventsPerPass) ∧
      final.chunks.flatMap (fun k => List.range' k.start k.ops) = List.range cfg.totalOps.toNat ∧
      (∀ k ∈ final.chunks, k.ops = min (captureGetOpsPerChunk cfg) (cfg.totalOps.toNat - k.start) ∧
        k.rows.length = k.ops) ∧
      final.rows.length = cfg.totalOps.toNat ∧
      (∀ row ∈ final.rows, row.length = captureGetEventCount cfg) ∧
      (∀ op < cfg.totalOps.toNat, ∀ e < captureGetEventCount cfg, ∃ s,
        final.log.filter (fun s => s.op = op ∧ s.column = e) = [s] ∧
        (final.rows.getD op []).getD e 0 = s.value ∧
        s.lowEvent = mapEventId ((cfg.fresh c).mapEntry e) ∧ s.highEvent = armPmuChain) ∧
      ∀ v : ℕ → Word → Word, (∀ s ∈ final.log, s.value = v s.op s.lowEvent) →
        final.rows = (List.range cfg.totalOps.toNat).map fun op =>
          (List.range (captureGetEventCount cfg)).map fun e =>
            v op (mapEventId ((cfg.fresh c).mapEntry e)) := by
  have same := (captureStart_invariant ok).2
  obtain ⟨fresh, mid, chunkStart⟩ := captureStart_midway laws answers ok known
  have rounds := (captureStart_eq ok).1.remaining same fresh.base chunkStart
  obtain ⟨final, chunks, log, ends, inferences, read, logged, harvest⟩ :=
    profile_run laws answers quiet (s := .start (captureStart P c cfg w)) mid same.totalOps rounds
  obtain ⟨tiles, sizes, rows, counts, -, attributed⟩ := harvest
  dsimp only [Profile.start] at inferences read logged tiles sizes rows counts attributed
  simp only [List.nil_append] at read logged
  rw [Nat.zero_add] at inferences
  simp only [chunkStart, Nat.sub_zero, Nat.zero_add, fresh.base, Nat.not_lt_zero, and_false,
    if_false] at tiles rows counts
  rw [same.totalOps] at tiles
  rw [same.totalOps, same.totalEventCount] at rows counts
  simp only [same.totalOps, same.opsPerChunk] at sizes
  have once : ∀ op < cfg.totalOps.toNat, ∀ e < captureGetEventCount cfg, ∃ s,
      log.filter (fun s => s.op = op ∧ s.column = e) = [s] ∧
      pending (captureStart P c cfg w) op e + sampleTotal op e log = s.value ∧
      s ∈ log ∧ s.op = op ∧ s.lowEvent = mapEventId ((cfg.fresh c).mapEntry e) ∧
      s.highEvent = armPmuChain := by
    intro op hop e he
    obtain ⟨s, only, total, member, ofOp, ofColumn⟩ := sampleTotal_single (counts op hop e he)
    obtain ⟨-, low, high⟩ := attributed s member
    have zero := fresh.pending op (he.trans_eq same.totalEventCount.symm)
    refine ⟨s, only, by rw [zero, total, zero_add], member, ofOp, ?_, high⟩
    rw [low, ofColumn, same.columnId]
    rfl
  refine ⟨final, ?_, inferences, ?_, ?_, ?_, ?_, ?_, ?_⟩
  · intro fuel
    split
    · exact ends.enough fuel (by assumption)
    · exact ends.short fuel (by omega)
  · rw [read, tiles, List.range_eq_range']
    rfl
  · rw [read]
    exact sizes
  · rw [Profile.rows, read, rows, List.length_map, List.length_range]
    rfl
  · intro row hrow
    rw [Profile.rows, read, rows] at hrow
    obtain ⟨op, -, rfl⟩ := List.mem_map.mp hrow
    rw [List.length_map, List.length_range]
    rfl
  · intro op hop e he
    obtain ⟨s, only, total, -, -, low, high⟩ := once op hop e he
    refine ⟨s, by rw [logged]; exact only, ?_, low, high⟩
    have inRows : op < (cfg.fresh c).totalOps := hop
    have inRow : e < (cfg.fresh c).totalEventCount := he
    rw [Profile.rows, read, rows]
    simp [inRows, inRow, total]
  · intro v reading
    rw [logged] at reading
    rw [Profile.rows, read, rows]
    apply List.map_congr_left
    intro op hop
    apply List.map_congr_left
    intro e he
    obtain ⟨s, -, total, member, ofOp, low, -⟩ :=
      once op (List.mem_range.mp hop) e (List.mem_range.mp he)
    rw [total, reading s member, ofOp, low]

theorem capture_whole_run_ref : ∃ final : Profile RefPmu,
    profile steadyPlatform RefPmu.evtyper 3 (fun _ op => RefPmu.occur (mapEventId op)) 4
      (.start (captureStart steadyPlatform .zero (refCaptureCfg 3 2 5 0) RefPmu.start.world)) =
        some final ∧
    final.rows.length = 3 := by
  have created : (captureInit steadyPlatform .zero (refCaptureCfg 3 2 5 0) RefPmu.start.world).1 =
      statusSuccess := by decide
  have quiet : ∀ n op, Quiet RefPmu.evtyper ((fun (_ : ℕ) op => RefPmu.occur (mapEventId op)) n op) :=
    fun _ _ _ _ _ => rfl
  obtain ⟨final, runs, -, -, -, rows, -⟩ := capture_whole_run steadyPlatform_programs
    (steadyPlatform_answers _) quiet created (by decide)
  exact ⟨final, (runs 4).trans (if_pos (by decide)), rows⟩

/-- With an event count of 0 the capture measures the whole map: 18 inferences for one
operator, where the event count itself would ask for none. -/
theorem capture_whole_run_default_events :
    (captureInit steadyPlatform .zero (refCaptureCfg 1 0 0 0) RefPmu.start.world).1 =
      statusSuccess ∧
    (profile steadyPlatform RefPmu.evtyper 1 (fun _ _ hw => hw) 18
      (.start (captureStart steadyPlatform .zero (refCaptureCfg 1 0 0 0) RefPmu.start.world))).map
        Profile.inferences = some 18 ∧
    (1 ⌈/⌉ 1) * ((refCaptureCfg 1 0 0 0).eventCount.toNat ⌈/⌉ 4) = 0 := by
  decide +kernel

end NsxPmu
