import NsxPmu.CapturePlan
import NsxPmu.CaptureLedger
import NsxPmu.PairedCounting
import NsxPmu.Lib.WindowCounts

set_option autoImplicit false

/-!
# What a capture counts

The matrix of a capture against the occurrences of events themselves: a cell
holds the occurrences of the event of its column in the windows that the ends of
its operator close, in any order of calls and occurrences.
-/
namespace NsxPmu
open WordMemory LabelledRuns WindowCounts
open Function (update)

variable {H X : Type}

/-- What happens to a capture under way: one occurrence of an event, or a call. -/
inductive LiveCall (X : Type) where
  | occur (event : Word)
  | modelBegin
  | modelEnd
  | layerBegin (globalOpIndex : BitVec 16)
  | layerEnd (globalOpIndex : BitVec 16)
  | advanceChunk
  | serializeCsv (transport : Transport X) (includeHeader : Bool) (context : X)

def LiveCall.toCall (occur : Word → H → H) : LiveCall X → CaptureCall H X
  | .occur event => .elapse (occur event)
  | .modelBegin => .modelBegin
  | .modelEnd => .modelEnd
  | .layerBegin op => .layerBegin op
  | .layerEnd op => .layerEnd op
  | .advanceChunk => .advanceChunk
  | .serializeCsv transport includeHeader context => .serializeCsv transport includeHeader context

def liveStep (P : Platform H) (occur : Word → H → H) (x : CaptureState H) (call : LiveCall X) :
    CaptureState H :=
  captureStep P x (call.toCall occur)

/-- The call returns success, or is refused as premature. -/
def LiveCall.Succeeds (P : Platform H) (x : CaptureState H) : LiveCall X → Prop
  | .modelEnd => (captureModelEnd P x.capture x.world).1 = statusSuccess
  | .advanceChunk =>
    x.capture.chunkReady = true → (captureAdvanceChunk P x.capture x.world).1 = statusSuccess
  | _ => True

/-- The event that the end of an operator is read for, on behalf of a cell. -/
def Plan.reads (p : Plan) (id : ℕ → Word) (pos : Position) (op : ℕ) (cell : ℕ × ℕ) : Option Word :=
  if cell.1 = op ∧ p.measures pos cell.2 then some (id cell.2) else none

/-- What a call means for the counts, by the position alone. Cells are pairs of an operator and
a column. -/
def Plan.ticks (p : Plan) (id : ℕ → Word) (pos : Position) : LiveCall X → List (Tick Word (ℕ × ℕ))
  | .occur event => [.occur event]
  | .layerBegin op => if p.covers pos op.toNat then [.mark] else []
  | .layerEnd op =>
    if p.covers pos op.toNat then [.sample (p.reads id pos op.toNat)] else []
  | .modelEnd => if !pos.ready && !pos.complete && decide (pos.pass + 1 < p.passes) then [.mark] else []
  | .advanceChunk => if pos.ready && !pos.complete then [.mark] else []
  | _ => []

/-- The history of a run as its plan and the event of each column tell it. -/
def Plan.history (p : Plan) (occur : Word → H → H) (id : ℕ → Word) (pos : Position)
    (calls : List (LiveCall X)) : List (Tick Word (ℕ × ℕ)) :=
  collect (fun pos call => p.step pos (LiveCall.toCall occur call)) (p.ticks id) pos calls

variable {P : Platform H} {evtyper : H → ℕ → Word} {enabled : H → ℕ → Bool} {occur : Word → H → H}
  {programmed : ℕ → Prop}

def Capture.round (c : Capture) : ℕ := c.plan.roundOf c.position

def Capture.cellRound (c : Capture) (r e : ℕ) : ℕ := c.plan.round (c.currentChunkStart + r) e

theorem CaptureInvariant.cellRound_eq {c : Capture} (inv : CaptureInvariant c) {r e : ℕ}
    (row : r < c.currentChunkOps) (pass : c.currentEventBase ≤ e)
    (inside : e < c.currentEventBase + c.currentPassEvents) : c.cellRound r e = c.round :=
  Plan.round_of_samples ((inv.covers _).mpr ⟨by omega, by omega⟩)
    ((inv.measures e).mpr ⟨pass, inside⟩)

/-- The cells of the chunk hold the totals of a meter and the pairs of counters its open window,
where the round has been programmed, and the operators of later chunks have no totals yet. -/
structure Metered (P : Platform H) (evtyper : H → ℕ → Word) (enabled : H → ℕ → Bool)
    (programmed : ℕ → Prop) (x : CaptureState H) (m : Meter Word (ℕ × ℕ)) : Prop where
  inv : CaptureInvariant x.capture
  counting : programmed x.capture.round → PairsCount P evtyper enabled
    x.capture.currentPassEvents x.capture.slotId x.capture.pmuCfg x.world.pmu m.since
  cells : ∀ r < x.capture.currentChunkOps, ∀ e < x.capture.totalEventCount,
    programmed (x.capture.cellRound r e) →
    (x.world.mem (x.capture.cell r e)).toNat = m.total (x.capture.currentChunkStart + r, e) % 2 ^ 32
  ahead : ∀ op, x.capture.currentChunkStart + x.capture.currentChunkOps ≤ op →
    ∀ e, m.total (op, e) = 0

theorem capturePreparePass_counting (laws : Counts P evtyper enabled occur) {c : Capture} {s : Pmu H}
    (setup : CaptureSetup c) (base : c.currentEventBase < c.totalEventCount)
    (ok : (capturePreparePass P c s).1 = statusSuccess) :
    PairsCount P evtyper enabled (capturePreparePass P c s).2.1.currentPassEvents
      (capturePreparePass P c s).2.1.slotId (capturePreparePass P c s).2.1.pmuCfg
      (capturePreparePass P c s).2.2 fun _ => 0 := by
  have le := setup.eventsPerPass_le
  have few : c.passSize ≤ 4 := by
    unfold Capture.passSize
    omega
  rcases capturePreparePass_cases P s setup base with ⟨-, eq⟩ | ⟨-, failed, -⟩
  · rw [eq] at ok ⊢
    exact pairsCount_of_init laws (pairedConfig_slots c.api c.pmuCfg c.passSize c.slotId) few ok
  · exact absurd (failed.symm.trans ok) statusInvalidConfig_ne

theorem captureResetChunk_metered (laws : Counts P evtyper enabled occur) {c : Capture} {w : World H}
    {chunkStart : ℕ} (setup : CaptureSetup c) (start : chunkStart < c.totalOps)
    (dvd : c.opsPerChunk ∣ chunkStart) (incomplete : c.complete = false)
    (ok : programmed (captureResetChunk P c chunkStart w).2.1.round →
      (captureResetChunk P c chunkStart w).1 = statusSuccess) {total : ℕ × ℕ → ℕ}
    (ahead : ∀ op, chunkStart ≤ op → ∀ e, total (op, e) = 0) :
    Metered P evtyper enabled programmed
      ⟨(captureResetChunk P c chunkStart w).2.1, (captureResetChunk P c chunkStart w).2.2⟩
      ⟨fun _ => 0, total⟩ := by
  have capture := captureResetChunk_capture P w setup start
  have same := captureResetChunk_same P w setup start
  refine ⟨captureResetChunk_invariant P w setup start dvd incomplete, ?_, ?_, ?_⟩
  · intro now
    have ok := ok now
    rw [captureResetChunk_eq P w setup start] at ok ⊢
    exact capturePreparePass_counting laws (setup.of_same (c.openChunk_same chunkStart))
      setup.eventCount_pos ok
  · intro r hr e he _
    dsimp only at hr he ⊢
    rw [same.cell, ahead _ (by rw [capture]; exact Nat.le_add_right _ _)]
    rw [same.totalEventCount] at he
    rw [capture] at hr
    rw [captureResetChunk_cleared P w setup start hr he]
    rfl
  · intro op hop e
    rw [capture] at hop
    exact ahead op (by dsimp only at hop; omega) e

theorem toNat_add_mod {a b : Word} {m n : ℕ} (ha : a.toNat = m % 2 ^ 32)
    (hb : b.toNat = n % 2 ^ 32) : (a + b).toNat = (m + n) % 2 ^ 32 := by
  rw [BitVec.toNat_add, ha, hb, ← Nat.add_mod]

theorem addAll_row_counts (counts : ℕ → ℕ) {value : ℕ → Word} {mem : ℕ → Word}
    {start width op base n r e t : ℕ} (inside : ∀ i < n, base + i < width) (he : e < width)
    (values : ∀ i < n, base + i = e → (value i).toNat = counts (base + i) % 2 ^ 32)
    (held : (mem (start + (r * width + e))).toNat = t % 2 ^ 32) :
    (WordMemory.addAll (fun i => start + (op * width + (base + i))) value (List.range n) mem
        (start + (r * width + e))).toNat =
      (t + if op = r ∧ base ≤ e ∧ e < base + n then counts e else 0) % 2 ^ 32 := by
  rw [WordMemory.addAll_row inside he]
  apply toNat_add_mod held
  by_cases target : op = r ∧ base ≤ e ∧ e < base + n
  · have column : base + (e - base) = e := by omega
    rw [if_pos target, if_pos target, values _ (by omega) column, column]
  · rw [if_neg target, if_neg target]
    rfl

theorem Plan.elim_reads (p : Plan) (id : ℕ → Word) (pos : Position) (op : ℕ) (cell : ℕ × ℕ)
    (since : Word → ℕ) :
    (p.reads id pos op cell).elim 0 since =
      if cell.1 = op ∧ p.measures pos cell.2 then since (id cell.2) else 0 := by
  unfold Plan.reads
  split <;> rfl

theorem Metered.layerBegin (laws : Counts P evtyper enabled occur) {x : CaptureState H}
    {m : Meter Word (ℕ × ℕ)} (metered : Metered P evtyper enabled programmed x m) (op : BitVec 16) :
    Metered P evtyper enabled programmed ⟨x.capture, captureLayerBegin P x.capture op.toNat x.world⟩
      (run meterStep m (x.capture.plan.ticks x.capture.columnId x.capture.position
        (.layerBegin (X := X) op))) := by
  have covers := metered.inv.covers op.toNat
  dsimp only [Plan.ticks, captureLayerBegin]
  rw [captureShouldSampleLayer_eq metered.inv]
  by_cases inside : x.capture.currentChunkStart ≤ op.toNat ∧
      op.toNat < x.capture.currentChunkStart + x.capture.currentChunkOps
  · rw [if_pos inside, if_pos (covers.mpr inside)]
    exact ⟨metered.inv, fun now => (metered.counting now).resetCounters laws, metered.cells,
      metered.ahead⟩
  · rw [if_neg inside, if_neg fun h => inside (covers.mp h)]
    exact metered

theorem Metered.layerEnd (laws : Counts P evtyper enabled occur) {x : CaptureState H}
    {m : Meter Word (ℕ × ℕ)} (metered : Metered P evtyper enabled programmed x m) (op : BitVec 16) :
    Metered P evtyper enabled programmed ⟨(captureLayerEnd P x.capture op.toNat x.world).1,
        (captureLayerEnd P x.capture op.toNat x.world).2⟩
      (run meterStep m (x.capture.plan.ticks x.capture.columnId x.capture.position
        (.layerEnd (X := X) op))) := by
  have inv := metered.inv
  have pass := inv.passEvents
  have covers := inv.covers op.toNat
  dsimp only [Plan.ticks]
  by_cases inside : x.capture.currentChunkStart ≤ op.toNat ∧
      op.toNat < x.capture.currentChunkStart + x.capture.currentChunkOps
  · have kept := (captureLayerEnd_invariant P x.world op.toNat inv).1
    have reading := fun now => (metered.counting now).getCounters laws
    rw [captureLayerEnd_inside P x.world inv inside] at kept ⊢
    rw [if_pos (covers.mpr inside)]
    refine ⟨kept, fun now => (reading now).2.2, ?_, ?_⟩
    · intro r hr e he sampled
      dsimp only at hr he ⊢
      have held := metered.cells r hr e he sampled
      have now : x.capture.currentEventBase ≤ e ∧
          e < x.capture.currentEventBase + x.capture.currentPassEvents →
          programmed x.capture.round :=
        fun pass => (inv.cellRound_eq hr pass.1 pass.2) ▸ sampled
      have read : (op.toNat - x.capture.currentChunkStart = r ∧ x.capture.currentEventBase ≤ e ∧
          e < x.capture.currentEventBase + x.capture.currentPassEvents) ↔
          x.capture.currentChunkStart + r = op.toNat ∧
            x.capture.plan.measures x.capture.position e := by
        rw [inv.measures e]
        omega
      rw [run_cons, run_nil, meterStep]
      dsimp only
      rw [Plan.elim_reads, ← if_congr read rfl rfl]
      by_cases status : (pmuGetCounters P x.capture.pmuCfg x.world.pmu).1 = statusSuccess
      · rw [if_pos status]
        exact addAll_row_counts (fun e => m.since (x.capture.columnId e)) (fun i hi => by omega) he
          (fun i hi column => (reading (now (by omega))).2.1 i hi) held
      · -- a read-out that fails belongs to a round that was not programmed
        rw [if_neg status, if_neg fun target => status (reading (now target.2)).1]
        exact held
    · intro later hlater e
      dsimp only at hlater ⊢
      have other : ¬ (later = op.toNat ∧ x.capture.plan.measures x.capture.position e) := by
        rintro ⟨rfl, -⟩
        omega
      rw [run_cons, run_nil, meterStep]
      dsimp only
      rw [Plan.elim_reads, if_neg other, metered.ahead later hlater e]
  · rw [captureLayerEnd_outside P x.world inv inside, if_neg fun h => inside (covers.mp h)]
    exact metered

theorem Metered.modelEnd (laws : Counts P evtyper enabled occur) {x : CaptureState H}
    {m : Meter Word (ℕ × ℕ)} (metered : Metered P evtyper enabled programmed x m)
    (ok : programmed (captureModelEnd P x.capture x.world).2.1.round →
      (captureModelEnd P x.capture x.world).1 = statusSuccess) :
    Metered P evtyper enabled programmed ⟨(captureModelEnd P x.capture x.world).2.1,
        (captureModelEnd P x.capture x.world).2.2⟩
      (run meterStep m (x.capture.plan.ticks x.capture.columnId x.capture.position
        (.modelEnd (X := X)))) := by
  have inv := metered.inv
  have kept := (captureModelEnd_invariant P x.world inv).1
  have more := inv.morePasses
  have pass := inv.passEvents
  dsimp only [Plan.ticks]
  rcases captureModelEnd_cases P x.world inv with ⟨frozen, eq⟩ | ⟨ready, complete, columns, eq⟩ |
    ⟨ready, complete, full, next, eq⟩
  · have stays : (!x.capture.position.ready && !x.capture.position.complete &&
        decide (x.capture.position.pass + 1 < x.capture.plan.passes)) = false := by
      rcases frozen with h | h <;> simp [Capture.position, h]
    rw [eq, stays]
    exact metered
  · have last : decide (x.capture.position.pass + 1 < x.capture.plan.passes) = false :=
      decide_eq_false fun h => by have := more.mp h; omega
    rw [eq] at kept ⊢
    rw [last, Bool.and_false]
    exact ⟨kept, metered.counting, metered.cells, metered.ahead⟩
  · have moves : (!x.capture.position.ready && !x.capture.position.complete &&
        decide (x.capture.position.pass + 1 < x.capture.plan.passes)) = true := by
      simp [Capture.position, ready, complete]
      exact more.mpr next
    have setup : CaptureSetup x.capture.nextPass := inv.toCaptureSetup.of_same .progress
    have capture := capturePreparePass_capture P x.world.pmu setup next
    rw [eq] at kept ok ⊢
    rw [moves]
    refine ⟨kept, fun now => capturePreparePass_counting laws setup next (ok now), ?_, ?_⟩
    · intro r hr e he
      dsimp only at hr he ⊢
      rw [capture] at hr he ⊢
      exact metered.cells r hr e he
    · intro op hop e
      dsimp only at hop
      rw [capture] at hop
      exact metered.ahead op hop e

theorem Metered.advanceChunk (laws : Counts P evtyper enabled occur) {x : CaptureState H}
    {m : Meter Word (ℕ × ℕ)} (metered : Metered P evtyper enabled programmed x m)
    (ok : programmed (captureAdvanceChunk P x.capture x.world).2.1.round →
      x.capture.chunkReady = true →
      (captureAdvanceChunk P x.capture x.world).1 = statusSuccess) :
    Metered P evtyper enabled programmed ⟨(captureAdvanceChunk P x.capture x.world).2.1,
        (captureAdvanceChunk P x.capture x.world).2.2⟩
      (run meterStep m (x.capture.plan.ticks x.capture.columnId x.capture.position
        (.advanceChunk (X := X)))) := by
  have inv := metered.inv
  have kept := (captureAdvanceChunk_invariant P x.world inv).1
  dsimp only [Plan.ticks, Capture.position]
  rcases captureAdvanceChunk_cases P x.world inv with ⟨unready, eq⟩ | ⟨ready, complete, eq⟩ |
    ⟨ready, incomplete, full, more, eq⟩
  · rw [eq, unready]
    exact metered
  · have stays : (x.capture.chunkReady && !x.capture.complete) = false := by
      simp [ready, complete]
    rw [eq] at kept ⊢
    rw [stays]
    exact ⟨kept, metered.counting, metered.cells, metered.ahead⟩
  · rw [eq] at ok ⊢
    rw [ready, incomplete]
    refine captureResetChunk_metered laws inv.toCaptureSetup more
      (Nat.dvd_add inv.chunkStart_dvd (Nat.dvd_refl _)) incomplete (fun now => ok now ready) ?_
    intro op hop e
    exact metered.ahead op (by rw [full]; exact hop) e

theorem Metered.step (laws : Counts P evtyper enabled occur) {x : CaptureState H}
    {m : Meter Word (ℕ × ℕ)} (metered : Metered P evtyper enabled programmed x m) (call : LiveCall X)
    (ok : programmed (liveStep P occur x call).capture.round → call.Succeeds P x) :
    Metered P evtyper enabled programmed (liveStep P occur x call)
      (run meterStep m (x.capture.plan.ticks x.capture.columnId x.capture.position call)) := by
  cases call with
  | occur event =>
    exact ⟨metered.inv, fun now => (metered.counting now).occurs laws event, metered.cells,
      metered.ahead⟩
  | modelBegin => exact metered
  | modelEnd => exact metered.modelEnd laws ok
  | layerBegin op => exact metered.layerBegin laws op
  | layerEnd op => exact metered.layerEnd laws op
  | advanceChunk => exact metered.advanceChunk laws ok
  | serializeCsv _ _ _ => exact metered

/-- A capture under way from `x`: it stands at `pos`, and its cells are those of the meter. -/
structure Follows (P : Platform H) (evtyper : H → ℕ → Word) (enabled : H → ℕ → Bool)
    (programmed : ℕ → Prop) (x y : CaptureState H) (pos : Position) (m : Meter Word (ℕ × ℕ)) :
    Prop where
  metered : Metered P evtyper enabled programmed y m
  position : y.capture.position = pos
  setup : SameSetup x.capture y.capture

theorem Follows.next_round {x y : CaptureState H} {pos : Position} {m : Meter Word (ℕ × ℕ)}
    (follows : Follows P evtyper enabled programmed x y pos m) (call : LiveCall X) :
    (liveStep P occur y call).capture.round =
      x.capture.plan.roundOf (x.capture.plan.step pos (call.toCall occur)) := by
  obtain ⟨metered, rfl, setup⟩ := follows
  have same := (captureStep_invariant P (call.toCall occur) metered.inv).2
  have position := captureStep_position P (call.toCall occur) metered.inv
  unfold Capture.round liveStep
  rw [same.plan, position, setup.plan]

theorem Follows.step (laws : Counts P evtyper enabled occur) {x y : CaptureState H} {pos : Position}
    {m : Meter Word (ℕ × ℕ)} (follows : Follows P evtyper enabled programmed x y pos m)
    (call : LiveCall X)
    (ok : programmed (liveStep P occur y call).capture.round → call.Succeeds P y) :
    Follows P evtyper enabled programmed x (liveStep P occur y call)
      (x.capture.plan.step pos (call.toCall occur))
      (run meterStep m (x.capture.plan.ticks x.capture.columnId pos call)) := by
  obtain ⟨metered, rfl, setup⟩ := follows
  have ids : y.capture.columnId = x.capture.columnId := funext setup.columnId
  have next := metered.step laws call ok
  rw [setup.plan, ids] at next
  refine ⟨next, ?_, setup.trans (captureStep_invariant P (call.toCall occur) metered.inv).2⟩
  rw [← setup.plan]
  exact captureStep_position P (call.toCall occur) metered.inv

/-- After any calls the cells are those of the meter that the history of the plan drives. -/
theorem Follows.run (laws : Counts P evtyper enabled occur) {x y : CaptureState H} {pos : Position}
    {m : Meter Word (ℕ × ℕ)} (follows : Follows P evtyper enabled programmed x y pos m)
    {calls : List (LiveCall X)}
    (ok : AllSteps (liveStep P occur) (fun y call =>
      programmed (liveStep P occur y call).capture.round → call.Succeeds P y) y calls) :
    Follows P evtyper enabled programmed x (run (liveStep P occur) y calls)
      (LabelledRuns.run (fun pos call => x.capture.plan.step pos (LiveCall.toCall occur call))
        pos calls)
      (LabelledRuns.run meterStep m (x.capture.plan.history occur x.capture.columnId pos calls)) :=
  run_scheduled (fun _ _ _ call follows => follows.step laws call) follows ok

theorem ChunkBegun.metered (laws : Counts P evtyper enabled occur) {x : CaptureState H}
    (begun : ChunkBegun X P x) : Metered P evtyper enabled programmed x .zero := by
  cases begun with
  | @init c cfg w ok =>
    obtain ⟨valid, eq⟩ := captureStart_eq ok
    have setup := valid.setup c
    unfold captureStart
    rw [eq] at ok ⊢
    exact captureResetChunk_metered laws setup setup.totalOps_pos (Nat.dvd_zero _) rfl (fun _ => ok)
      fun _ _ _ => rfl
  | @reset x reached ok =>
    have setup := reached.invariant.toCaptureSetup
    dsimp only [captureStep]
    rw [captureReset_eq P x.world setup] at ok ⊢
    exact captureResetChunk_metered laws setup.incomplete setup.totalOps_pos (Nat.dvd_zero _) rfl
      (fun _ => ok) fun _ _ _ => rfl
  | @advanceChunk x reached more ok =>
    have inv := reached.invariant
    dsimp only [captureStep]
    rcases captureAdvanceChunk_cases P x.world inv with
      ⟨-, eq⟩ | ⟨-, complete, -⟩ | ⟨-, incomplete, -, start, eq⟩
    · rw [eq] at ok
      exact absurd ok statusInvalidConfig_ne
    · exact absurd (more.symm.trans complete) (by decide)
    · rw [eq] at ok ⊢
      exact captureResetChunk_metered laws inv.toCaptureSetup start
        (Nat.dvd_add inv.chunkStart_dvd (Nat.dvd_refl _)) incomplete (fun _ => ok) fun _ _ _ => rfl

/-- Since a chunk was started, by whatever call and after whatever failures, and as long as every
pass and chunk that follows is started with success, the cell of an operator and a column holds the
number of occurrences of the event of the column, modulo 2^32, whose window was closed by an end of
that operator while the column was in the pass. A window ends with the next begin or end of an
operator of the chunk and with the next pass or chunk, so no occurrence is counted twice and none
outside the windows is counted. -/
theorem capture_counts_occurrences (laws : Counts P evtyper enabled occur) {x : CaptureState H}
    (begun : ChunkBegun X P x) (calls : List (LiveCall X))
    (ok : AllSteps (liveStep P occur) (fun y call => call.Succeeds P y) x calls) :
    let final := run (liveStep P occur) x calls
    ∀ r < final.capture.currentChunkOps, ∀ e < final.capture.totalEventCount,
      (final.world.mem (final.capture.matrixStorage +
          (r * final.capture.totalEventCount + e))).toNat =
        credited (final.capture.currentChunkStart + r, e)
          (x.capture.plan.history occur x.capture.columnId x.capture.position calls) % 2 ^ 32 := by
  intro final r hr e he
  have start : Follows P evtyper enabled (fun _ => True) x x x.capture.position .zero :=
    ⟨begun.metered laws, rfl, .refl _⟩
  have follows := start.run laws (AllSteps_of_invariant (I := fun _ => True)
    (fun _ _ _ _ => trivial) (fun _ _ _ succeeds _ => succeeds) trivial ok)
  have held := follows.metered.cells r hr e he trivial
  rw [total_run_zero] at held
  exact held

theorem capture_counts_occurrences_ref :
    let final := run (liveStep refPlatform RefPmu.occur)
      (captureStart refPlatform .zero (refCaptureCfg 2 1 5 0) RefPmu.start.world)
      [LiveCall.layerBegin (X := Unit) 0, .occur 0x0001, .occur 0x0001, .layerEnd 0, .occur 0x0001,
        .layerBegin 0, .occur 0x0001, .layerEnd 0]
    (final.world.mem (4096 + (0 * 5 + 1))).toNat = 3 :=
  (capture_counts_occurrences refPlatform_counts
    (ChunkBegun.init (X := Unit) (show (captureInit refPlatform .zero (refCaptureCfg 2 1 5 0)
      RefPmu.start.world).1 = statusSuccess by decide))
    [.layerBegin 0, .occur 0x0001, .occur 0x0001, .layerEnd 0, .occur 0x0001, .layerBegin 0,
      .occur 0x0001, .layerEnd 0]
    ⟨trivial, trivial, trivial, trivial, trivial, trivial, trivial, trivial, trivial⟩
    0 (by decide) 1 (by decide)).trans (by decide +kernel)

end NsxPmu
