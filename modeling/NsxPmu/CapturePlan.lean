import NsxPmu.CaptureRuns
import Mathlib.Algebra.Order.Floor.Div

set_option autoImplicit false

/-!
# The plan of a capture

What a capture is for, without hardware, memory or event lists: it goes through
chunks of operators and, in each chunk, through passes of events. Where a
capture stands depends on its plan and on the calls made, and on nothing else.
-/
namespace NsxPmu
open LabelledRuns

variable {H X : Type}

structure Plan where
  totalOps : ℕ
  opsPerChunk : ℕ
  events : ℕ
  eventsPerPass : ℕ

def Plan.chunks (p : Plan) : ℕ := p.totalOps ⌈/⌉ p.opsPerChunk

def Plan.passes (p : Plan) : ℕ := p.events ⌈/⌉ p.eventsPerPass

structure Position where
  chunk : ℕ
  pass : ℕ
  ready : Bool
  complete : Bool
  deriving DecidableEq

def Position.start : Position := ⟨0, 0, false, false⟩

/-- The end of a model moves to the next pass and, after the last one, makes the chunk ready;
going on moves from a ready chunk to the next one. -/
def Plan.step (p : Plan) (pos : Position) : CaptureCall H X → Position
  | .reset => .start
  | .modelEnd =>
    if pos.ready || pos.complete then pos
    else if pos.pass + 1 < p.passes then { pos with pass := pos.pass + 1 }
    else { pos with ready := true, complete := decide (p.chunks ≤ pos.chunk + 1) }
  | .advanceChunk =>
    if !pos.ready then pos
    else if pos.complete then { pos with ready := false }
    else ⟨pos.chunk + 1, 0, false, false⟩
  | _ => pos

def Plan.covers (p : Plan) (pos : Position) (op : ℕ) : Prop :=
  pos.chunk * p.opsPerChunk ≤ op ∧ op < (pos.chunk + 1) * p.opsPerChunk ∧ op < p.totalOps

def Plan.measures (p : Plan) (pos : Position) (column : ℕ) : Prop :=
  pos.pass * p.eventsPerPass ≤ column ∧ column < (pos.pass + 1) * p.eventsPerPass ∧
    column < p.events

instance (p : Plan) (pos : Position) (op : ℕ) : Decidable (p.covers pos op) :=
  inferInstanceAs (Decidable (_ ∧ _))

instance (p : Plan) (pos : Position) (column : ℕ) : Decidable (p.measures pos column) :=
  inferInstanceAs (Decidable (_ ∧ _))

def Capture.plan (c : Capture) : Plan :=
  ⟨c.totalOps, c.opsPerChunk, c.totalEventCount, c.eventsPerPass⟩

def Capture.position (c : Capture) : Position :=
  ⟨c.currentChunkStart / c.opsPerChunk, c.currentEventBase / c.eventsPerPass, c.chunkReady,
    c.complete⟩

theorem SameSetup.plan {c c' : Capture} (same : SameSetup c c') : c'.plan = c.plan := by
  unfold Capture.plan
  rw [same.totalOps, same.opsPerChunk, same.totalEventCount, same.eventsPerPass]

section Invariant
variable {c : Capture}

theorem CaptureInvariant.chunk_start (inv : CaptureInvariant c) :
    c.position.chunk * c.opsPerChunk = c.currentChunkStart :=
  Nat.div_mul_cancel inv.chunkStart_dvd

theorem CaptureInvariant.pass_base (inv : CaptureInvariant c) :
    c.position.pass * c.eventsPerPass = c.currentEventBase :=
  Nat.div_mul_cancel inv.eventBase_dvd

theorem CaptureInvariant.morePasses (inv : CaptureInvariant c) :
    c.position.pass + 1 < c.plan.passes ↔
      c.currentEventBase + c.eventsPerPass < c.totalEventCount := by
  have base := inv.pass_base
  rw [← not_le, Plan.passes, ceilDiv_le_iff_le_mul inv.eventsPerPass_pos, Nat.mul_add,
    Nat.mul_comm, Nat.mul_one]
  change ¬ c.totalEventCount ≤ c.position.pass * c.eventsPerPass + c.eventsPerPass ↔ _
  omega

theorem CaptureInvariant.lastChunk (inv : CaptureInvariant c) :
    c.plan.chunks ≤ c.position.chunk + 1 ↔
      c.currentChunkStart + c.currentChunkOps = c.totalOps := by
  have start := inv.chunk_start
  have below := inv.chunkStart_lt
  have size := inv.chunkOps
  rw [Plan.chunks, ceilDiv_le_iff_le_mul inv.opsPerChunk_pos, Nat.mul_add, Nat.mul_comm,
    Nat.mul_one]
  change c.totalOps ≤ c.position.chunk * c.opsPerChunk + c.opsPerChunk ↔ _
  omega

theorem CaptureInvariant.chunk_lt (inv : CaptureInvariant c) :
    c.position.chunk < c.plan.chunks := by
  have start := inv.chunk_start
  have below := inv.chunkStart_lt
  rw [← not_le, Plan.chunks, ceilDiv_le_iff_le_mul inv.opsPerChunk_pos, Nat.mul_comm]
  change ¬ c.totalOps ≤ c.position.chunk * c.opsPerChunk
  omega

theorem CaptureInvariant.pass_lt (inv : CaptureInvariant c) :
    c.position.pass < c.plan.passes := by
  have base := inv.pass_base
  have below := inv.eventBase_lt
  rw [← not_le, Plan.passes, ceilDiv_le_iff_le_mul inv.eventsPerPass_pos, Nat.mul_comm]
  change ¬ c.totalEventCount ≤ c.position.pass * c.eventsPerPass
  omega

theorem CaptureInvariant.covers (inv : CaptureInvariant c) (op : ℕ) :
    c.plan.covers c.position op ↔
      c.currentChunkStart ≤ op ∧ op < c.currentChunkStart + c.currentChunkOps := by
  have start := inv.chunk_start
  have size := inv.chunkOps
  unfold Plan.covers
  rw [Nat.succ_mul]
  change c.position.chunk * c.opsPerChunk ≤ op ∧
    op < c.position.chunk * c.opsPerChunk + c.opsPerChunk ∧ op < c.totalOps ↔ _
  omega

theorem CaptureInvariant.measures (inv : CaptureInvariant c) (column : ℕ) :
    c.plan.measures c.position column ↔
      c.currentEventBase ≤ column ∧ column < c.currentEventBase + c.currentPassEvents := by
  have base := inv.pass_base
  have pass := inv.passEvents
  unfold Plan.measures
  rw [Nat.succ_mul]
  change c.position.pass * c.eventsPerPass ≤ column ∧
    column < c.position.pass * c.eventsPerPass + c.eventsPerPass ∧ column < c.totalEventCount ↔ _
  omega

end Invariant

theorem captureResetChunk_position (P : Platform H) {c : Capture} (w : World H) {chunk : ℕ}
    (setup : CaptureSetup c) (start : chunk * c.opsPerChunk < c.totalOps)
    (incomplete : c.complete = false) :
    (captureResetChunk P c (chunk * c.opsPerChunk) w).2.1.position = ⟨chunk, 0, false, false⟩ := by
  rw [captureResetChunk_capture P w setup start, Capture.position]
  dsimp only
  rw [Nat.mul_div_cancel _ setup.opsPerChunk_pos, Nat.zero_div, incomplete]

theorem captureRestart_position (P : Platform H) {c : Capture} (w : World H)
    (setup : CaptureSetup c) (incomplete : c.complete = false) :
    (captureResetChunk P c 0 w).2.1.position = .start := by
  have start : 0 * c.opsPerChunk < c.totalOps := by simpa using setup.totalOps_pos
  have first := captureResetChunk_position P w setup start incomplete
  rwa [Nat.zero_mul] at first

theorem captureModelEnd_position (P : Platform H) {c : Capture} (w : World H)
    (inv : CaptureInvariant c) :
    (captureModelEnd P c w).2.1.position =
      c.plan.step c.position (.modelEnd : CaptureCall H X) := by
  have more := inv.morePasses
  have last := inv.lastChunk
  have pass := inv.passEvents
  rcases captureModelEnd_cases P w inv with ⟨frozen, eq⟩ | ⟨ready, complete, columns, eq⟩ |
    ⟨ready, complete, full, next, eq⟩
  · have stays : (c.position.ready || c.position.complete) = true := by
      simpa [Capture.position] using frozen
    rw [eq, Plan.step, if_pos stays]
  · have moves : ¬ (c.position.ready || c.position.complete) = true := by
      simp [Capture.position, ready, complete]
    rw [eq, Plan.step, if_neg moves, if_neg (by omega)]
    simp only [Capture.position, decide_eq_decide.mpr last.symm]
  · have moves : ¬ (c.position.ready || c.position.complete) = true := by
      simp [Capture.position, ready, complete]
    have same : SameSetup c c.nextPass := .progress
    rw [eq, Plan.step, if_neg moves, if_pos (more.mpr next)]
    dsimp only
    rw [capturePreparePass_capture P w.pmu (inv.toCaptureSetup.of_same same) next]
    simp only [Capture.position, Capture.nextPass, Nat.add_div_right _ inv.eventsPerPass_pos]

theorem captureAdvanceChunk_position (P : Platform H) {c : Capture} (w : World H)
    (inv : CaptureInvariant c) :
    (captureAdvanceChunk P c w).2.1.position =
      c.plan.step c.position (.advanceChunk : CaptureCall H X) := by
  rcases captureAdvanceChunk_cases P w inv with ⟨unready, eq⟩ | ⟨ready, complete, eq⟩ |
    ⟨ready, incomplete, -, more, eq⟩
  · simp [eq, Plan.step, Capture.position, unready]
  · simp [eq, Plan.step, Capture.position, ready, complete]
  · have start : c.currentChunkStart + c.opsPerChunk = (c.position.chunk + 1) * c.opsPerChunk := by
      rw [Nat.succ_mul, inv.chunk_start]
    rw [start] at more eq
    rw [eq, captureResetChunk_position P w inv.toCaptureSetup more incomplete]
    simp [Plan.step, Capture.position, ready, incomplete]

theorem captureStep_position (P : Platform H) {x : CaptureState H} (call : CaptureCall H X)
    (inv : CaptureInvariant x.capture) :
    (captureStep P x call).capture.position = x.capture.plan.step x.capture.position call := by
  cases call with
  | reset =>
    have setup := inv.toCaptureSetup
    dsimp only [captureStep]
    rw [captureReset_eq P x.world setup, captureRestart_position P x.world setup.incomplete rfl]
    rfl
  | modelEnd => exact captureModelEnd_position P x.world inv
  | advanceChunk => exact captureAdvanceChunk_position P x.world inv
  | layerEnd op =>
    dsimp only [captureStep, Plan.step]
    by_cases inside : x.capture.currentChunkStart ≤ op.toNat ∧
        op.toNat < x.capture.currentChunkStart + x.capture.currentChunkOps
    · rw [captureLayerEnd_inside P x.world inv inside]
      rfl
    · rw [captureLayerEnd_outside P x.world inv inside]
  | modelBegin => rfl
  | layerBegin _ => rfl
  | serializeCsv _ _ _ => rfl
  | elapse _ => rfl

theorem captureRun_position (P : Platform H) {x : CaptureState H}
    (inv : CaptureInvariant x.capture) (calls : List (CaptureCall H X)) :
    (run (captureStep P) x calls).capture.position =
      run x.capture.plan.step x.capture.position calls := by
  induction calls generalizing x with
  | nil => rfl
  | cons call calls ih =>
    obtain ⟨inv', same⟩ := captureStep_invariant P call inv
    rw [run_cons, run_cons, ih inv', same.plan, captureStep_position P call inv]

def CaptureCfg.plan (cfg : CaptureCfg) : Plan where
  totalOps := cfg.totalOps.toNat
  opsPerChunk := captureGetOpsPerChunk cfg
  events := captureGetEventCount cfg
  eventsPerPass := if cfg.eventsPerPass.toNat = 0 then maxEventsPerPass else cfg.eventsPerPass.toNat

theorem captureStart_position {P : Platform H} {c : Capture} {cfg : CaptureCfg} {w : World H}
    (ok : (captureInit P c cfg w).1 = statusSuccess) :
    (captureStart P c cfg w).capture.position = .start ∧
      (captureStart P c cfg w).capture.plan = cfg.plan := by
  obtain ⟨valid, eq⟩ := captureStart_eq ok
  have setup := valid.setup c
  have first := captureRestart_position P w setup rfl
  rw [← eq] at first
  exact ⟨first, (captureStart_invariant ok).2.plan⟩

/-- Where a capture stands after any calls is where its plan leads: no answer of the platform,
no content of the event list or of the memory and no failure of a call has a part in it. The
fields are those of the position, and the position is inside the plan. -/
theorem capture_follows_plan (P : Platform H) (c : Capture) (cfg : CaptureCfg) (w : World H)
    (calls : List (CaptureCall H X)) (ok : (captureInit P c cfg w).1 = statusSuccess) :
    let final := (run (captureStep P) (captureStart P c cfg w) calls).capture
    let pos := run cfg.plan.step .start calls
    final.chunkReady = pos.ready ∧ final.complete = pos.complete ∧
    pos.chunk < cfg.plan.chunks ∧ pos.pass < cfg.plan.passes ∧
    final.currentChunkStart = pos.chunk * cfg.plan.opsPerChunk ∧
    final.currentEventBase = pos.pass * cfg.plan.eventsPerPass ∧
    (∀ op, cfg.plan.covers pos op ↔
      final.currentChunkStart ≤ op ∧ op < final.currentChunkStart + final.currentChunkOps) ∧
    ∀ column, cfg.plan.measures pos column ↔
      final.currentEventBase ≤ column ∧
        column < final.currentEventBase + final.currentPassEvents := by
  intro final pos
  obtain ⟨first, plan⟩ := captureStart_position ok
  have start := (captureStart_invariant ok).1
  obtain ⟨inv, same, -⟩ := captureRun_invariant P start calls
  have position : final.position = pos := by
    rw [captureRun_position P start calls, first, plan]
  have planned : final.plan = cfg.plan := same.plan.trans plan
  have chunk := inv.chunk_start
  have base := inv.pass_base
  have chunk_lt := inv.chunk_lt
  have pass_lt := inv.pass_lt
  have covers := inv.covers
  have measures := inv.measures
  rw [← position, ← planned]
  exact ⟨rfl, rfl, chunk_lt, pass_lt, chunk.symm, base.symm, covers, measures⟩

theorem capture_follows_plan_ref :
    (run (captureStep refPlatform)
      (captureStart refPlatform .zero (refCaptureCfg 3 2 5 0) RefPmu.start.world)
      [CaptureCall.modelEnd (X := Unit), .modelEnd, .layerEnd 1, .advanceChunk]).capture.chunkReady =
        (run (refCaptureCfg 3 2 5 0).plan.step .start
          [CaptureCall.modelEnd (H := RefPmu) (X := Unit), .modelEnd, .layerEnd 1,
            .advanceChunk]).ready :=
  (capture_follows_plan refPlatform .zero (refCaptureCfg 3 2 5 0) RefPmu.start.world
    [CaptureCall.modelEnd (X := Unit), .modelEnd, .layerEnd 1, .advanceChunk] (by decide)).1

/-- Where a plan stands after `n` rounds of an inference and an attempt to go on. -/
def Plan.after (p : Plan) (n : ℕ) : Position :=
  if n < p.chunks * p.passes then ⟨n / p.passes, n % p.passes, false, false⟩
  else ⟨p.chunks - 1, p.passes - 1, false, true⟩

theorem div_mod_of_lt {m r : ℕ} (k : ℕ) (hr : r < m) :
    (k * m + r) / m = k ∧ (k * m + r) % m = r := by
  rw [Nat.mul_comm, Nat.mul_add_div (by omega), Nat.mul_add_mod, Nat.div_eq_of_lt hr,
    Nat.mod_eq_of_lt hr]
  exact ⟨rfl, rfl⟩

theorem Plan.after_of_lt {p : Plan} {k r : ℕ} (hk : k < p.chunks) (hr : r < p.passes) :
    p.after (k * p.passes + r) = ⟨k, r, false, false⟩ := by
  have inside : k * p.passes + r < p.chunks * p.passes := WordMemory.rowMajor_lt hk hr
  obtain ⟨chunk, pass⟩ := div_mod_of_lt k hr
  rw [Plan.after, if_pos inside, chunk, pass]

theorem Plan.round_place {p : Plan} {n : ℕ} (inside : n < p.chunks * p.passes) :
    ∃ k r, k < p.chunks ∧ r < p.passes ∧ n = k * p.passes + r := by
  have passes : 0 < p.passes := Nat.pos_of_mul_pos_left (Nat.zero_lt_of_lt inside)
  exact ⟨n / p.passes, n % p.passes, (Nat.div_lt_iff_lt_mul passes).mpr inside,
    Nat.mod_lt _ passes, (Nat.div_add_mod' ..).symm⟩

theorem Plan.after_round {p : Plan} (passes : 0 < p.passes) (n : ℕ) :
    p.step (p.step (p.after n) (.modelEnd : CaptureCall H X)) (.advanceChunk : CaptureCall H X) =
      p.after (n + 1) := by
  by_cases inside : n < p.chunks * p.passes
  · obtain ⟨k, r, hk, hr, rfl⟩ := Plan.round_place inside
    rw [Plan.after_of_lt hk hr]
    by_cases more : r + 1 < p.passes
    · rw [Nat.add_assoc, Plan.after_of_lt hk more]
      simp [Plan.step, more]
    · have next : k * p.passes + r + 1 = (k + 1) * p.passes + 0 := by
        rw [Nat.succ_mul]
        omega
      by_cases last : p.chunks ≤ k + 1
      · -- the capture is complete, and its last chunk is given up
        have all : p.chunks = k + 1 := by omega
        rw [next, Plan.after, if_neg (by rw [all]; omega)]
        simp [Plan.step, more, all]
        omega
      · rw [next, Plan.after_of_lt (by omega) passes]
        simp [Plan.step, more, last]
  · rw [Plan.after, Plan.after, if_neg inside, if_neg (by omega)]
    rfl

/-- The round that samples an operator and a column. -/
def Plan.round (p : Plan) (op column : ℕ) : ℕ :=
  op / p.opsPerChunk * p.passes + column / p.eventsPerPass

def Plan.roundOf (p : Plan) (pos : Position) : ℕ := pos.chunk * p.passes + pos.pass

theorem Plan.round_of_samples {p : Plan} {pos : Position} {op column : ℕ} (covers : p.covers pos op)
    (measures : p.measures pos column) : p.round op column = p.roundOf pos := by
  have chunk : op / p.opsPerChunk = pos.chunk := Nat.div_eq_of_lt_le covers.1 covers.2.1
  have pass : column / p.eventsPerPass = pos.pass := Nat.div_eq_of_lt_le measures.1 measures.2.1
  rw [Plan.round, Plan.roundOf, chunk, pass]

theorem Plan.roundOf_after {p : Plan} {n : ℕ} (inside : n < p.chunks * p.passes) :
    p.roundOf (p.after n) = n := by
  rw [Plan.after, if_pos inside]
  exact Nat.div_add_mod' ..

section Visits
variable {p : Plan} (perChunk : 0 < p.opsPerChunk) (perPass : 0 < p.eventsPerPass)
include perChunk

theorem Plan.chunk_of_op {op : ℕ} (hop : op < p.totalOps) : op / p.opsPerChunk < p.chunks := by
  rw [← not_le, Plan.chunks, ceilDiv_le_iff_le_mul perChunk]
  have := Nat.mul_div_le op p.opsPerChunk
  omega

include perPass

omit perChunk in
theorem Plan.pass_of_column {column : ℕ} (hcolumn : column < p.events) :
    column / p.eventsPerPass < p.passes := by
  rw [← not_le, Plan.passes, ceilDiv_le_iff_le_mul perPass]
  have := Nat.mul_div_le column p.eventsPerPass
  omega

theorem Plan.round_lt {op column : ℕ} (hop : op < p.totalOps) (hcolumn : column < p.events) :
    p.round op column < p.chunks * p.passes :=
  WordMemory.rowMajor_lt (Plan.chunk_of_op perChunk hop) (Plan.pass_of_column perPass hcolumn)

theorem Plan.samples_iff {op column n : ℕ} (hop : op < p.totalOps) (hcolumn : column < p.events)
    (inside : n < p.chunks * p.passes) :
    p.covers (p.after n) op ∧ p.measures (p.after n) column ↔ p.round op column = n := by
  constructor
  · rintro ⟨covers, measures⟩
    rw [Plan.round_of_samples covers measures, Plan.roundOf_after inside]
  · rintro rfl
    rw [Plan.round, Plan.after_of_lt (Plan.chunk_of_op perChunk hop)
      (Plan.pass_of_column perPass hcolumn)]
    refine ⟨⟨Nat.div_mul_le_self .., ?_, hop⟩, Nat.div_mul_le_self .., ?_, hcolumn⟩
    · rw [Nat.mul_comm]
      exact Nat.lt_mul_div_succ op perChunk
    · rw [Nat.mul_comm]
      exact Nat.lt_mul_div_succ column perPass

/-- Every operator and column is in the plan of exactly one round. -/
theorem Plan.visits {op column : ℕ} (hop : op < p.totalOps) (hcolumn : column < p.events) :
    ∃! n, n < p.chunks * p.passes ∧ p.covers (p.after n) op ∧ p.measures (p.after n) column := by
  have inside := Plan.round_lt perChunk perPass hop hcolumn
  refine ⟨p.round op column,
    ⟨inside, (Plan.samples_iff perChunk perPass hop hcolumn inside).mpr rfl⟩, ?_⟩
  rintro n ⟨below, sampled⟩
  exact ((Plan.samples_iff perChunk perPass hop hcolumn below).mp sampled).symm

end Visits

def CaptureCall.stays : CaptureCall H X → Bool
  | .reset => false
  | .modelEnd => false
  | .advanceChunk => false
  | _ => true

/-- The calls around the end of a model, with an attempt to go on to the next chunk. -/
structure Round (H X : Type) where
  inference : List (CaptureCall H X)
  readout : List (CaptureCall H X)

def Round.calls (r : Round H X) : List (CaptureCall H X) :=
  r.inference ++ .modelEnd :: (r.readout ++ [.advanceChunk])

def Round.Stays (r : Round H X) : Prop :=
  (∀ call ∈ r.inference, call.stays = true) ∧ ∀ call ∈ r.readout, call.stays = true

instance (r : Round H X) : Decidable r.Stays := inferInstanceAs (Decidable (_ ∧ _))

theorem Plan.step_stays (p : Plan) (pos : Position) {call : CaptureCall H X}
    (stays : call.stays = true) : p.step pos call = pos := by
  cases call with
  | reset => cases stays
  | modelEnd => cases stays
  | advanceChunk => cases stays
  | _ => rfl

theorem Plan.run_stays (p : Plan) (pos : Position) {calls : List (CaptureCall H X)}
    (stays : ∀ call ∈ calls, call.stays = true) : run p.step pos calls = pos :=
  LabelledRuns.run_stays fun call h => p.step_stays pos (stays call h)

theorem Plan.run_rounds {p : Plan} (passes : 0 < p.passes)
    {rounds : List (Round H X)} (stays : ∀ r ∈ rounds, r.Stays) (n : ℕ) :
    run p.step (p.after n) (rounds.flatMap Round.calls) = p.after (n + rounds.length) := by
  induction rounds generalizing n with
  | nil => rfl
  | cons r rounds ih =>
    obtain ⟨inference, readout⟩ := stays r (by simp)
    rw [List.flatMap_cons, run_append, Round.calls, run_append, p.run_stays _ inference, run_cons,
      run_append, p.run_stays _ readout, run_cons, run_nil, Plan.after_round passes,
      ih (fun r h => stays r (by simp [h])), List.length_cons, Nat.add_assoc, Nat.add_comm 1]

/-- A caller that tries to go on after the end of every model has the capture complete after
exactly one round for each chunk and pass, whatever fails on the way, and never before. Until
then the rounds go through the passes of one chunk after another, so that every operator and
column is sampled in exactly one round. -/
theorem capture_course (P : Platform H) (c : Capture) (cfg : CaptureCfg) (w : World H)
    (rounds : List (Round H X)) (stays : ∀ r ∈ rounds, r.Stays)
    (ok : (captureInit P c cfg w).1 = statusSuccess) :
    let final := (run (captureStep P) (captureStart P c cfg w) (rounds.flatMap Round.calls)).capture
    let needed := cfg.plan.chunks * cfg.plan.passes
    final.complete = decide (needed ≤ rounds.length) ∧
    (rounds.length < needed →
      final.chunkReady = false ∧
      final.currentChunkStart = rounds.length / cfg.plan.passes * cfg.plan.opsPerChunk ∧
      final.currentEventBase = rounds.length % cfg.plan.passes * cfg.plan.eventsPerPass) ∧
    ∀ op < cfg.plan.totalOps, ∀ column < cfg.plan.events,
      ∃! n, n < needed ∧ cfg.plan.covers (cfg.plan.after n) op ∧
        cfg.plan.measures (cfg.plan.after n) column := by
  intro final needed
  obtain ⟨first, plan⟩ := captureStart_position ok
  obtain ⟨start, same⟩ := captureStart_invariant ok
  have chunk_lt := start.chunk_lt
  have pass_lt := start.pass_lt
  rw [first, plan] at chunk_lt pass_lt
  have zero : cfg.plan.after 0 = .start := by
    have here := Plan.after_of_lt chunk_lt pass_lt
    rwa [show Position.start.chunk * cfg.plan.passes + Position.start.pass = 0 by
      simp [Position.start]] at here
  obtain ⟨inv, kept, -⟩ := captureRun_invariant P start (rounds.flatMap Round.calls)
  have position : final.position = cfg.plan.after rounds.length := by
    rw [captureRun_position P start, first, plan, ← zero, Plan.run_rounds pass_lt.pos stays 0,
      Nat.zero_add]
  have chunkStart := inv.chunk_start
  have base := inv.pass_base
  change final.position.chunk * final.opsPerChunk = final.currentChunkStart at chunkStart
  change final.position.pass * final.eventsPerPass = final.currentEventBase at base
  rw [position, kept.opsPerChunk, same.opsPerChunk] at chunkStart
  rw [position, kept.eventsPerPass, same.eventsPerPass] at base
  refine ⟨?_, ?_, ?_⟩
  · change final.position.complete = _
    rw [position, Plan.after]
    by_cases more : rounds.length < needed
    · rw [if_pos more]
      exact (decide_eq_false (by omega)).symm
    · rw [if_neg more]
      exact (decide_eq_true (by omega)).symm
  · intro more
    rw [Plan.after, if_pos more] at chunkStart base
    refine ⟨?_, chunkStart.symm, base.symm⟩
    change final.position.ready = false
    rw [position, Plan.after, if_pos more]
  · intro op hop column hcolumn
    have setup := (captureStart_eq ok).1.setup c
    exact Plan.visits (p := cfg.plan) setup.opsPerChunk_pos setup.eventsPerPass_pos hop hcolumn

theorem capture_course_ref :
    (run (captureStep refPlatform)
      (captureStart refPlatform .zero (refCaptureCfg 3 2 5 0) RefPmu.start.world)
      ([⟨[], []⟩, ⟨[.layerEnd 1], []⟩, ⟨[], []⟩, ⟨[], []⟩].flatMap
        (Round.calls (X := Unit)))).capture.complete = true :=
  (capture_course refPlatform .zero (refCaptureCfg 3 2 5 0) RefPmu.start.world
    [⟨[], []⟩, ⟨[.layerEnd 1], []⟩, ⟨[], []⟩, ⟨[], []⟩] (by decide) (by decide)).1.trans
      (by decide +kernel)

end NsxPmu
