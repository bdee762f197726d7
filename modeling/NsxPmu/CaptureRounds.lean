import NsxPmu.CaptureInference
import NsxPmu.Lib.BoundedLoops

set_option autoImplicit false

/-!
# The rounds of a caller

A caller that runs inferences under a capture, takes every chunk that is ready
and goes on to the next one. What it does with a chunk is left open, as long as
it leaves the capture alone.
-/
namespace NsxPmu
open LabelledRuns WindowCounts BoundedLoops

variable {H S : Type}

/-- A caller's progress: the capture, what it keeps of its own and the inferences it ran. -/
structure Caller (H S : Type) where
  state : CaptureState H
  store : S
  inferences : ℕ

section Caller
variable (X : Type) (P : Platform H) (occur : Word → H → H) (inference : ℕ → Inference)
  (take : CaptureState H → S → CaptureState H × S) (c : Caller H S)

def Caller.reported : CaptureState H :=
  run (liveStep P occur) c.state
    ((inference c.inferences).body (X := X) (captureGetChunkInfo c.state.capture).totalOps)

def Caller.measured : CaptureState H :=
  run (liveStep P occur) c.state
    ((inference c.inferences).calls (X := X) (captureGetChunkInfo c.state.capture).totalOps)

theorem Caller.measured_eq :
    c.measured X P occur inference =
      liveStep P occur (c.reported X P occur inference) (.modelEnd (X := X)) := by
  unfold Caller.measured Caller.reported
  rw [Inference.calls, run_append]
  rfl

/-- One round of the loop, which ends with the last chunk. -/
def callerRound : Caller H S ⊕ Caller H S :=
  let x := c.measured X P occur inference
  let info := captureGetChunkInfo x.capture
  if !info.chunkReady then .inl ⟨x, c.store, c.inferences + 1⟩
  else
    let taken := take x c.store
    if info.complete then .inr ⟨taken.1, taken.2, c.inferences + 1⟩
    else .inl ⟨liveStep P occur taken.1 (.advanceChunk (X := X)), taken.2, c.inferences + 1⟩

def Caller.next : Caller H S := (callerRound X P occur inference take c).elim id id

def callerAfter (n : ℕ) : Caller H S := (Caller.next X P occur inference take)^[n] c

theorem callerAfter_succ (n : ℕ) :
    callerAfter X P occur inference take c (n + 1) =
      (callerAfter X P occur inference take c n).next X P occur inference take :=
  Function.iterate_succ_apply' ..

def Caller.Programs : Prop :=
  let ending := c.reported X P occur inference
  let taken := (take (c.measured X P occur inference) c.store).1
  (captureModelEnd P ending.capture ending.world).1 = statusSuccess ∧
    (taken.capture.chunkReady = true →
      (captureAdvanceChunk P taken.capture taken.world).1 = statusSuccess)

end Caller

/-- The occurrences in an operator that the capture is to count for a column: those of the one
inference whose position has both. -/
def Plan.expected (p : Plan) (id : ℕ → Word) (inference : ℕ → Inference) (op column : ℕ) : ℕ :=
  ((inference (p.round op column)).work op).count (id column)

def Plan.opsBefore (p : Plan) (chunk : ℕ) : ℕ := min (chunk * p.opsPerChunk) p.totalOps

theorem Plan.opsBefore_zero (p : Plan) : p.opsBefore 0 = 0 := by
  rw [Plan.opsBefore, Nat.zero_mul, Nat.zero_min]

section Before
variable {p : Plan} {k : ℕ} (below : k * p.opsPerChunk < p.totalOps)
include below

theorem Plan.opsBefore_of_lt : p.opsBefore k = k * p.opsPerChunk :=
  Nat.min_eq_left below.le

theorem Plan.opsBefore_succ : p.opsBefore (k + 1) =
    k * p.opsPerChunk + min p.opsPerChunk (p.totalOps - k * p.opsPerChunk) := by
  rw [Plan.opsBefore, Nat.succ_mul]
  omega

end Before

theorem Plan.opsBefore_all {p : Plan} (perChunk : 0 < p.opsPerChunk) :
    p.opsBefore p.chunks = p.totalOps := by
  have whole : p.totalOps ≤ p.opsPerChunk * p.chunks :=
    (ceilDiv_le_iff_le_mul perChunk).mp (Nat.le_refl p.chunks)
  rw [Plan.opsBefore, Nat.mul_comm, Nat.min_eq_right whole]

/-- The values of the first operators are the expected ones, as 32-bit words have them, where the
round has been programmed. -/
def Plan.Faithful (p : Plan) (id : ℕ → Word) (inference : ℕ → Inference) (programmed : ℕ → Prop)
    (values : ℕ → ℕ → ℕ) (ops : ℕ) : Prop :=
  ∀ op < ops, ∀ e < p.events, programmed (p.round op e) →
    values op e = p.expected id inference op e % 2 ^ 32

/-- Chunk `k` of a capture set up like `x` is ready, and its cells are the expected counts where
their round has been programmed. -/
structure CountedChunk (programmed : ℕ → Prop) (inference : ℕ → Inference) (x : Capture) (k : ℕ)
    (z : CaptureState H) : Prop where
  inv : CaptureInvariant z.capture
  setup : SameSetup x z.capture
  ready : z.capture.chunkReady = true
  start : z.capture.currentChunkStart = k * x.opsPerChunk
  ops : z.capture.currentChunkOps = min x.opsPerChunk (x.totalOps - k * x.opsPerChunk)
  below : k * x.opsPerChunk < x.totalOps
  counts : ∀ row < z.capture.currentChunkOps, ∀ e < x.totalEventCount,
    programmed (x.plan.round (k * x.opsPerChunk + row) e) →
    (z.world.mem (z.capture.cell row e)).toNat =
      x.plan.expected x.columnId inference (k * x.opsPerChunk + row) e % 2 ^ 32

theorem CountedChunk.row {programmed : ℕ → Prop} {inference : ℕ → Inference} {x : Capture} {k op : ℕ}
    {z : CaptureState H} (counted : CountedChunk programmed inference x k z)
    (later : ¬ op < x.plan.opsBefore k) (hop : op < x.plan.opsBefore (k + 1)) :
    ∃ row < z.capture.currentChunkOps, op = k * x.opsPerChunk + row := by
  have below : k * x.plan.opsPerChunk < x.plan.totalOps := counted.below
  have ops := counted.ops
  rw [Plan.opsBefore_of_lt below] at later
  rw [Plan.opsBefore_succ below] at hop
  dsimp only [Capture.plan] at later hop
  exact ⟨op - k * x.opsPerChunk, by omega, by omega⟩

/-- What a caller does with a chunk leaves the capture alone, and `Taken` says what it has done
with the chunks before a chunk, whatever the capture does to its own storage. -/
structure Takes (programmed : ℕ → Prop) (inference : ℕ → Inference) (x : Capture)
    (take : CaptureState H → S → CaptureState H × S) (Taken : ℕ → (ℕ → Word) → S → Prop) :
    Prop where
  capture : ∀ z s, (take z s).1.capture = z.capture
  pmu : ∀ z s, (take z s).1.world.pmu = z.world.pmu
  storage : ∀ k z s, CountedChunk programmed inference x k z → ∀ a, x.storageRange a →
    (take z s).1.world.mem a = z.world.mem a
  outside : ∀ k s mem mem', (∀ a, ¬ x.storageRange a → mem' a = mem a) → Taken k mem s →
    Taken k mem' s
  chunk : ∀ k z s, CountedChunk programmed inference x k z → Taken k z.world.mem s →
    Taken (k + 1) (take z s).1.world.mem (take z s).2

variable {X : Type} {P : Platform H} {evtyper : H → ℕ → Word} {enabled : H → ℕ → Bool}
  {occur : Word → H → H} {programmed : ℕ → Prop} {api : CoreApi} {inference : ℕ → Inference}
  {x : CaptureState H} {take : CaptureState H → S → CaptureState H × S}
  {Taken : ℕ → (ℕ → Word) → S → Prop}

theorem liveRun_invariant (P : Platform H) (occur : Word → H → H) {y : CaptureState H}
    (inv : CaptureInvariant y.capture) (calls : List (LiveCall X)) :
    CaptureInvariant (run (liveStep P occur) y calls).capture ∧
      SameSetup y.capture (run (liveStep P occur) y calls).capture ∧
      ∀ a, ¬ y.capture.storageRange a →
        (run (liveStep P occur) y calls).world.mem a = y.world.mem a := by
  have eq : run (liveStep P occur) y calls =
      run (captureStep P) y (calls.map (LiveCall.toCall occur)) := by
    induction calls generalizing y with
    | nil => rfl
    | cons call calls ih =>
      exact ih (captureStep_invariant P (call.toCall occur) inv).1
  rw [eq]
  exact captureRun_invariant P inv _

section Follows
variable {z : CaptureState H} {pos : Position} {m : Meter Word (ℕ × ℕ)}

theorem Follows.frame (follows : Follows P evtyper enabled programmed x z pos m)
    {z' : CaptureState H} (capture : z'.capture = z.capture) (pmu : z'.world.pmu = z.world.pmu)
    (storage : ∀ a, z.capture.storageRange a → z'.world.mem a = z.world.mem a) :
    Follows P evtyper enabled programmed x z' pos m := by
  obtain ⟨⟨inv, counting, cells, ahead⟩, position, setup⟩ := follows
  refine ⟨⟨?_, ?_, ?_, ?_⟩, ?_, ?_⟩
  all_goals rw [capture]
  · exact inv
  · rw [pmu]
    exact counting
  · intro r hr e he
    rw [storage _ (Capture.cell_range inv hr he)]
    exact cells r hr e he
  · exact ahead
  · exact position
  · exact setup

theorem Follows.countedChunk {k r : ℕ} {complete : Bool}
    (follows : Follows P evtyper enabled programmed x z ⟨k, r, true, complete⟩ m)
    (totals : ∀ op, x.capture.plan.covers ⟨k, r, true, complete⟩ op →
      ∀ e < x.capture.totalEventCount,
        m.total (op, e) = x.capture.plan.expected x.capture.columnId inference op e) :
    CountedChunk programmed inference x.capture k z := by
  obtain ⟨metered, position, setup⟩ := follows
  have inv := metered.inv
  have start := inv.chunk_start
  have ops := inv.chunkOps
  have below := inv.chunkStart_lt
  rw [position, setup.opsPerChunk] at start
  dsimp only at start
  rw [← start, setup.totalOps, setup.opsPerChunk] at ops
  rw [← start, setup.totalOps] at below
  refine ⟨inv, setup, congrArg Position.ready position, start.symm, ops, below, ?_⟩
  intro row hrow e he now
  have cell : z.capture.cellRound row e =
      x.capture.plan.round (k * x.capture.opsPerChunk + row) e := by
    rw [Capture.cellRound, ← start, setup.plan]
  have held := metered.cells row hrow e (he.trans_eq setup.totalEventCount.symm) (cell ▸ now)
  have covered :
      x.capture.plan.covers ⟨k, r, true, complete⟩ (k * x.capture.opsPerChunk + row) := by
    unfold Plan.covers
    rw [Nat.succ_mul]
    dsimp only [Capture.plan]
    omega
  rw [held, ← start, totals _ covered e he]

end Follows

/-- A caller that has run `n` inferences since the capture was started at `x`. -/
structure CallerAt (P : Platform H) (evtyper : H → ℕ → Word) (enabled : H → ℕ → Bool)
    (programmed : ℕ → Prop) (inference : ℕ → Inference) (x : CaptureState H)
    (Taken : ℕ → (ℕ → Word) → S → Prop) (n : ℕ) (c : Caller H S) (m : Meter Word (ℕ × ℕ)) :
    Prop where
  inferences : c.inferences = n
  follows : Follows P evtyper enabled programmed x c.state (x.capture.plan.after n) m
  totals : ∀ op < x.capture.totalOps, ∀ e < x.capture.totalEventCount, m.total (op, e) =
    if x.capture.plan.round op e < n then
      x.capture.plan.expected x.capture.columnId inference op e else 0
  taken : Taken (n / x.capture.plan.passes) c.state.world.mem c.store

theorem CallerAt.start (laws : Counts P evtyper enabled occur) {c : Capture} {cfg : CaptureCfg}
    {w : World H} (ok : (captureInit P c cfg w).1 = statusSuccess) {s : S}
    (none : Taken 0 (captureStart P c cfg w).world.mem s) :
    CallerAt P evtyper enabled programmed inference (captureStart P c cfg w) Taken 0
      ⟨captureStart P c cfg w, s, 0⟩ .zero where
  inferences := rfl
  follows := by
    obtain ⟨first, plan⟩ := captureStart_position ok
    have inv := (captureStart_invariant ok).1
    have zero := Plan.after_of_lt inv.chunk_lt inv.pass_lt
    rw [first] at zero
    refine ⟨(ChunkBegun.init (X := Unit) ok).metered laws, ?_, .refl _⟩
    rw [first, ← show Position.start.chunk * (captureStart P c cfg w).capture.plan.passes +
      Position.start.pass = 0 by simp [Position.start], zero]
    rfl
  totals := by
    intro op _ e _
    rw [if_neg (Nat.not_lt_zero _)]
    rfl
  taken := by
    rw [Nat.zero_div]
    exact none

theorem CallerAt.programs (answers : Answers P api) (programmable : Programmable api x.capture)
    (alone : ∀ z s, (take z s).1.capture = z.capture) {n : ℕ} {c : Caller H S}
    {m : Meter Word (ℕ × ℕ)}
    (at_ : CallerAt P evtyper enabled programmed inference x Taken n c m) :
    c.Programs X P occur inference take := by
  have here := programmable.of_same at_.follows.setup
  obtain ⟨ending, same, -⟩ := liveRun_invariant P occur at_.follows.metered.inv
    ((inference c.inferences).body (X := X) (captureGetChunkInfo c.state.capture).totalOps)
  obtain ⟨ended, same', -⟩ := liveRun_invariant P occur at_.follows.metered.inv
    ((inference c.inferences).calls (X := X) (captureGetChunkInfo c.state.capture).totalOps)
  refine ⟨captureModelEnd_succeeds answers _ ending (here.of_same same), ?_⟩
  rw [alone]
  exact captureAdvanceChunk_succeeds answers _ ended (here.of_same same')

section Rounds
variable (laws : Counts P evtyper enabled occur)
  (takes : Takes programmed inference x.capture take Taken) (setup : CaptureSetup x.capture)
  {n k r : ℕ} {c : Caller H S} {m : Meter Word (ℕ × ℕ)}
  (current : CallerAt P evtyper enabled programmed inference x Taken n c m)
  (ok : programmed (n + 1) → c.Programs X P occur inference take)
include laws takes setup current ok

theorem CallerAt.measured (inside : n < x.capture.plan.chunks * x.capture.plan.passes) :
    ∃ m', Follows P evtyper enabled programmed x (c.measured X P occur inference)
        (x.capture.plan.step (x.capture.plan.after n) (.modelEnd : CaptureCall H X)) m' ∧
      (∀ op < x.capture.totalOps, ∀ e < x.capture.totalEventCount, m'.total (op, e) =
        if x.capture.plan.round op e < n + 1 then
          x.capture.plan.expected x.capture.columnId inference op e else 0) ∧
      Taken (n / x.capture.plan.passes) (c.measured X P occur inference).world.mem c.store := by
  have inv := current.follows.metered.inv
  have ops := current.follows.setup.totalOps
  have reported : c.reported X P occur inference = run (liveStep P occur) c.state
      ((inference c.inferences).body (X := X) x.capture.plan.totalOps) :=
    congrArg (fun n => run (liveStep P occur) c.state ((inference c.inferences).body n)) ops
  have measured : c.measured X P occur inference = run (liveStep P occur) c.state
      ((inference c.inferences).calls (X := X) x.capture.plan.totalOps) :=
    congrArg (fun n => run (liveStep P occur) c.state ((inference c.inferences).calls n)) ops
  obtain ⟨m', totals, follows⟩ := current.follows.inference (X := X) laws
    (inference c.inferences) (by
      rw [Plan.roundOf_after inside, ← reported]
      exact fun now => (ok now).1)
  rw [← measured] at follows
  have frame := (liveRun_invariant P occur inv ((inference c.inferences).calls (X := X)
    (captureGetChunkInfo c.state.capture).totalOps)).2.2
  have taken := takes.outside _ _ _ (c.measured X P occur inference).world.mem
    (fun a ha => frame a (by rwa [current.follows.setup.storageRange])) current.taken
  refine ⟨m', follows, fun op hop e he => ?_, taken⟩
  have samples := Plan.samples_iff (p := x.capture.plan) setup.opsPerChunk_pos
    setup.eventsPerPass_pos hop he inside
  rw [totals, current.totals op hop e he, current.inferences]
  unfold Plan.adds
  dsimp only
  rw [if_congr samples rfl rfl]
  by_cases here : x.capture.plan.round op e = n
  · rw [if_neg (by omega), if_pos here, if_pos (by omega), Plan.expected, here, Nat.zero_add]
  · rw [if_neg here, Nat.add_zero]
    exact if_congr (by omega) rfl rfl

theorem CallerAt.nextPass (hk : k < x.capture.plan.chunks) (more : r + 1 < x.capture.plan.passes)
    (round : n = k * x.capture.plan.passes + r) :
    ∃ c' m', callerRound X P occur inference take c = .inl c' ∧
      CallerAt P evtyper enabled programmed inference x Taken (n + 1) c' m' := by
  subst round
  have inside := WordMemory.rowMajor_lt hk (Nat.lt_of_succ_lt more)
  obtain ⟨m', follows, totals, taken⟩ := current.measured laws takes setup ok inside
  rw [Plan.after_of_lt hk (Nat.lt_of_succ_lt more)] at follows
  have position : x.capture.plan.step ⟨k, r, false, false⟩ (.modelEnd : CaptureCall H X) =
      x.capture.plan.after (k * x.capture.plan.passes + (r + 1)) := by
    rw [Plan.after_of_lt hk more]
    simp [Plan.step, more]
  rw [position] at follows
  have unready : (c.measured X P occur inference).capture.chunkReady = false := by
    have ready := congrArg Position.ready follows.position
    rwa [Plan.after_of_lt hk more] at ready
  have chunk := (div_mod_of_lt k (Nat.lt_of_succ_lt more)).1
  have chunk' := (div_mod_of_lt k more).1
  rw [chunk, ← chunk'] at taken
  refine ⟨⟨c.measured X P occur inference, c.store, c.inferences + 1⟩, m', ?_,
    congrArg (· + 1) current.inferences, follows, totals, taken⟩
  unfold callerRound
  dsimp only [captureGetChunkInfo]
  rw [unready]
  rfl

theorem CallerAt.lastPass (hk : k < x.capture.plan.chunks) (last : r + 1 = x.capture.plan.passes)
    (round : n = k * x.capture.plan.passes + r) :
    ∃ m', Follows P evtyper enabled programmed x (c.measured X P occur inference)
        ⟨k, r, true, decide (x.capture.plan.chunks ≤ k + 1)⟩ m' ∧
      Follows P evtyper enabled programmed x (take (c.measured X P occur inference) c.store).1
        ⟨k, r, true, decide (x.capture.plan.chunks ≤ k + 1)⟩ m' ∧
      (∀ op < x.capture.totalOps, ∀ e < x.capture.totalEventCount, m'.total (op, e) =
        if x.capture.plan.round op e < n + 1 then
          x.capture.plan.expected x.capture.columnId inference op e else 0) ∧
      Taken (k + 1) (take (c.measured X P occur inference) c.store).1.world.mem
        (take (c.measured X P occur inference) c.store).2 := by
  subst round
  have hr : r < x.capture.plan.passes := by omega
  have inside := WordMemory.rowMajor_lt hk hr
  obtain ⟨m', follows, totals, taken⟩ := current.measured laws takes setup ok inside
  have position : x.capture.plan.step ⟨k, r, false, false⟩ (.modelEnd : CaptureCall H X) =
      ⟨k, r, true, decide (x.capture.plan.chunks ≤ k + 1)⟩ := by
    simp [Plan.step, last]
  rw [Plan.after_of_lt hk hr, position] at follows
  have counted : CountedChunk programmed inference x.capture k (c.measured X P occur inference) := by
    refine follows.countedChunk fun op covered e he => ?_
    obtain ⟨lo, hi, below⟩ := covered
    have chunk : op / x.capture.plan.opsPerChunk = k := Nat.div_eq_of_lt_le lo hi
    have pass := Plan.pass_of_column (p := x.capture.plan) setup.eventsPerPass_pos he
    rw [totals op below e he, if_pos]
    unfold Plan.round
    rw [chunk]
    omega
  rw [(div_mod_of_lt k hr).1] at taken
  have frame := takes.storage k _ c.store counted
  exact ⟨m', follows, follows.frame (takes.capture ..) (takes.pmu ..) fun a ha =>
    frame a (by rwa [follows.setup.storageRange] at ha), totals, takes.chunk k _ _ counted taken⟩

theorem CallerAt.nextChunk (more : k + 1 < x.capture.plan.chunks)
    (last : r + 1 = x.capture.plan.passes) (round : n = k * x.capture.plan.passes + r) :
    ∃ c' m', callerRound X P occur inference take c = .inl c' ∧
      CallerAt P evtyper enabled programmed inference x Taken (n + 1) c' m' := by
  obtain ⟨m', measured, follows, totals, taken⟩ :=
    current.lastPass laws takes setup ok (Nat.lt_of_succ_lt more) last round
  rw [decide_eq_false (by omega)] at measured follows
  have ready : (c.measured X P occur inference).capture.chunkReady = true :=
    congrArg Position.ready measured.position
  have incomplete : (c.measured X P occur inference).capture.complete = false :=
    congrArg Position.complete measured.position
  have positive : 0 < x.capture.plan.passes := by omega
  have count : n + 1 = (k + 1) * x.capture.plan.passes + 0 := by
    rw [round, Nat.succ_mul]
    omega
  have next := follows.step laws (LiveCall.advanceChunk (X := X)) fun now => by
    rw [follows.next_round] at now
    exact (ok (count ▸ now)).2
  have frame : ∀ a, ¬ x.capture.storageRange a →
      (liveStep P occur (take (c.measured X P occur inference) c.store).1
        (.advanceChunk (X := X))).world.mem a =
      (take (c.measured X P occur inference) c.store).1.world.mem a :=
    fun a ha => captureStep_memory P (.advanceChunk : CaptureCall H X) follows.metered.inv
      (by rwa [follows.setup.storageRange])
  rw [count] at totals ⊢
  refine ⟨⟨liveStep P occur (take (c.measured X P occur inference) c.store).1
      (.advanceChunk (X := X)), (take (c.measured X P occur inference) c.store).2,
      c.inferences + 1⟩, ⟨fun _ => 0, m'.total⟩, ?_, ?_, ?_, totals, ?_⟩
  · unfold callerRound
    dsimp only [captureGetChunkInfo]
    rw [ready, incomplete]
    rfl
  · rw [← count, ← current.inferences]
  · rw [Plan.after_of_lt more positive]
    exact next
  · rw [(div_mod_of_lt (k + 1) positive).1]
    exact takes.outside _ _ _ _ frame taken

theorem CallerAt.lastChunk (final : k + 1 = x.capture.plan.chunks)
    (last : r + 1 = x.capture.plan.passes) (round : n = k * x.capture.plan.passes + r) :
    ∃ c', callerRound X P occur inference take c = .inr c' ∧ c'.inferences = n + 1 ∧
      Taken x.capture.plan.chunks c'.state.world.mem c'.store := by
  obtain ⟨m', measured, -, -, taken⟩ :=
    current.lastPass laws takes setup ok (Nat.lt_of_succ_le final.le) last round
  rw [decide_eq_true (by omega)] at measured
  have ready : (c.measured X P occur inference).capture.chunkReady = true :=
    congrArg Position.ready measured.position
  have complete : (c.measured X P occur inference).capture.complete = true :=
    congrArg Position.complete measured.position
  refine ⟨⟨(take (c.measured X P occur inference) c.store).1,
    (take (c.measured X P occur inference) c.store).2, c.inferences + 1⟩, ?_,
    congrArg (· + 1) current.inferences, final ▸ taken⟩
  unfold callerRound
  dsimp only [captureGetChunkInfo]
  rw [ready, complete]
  rfl

end Rounds

/-- The rounds of a caller, as long as those that are to count are programmed. -/
structure CallerRounds (X : Type) (P : Platform H) (evtyper : H → ℕ → Word)
    (enabled : H → ℕ → Bool) (occur : Word → H → H) (programmed : ℕ → Prop)
    (inference : ℕ → Inference) (x : CaptureState H) (take : CaptureState H → S → CaptureState H × S)
    (Taken : ℕ → (ℕ → Word) → S → Prop) (start : Caller H S) : Prop where
  laws : Counts P evtyper enabled occur
  inv : CaptureInvariant x.capture
  takes : Takes programmed inference x.capture take Taken
  first : CallerAt P evtyper enabled programmed inference x Taken 0 start .zero
  programs : ∀ n m, CallerAt P evtyper enabled programmed inference x Taken n
      (callerAfter X P occur inference take start n) m →
    programmed (n + 1) →
      (callerAfter X P occur inference take start n).Programs X P occur inference take

section Ends
variable {start : Caller H S}
  (rounds : CallerRounds X P evtyper enabled occur programmed inference x take Taken start)
  {n : ℕ} {m : Meter Word (ℕ × ℕ)}
include rounds

theorem CallerRounds.goes (more : n + 1 < x.capture.plan.chunks * x.capture.plan.passes)
    (current : CallerAt P evtyper enabled programmed inference x Taken n
      (callerAfter X P occur inference take start n) m) :
    callerRound X P occur inference take (callerAfter X P occur inference take start n) =
        .inl (callerAfter X P occur inference take start (n + 1)) ∧
      ∃ m', CallerAt P evtyper enabled programmed inference x Taken (n + 1)
        (callerAfter X P occur inference take start (n + 1)) m' := by
  have setup := rounds.inv.toCaptureSetup
  have ok := rounds.programs n m current
  obtain ⟨c', m', round, next⟩ : ∃ c' m',
      callerRound X P occur inference take (callerAfter X P occur inference take start n) =
        .inl c' ∧ CallerAt P evtyper enabled programmed inference x Taken (n + 1) c' m' := by
    obtain ⟨k, r, hk, hr, round⟩ := Plan.round_place (Nat.lt_of_succ_lt more)
    by_cases pass : r + 1 < x.capture.plan.passes
    · exact current.nextPass rounds.laws rounds.takes setup ok hk pass round
    · have last : r + 1 = x.capture.plan.passes := by omega
      have chunk : k + 1 < x.capture.plan.chunks := by
        by_contra final
        have whole : x.capture.plan.chunks = k + 1 := by omega
        rw [whole, Nat.succ_mul] at more
        omega
      exact current.nextChunk rounds.laws rounds.takes setup ok chunk last round
  have state : c' = callerAfter X P occur inference take start (n + 1) := by
    rw [callerAfter_succ, Caller.next, round]
    rfl
  rw [← state]
  exact ⟨round, m', next⟩

theorem CallerRounds.stops (last : n + 1 = x.capture.plan.chunks * x.capture.plan.passes)
    (current : CallerAt P evtyper enabled programmed inference x Taken n
      (callerAfter X P occur inference take start n) m) :
    ∃ c', callerRound X P occur inference take (callerAfter X P occur inference take start n) =
        .inr c' ∧ c'.inferences = n + 1 ∧
      Taken x.capture.plan.chunks c'.state.world.mem c'.store := by
  have ok := rounds.programs n m current
  obtain ⟨k, r, hk, hr, round⟩ := Plan.round_place (Nat.lt_of_succ_le last.le)
  have final : k + 1 = x.capture.plan.chunks := by
    by_contra more
    have := Nat.mul_le_mul_right x.capture.plan.passes (show k + 2 ≤ x.capture.plan.chunks by omega)
    rw [Nat.succ_mul, Nat.succ_mul] at this
    omega
  have pass : r + 1 = x.capture.plan.passes := by
    rw [← final, Nat.succ_mul] at last
    omega
  exact current.lastChunk rounds.laws rounds.takes rounds.inv.toCaptureSetup ok final pass round

theorem CallerRounds.ends :
    ∃ c' : Caller H S, (c'.inferences = x.capture.plan.chunks * x.capture.plan.passes ∧
        Taken x.capture.plan.chunks c'.state.world.mem c'.store) ∧
      ∀ fuel, loop (callerRound X P occur inference take) fuel start =
        if x.capture.plan.chunks * x.capture.plan.passes ≤ fuel then some c' else none := by
  have needed := Nat.mul_pos (Nat.zero_lt_of_lt rounds.inv.chunk_lt)
    (Nat.zero_lt_of_lt rounds.inv.pass_lt)
  let I : ℕ → Caller H S → Prop := fun left c => ∃ n m,
    n + left + 1 = x.capture.plan.chunks * x.capture.plan.passes ∧
      c = callerAfter X P occur inference take start n ∧
      CallerAt P evtyper enabled programmed inference x Taken n c m
  have first : I (x.capture.plan.chunks * x.capture.plan.passes - 1) start :=
    ⟨0, .zero, by omega, rfl, rounds.first⟩
  have next : ∀ left c, I (left + 1) c →
      ∃ c', callerRound X P occur inference take c = .inl c' ∧ I left c' := by
    rintro left c ⟨n, m, count, rfl, current⟩
    obtain ⟨round, m', next⟩ := rounds.goes (by omega) current
    exact ⟨_, round, n + 1, m', by omega, rfl, next⟩
  have last : ∀ c, I 0 c → ∃ c', callerRound X P occur inference take c = .inr c' ∧
      (c'.inferences = x.capture.plan.chunks * x.capture.plan.passes ∧
        Taken x.capture.plan.chunks c'.state.world.mem c'.store) := by
    rintro c ⟨n, m, count, rfl, current⟩
    obtain ⟨c', round, inferences, taken⟩ := rounds.stops (by omega) current
    exact ⟨c', round, inferences.trans (by omega), taken⟩
  obtain ⟨c', good, ends⟩ := loop_ends next last first
  refine ⟨c', good, fun fuel => ?_⟩
  rw [ends]
  exact if_congr (by omega) rfl rfl

end Ends

def CaptureCfg.mapEntry (cfg : CaptureCfg) (column : ℕ) : ℕ :=
  match cfg.eventMapIndices with
  | none => column
  | some indices => (indices column).toNat

def CaptureCfg.columnId (cfg : CaptureCfg) (column : ℕ) : Word := mapEventId (cfg.mapEntry column)

section Start
variable {c : Capture} {cfg : CaptureCfg} {w : World H}
  (ok : (captureInit P c cfg w).1 = statusSuccess)
include ok

theorem captureStart_columnId : (captureStart P c cfg w).capture.columnId = cfg.columnId :=
  funext fun e => congrArg mapEventId ((captureStart_invariant ok).2.mapEntry e)

theorem captureStart_known (known : ∀ e < cfg.plan.events, cfg.mapEntry e < pmuMapSize) :
    ∀ e < (captureStart P c cfg w).capture.totalEventCount,
      (captureStart P c cfg w).capture.mapEntry e < pmuMapSize :=
  SameSetup.known (c := cfg.fresh c) (captureStart_invariant ok).2 known

theorem callerStart_ends (laws : Counts P evtyper enabled occur) {s : S}
    (takes : Takes programmed inference (captureStart P c cfg w).capture take Taken)
    (none : Taken 0 (captureStart P c cfg w).world.mem s)
    (programs : ∀ n m,
      let caller := callerAfter X P occur inference take ⟨captureStart P c cfg w, s, 0⟩ n
      CallerAt P evtyper enabled programmed inference (captureStart P c cfg w) Taken n caller m →
      programmed (n + 1) → caller.Programs X P occur inference take) :
    ∃ final : Caller H S, (final.inferences = cfg.plan.chunks * cfg.plan.passes ∧
        Taken cfg.plan.chunks final.state.world.mem final.store) ∧
      ∀ fuel, loop (callerRound X P occur inference take) fuel ⟨captureStart P c cfg w, s, 0⟩ =
        if cfg.plan.chunks * cfg.plan.passes ≤ fuel then some final else Option.none := by
  have rounds : CallerRounds X P evtyper enabled occur programmed inference (captureStart P c cfg w)
      take Taken ⟨captureStart P c cfg w, s, 0⟩ :=
    ⟨laws, (captureStart_invariant ok).1, takes, .start laws ok none, programs⟩
  rw [← (captureStart_position ok).2]
  exact rounds.ends

end Start

end NsxPmu
