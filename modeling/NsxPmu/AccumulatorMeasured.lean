import NsxPmu.Collectors

set_option autoImplicit false

/-!
# Measured batches of an accumulator

`cfg_select_events` drops the status of `nsx_pmu_init`. What a complete accumulator
says about its batches, and what the end of an operator adds in a batch that failed
to be programmed.
-/
namespace NsxPmu
open WordMemory LabelledRuns

variable {H : Type} {P : Platform H} {evtyper : H → ℕ → Word} {B : AccBuild} {h : BitVec 8}

def Pmu.initsSince (s : Pmu H) (mark : ℕ) : List InitRecord := s.inits.take (s.inits.length - mark)

def batchColumns (events k : ℕ) : ℕ := min 4 (events - 4 * k)

/-- A call that asked for the columns of a batch. -/
structure InitRecord.AsksFor (r : InitRecord) (events k : ℕ) : Prop where
  slots : ∀ slot < batchColumns events k,
    r.cfg.events slot = ⟨true, mapEventId (4 * k + slot), .size32⟩
  types : r.status = statusSuccess → ∀ slot < batchColumns events k,
    r.driver.ambiqPmuConfig.eventTypes (2 * slot) = mapEventId (4 * k + slot) ∧
      r.driver.ambiqPmuConfig.eventTypes (2 * slot + 1) = armPmuChain

/-- A successful call among the given ones programmed the columns of a batch. -/
def BatchProgrammed (events k : ℕ) (records : List InitRecord) : Prop :=
  ∃ r ∈ records, r.status = statusSuccess ∧ r.AsksFor events k

/-- The records, newest first, are one for each batch from the first one on. -/
def BatchRecords (events : ℕ) : List InitRecord → Prop
  | [] => True
  | r :: earlier => r.AsksFor events earlier.length ∧ BatchRecords events earlier

theorem BatchRecords.batch {events k : ℕ} {records : List InitRecord}
    (all : BatchRecords events records) (begun : k < records.length) :
    ∃ r ∈ records, r.AsksFor events k := by
  induction records with
  | nil => exact absurd begun (Nat.not_lt_zero k)
  | cons r earlier ih =>
    obtain ⟨newest, all⟩ := all
    by_cases here : k = earlier.length
    · subst here
      exact ⟨r, List.mem_cons_self, newest⟩
    · rw [List.length_cons] at begun
      obtain ⟨r', member, asks⟩ := ih all (by omega)
      exact ⟨r', List.mem_cons_of_mem r member, asks⟩

theorem initsSince_append {s : Pmu H} {own before : List InitRecord}
    (history : s.inits = own ++ before) : s.initsSince before.length = own := by
  unfold Pmu.initsSince
  rw [history, List.length_append, Nat.add_sub_cancel_right]
  exact List.take_left

/-- What keeps a batch that failed to be programmed from showing: the accumulator is not
completed after a failure, and in the batch of a failed call the end of an operator comes only
while the read-out is refused or the PMU holds the batch anyway. Between two calls the hardware
runs on without being programmed. -/
def MeasuresBatches (evtyper : H → ℕ → Word) (mark : ℕ) (a : Acc) (w : World H) : AccCall H → Prop
  | .inferenceEnd => a.complete = false → a.events ≤ a.nextEvent + 4 →
      ∀ r ∈ w.pmu.initsSince mark, r.status = statusSuccess
  | .opEnd op => op.toNat < a.ops → w.pmu.latestInit ≠ some statusSuccess →
      ¬ (w.pmu.driver.initialized = true ∧ w.pmu.driver.profiling = true) ∨
        BatchReady evtyper a w.pmu
  | .elapse f => ∀ k < maxCounters, evtyper (f w.pmu.hw) k = evtyper w.pmu.hw k
  | _ => True

/-- The readings that the end of an operator adds when the read-out succeeds. -/
def readOutSamples (P : Platform H) (evtyper : H → ℕ → Word) (a : Acc) (w : World H)
    (opIdx : BitVec 16) : List Sample :=
  if (pmuGetCounters P a.cfg w.pmu).1 = statusSuccess then accSamples P evtyper a w opIdx else []

/-- The end of an operator adds to the matrix readings of counters that are programmed for the
column, and nothing else. -/
def AddsOwnReadings (B : AccBuild) (P : Platform H) (evtyper : H → ℕ → Word) (h : BitVec 8)
    (x : AccStore H) : AccCall H → Prop
  | .opEnd op =>
    let a := x.accs h.toNat
    let samples := readOutSamples P evtyper a x.world op
    (∀ r < a.ops, ∀ e < a.events,
      (accmStep B P h x (.opEnd op)).world.mem (a.cell r e) =
        x.world.mem (a.cell r e) + sampleTotal r e samples) ∧
    ∀ s ∈ samples, s.lowEvent = mapEventId s.column ∧ s.highEvent = armPmuChain
  | _ => True

structure BatchHistory (evtyper : H → ℕ → Word) (a₀ : Acc) (before own : List InitRecord) (a : Acc)
    (s : Pmu H) : Prop where
  inv : AccInvariant a
  same : SameMatrix a₀ a
  history : s.inits = own ++ before
  records : BatchRecords a₀.events own
  batch : a.complete = false → a.nextEvent + 4 = 4 * own.length
  done : a.complete = true → a.events ≤ 4 * own.length ∧ ∀ r ∈ own, r.status = statusSuccess
  ready : s.latestInit = some statusSuccess → BatchReady evtyper a s
  cleared : ¬ (s.driver.initialized = true ∧ s.driver.profiling = true) →
    ∀ i < maxCounters, (a.cfg.counter i).counterValue = 0

section Steps
variable {a₀ a : Acc} {before own : List InitRecord} {w : World H}

theorem BatchHistory.stays (laws : Programs P evtyper) (m : BatchHistory evtyper a₀ before own a w.pmu)
    {call : AccCall H} (stays : call.endsInference = false)
    (ok : MeasuresBatches evtyper before.length a w call) :
    BatchHistory evtyper a₀ before own (accStep P a w call).1 (accStep P a w call).2.pmu := by
  have keeps := accStep_keeps P w m.inv stays
  have same := keeps.entry
  have quiet : AccQuiet P evtyper a w call := by
    cases call with
    | inferenceEnd => cases stays
    | elapse f => exact ok
    | _ => trivial
  refine ⟨same.invariant m.inv, m.same.trans same.toSameMatrix, keeps.inits.trans m.history,
    m.records, ?_, ?_, ?_, ?_⟩
  · rw [same.nextEvent, same.complete]
    exact m.batch
  · rw [same.complete, same.events]
    exact m.done
  · intro latest
    unfold Pmu.latestInit at latest
    rw [keeps.inits] at latest
    exact accStep_ready laws m.inv (m.ready latest) quiet
  · intro off
    rw [keeps.driver] at off
    rw [keeps.unread off]
    exact m.cleared off

theorem pmuInit_batch (laws : Programs P evtyper) {b : Acc} {k : ℕ} (start : b.nextEvent = 4 * k)
    (s : Pmu H) :
    let r := pmuInit P (pairedConfig (some pmuV1_0_0) b.cfg b.batchSize b.slotId) s
    InitRecord.AsksFor ⟨r.1, r.2.1, r.2.2.driver⟩ b.events k ∧
    (r.2.2.latestInit = some statusSuccess → BatchReady evtyper { b with cfg := r.2.1 } r.2.2) ∧
    ∀ i < maxCounters, (r.2.1.counter i).counterValue = 0 := by
  intro r
  have slots := pairedConfig_slots (some pmuV1_0_0) b.cfg b.batchSize b.slotId
  have columns : batchColumns b.events k = b.batchSize := by
    unfold Acc.batchSize batchColumns
    rw [start]
  have id : ∀ slot, b.slotId slot = mapEventId (4 * k + slot) := by
    intro slot
    rw [Acc.slotId, start]
  refine ⟨⟨fun slot hs => ?_, fun ok slot hs => ?_⟩, fun latest => ?_, batch_unread P b s⟩
  · rw [columns] at hs
    dsimp only [r]
    rw [pmuInit_events, slots.on b.batchSize_le hs, id]
  · rw [columns] at hs
    rw [← id]
    exact (pairsReady_of_init slots b.batchSize_le ok).types hs
  · rw [pmuInit_latest, Option.some.injEq] at latest
    exact batchReady_of_init laws rfl rfl rfl latest

theorem BatchHistory.inferenceEnd (laws : Programs P evtyper)
    (m : BatchHistory evtyper a₀ before own a w.pmu)
    (ok : MeasuresBatches evtyper before.length a w .inferenceEnd) :
    ∃ own', BatchHistory evtyper a₀ before own' (inferenceEnd P a w).1 (inferenceEnd P a w).2.pmu := by
  obtain ⟨inv', same'⟩ := inferenceEnd_invariant (P := P) (w := w) m.inv
  rcases inferenceEnd_cases P w m.inv with
    ⟨-, eq⟩ | ⟨incomplete, last, eq⟩ | ⟨incomplete, more, eq⟩
  · rw [eq]
    exact ⟨own, m⟩
  · have position := m.batch incomplete
    have successes := ok incomplete last
    rw [initsSince_append m.history] at successes
    rw [eq] at inv' same' ⊢
    refine ⟨own, inv', m.same.trans same', m.history, m.records, fun open_ => ?_,
      fun _ => ⟨?_, successes⟩, fun _ => ⟨fun open_ => ?_, fun open_ => ?_⟩, m.cleared⟩
    · cases open_
    · dsimp only [Acc.nextBatch]
      omega
    · cases open_
    · cases open_
  · have position := m.batch incomplete
    have begun := pmuInit_batch laws (P := P) (b := a.nextBatch) (k := own.length) position w.pmu
    have cfg : a.nextBatch.cfg = a.cfg := rfl
    have events : a.nextBatch.events = a₀.events := m.same.events
    rw [cfg] at begun
    rw [eq] at inv' same' ⊢
    generalize pairedConfig (some pmuV1_0_0) a.cfg a.nextBatch.batchSize a.nextBatch.slotId = c at *
    obtain ⟨asks, ready, cleared⟩ := begun
    rw [events] at asks
    refine ⟨⟨(pmuInit P c w.pmu).1, (pmuInit P c w.pmu).2.1, (pmuInit P c w.pmu).2.2.driver⟩ :: own,
      inv', m.same.trans same', ?_, ⟨asks, m.records⟩, fun _ => ?_, fun closed => ?_, ready,
      fun _ => cleared⟩
    · dsimp only
      rw [pmuInit_history, m.history, List.cons_append]
    · dsimp only [Acc.nextBatch]
      rw [List.length_cons]
      omega
    · exact absurd (incomplete.symm.trans closed) (by simp)

theorem BatchHistory.step (laws : Programs P evtyper)
    (m : BatchHistory evtyper a₀ before own a w.pmu) {call : AccCall H}
    (ok : MeasuresBatches evtyper before.length a w call) :
    ∃ own', BatchHistory evtyper a₀ before own' (accStep P a w call).1 (accStep P a w call).2.pmu := by
  cases ends : call.endsInference with
  | false => exact ⟨own, m.stays laws ends ok⟩
  | true =>
    cases call with
    | inferenceEnd => exact m.inferenceEnd laws ok
    | _ => cases ends

theorem BatchHistory.refused (m : BatchHistory evtyper a₀ before own a w.pmu)
    (off : ¬ (w.pmu.driver.initialized = true ∧ w.pmu.driver.profiling = true)) (op : ℕ) :
    (opEnd P op a w).2.mem = w.mem := by
  by_cases inside : op < a.ops
  · rw [opEnd_inside P w m.inv.small inside, pmuGetCounters_refused P a.cfg off]
    apply addAll_zero
    intro slot hs
    have few := a.batchSize_le
    have hs := List.mem_range.mp hs
    exact m.cleared off slot (by dsimp only [maxCounters]; omega)
  · rw [opEnd_outside P w inside]

theorem BatchHistory.opEnd (laws : Programs P evtyper)
    (m : BatchHistory evtyper a₀ before own a w.pmu) {op : BitVec 16}
    (ok : MeasuresBatches evtyper before.length a w (.opEnd op)) :
    (∀ r < a.ops, ∀ e < a.events, (NsxPmu.opEnd P op.toNat a w).2.mem (a.cell r e) =
      w.mem (a.cell r e) + sampleTotal r e (readOutSamples P evtyper a w op)) ∧
    ∀ s ∈ readOutSamples P evtyper a w op,
      s.lowEvent = mapEventId s.column ∧ s.highEvent = armPmuChain := by
  have frame := pmuGetCounters_frame P a.cfg w.pmu
  by_cases off : ¬ (w.pmu.driver.initialized = true ∧ w.pmu.driver.profiling = true)
  · have none_ : readOutSamples P evtyper a w op = [] := if_neg fun status => off (frame.status.mp status)
    rw [none_, m.refused off]
    exact ⟨fun r _ e _ => by rw [sampleTotal_nil, add_zero], fun s hs => by cases hs⟩
  · have on : readOutSamples P evtyper a w op = accSamples P evtyper a w op :=
      if_pos (frame.status.mpr (not_not.mp off))
    rw [on]
    by_cases inside : op.toNat < a.ops
    · have ready : BatchReady evtyper a w.pmu := by
        by_cases latest : w.pmu.latestInit = some statusSuccess
        · exact m.ready latest
        · exact (ok inside latest).resolve_left off
      exact ⟨fun r hr e he => opEnd_samples m.inv ready op hr he,
        accSamples_attributed laws m.inv ready op⟩
    · have none_ : accSamples P evtyper a w op = [] := if_neg inside
      rw [none_, opEnd_outside P w inside]
      exact ⟨fun r _ e _ => by rw [sampleTotal_nil, add_zero], fun s hs => by cases hs⟩

end Steps

def Recorded (B : AccBuild) (evtyper : H → ℕ → Word) (h : BitVec 8) (a₀ : Acc)
    (before : List InitRecord) (x : AccStore H) : Prop :=
  handleToAcc B x.accs h = some h.toNat ∧
    ∃ own, BatchHistory evtyper a₀ before own (x.accs h.toNat) x.world.pmu

section Runs
variable {a₀ : Acc} {before : List InitRecord} {x : AccStore H} {call : AccCall H}

theorem Recorded.step (laws : Programs P evtyper) (m : Recorded B evtyper h a₀ before x)
    (ok : MeasuresBatches evtyper before.length (x.accs h.toNat) x.world call) :
    Recorded B evtyper h a₀ before (accmStep B P h x call) := by
  obtain ⟨live, own, m⟩ := m
  obtain ⟨inside, used⟩ := handleToAcc_live.mp live
  obtain ⟨own', m'⟩ := m.step laws ok
  have same := (accStep_invariant (P := P) (w := x.world) m.inv call).2
  rw [accmStep_live P live call]
  refine ⟨handleToAcc_live.mpr ⟨inside, ?_⟩, own', ?_⟩
  · dsimp only
    rw [Function.update_self, same.inUse, used]
  · dsimp only
    rwa [Function.update_self]

theorem Recorded.adds (laws : Programs P evtyper) (m : Recorded B evtyper h a₀ before x)
    (ok : MeasuresBatches evtyper before.length (x.accs h.toNat) x.world call) :
    AddsOwnReadings B P evtyper h x call := by
  obtain ⟨live, own, m⟩ := m
  cases call with
  | opEnd op =>
    dsimp only [AddsOwnReadings]
    rw [accmStep_live P live]
    exact m.opEnd laws ok
  | _ => trivial

theorem Recorded.programmed (m : Recorded B evtyper h a₀ before x)
    (complete : accmComplete B x.accs h = true) {k : ℕ} (inside : 4 * k < a₀.events) :
    BatchProgrammed a₀.events k (x.world.pmu.initsSince before.length) := by
  obtain ⟨live, own, m⟩ := m
  unfold accmComplete at complete
  rw [live] at complete
  obtain ⟨enough, successes⟩ := m.done complete
  have events := m.same.events
  rw [initsSince_append m.history]
  obtain ⟨r, member, asks⟩ := m.records.batch (k := k) (by omega)
  exact ⟨r, member, successes r member, asks⟩

end Runs

theorem recorded_start (laws : Programs P evtyper) {accs : ℕ → Acc} {ops events : BitVec 16}
    {backingBuf : ℕ} {w : World H}
    (created : (accmCreate B P accs ops events backingBuf w).1 ≠ 0xFF) :
    Recorded B evtyper (accmCreate B P accs ops events backingBuf w).1 (.fresh ops events backingBuf)
      w.pmu.inits (accmStart B P accs ops events backingBuf w).store := by
  have new := accmCreate_created created
  have invariant := new.invariant
  have matrix := new.matrix
  refine ⟨new.live, ?_⟩
  dsimp only [accmStart]
  rw [new.world]
  rw [new.entry] at invariant matrix ⊢
  have first : (Acc.fresh ops events backingBuf).nextEvent = 0 ∧
      (Acc.fresh ops events backingBuf).complete = false := ⟨rfl, rfl⟩
  generalize Acc.fresh ops events backingBuf = a₀ at *
  obtain ⟨asks, ready, cleared⟩ := pmuInit_batch laws (P := P) (k := 0) first.1 w.pmu
  refine ⟨[⟨(firstBatchInit P a₀ w.pmu).1, (firstBatchInit P a₀ w.pmu).2.1,
    (firstBatchInit P a₀ w.pmu).2.2.driver⟩], invariant, matrix, ?_, ⟨asks, trivial⟩, ?_, ?_, ready,
    fun _ => cleared⟩
  · dsimp only
    rw [firstBatchInit, pmuInit_history]
    rfl
  · intro _
    dsimp only
    rw [first.1]
    rfl
  · intro complete
    exact absurd (first.2.symm.trans complete) (by simp)

/-- In every run that meets `MeasuresBatches` at each call: a complete accumulator had each of its
batches programmed by a successful call of `nsx_pmu_init`, and no end of an operator added a
reading of counters that were programmed for another event. -/
theorem complete_accumulator_measured (laws : Programs P evtyper) (accs : ℕ → Acc)
    (ops events : BitVec 16) (backingBuf : ℕ) (w : World H) (h : BitVec 8)
    (handle : h = (accmCreate B P accs ops events backingBuf w).1) (created : h ≠ 0xFF)
    (calls : List (AccCall H))
    (measures : AllSteps (accmStep B P h) (fun x call =>
        MeasuresBatches evtyper w.pmu.inits.length (x.accs h.toNat) x.world call)
      (accmStart B P accs ops events backingBuf w).store calls) :
    let x := run (accmStep B P h) (accmStart B P accs ops events backingBuf w).store calls
    (accmComplete B x.accs h = true → ∀ k, 4 * k < events.toNat →
      BatchProgrammed events.toNat k (x.world.pmu.initsSince w.pmu.inits.length)) ∧
    AllSteps (accmStep B P h) (AddsOwnReadings B P evtyper h)
      (accmStart B P accs ops events backingBuf w).store calls := by
  subst handle
  have start := recorded_start laws created
  have kept : ∀ x call, Recorded B evtyper (accmCreate B P accs ops events backingBuf w).1
        (.fresh ops events backingBuf) w.pmu.inits x →
      MeasuresBatches evtyper w.pmu.inits.length
        (x.accs (accmCreate B P accs ops events backingBuf w).1.toNat) x.world call →
      Recorded B evtyper (accmCreate B P accs ops events backingBuf w).1
        (.fresh ops events backingBuf) w.pmu.inits
        (accmStep B P (accmCreate B P accs ops events backingBuf w).1 x call) :=
    fun _ _ m ok => m.step laws ok
  intro x
  refine ⟨fun complete k inside => ?_, ?_⟩
  · exact (run_invariant kept start measures).programmed complete inside
  · exact AllSteps_of_invariant kept (fun _ _ m ok => m.adds laws ok) start measures

theorem complete_accumulator_measured_ref :
    BatchProgrammed 5 1 ((run (accmStep .default refPlatform 0)
      (accmStart .default refPlatform (fun _ => .zero) 2 5 4096 RefPmu.start.world).store
      [.opEnd 1, .inferenceEnd, .elapse (RefPmu.occur (mapEventId 4)),
        .inferenceEnd]).world.pmu.initsSince 0) :=
  (complete_accumulator_measured (B := .default) refPlatform_programs (fun _ => .zero) 2 5 4096
    RefPmu.start.world 0 rfl (by decide)
    [.opEnd 1, .inferenceEnd, .elapse (RefPmu.occur (mapEventId 4)), .inferenceEnd]
    ⟨fun _ failed => absurd (by decide +kernel) failed, fun _ last => absurd last (by decide +kernel),
      fun _ _ => rfl, fun _ _ => by decide +kernel, trivial⟩).1 (by decide +kernel) 1 (by decide)

/-- Five columns, and the programming of the second batch fails: the end of an operator adds to
the fifth column what the counters of the first batch have counted, and the accumulator is
complete all the same. -/
theorem complete_accumulator_unmeasured :
    let w := ({ RefPmu.start with outcomes := [0, 0, 1] } : RefPmu).world
    let x := run (accmStep .default refPlatform 0)
      (accmStart .default refPlatform (fun _ => .zero) 1 5 4096 w).store
      [.inferenceEnd, .elapse (RefPmu.occur (mapEventId 0))]
    let y := accmStep .default refPlatform 0 x (.opEnd 0)
    let z := accmStep .default refPlatform 0 y .inferenceEnd
    x.world.pmu.latestInit = some statusInitFailed ∧
    x.world.mem (4096 + 4) = 0 ∧ y.world.mem (4096 + 4) = 1 ∧
    x.world.pmu.hw.evtyper 0 = mapEventId 0 ∧ mapEventId 0 ≠ mapEventId 4 ∧
    accmComplete .default z.accs 0 = true ∧
    ¬ BatchProgrammed 5 1 (z.world.pmu.initsSince 0) := by
  intro w x y z
  refine ⟨by decide +kernel, by decide +kernel, by decide +kernel, by decide +kernel,
    by decide +kernel, by decide +kernel, ?_⟩
  rintro ⟨r, member, success, asks⟩
  have other : ∀ r ∈ z.world.pmu.initsSince 0, r.status = statusSuccess →
      (r.cfg.events 0).eventId ≠ mapEventId (4 * 1 + 0) := by
    decide +kernel
  apply other r member success
  rw [asks.slots 0 (by decide)]

end NsxPmu
