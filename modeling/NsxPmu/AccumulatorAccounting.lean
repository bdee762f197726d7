import NsxPmu.AccumulatorLedger
import NsxPmu.ReferencePmu
import NsxPmu.Lib.SlotTable

set_option autoImplicit false

/-!
# The accounting of an accumulator

From `nsx_pmu_accm_create` on, over every sequence of calls through the handle.
-/
namespace NsxPmu
open Function (update)
open WordMemory LabelledRuns SlotTable

variable {H : Type} {P : Platform H} {evtyper : H → ℕ → Word} {B : AccBuild} {h : BitVec 8}

/-- The accumulators and the number of inferences that have ended. -/
structure AccProgress (H : Type) where
  store : AccStore H
  ends : ℕ

def accmProgress (B : AccBuild) (P : Platform H) (h : BitVec 8) (t : AccProgress H)
    (call : AccCall H) : AccProgress H :=
  ⟨accmStep B P h t.store call, if call.endsInference then t.ends + 1 else t.ends⟩

/-- The readings for a cell: the end of its operator, while the number of inferences ended is
the batch of its event, reads the pair of counters of the event. -/
def cellReadings (P : Platform H) (evtyper : H → ℕ → Word) (op e : ℕ) (t : AccProgress H) :
    AccCall H → List Sample
  | .opEnd opIdx =>
    if opIdx.toNat = op ∧ t.ends = e / 4 then
      [pairSample P evtyper (pausedHw P t.store.world.pmu) op (4 * t.ends) (e % 4)]
    else []
  | _ => []

def readingsSum (l : List Sample) : Word := (l.map Sample.value).sum

theorem readingsSum_append (l k : List Sample) :
    readingsSum (l ++ k) = readingsSum l + readingsSum k := by
  simp [readingsSum]

theorem accmProgress_store (t : AccProgress H) (calls : List (AccCall H)) :
    (run (accmProgress B P h) t calls).store = run (accmStep B P h) t.store calls := by
  induction calls generalizing t with
  | nil => rfl
  | cons call calls ih => exact ih _

theorem accmProgress_ends (t : AccProgress H) (calls : List (AccCall H)) :
    (run (accmProgress B P h) t calls).ends = t.ends + calls.countP AccCall.endsInference := by
  induction calls generalizing t with
  | nil => rfl
  | cons call calls ih =>
    rw [run_cons, ih, List.countP_cons]
    dsimp only [accmProgress]
    split <;> omega

structure Collecting (B : AccBuild) (evtyper : H → ℕ → Word) (h : BitVec 8) (a₀ : Acc)
    (t : AccProgress H) : Prop where
  live : handleToAcc B t.store.accs h = some h.toNat
  inv : AccInvariant (t.store.accs h.toNat)
  same : SameMatrix a₀ (t.store.accs h.toNat)
  ready : BatchReady evtyper (t.store.accs h.toNat) t.store.world.pmu
  batch : (t.store.accs h.toNat).complete = false → (t.store.accs h.toNat).nextEvent = 4 * t.ends
  done : (t.store.accs h.toNat).complete = true → (t.store.accs h.toNat).events ≤ 4 * t.ends

theorem accmStep_entry {accs : ℕ → Acc} {w : World H} (live : handleToAcc B accs h = some h.toNat)
    (call : AccCall H) :
    (accmStep B P h ⟨accs, w⟩ call).accs h.toNat = (accStep P (accs h.toNat) w call).1 ∧
      (accmStep B P h ⟨accs, w⟩ call).world = (accStep P (accs h.toNat) w call).2 := by
  rw [accmStep_live P (x := ⟨accs, w⟩) live call]
  exact ⟨Function.update_self .., rfl⟩

theorem accUndisturbed_quiet {x : AccStore H} (live : handleToAcc B x.accs h = some h.toNat)
    {call : AccCall H} (quiet : AccUndisturbed B P evtyper h x call) :
    AccQuiet P evtyper (x.accs h.toNat) x.world call := by
  cases call with
  | inferenceEnd =>
    dsimp only [AccUndisturbed, accmInferenceEnd, onHandle] at quiet
    rw [live] at quiet
    exact quiet
  | elapse f => exact quiet
  | inferenceBegin => trivial
  | opBegin op => trivial
  | opEnd op => trivial
  | resolveTag text tag => trivial
  | findTag text tag => trivial

theorem Collecting.step (laws : Programs P evtyper) {a₀ : Acc} {t : AccProgress H}
    (c : Collecting B evtyper h a₀ t) {call : AccCall H}
    (quiet : AccUndisturbed B P evtyper h t.store call) :
    Collecting B evtyper h a₀ (accmProgress B P h t call) := by
  obtain ⟨⟨accs, w⟩, ends⟩ := t
  obtain ⟨live, inv, same, ready, batch, done⟩ := c
  dsimp only at live inv same ready batch done
  have quiet := accUndisturbed_quiet live quiet
  obtain ⟨entry, world⟩ := accmStep_entry (P := P) (w := w) live call
  obtain ⟨inv', same'⟩ := accStep_invariant (P := P) (w := w) inv call
  have ready' := accStep_ready laws inv ready quiet
  have position : ((accStep P (accs h.toNat) w call).1.complete = false →
        (accStep P (accs h.toNat) w call).1.nextEvent =
          4 * if call.endsInference then ends + 1 else ends) ∧
      ((accStep P (accs h.toNat) w call).1.complete = true →
        (accStep P (accs h.toNat) w call).1.events ≤
          4 * if call.endsInference then ends + 1 else ends) := by
    rw [same'.events]
    cases stays : call.endsInference with
    | false =>
      obtain ⟨next, complete⟩ := accStep_position P w inv stays
      rw [next, complete]
      exact ⟨batch, done⟩
    | true =>
      obtain rfl := AccCall.inferenceEnd_of stays
      dsimp only [accStep]
      simp only [if_true]
      rcases inferenceEnd_cases P w inv with
        ⟨complete, eq⟩ | ⟨incomplete, last, eq⟩ | ⟨incomplete, more, eq⟩
      · rw [eq]
        have before := done complete
        exact ⟨fun open_ => absurd (complete.symm.trans open_) (by simp), fun _ => by omega⟩
      · rw [eq]
        have before := batch incomplete
        refine ⟨fun open_ => ?_, fun _ => by omega⟩
        cases open_
      · rw [eq]
        have before := batch incomplete
        refine ⟨fun _ => ?_, fun closed => ?_⟩
        · dsimp only [Acc.nextBatch]
          omega
        · exact absurd (incomplete.symm.trans closed) (by simp)
  have live' := handleToAcc_live.mp live
  constructor
  · refine handleToAcc_live.mpr ⟨live'.1, ?_⟩
    dsimp only [accmProgress]
    rw [entry, same'.inUse, live'.2]
  all_goals dsimp only [accmProgress]
  · rwa [entry]
  · rw [entry]
    exact same.trans same'
  · rwa [entry, world]
  · rw [entry]
    exact position.1
  · rw [entry]
    exact position.2

theorem Collecting.cell {a₀ : Acc} {t : AccProgress H} (c : Collecting B evtyper h a₀ t)
    (call : AccCall H) {op e : ℕ} (hop : op < a₀.ops) (he : e < a₀.events) :
    (accmProgress B P h t call).store.world.mem (a₀.cell op e) =
      t.store.world.mem (a₀.cell op e) + readingsSum (cellReadings P evtyper op e t call) := by
  obtain ⟨⟨accs, w⟩, ends⟩ := t
  obtain ⟨live, inv, same, ready, batch, done⟩ := c
  dsimp only at live inv same ready batch done
  have world := (accmStep_entry (P := P) (w := w) live call).2
  dsimp only [accmProgress]
  rw [world, ← same.cell op e]
  cases call with
  | opEnd opIdx =>
    dsimp only [accStep, cellReadings]
    rw [opEnd_cell inv ready opIdx.toNat (by rwa [same.ops]) (by rwa [same.events])]
    congr 1
    have position : ((accs h.toNat).nextEvent ≤ e ∧
        e < (accs h.toNat).nextEvent + (accs h.toNat).batchSize) ↔ ends = e / 4 := by
      have row : e < (accs h.toNat).events := by rwa [same.events]
      cases complete : (accs h.toNat).complete with
      | false =>
        rw [batch complete, Acc.batchSize, batch complete]
        omega
      | true =>
        rw [inv.batchSize_complete complete]
        have := done complete
        omega
    by_cases read : opIdx.toNat = op ∧ ends = e / 4
    · have open_ := position.mpr read.2
      rw [if_pos ⟨read.1, open_⟩, if_pos read, pairReading_eq]
      have incomplete : (accs h.toNat).complete = false := by
        by_contra complete
        rw [inv.batchSize_complete (by simpa using complete)] at open_
        omega
      have slot : e - (accs h.toNat).nextEvent = e % 4 := by
        rw [batch incomplete]
        omega
      simp [readingsSum, pairSample, slot]
    · rw [if_neg fun target => read ⟨target.1, position.mp target.2⟩, if_neg read]
      rfl
  | inferenceEnd =>
    dsimp only [accStep]
    rw [inferenceEnd_memory P w inv]
    exact (add_zero _).symm
  | opBegin opIdx =>
    dsimp only [accStep, opBegin]
    split <;> exact (add_zero _).symm
  | inferenceBegin => exact (add_zero _).symm
  | resolveTag text tag => exact (add_zero _).symm
  | findTag text tag => exact (add_zero _).symm
  | elapse f => exact (add_zero _).symm

theorem Collecting.attributed (laws : Programs P evtyper) {a₀ : Acc} {t : AccProgress H}
    (c : Collecting B evtyper h a₀ t) (call : AccCall H) {op e : ℕ} (he : e < a₀.events) :
    ∀ s ∈ cellReadings P evtyper op e t call,
      s.lowEvent = mapEventId e ∧ s.highEvent = armPmuChain := by
  intro s hs
  cases call with
  | opEnd opIdx =>
    dsimp only [cellReadings] at hs
    split at hs
    · rename_i read
      obtain rfl := List.mem_singleton.mp hs
      have row : e < (t.store.accs h.toNat).events := by rwa [c.same.events]
      have incomplete : (t.store.accs h.toNat).complete = false := by
        by_contra complete
        have := c.done (by simpa using complete)
        omega
      have next := c.batch incomplete
      have slot : e % 4 < (t.store.accs h.toNat).batchSize := by
        unfold Acc.batchSize
        omega
      have programmed := ((c.ready.programmed incomplete).of_evtyper (Acc.batchSize_le _)
        fun k hk => laws.pausedHw t.store.world.pmu hk) _ slot
      have event : (t.store.accs h.toNat).nextEvent + e % 4 = e := by omega
      rw [Acc.slotId, event] at programmed
      exact programmed
    · cases hs
  | _ => cases hs

theorem Collecting.memory {a₀ : Acc} {t : AccProgress H} (c : Collecting B evtyper h a₀ t)
    (call : AccCall H) {m : ℕ} (outside : m < a₀.sum ∨ a₀.sum + a₀.ops * a₀.events ≤ m) :
    (accmProgress B P h t call).store.world.mem m = t.store.world.mem m := by
  have world := (accmStep_entry (P := P) (w := t.store.world) c.live call).2
  dsimp only [accmProgress]
  rw [world]
  apply accStep_memory c.inv call
  rwa [c.same.sum, c.same.ops, c.same.events]

theorem Collecting.complete {a₀ : Acc} {t : AccProgress H} (c : Collecting B evtyper h a₀ t) :
    accmComplete B t.store.accs h = true ↔ a₀.events ⌈/⌉ 4 ≤ t.ends := by
  have same := c.same.events
  unfold accmComplete
  rw [c.live, ceilDiv_le_iff_le_mul (by omega)]
  dsimp only
  constructor
  · intro complete
    have := c.done complete
    omega
  · intro enough
    by_contra incomplete
    have incomplete : (t.store.accs h.toNat).complete = false := by simpa using incomplete
    have := c.batch incomplete
    have := c.inv.nextEvent_open incomplete
    omega

section Runs
variable {a₀ : Acc} {t : AccProgress H} {calls : List (AccCall H)}

theorem Collecting.after (laws : Programs P evtyper) (c : Collecting B evtyper h a₀ t)
    (quiet : AllSteps (accmProgress B P h) (fun t call => AccUndisturbed B P evtyper h t.store call)
      t calls) :
    Collecting B evtyper h a₀ (run (accmProgress B P h) t calls) :=
  run_invariant (fun _ _ c ok => c.step laws ok) c quiet

theorem Collecting.ledger (laws : Programs P evtyper) (c : Collecting B evtyper h a₀ t)
    (quiet : AllSteps (accmProgress B P h) (fun t call => AccUndisturbed B P evtyper h t.store call)
      t calls) {op e : ℕ} (hop : op < a₀.ops) (he : e < a₀.events) :
    (run (accmProgress B P h) t calls).store.world.mem (a₀.cell op e) =
      t.store.world.mem (a₀.cell op e) +
        readingsSum (collect (accmProgress B P h) (cellReadings P evtyper op e) t calls) :=
  run_ledger (fun t : AccProgress H => t.store.world.mem (a₀.cell op e)) readingsSum rfl
    readingsSum_append (fun _ _ c ok => c.step laws ok) (fun _ call c _ => c.cell call hop he) c quiet

theorem Collecting.attributed_after (laws : Programs P evtyper) (c : Collecting B evtyper h a₀ t)
    (quiet : AllSteps (accmProgress B P h) (fun t call => AccUndisturbed B P evtyper h t.store call)
      t calls) {op e : ℕ} (he : e < a₀.events) :
    ∀ s ∈ collect (accmProgress B P h) (cellReadings P evtyper op e) t calls,
      s.lowEvent = mapEventId e ∧ s.highEvent = armPmuChain :=
  collect_forall (fun _ _ c ok => Collecting.step laws c ok)
    (fun _ call c _ => Collecting.attributed laws c call he) c quiet

theorem Collecting.memory_after (laws : Programs P evtyper) (c : Collecting B evtyper h a₀ t)
    (quiet : AllSteps (accmProgress B P h) (fun t call => AccUndisturbed B P evtyper h t.store call)
      t calls) {m : ℕ} (outside : m < a₀.sum ∨ a₀.sum + a₀.ops * a₀.events ≤ m) :
    (run (accmProgress B P h) t calls).store.world.mem m = t.store.world.mem m := by
  have kept : ∀ y call, (Collecting B evtyper h a₀ y ∧ y.store.world.mem m = t.store.world.mem m) →
      AccUndisturbed B P evtyper h y.store call →
      Collecting B evtyper h a₀ (accmProgress B P h y call) ∧
        (accmProgress B P h y call).store.world.mem m = t.store.world.mem m :=
    fun _ call c ok => ⟨c.1.step laws ok, (c.1.memory call outside).trans c.2⟩
  exact (run_invariant kept ⟨c, rfl⟩ quiet).2

theorem Collecting.frozen (laws : Programs P evtyper) (c : Collecting B evtyper h a₀ t)
    (complete : accmComplete B t.store.accs h = true) {call : AccCall H}
    (ok : AccUndisturbed B P evtyper h t.store call) :
    (accmStep B P h t.store call).world.mem = t.store.world.mem ∧
    (accmStep B P h t.store call).world.pmu.inits = t.store.world.pmu.inits ∧
    ∀ k < maxCounters,
      evtyper (accmStep B P h t.store call).world.pmu.hw k = evtyper t.store.world.pmu.hw k := by
  unfold accmComplete at complete
  rw [c.live] at complete
  have frozen := accStep_complete laws c.inv complete (accUndisturbed_quiet c.live ok)
  rw [(accmStep_entry (P := P) (w := t.store.world) c.live call).2]
  exact frozen.2

end Runs

/-- The indices an entry computes: those into `sum` and into the map of events and the
counters of its configuration are inside, and no store to a narrow field changes its value. -/
structure AccIndexSafe (a : Acc) : Prop where
  cell : ∀ op < a.ops, ∀ i < eventsPerRun, u16 (a.nextEvent + i) < a.events →
    op * a.events + u16 (a.nextEvent + i) < a.ops * a.events
  mapIndex : ∀ i < eventsPerRun, u16 (a.nextEvent + i) < a.events →
    u16 (a.nextEvent + i) = a.nextEvent + i ∧ a.nextEvent + i < pmuMapSize
  nextBatch : u16 (a.nextEvent + eventsPerRun) = a.nextEvent + eventsPerRun

theorem AccInvariant.indexSafe {a : Acc} (inv : AccInvariant a) : AccIndexSafe a := by
  have small := inv.small
  have count := inv.events_le
  have exact16 : ∀ i < eventsPerRun, u16 (a.nextEvent + i) = a.nextEvent + i := by
    intro i hi
    dsimp only [eventsPerRun, maxCounters] at hi
    exact u16_of_lt (by omega)
  refine ⟨?_, ?_, u16_of_lt small⟩
  · intro op hop i _ he
    exact rowMajor_lt hop he
  · intro i hi he
    rw [exact16 i hi] at he ⊢
    dsimp only [pmuMapSize]
    omega

def Acc.fresh (ops events : BitVec 16) (backingBuf : ℕ) : Acc :=
  { Acc.zero with
    inUse := true, ops := ops.toNat, events := events.toNat, sum := backingBuf }

def firstBatchInit (P : Platform H) (a : Acc) (s : Pmu H) : Status × PmuConfig × Pmu H :=
  pmuInit P (pairedConfig (some pmuV1_0_0) a.cfg a.batchSize a.slotId) s

theorem batch_unread (P : Platform H) (b : Acc) (s : Pmu H) :
    ∀ i < maxCounters, ((pmuInit P (pairedConfig (some pmuV1_0_0) b.cfg b.batchSize b.slotId)
      s).2.1.counter i).counterValue = 0 := by
  apply pmuInit_cleared
  intro i hi
  dsimp only [pairedConfig, pmuResetConfig]
  rw [if_pos hi]

/-- What `nsx_pmu_accm_create` does when it returns a handle. -/
structure Created (B : AccBuild) (P : Platform H) (accs : ℕ → Acc) (ops events : BitVec 16)
    (backingBuf : ℕ) (w : World H) (r : BitVec 8 × (ℕ → Acc) × World H) : Prop where
  buffer : backingBuf ≠ 0
  ops_pos : 1 ≤ ops.toNat
  ops_le : ops.toNat ≤ B.maxOps
  events_pos : 1 ≤ events.toNat
  events_le : events.toNat ≤ 70
  index : r.1.toNat < B.maxActive
  table : r.2.1 = update accs r.1.toNat
    { Acc.fresh ops events backingBuf with
      cfg := (firstBatchInit P (.fresh ops events backingBuf) w.pmu).2.1 }
  world : r.2.2 = ⟨(firstBatchInit P (.fresh ops events backingBuf) w.pmu).2.2,
    zeroRange w.mem backingBuf (ops.toNat * events.toNat)⟩

/-- What `nsx_pmu_accm_create` asks of its arguments. -/
def ValidMatrix (B : AccBuild) (ops events : BitVec 16) (backingBuf : ℕ) : Prop :=
  backingBuf ≠ 0 ∧ 1 ≤ ops.toNat ∧ ops.toNat ≤ B.maxOps ∧ 1 ≤ events.toNat ∧
    events.toNat ≤ pmuMapSize

section Create
variable {accs : ℕ → Acc} {ops events : BitVec 16} {backingBuf : ℕ} {w : World H}

theorem accmCreate_cases (B : AccBuild) (P : Platform H) (accs : ℕ → Acc) (ops events : BitVec 16)
    (backingBuf : ℕ) (w : World H) :
    ((¬ ValidMatrix B ops events backingBuf ∨
        firstFree (fun i => (accs i).inUse) B.maxActive = none) ∧
      accmCreate B P accs ops events backingBuf w = (0xFF, accs, w)) ∨
    (ValidMatrix B ops events backingBuf ∧
      firstFree (fun i => (accs i).inUse) B.maxActive =
        some (accmCreate B P accs ops events backingBuf w).1.toNat ∧
      (accmCreate B P accs ops events backingBuf w).1 ≠ 0xFF ∧
      Created B P accs ops events backingBuf w (accmCreate B P accs ops events backingBuf w)) := by
  by_cases refused : backingBuf = 0 ∨ ops.toNat = 0 ∨ ops.toNat > B.maxOps ∨ events.toNat = 0 ∨
      events.toNat > pmuMapSize
  · refine .inl ⟨.inl ?_, if_pos refused⟩
    rintro ⟨buffer, opsPos, opsLe, eventsPos, eventsLe⟩
    omega
  · have valid : ValidMatrix B ops events backingBuf := by
      refine ⟨?_, ?_, ?_, ?_, ?_⟩ <;> omega
    cases free : firstFree (fun i => (accs i).inUse) B.maxActive with
    | none =>
      refine .inl ⟨.inr rfl, ?_⟩
      unfold firstFree at free
      unfold accmCreate
      rw [if_neg refused, free]
    | some idx =>
      right
      have inside := (firstFree_some free).1
      have room := B.maxActive_le
      have byte : (BitVec.ofNat 8 idx).toNat = idx := by
        rw [BitVec.toNat_ofNat]
        omega
      have small : (Acc.fresh ops events backingBuf).nextEvent + 4 < 65536 := by
        dsimp only [Acc.fresh, Acc.zero]
        omega
      have batch : cfgSelectEvents P (Acc.fresh ops events backingBuf) w.pmu =
          ({ Acc.fresh ops events backingBuf with
              cfg := (firstBatchInit P (.fresh ops events backingBuf) w.pmu).2.1 },
            (firstBatchInit P (.fresh ops events backingBuf) w.pmu).2.2) := by
        rw [cfgSelectEvents, batchConfig_eq small]
        rfl
      have eq : accmCreate B P accs ops events backingBuf w = (BitVec.ofNat 8 idx,
          update accs idx (cfgSelectEvents P (Acc.fresh ops events backingBuf) w.pmu).1,
          ⟨(cfgSelectEvents P (Acc.fresh ops events backingBuf) w.pmu).2,
            zeroRange w.mem backingBuf (ops.toNat * events.toNat)⟩) := by
        unfold firstFree at free
        unfold accmCreate
        rw [if_neg refused, free]
        rfl
      rw [eq, batch, byte]
      obtain ⟨buffer, opsPos, opsLe, eventsPos, eventsLe⟩ := id valid
      refine ⟨valid, rfl, fun failed => ?_, buffer, opsPos, opsLe, eventsPos, eventsLe, ?_, ?_, rfl⟩
      · have full : (255 : BitVec 8).toNat = 255 := rfl
        change BitVec.ofNat 8 idx = 0xFF at failed
        rw [failed, full] at byte
        omega
      · rwa [byte]
      · rw [byte]

theorem accmCreate_created (created : (accmCreate B P accs ops events backingBuf w).1 ≠ 0xFF) :
    Created B P accs ops events backingBuf w (accmCreate B P accs ops events backingBuf w) := by
  rcases accmCreate_cases B P accs ops events backingBuf w with ⟨-, eq⟩ | ⟨-, -, -, new⟩
  · rw [eq] at created
    exact absurd rfl created
  · exact new

theorem accmCreate_failed (failed : (accmCreate B P accs ops events backingBuf w).1 = 0xFF) :
    (accmCreate B P accs ops events backingBuf w).2 = (accs, w) := by
  rcases accmCreate_cases B P accs ops events backingBuf w with ⟨-, eq⟩ | ⟨-, -, created, -⟩
  · rw [eq]
  · exact absurd failed created

theorem accmCreate_succeeds_iff :
    (accmCreate B P accs ops events backingBuf w).1 ≠ 0xFF ↔
      ValidMatrix B ops events backingBuf ∧
        ∃ i, firstFree (fun i => (accs i).inUse) B.maxActive = some i := by
  rcases accmCreate_cases B P accs ops events backingBuf w with
    ⟨refused, eq⟩ | ⟨valid, free, created, -⟩
  · rw [eq]
    refine ⟨fun created => absurd rfl created, ?_⟩
    rintro ⟨valid, i, free⟩
    rw [free] at refused
    exact absurd valid (refused.resolve_right (by simp))
  · exact ⟨fun _ => ⟨valid, _, free⟩, fun _ => created⟩

theorem accmCreate_index_iff :
    (accmCreate B P accs ops events backingBuf w).1.toNat < B.maxActive ↔
      (accmCreate B P accs ops events backingBuf w).1 ≠ 0xFF := by
  constructor
  · intro inside failed
    rw [failed] at inside
    have room := B.maxActive_le
    have full : (255 : BitVec 8).toNat = 255 := rfl
    omega
  · intro created
    exact (accmCreate_created created).index

theorem accmCreate_free (created : (accmCreate B P accs ops events backingBuf w).1 ≠ 0xFF) :
    (accs (accmCreate B P accs ops events backingBuf w).1.toNat).inUse = false := by
  rcases accmCreate_cases B P accs ops events backingBuf w with ⟨-, eq⟩ | ⟨-, free, -, -⟩
  · rw [eq] at created
    exact absurd rfl created
  · exact (firstFree_some free).2

end Create

section Created
variable {accs : ℕ → Acc} {ops events : BitVec 16} {backingBuf : ℕ} {w : World H}
  {r : BitVec 8 × (ℕ → Acc) × World H}

theorem Created.entry (new : Created B P accs ops events backingBuf w r) :
    r.2.1 r.1.toNat = { Acc.fresh ops events backingBuf with
      cfg := (firstBatchInit P (.fresh ops events backingBuf) w.pmu).2.1 } := by
  rw [new.table]
  exact Function.update_self ..

theorem Created.live (new : Created B P accs ops events backingBuf w r) :
    handleToAcc B r.2.1 r.1 = some r.1.toNat := by
  refine handleToAcc_live.mpr ⟨new.index, ?_⟩
  rw [new.entry]
  rfl

theorem Created.invariant (new : Created B P accs ops events backingBuf w r) :
    AccInvariant (r.2.1 r.1.toNat) := by
  have pos := new.events_pos
  rw [new.entry]
  refine ⟨new.ops_pos, pos, new.events_le, ?_, ?_⟩
  · dsimp only [Acc.fresh, Acc.zero]
    omega
  · dsimp only [Acc.fresh, Acc.zero]
    simp only [Bool.false_eq_true, false_iff]
    omega

theorem Created.zeroed (new : Created B P accs ops events backingBuf w r) {op e : ℕ}
    (hop : op < ops.toNat) (he : e < events.toNat) :
    r.2.2.mem ((Acc.fresh ops events backingBuf).cell op e) = 0 := by
  have inside := rowMajor_lt hop he
  dsimp only [Acc.cell, Acc.fresh]
  rw [new.world]
  exact zeroRange_inside _ (Nat.le_add_right _ _) (by omega)

theorem Created.matrix (new : Created B P accs ops events backingBuf w r) :
    SameMatrix (.fresh ops events backingBuf) (r.2.1 r.1.toNat) := by
  rw [new.entry]
  exact ⟨rfl, rfl, rfl, rfl⟩

end Created

def accmStart (B : AccBuild) (P : Platform H) (accs : ℕ → Acc) (ops events : BitVec 16)
    (backingBuf : ℕ) (w : World H) : AccProgress H :=
  ⟨⟨(accmCreate B P accs ops events backingBuf w).2.1,
    (accmCreate B P accs ops events backingBuf w).2.2⟩, 0⟩

theorem collecting_start (laws : Programs P evtyper) {accs : ℕ → Acc} {ops events : BitVec 16}
    {backingBuf : ℕ} {w : World H}
    (created : (accmCreate B P accs ops events backingBuf w).1 ≠ 0xFF)
    (programmed : (accmCreate B P accs ops events backingBuf w).2.2.pmu.latestInit =
      some statusSuccess) :
    Collecting B evtyper (accmCreate B P accs ops events backingBuf w).1
      (.fresh ops events backingBuf) (accmStart B P accs ops events backingBuf w) := by
  have new := accmCreate_created created
  rw [new.world] at programmed
  dsimp only at programmed
  rw [firstBatchInit, pmuInit_latest, Option.some.injEq] at programmed
  refine ⟨new.live, new.invariant, new.matrix, ?_, ?_, ?_⟩
  all_goals dsimp only [accmStart]
  all_goals rw [new.entry]
  · rw [new.world]
    exact batchReady_of_init laws (a := .fresh ops events backingBuf) rfl rfl rfl programmed
  · exact fun _ => rfl
  · exact fun complete => by cases complete

/-- Over every sequence of calls through a new handle, as long as the programming of the PMU
succeeds and nobody else programs it: a cell is the sum of the readings taken for it, all of
them from counters programmed for its event; the accumulator is complete from the inference
that measures its last batch on, and then nothing changes the matrix or programs the PMU. -/
theorem accumulator_accounting (laws : Programs P evtyper) (accs : ℕ → Acc)
    (ops events : BitVec 16) (backingBuf : ℕ) (w : World H) (h : BitVec 8)
    (handle : h = (accmCreate B P accs ops events backingBuf w).1) (created : h ≠ 0xFF)
    (programmed : (accmCreate B P accs ops events backingBuf w).2.2.pmu.latestInit =
      some statusSuccess)
    (calls : List (AccCall H))
    (quiet : AllSteps (accmProgress B P h) (fun t call => AccUndisturbed B P evtyper h t.store call)
      (accmStart B P accs ops events backingBuf w) calls) :
    let start := accmStart B P accs ops events backingBuf w
    let x := run (accmStep B P h) start.store calls
    (∀ op < ops.toNat, ∀ e < events.toNat,
      x.world.mem (backingBuf + (op * events.toNat + e)) = readingsSum
        (collect (accmProgress B P h) (cellReadings P evtyper op e) start calls) ∧
      ∀ s ∈ collect (accmProgress B P h) (cellReadings P evtyper op e) start calls,
        s.lowEvent = mapEventId e ∧ s.highEvent = armPmuChain) ∧
    (accmComplete B x.accs h = true ↔
      events.toNat ⌈/⌉ 4 ≤ calls.countP AccCall.endsInference) ∧
    (accmComplete B x.accs h = true → ∀ call, AccUndisturbed B P evtyper h x call →
      (accmStep B P h x call).world.mem = x.world.mem ∧
      (accmStep B P h x call).world.pmu.inits = x.world.pmu.inits ∧
      ∀ k < maxCounters,
        evtyper (accmStep B P h x call).world.pmu.hw k = evtyper x.world.pmu.hw k) ∧
    AccIndexSafe (x.accs h.toNat) ∧
    ∀ m, m < backingBuf ∨ backingBuf + ops.toNat * events.toNat ≤ m → x.world.mem m = w.mem m := by
  subst handle
  have new := accmCreate_created created
  have start := collecting_start laws created programmed
  have last := start.after laws quiet
  have store := accmProgress_store (B := B) (P := P)
    (h := (accmCreate B P accs ops events backingBuf w).1)
    (accmStart B P accs ops events backingBuf w) calls
  intro begin x
  have finish : (run (accmProgress B P (accmCreate B P accs ops events backingBuf w).1)
    (accmStart B P accs ops events backingBuf w) calls).store = x := store
  refine ⟨?_, ?_, ?_, ?_, ?_⟩
  · intro op hop e he
    refine ⟨?_, start.attributed_after laws quiet he⟩
    have balance := start.ledger laws quiet hop he
    have zero : begin.store.world.mem ((Acc.fresh ops events backingBuf).cell op e) = 0 :=
      new.zeroed hop he
    rw [finish, zero, zero_add] at balance
    exact balance
  · have complete := last.complete
    rw [finish, accmProgress_ends, accmStart, Nat.zero_add] at complete
    exact complete
  · intro complete call ok
    rw [← finish] at complete ok ⊢
    exact last.frozen laws complete ok
  · rw [← finish]
    exact last.inv.indexSafe
  · intro m outside
    rw [← finish, start.memory_after laws quiet outside]
    dsimp only [accmStart]
    rw [new.world]
    exact zeroRange_outside _ outside

theorem accumulator_accounting_ref :
    accmComplete .default (run (accmStep .default refPlatform 0)
      (accmStart .default refPlatform (fun _ => .zero) 2 5 4096 RefPmu.start.world).store
      [.opBegin 1, .elapse (RefPmu.occur (mapEventId 0)), .opEnd 1, .inferenceEnd, .opEnd 7,
        .inferenceEnd, .opEnd 1]).accs 0 = true :=
  (accumulator_accounting (B := .default) refPlatform_programs (fun _ => .zero) 2 5 4096
    RefPmu.start.world 0 rfl (by decide) rfl
    [.opBegin 1, .elapse (RefPmu.occur (mapEventId 0)), .opEnd 1, .inferenceEnd, .opEnd 7,
      .inferenceEnd, .opEnd 1]
    ⟨trivial, fun _ _ => rfl, trivial, rfl, trivial, rfl, trivial, trivial⟩).2.1.mpr (by decide)

end NsxPmu
