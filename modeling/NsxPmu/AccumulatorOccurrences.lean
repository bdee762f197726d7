import NsxPmu.AccumulatorMeasured
import NsxPmu.CaptureInference

set_option autoImplicit false

/-!
# What an accumulator counts

The matrix of an accumulator against the occurrences of events themselves. In
what its calls mean for the counts an accumulator is a capture with one chunk,
whose passes are its inferences.
-/
namespace NsxPmu
open WordMemory LabelledRuns WindowCounts
open Function (update)

variable {H : Type}

/-- What happens to an accumulator under way: one occurrence of an event, or a call through its
handle. -/
inductive AccLive where
  | occur (event : Word)
  | inferenceBegin
  | inferenceEnd
  | opBegin (opIdx : BitVec 16)
  | opEnd (opIdx : BitVec 16)
  | resolveTag (text : ℕ → List (BitVec 8)) (tag : ℕ)
  | findTag (text : ℕ → List (BitVec 8)) (tag : ℕ)

def AccLive.toCall (occur : Word → H → H) : AccLive → AccCall H
  | .occur event => .elapse (occur event)
  | .inferenceBegin => .inferenceBegin
  | .inferenceEnd => .inferenceEnd
  | .opBegin op => .opBegin op
  | .opEnd op => .opEnd op
  | .resolveTag text tag => .resolveTag text tag
  | .findTag text tag => .findTag text tag

def accLiveStep (B : AccBuild) (P : Platform H) (occur : Word → H → H) (h : BitVec 8)
    (x : AccStore H) (call : AccLive) : AccStore H :=
  accmStep B P h x (call.toCall occur)

/-- Every `nsx_pmu_init` that the call makes succeeds. -/
def AccLive.Succeeds (B : AccBuild) (P : Platform H) (h : BitVec 8) (x : AccStore H) :
    AccLive → Prop
  | .inferenceEnd =>
    ∀ r ∈ (accmInferenceEnd B P x.accs h x.world).2.pmu.initsSince x.world.pmu.inits.length,
      r.status = statusSuccess
  | _ => True

def AccLive.onCapture : AccLive → List (LiveCall Unit)
  | .occur event => [.occur event]
  | .inferenceBegin => [.modelBegin]
  | .inferenceEnd => [.modelEnd]
  | .opBegin op => [.layerBegin op]
  | .opEnd op => [.layerEnd op]
  | _ => []

def batchPlan (ops events : ℕ) : Plan := ⟨ops, ops, events, eventsPerRun⟩

/-- Where an accumulator stands after some inferences. -/
def batchPosition (ends : ℕ) : Position := ⟨0, ends, false, false⟩

def batchTicks (ops events ends : ℕ) (call : AccLive) : List (Tick Word (ℕ × ℕ)) :=
  call.onCapture.flatMap ((batchPlan ops events).ticks mapEventId (batchPosition ends))

def AccLive.ends (ends : ℕ) : AccLive → ℕ
  | .inferenceEnd => ends + 1
  | _ => ends

/-- The history of the calls after some inferences, from the size of the matrix alone. -/
def batchHistory (ops events ends : ℕ) (calls : List AccLive) : List (Tick Word (ℕ × ℕ)) :=
  collect AccLive.ends (batchTicks ops events) ends calls

theorem batchPlan_covers (ops events ends op : ℕ) :
    (batchPlan ops events).covers (batchPosition ends) op ↔ op < ops := by
  unfold Plan.covers
  dsimp only [batchPlan, batchPosition]
  omega

theorem batchPlan_measures (ops events ends column : ℕ) :
    (batchPlan ops events).measures (batchPosition ends) column ↔
      ends = column / 4 ∧ column < events := by
  unfold Plan.measures
  dsimp only [batchPlan, batchPosition, eventsPerRun, maxCounters]
  omega

theorem batchPlan_more {events : ℕ} (ops ends : ℕ) :
    ends + 1 < (batchPlan ops events).passes ↔ 4 * ends + 4 < events := by
  have positive : 0 < (batchPlan ops events).eventsPerPass := by
    change 0 < eventsPerRun
    decide
  rw [← not_le, Plan.passes, ceilDiv_le_iff_le_mul positive]
  dsimp only [batchPlan, eventsPerRun, maxCounters]
  omega

theorem batchTicks_inferenceEnd (ops events ends : ℕ) :
    batchTicks ops events ends .inferenceEnd = if 4 * ends + 4 < events then [.mark] else [] := by
  have more : ends + 1 < (batchPlan ops events).passes ↔ 4 * ends + 4 < events :=
    batchPlan_more ops ends
  dsimp only [batchTicks, AccLive.onCapture]
  rw [List.flatMap_singleton]
  simp only [Plan.ticks, batchPosition, Bool.not_false, Bool.true_and, decide_eq_true_eq, more]

theorem pmuInit_initsSince (P : Platform H) (cfg : PmuConfig) (s : Pmu H) :
    (pmuInit P cfg s).2.2.initsSince s.inits.length =
      [⟨(pmuInit P cfg s).1, (pmuInit P cfg s).2.1, (pmuInit P cfg s).2.2.driver⟩] :=
  initsSince_append (pmuInit_history P cfg s)

section Entry
variable {P : Platform H} {evtyper : H → ℕ → Word} {enabled : H → ℕ → Bool} {occur : Word → H → H}

/-- In the columns of the batches that have been programmed the matrix of an entry holds the totals
of a meter. Until the entry is complete the pairs of counters hold its open window, if the batch has
been programmed. -/
structure EntryMetered (P : Platform H) (evtyper : H → ℕ → Word) (enabled : H → ℕ → Bool)
    (programmed : ℕ → Prop) (a₀ a : Acc) (w : World H) (ends : ℕ) (m : Meter Word (ℕ × ℕ)) :
    Prop where
  inv : AccInvariant a
  same : SameMatrix a₀ a
  batch : a.complete = false → a.nextEvent = 4 * ends
  done : a.complete = true → a.events ≤ 4 * ends
  counting : a.complete = false → programmed ends →
    PairsCount P evtyper enabled a.batchSize a.slotId a.cfg w.pmu m.since
  cells : ∀ op < a₀.ops, ∀ e < a₀.events, programmed (e / 4) →
    (w.mem (a₀.cell op e)).toNat = m.total (op, e) % 2 ^ 32

variable {programmed : ℕ → Prop} {a₀ a : Acc} {w : World H} {ends : ℕ} {m : Meter Word (ℕ × ℕ)}

theorem EntryMetered.measures
    (metered : EntryMetered P evtyper enabled programmed a₀ a w ends m) {e : ℕ}
    (he : e < a.events) :
    a.nextEvent ≤ e ∧ e < a.nextEvent + a.batchSize ↔ ends = e / 4 := by
  cases complete : a.complete with
  | false =>
    have batch := metered.batch complete
    unfold Acc.batchSize
    omega
  | true =>
    have done := metered.done complete
    rw [metered.inv.batchSize_complete complete]
    omega

theorem EntryMetered.opBegin (laws : Counts P evtyper enabled occur)
    (metered : EntryMetered P evtyper enabled programmed a₀ a w ends m) (op : BitVec 16) :
    EntryMetered P evtyper enabled programmed a₀ (opBegin P op.toNat a w).1
      (opBegin P op.toNat a w).2 ends
      (run meterStep m (batchTicks a₀.ops a₀.events ends (.opBegin op))) := by
  have covers := batchPlan_covers a₀.ops a₀.events ends op.toNat
  have ops := metered.same.ops
  dsimp only [batchTicks, AccLive.onCapture]
  rw [List.flatMap_singleton]
  dsimp only [Plan.ticks]
  unfold NsxPmu.opBegin
  by_cases inside : op.toNat < a₀.ops
  · rw [if_neg (by omega), if_pos (covers.mpr inside)]
    exact ⟨metered.inv, metered.same, metered.batch, metered.done,
      fun counting ok => (metered.counting counting ok).resetCounters laws, metered.cells⟩
  · rw [if_pos (by omega), if_neg fun h => inside (covers.mp h)]
    exact metered

theorem EntryMetered.opEnd (laws : Counts P evtyper enabled occur)
    (metered : EntryMetered P evtyper enabled programmed a₀ a w ends m) (op : BitVec 16) :
    EntryMetered P evtyper enabled programmed a₀ (opEnd P op.toNat a w).1
      (opEnd P op.toNat a w).2 ends
      (run meterStep m (batchTicks a₀.ops a₀.events ends (.opEnd op))) := by
  have covers := batchPlan_covers a₀.ops a₀.events ends op.toNat
  have ops := metered.same.ops
  have events := metered.same.events
  have kept := accStep_invariant (P := P) (w := w) metered.inv (.opEnd op)
  dsimp only [batchTicks, AccLive.onCapture]
  rw [List.flatMap_singleton]
  dsimp only [Plan.ticks, accStep] at kept ⊢
  by_cases inside : op.toNat < a₀.ops
  · rw [opEnd_inside P w metered.inv.small (by omega)] at kept ⊢
    rw [if_pos (covers.mpr inside)]
    refine ⟨kept.1, metered.same.trans kept.2, metered.batch, metered.done, ?_, ?_⟩
    · exact fun counting ok => ((metered.counting counting ok).getCounters laws).2.2
    · intro r hr e he ok
      have row : ∀ i < a.batchSize, a.nextEvent + i < a.events := by
        unfold Acc.batchSize
        omega
      have he' : e < a.events := he.trans_eq events.symm
      have values : ∀ i < a.batchSize, a.nextEvent + i = e →
          ((pmuGetCounters P a.cfg w.pmu).2.1.counter i).counterValue.toNat =
            m.since (mapEventId (a.nextEvent + i)) % 2 ^ 32 := by
        rintro i hi rfl
        have counting : a.complete = false := by
          by_contra complete
          rw [metered.inv.batchSize_complete (by simpa using complete)] at hi
          exact absurd hi i.not_lt_zero
        have now := (metered.measures he').mp ⟨Nat.le_add_right _ _, Nat.add_lt_add_left hi _⟩
        rw [← now] at ok
        exact ((metered.counting counting ok).getCounters laws).2.1 i hi
      have read : (op.toNat = r ∧ a.nextEvent ≤ e ∧ e < a.nextEvent + a.batchSize) ↔
          r = op.toNat ∧ (batchPlan a₀.ops a₀.events).measures (batchPosition ends) e := by
        rw [metered.measures he', batchPlan_measures]
        exact and_congr eq_comm (and_iff_left he).symm
      have held := metered.cells r hr e he ok
      rw [← metered.same.cell r e] at held ⊢
      refine (addAll_row_counts (fun e => m.since (mapEventId e)) row he' values held).trans ?_
      rw [run_cons, run_nil, meterStep]
      dsimp only
      rw [Plan.elim_reads]
      exact congrArg (fun n => (_ + n) % 2 ^ 32) (if_congr read rfl rfl)
  · rw [opEnd_outside P w (by omega), if_neg fun h => inside (covers.mp h)]
    exact metered

theorem EntryMetered.inferenceEnd (laws : Counts P evtyper enabled occur)
    (metered : EntryMetered P evtyper enabled programmed a₀ a w ends m)
    (ok : programmed (ends + 1) →
      ∀ r ∈ (inferenceEnd P a w).2.pmu.initsSince w.pmu.inits.length, r.status = statusSuccess) :
    EntryMetered P evtyper enabled programmed a₀ (inferenceEnd P a w).1 (inferenceEnd P a w).2 (ends + 1)
      (run meterStep m (batchTicks a₀.ops a₀.events ends .inferenceEnd)) := by
  have kept := inferenceEnd_invariant (P := P) (w := w) metered.inv
  have events := metered.same.events
  rw [batchTicks_inferenceEnd]
  rcases inferenceEnd_cases P w metered.inv with
    ⟨complete, eq⟩ | ⟨incomplete, last, eq⟩ | ⟨incomplete, next, eq⟩
  · have done := metered.done complete
    rw [eq, if_neg (by omega)]
    have ended : a.complete ≠ false := by
      rw [complete]
      decide
    refine ⟨metered.inv, metered.same, fun counting => absurd counting ended, fun _ => ?_,
      fun counting => absurd counting ended, metered.cells⟩
    dsimp only
    omega
  · have batch := metered.batch incomplete
    rw [eq] at kept ⊢
    rw [if_neg (by omega)]
    refine ⟨kept.1, metered.same.trans kept.2, fun counting => ?_, fun _ => ?_, fun counting => ?_,
      metered.cells⟩
    · cases counting
    · dsimp only [Acc.nextBatch]
      omega
    · cases counting
  · have batch := metered.batch incomplete
    rw [eq] at kept ok ⊢
    rw [if_pos (by omega)]
    dsimp only at ok
    rw [pmuInit_initsSince] at ok
    refine ⟨kept.1, metered.same.trans kept.2, fun _ => ?_, fun complete => ?_, fun _ next => ?_,
      metered.cells⟩
    · dsimp only [Acc.nextBatch]
      omega
    · exact absurd (incomplete.symm.trans complete) (by decide)
    · exact pairsCount_of_init laws
        (pairedConfig_slots (some pmuV1_0_0) a.cfg a.nextBatch.batchSize a.nextBatch.slotId)
        a.nextBatch.batchSize_le (ok next _ (List.mem_singleton_self _))

theorem EntryMetered.of_batch
    (metered : EntryMetered P evtyper enabled programmed a₀ a w ends m) {a' : Acc}
    (same : SameBatch a a') (cfg : a'.cfg = a.cfg) :
    EntryMetered P evtyper enabled programmed a₀ a' w ends m where
  inv := same.invariant metered.inv
  same := metered.same.trans same.toSameMatrix
  batch := by
    rw [same.complete, same.nextEvent]
    exact metered.batch
  done := by
    rw [same.complete, same.events]
    exact metered.done
  counting := by
    rw [same.complete, same.batchSize, same.slotId, cfg]
    exact metered.counting
  cells := metered.cells

theorem EntryMetered.tag (metered : EntryMetered P evtyper enabled programmed a₀ a w ends m)
    (text : ℕ → List (BitVec 8)) (tag : ℕ) (create : Bool) :
    EntryMetered P evtyper enabled programmed a₀
      (if tag = 0 then a else (tagLookup text a tag create).2) w ends
      m := by
  by_cases null : tag = 0
  · rw [if_pos null]
    exact metered
  · rw [if_neg null]
    exact metered.of_batch (tagLookup_same text a tag create) (by rw [tagLookup_acc])

theorem EntryMetered.step (laws : Counts P evtyper enabled occur)
    (metered : EntryMetered P evtyper enabled programmed a₀ a w ends m) (call : AccLive)
    (ok : call = .inferenceEnd → programmed (ends + 1) →
      ∀ r ∈ (NsxPmu.inferenceEnd P a w).2.pmu.initsSince w.pmu.inits.length,
        r.status = statusSuccess) :
    EntryMetered P evtyper enabled programmed a₀ (accStep P a w (call.toCall occur)).1
      (accStep P a w (call.toCall occur)).2 (AccLive.ends ends call)
      (run meterStep m (batchTicks a₀.ops a₀.events ends call)) := by
  cases call with
  | occur event =>
    exact ⟨metered.inv, metered.same, metered.batch, metered.done,
      fun counting ok => (metered.counting counting ok).occurs laws event, metered.cells⟩
  | inferenceBegin => exact metered
  | inferenceEnd => exact metered.inferenceEnd laws (ok rfl)
  | opBegin op => exact metered.opBegin laws op
  | opEnd op => exact metered.opEnd laws op
  | resolveTag text tag => exact metered.tag text tag true
  | findTag text tag => exact metered.tag text tag false

end Entry

variable {P : Platform H} {evtyper : H → ℕ → Word} {enabled : H → ℕ → Bool} {occur : Word → H → H}
  {B : AccBuild} {programmed : ℕ → Prop} {h : BitVec 8} {a₀ : Acc} {x : AccStore H} {ends : ℕ}
  {m : Meter Word (ℕ × ℕ)}

structure StoreMetered (B : AccBuild) (P : Platform H) (evtyper : H → ℕ → Word)
    (enabled : H → ℕ → Bool) (programmed : ℕ → Prop) (h : BitVec 8) (a₀ : Acc) (x : AccStore H)
    (ends : ℕ) (m : Meter Word (ℕ × ℕ)) : Prop where
  live : handleToAcc B x.accs h = some h.toNat
  entry : EntryMetered P evtyper enabled programmed a₀ (x.accs h.toNat) x.world ends m

theorem StoreMetered.step (laws : Counts P evtyper enabled occur)
    (metered : StoreMetered B P evtyper enabled programmed h a₀ x ends m) (call : AccLive)
    (ok : programmed (call.ends ends) → call.Succeeds B P h x) :
    StoreMetered B P evtyper enabled programmed h a₀ (accLiveStep B P occur h x call) (call.ends ends)
      (run meterStep m (batchTicks a₀.ops a₀.events ends call)) := by
  obtain ⟨accs, w⟩ := x
  obtain ⟨live, entry⟩ := metered
  obtain ⟨same, world⟩ := accmStep_entry (P := P) (w := w) live (call.toCall occur)
  have kept := (accStep_invariant (P := P) (w := w) entry.inv (call.toCall occur)).2
  have next := entry.step laws call fun isEnd => by
    subst isEnd
    dsimp only [AccLive.Succeeds, AccLive.ends, accmInferenceEnd, onHandle] at ok
    rw [live] at ok
    exact ok
  have live' := handleToAcc_live.mp live
  unfold accLiveStep
  refine ⟨handleToAcc_live.mpr ⟨live'.1, ?_⟩, ?_⟩
  · rw [same, kept.inUse, live'.2]
  · rw [same, world]
    exact next

theorem StoreMetered.run (laws : Counts P evtyper enabled occur)
    (metered : StoreMetered B P evtyper enabled programmed h a₀ x ends m) {calls : List AccLive}
    (ok : AllSteps (accLiveStep B P occur h) (fun x call => call.Succeeds B P h x) x calls) :
    StoreMetered B P evtyper enabled programmed h a₀ (run (accLiveStep B P occur h) x calls)
      (LabelledRuns.run AccLive.ends ends calls)
      (LabelledRuns.run meterStep m (batchHistory a₀.ops a₀.events ends calls)) :=
  run_scheduled (fun _ _ _ call metered ok => metered.step laws call fun _ => ok) metered ok

theorem Created.metered (laws : Counts P evtyper enabled occur) (programmed : ℕ → Prop)
    {accs : ℕ → Acc} {ops events : BitVec 16} {backingBuf : ℕ} {w : World H}
    {r : BitVec 8 × (ℕ → Acc) × World H} (new : Created B P accs ops events backingBuf w r)
    (first : programmed 0 → r.2.2.pmu.latestInit = some statusSuccess) :
    StoreMetered B P evtyper enabled programmed r.1 (.fresh ops events backingBuf) ⟨r.2.1, r.2.2⟩ 0
      .zero where
  live := new.live
  entry := by
    rw [new.world, firstBatchInit] at first
    dsimp only at first
    rw [pmuInit_latest, Option.some.injEq] at first
    have inv := new.invariant
    have matrix := new.matrix
    dsimp only
    rw [new.entry] at inv matrix ⊢
    refine ⟨inv, matrix, fun _ => rfl, fun complete => ?_, fun _ ok => ?_,
      fun op hop e he _ => ?_⟩
    · cases complete
    · rw [new.world]
      exact pairsCount_of_init laws (pairedConfig_slots _ _ _ _)
        (Acc.fresh ops events backingBuf).batchSize_le (first ok)
    · rw [new.zeroed hop he]
      rfl

/-- Over every sequence of calls through a new handle in which every programming succeeds, a cell of
the matrix holds the number of occurrences of the event of its column, modulo 2^32, whose window was
closed by an end of its operator in the inference of the column. A window ends with the next begin
or end of an operator and with the next batch, and a tag that is resolved or found between them
changes no count. -/
theorem accumulator_counts_occurrences (laws : Counts P evtyper enabled occur) (accs : ℕ → Acc)
    (ops events : BitVec 16) (backingBuf : ℕ) (w : World H)
    (handle : h = (accmCreate B P accs ops events backingBuf w).1) (created : h ≠ 0xFF)
    (programmed : (accmCreate B P accs ops events backingBuf w).2.2.pmu.latestInit =
      some statusSuccess) (calls : List AccLive)
    (ok : AllSteps (accLiveStep B P occur h) (fun x call => call.Succeeds B P h x)
      (accmStart B P accs ops events backingBuf w).store calls) :
    let final := run (accLiveStep B P occur h) (accmStart B P accs ops events backingBuf w).store calls
    ∀ op < ops.toNat, ∀ e < events.toNat,
      (final.world.mem (backingBuf + (op * events.toNat + e))).toNat =
        credited (op, e) (batchHistory ops.toNat events.toNat 0 calls) % 2 ^ 32 := by
  subst handle
  intro final op hop e he
  have start := (accmCreate_created created).metered laws (fun _ => True) fun _ => programmed
  have held := (start.run laws ok).entry.cells op hop e he trivial
  rw [total_run_zero] at held
  exact held

theorem accumulator_counts_occurrences_ref :
    let final := run (accLiveStep .default refPlatform RefPmu.occur 0)
      (accmStart .default refPlatform (fun _ => .zero) 2 5 4096 RefPmu.start.world).store
      [.opBegin 1, .occur 0x0003, .occur 0x0003, .opEnd 1, .occur 0x0003, .inferenceEnd, .opEnd 1]
    (final.world.mem (4096 + (1 * 5 + 2))).toNat = 2 :=
  (accumulator_counts_occurrences (B := .default) refPlatform_counts (fun _ => .zero) 2 5 4096
    RefPmu.start.world (h := 0) rfl (by decide) rfl
    [.opBegin 1, .occur 0x0003, .occur 0x0003, .opEnd 1, .occur 0x0003, .inferenceEnd, .opEnd 1]
    ⟨trivial, trivial, trivial, trivial, trivial,
      by dsimp only [AccLive.Succeeds]; decide +kernel, trivial, trivial⟩ 1 (by decide) 2
    (by decide)).trans (by decide +kernel)

end NsxPmu
