import NsxPmu.AccumulatorOccurrences
import NsxPmu.AccumulatorPrint
import NsxPmu.CaptureDelivery

set_option autoImplicit false

/-!
# Collecting a matrix

The loop that `nsx_pmu_accumulator.h` shows its callers: inferences reported to an
accumulator until it is complete. The number of operators may change from one
inference to the next.
-/
namespace NsxPmu
open LabelledRuns WindowCounts BoundedLoops WordMemory

variable {H : Type}

def Inference.accOperator (i : Inference) (op : ℕ) : List AccLive :=
  (i.idle op).map .occur ++
    .opBegin (BitVec.ofNat 16 op) :: ((i.work op).map .occur ++ [.opEnd (BitVec.ofNat 16 op)])

def Inference.accBody (i : Inference) (n : ℕ) : List AccLive :=
  .inferenceBegin :: ((List.range n).flatMap i.accOperator ++ (i.idle n).map .occur)

def Inference.accCalls (i : Inference) (n : ℕ) : List AccLive := i.accBody n ++ [.inferenceEnd]

theorem onCapture_occurs (events : List Word) :
    (events.map AccLive.occur).flatMap AccLive.onCapture = events.map .occur := by
  rw [List.flatMap_map]
  exact List.map_eq_flatMap.symm

theorem Inference.accOperator_onCapture (i : Inference) (op : ℕ) :
    (i.accOperator op).flatMap AccLive.onCapture = i.operator op := by
  rw [Inference.accOperator, List.flatMap_append, List.flatMap_cons, List.flatMap_append,
    onCapture_occurs, onCapture_occurs]
  rfl

theorem Inference.accBody_onCapture (i : Inference) (n : ℕ) :
    (i.accBody n).flatMap AccLive.onCapture = i.body n := by
  have operators : ((List.range n).flatMap i.accOperator).flatMap AccLive.onCapture =
      (List.range n).flatMap i.operator := by
    rw [List.flatMap_assoc]
    exact List.flatMap_congr fun op _ => i.accOperator_onCapture op
  rw [Inference.accBody, List.flatMap_cons, List.flatMap_append, operators, onCapture_occurs]
  rfl

theorem Inference.accBody_within (i : Inference) (n : ℕ) :
    ∀ call ∈ i.accBody n, call ≠ .inferenceEnd := by
  simp only [Inference.accBody, Inference.accOperator, List.mem_cons, List.mem_append, List.mem_flatMap,
    List.mem_map, List.not_mem_nil, or_false]
  rintro call (rfl | ⟨op, -, ⟨event, -, rfl⟩ | rfl | ⟨event, -, rfl⟩ | rfl⟩ | ⟨event, -, rfl⟩) <;>
    exact nofun

theorem AccLive.ends_within {call : AccLive} (within : call ≠ .inferenceEnd) (ends : ℕ) :
    call.ends ends = ends := by
  cases call with
  | inferenceEnd => exact absurd rfl within
  | _ => rfl

theorem inferenceEnd_inits (P : Platform H) {a : Acc} (w : World H) (inv : AccInvariant a) :
    (inferenceEnd P a w).2.pmu.initsSince w.pmu.inits.length = [] ∨
      (inferenceEnd P a w).2.pmu = (pmuInit P (pairedConfig (some pmuV1_0_0) a.cfg
        a.nextBatch.batchSize a.nextBatch.slotId) w.pmu).2.2 := by
  have idle : w.pmu.initsSince w.pmu.inits.length = [] := initsSince_append (List.nil_append _).symm
  rcases inferenceEnd_cases P w inv with ⟨-, eq⟩ | ⟨-, -, eq⟩ | ⟨-, -, eq⟩
  · rw [eq]
    exact .inl idle
  · rw [eq]
    exact .inl idle
  · rw [eq]
    exact .inr rfl

variable {P : Platform H} {evtyper : H → ℕ → Word} {enabled : H → ℕ → Bool} {occur : Word → H → H}
  {B : AccBuild} {programmed : ℕ → Prop} {h : BitVec 8} {a₀ : Acc}

theorem batchInit_succeeds (answers : Answers P pmuV1_0_0) (a : Acc) (old : PmuConfig) (s : Pmu H)
    (few : a.events ≤ 70) :
    (pmuInit P (pairedConfig (some pmuV1_0_0) old a.batchSize a.slotId) s).1 = statusSuccess := by
  apply answers.pairs rfl (pairedConfig_slots _ _ _ _) a.batchSize_le
  intro i hi
  apply getMapIndex_isSome
  unfold Acc.batchSize at hi
  dsimp only [pmuMapSize]
  omega

theorem StoreMetered.succeeds (answers : Answers P pmuV1_0_0) {x : AccStore H} {ends : ℕ}
    {m : Meter Word (ℕ × ℕ)} (metered : StoreMetered B P evtyper enabled programmed h a₀ x ends m) :
    AccLive.inferenceEnd.Succeeds B P h x := by
  have inv := metered.entry.inv
  dsimp only [AccLive.Succeeds, accmInferenceEnd, onHandle]
  rw [metered.live]
  dsimp only
  rcases inferenceEnd_inits P x.world inv with idle | next
  · rw [idle]
    exact nofun
  · rw [next, pmuInit_initsSince]
    intro r member
    rw [List.mem_singleton.mp member]
    exact batchInit_succeeds answers _ _ _ inv.events_le

theorem StoreMetered.succeeds_of_latest {x : AccStore H} {ends : ℕ} {m : Meter Word (ℕ × ℕ)}
    (metered : StoreMetered B P evtyper enabled programmed h a₀ x ends m)
    (latest : (accLiveStep B P occur h x .inferenceEnd).world.pmu.latestInit =
      some statusSuccess) :
    AccLive.inferenceEnd.Succeeds B P h x := by
  dsimp only [AccLive.Succeeds, accLiveStep, AccLive.toCall, accmStep, accmInferenceEnd,
    onHandle] at latest ⊢
  rw [metered.live] at latest ⊢
  dsimp only at latest ⊢
  rcases inferenceEnd_inits P x.world metered.entry.inv with idle | next
  · rw [idle]
    exact nofun
  · rw [next] at latest ⊢
    rw [pmuInit_latest, Option.some.injEq] at latest
    rw [pmuInit_initsSince]
    intro r member
    rw [List.mem_singleton.mp member]
    exact latest

theorem StoreMetered.complete_iff {x : AccStore H} {ends : ℕ} {m : Meter Word (ℕ × ℕ)}
    (metered : StoreMetered B P evtyper enabled programmed h a₀ x ends m) :
    accmComplete B x.accs h = true ↔ a₀.events ≤ 4 * ends := by
  have events := metered.entry.same.events
  unfold accmComplete
  rw [metered.live]
  dsimp only
  cases complete : (x.accs h.toNat).complete with
  | true =>
    have done := metered.entry.done complete
    simp only [true_iff]
    omega
  | false =>
    have batch := metered.entry.batch complete
    have measuring := metered.entry.inv.nextEvent_open complete
    simp only [Bool.false_eq_true, false_iff]
    omega

theorem StoreMetered.within (laws : Counts P evtyper enabled occur) {x : AccStore H} {ends : ℕ}
    {m : Meter Word (ℕ × ℕ)} (metered : StoreMetered B P evtyper enabled programmed h a₀ x ends m)
    {calls : List AccLive} (within : ∀ call ∈ calls, call ≠ .inferenceEnd) :
    StoreMetered B P evtyper enabled programmed h a₀
      (LabelledRuns.run (accLiveStep B P occur h) x calls) ends
      (LabelledRuns.run meterStep m (calls.flatMap (batchTicks a₀.ops a₀.events ends))) := by
  have ok : AllSteps (accLiveStep B P occur h) (fun y call => call.Succeeds B P h y) x calls := by
    refine AllSteps_of_forall (fun call member y => ?_) x
    cases call with
    | inferenceEnd => exact absurd rfl (within _ member)
    | _ => trivial
  have stays : ∀ call ∈ calls, call.ends ends = ends :=
    fun call member => AccLive.ends_within (within call member) ends
  have next := metered.run laws ok
  rwa [run_stays stays, batchHistory, collect_stays stays] at next

theorem inferenceEnd_total (ops events ends : ℕ) (m : Meter Word (ℕ × ℕ)) (cell : ℕ × ℕ) :
    (run meterStep m (batchTicks ops events ends .inferenceEnd)).total cell = m.total cell := by
  rw [batchTicks_inferenceEnd]
  split <;> rfl

theorem StoreMetered.inference (laws : Counts P evtyper enabled occur) {x : AccStore H} {ends : ℕ}
    {m : Meter Word (ℕ × ℕ)}
    (metered : StoreMetered B P evtyper enabled programmed h a₀ x ends m) (i : Inference) {n : ℕ}
    (small : n ≤ 65536)
    (ok : programmed (ends + 1) → AccLive.inferenceEnd.Succeeds B P h
      (LabelledRuns.run (accLiveStep B P occur h) x (i.accBody n))) :
    ∃ m', (∀ cell, m'.total cell = m.total cell + if cell.1 < n then
        (batchPlan a₀.ops a₀.events).adds mapEventId (batchPosition ends) i cell else 0) ∧
      StoreMetered B P evtyper enabled programmed h a₀
        (LabelledRuns.run (accLiveStep B P occur h) x (i.accCalls n)) (ends + 1) m' := by
  have whole := (metered.within laws (i.accBody_within n)).step laws .inferenceEnd ok
  refine ⟨_, fun cell => ?_, by rwa [Inference.accCalls, run_append]⟩
  have reported := i.total_run (X := Unit) (batchPlan a₀.ops a₀.events) mapEventId
    (batchPosition ends) m small cell
  rw [Inference.calls, List.flatMap_append, run_append, ← i.accBody_onCapture, List.flatMap_assoc,
    List.flatMap_singleton] at reported
  have last : batchTicks a₀.ops a₀.events ends .inferenceEnd =
      (batchPlan a₀.ops a₀.events).ticks mapEventId (batchPosition ends) (.modelEnd (X := Unit)) :=
    List.flatMap_singleton ..
  rw [last]
  exact reported

structure Collection (H : Type) where
  store : AccStore H
  inferences : ℕ

/-- One round of the caller's loop, which reports an inference unless the accumulator is complete. -/
def untilComplete (B : AccBuild) (h : BitVec 8) (report : ℕ → AccStore H → AccStore H)
    (c : Collection H) : Collection H ⊕ Collection H :=
  if accmComplete B c.store.accs h then .inr c
  else .inl ⟨report c.inferences c.store, c.inferences + 1⟩

def afterReports (report : ℕ → AccStore H → AccStore H) (x : AccStore H) (n : ℕ) : AccStore H :=
  run (fun y k => report k y) x (List.range n)

theorem afterReports_succ (report : ℕ → AccStore H → AccStore H) (x : AccStore H) (n : ℕ) :
    afterReports report x (n + 1) = report n (afterReports report x n) := by
  rw [afterReports, List.range_succ, run_append]
  rfl

theorem untilComplete_ends {report : ℕ → AccStore H → AccStore H} {x : AccStore H}
    (metered : ∀ n, ∃ m, StoreMetered B P evtyper enabled programmed h a₀ (afterReports report x n)
      n m) {needed : ℕ} (enough : ∀ n, a₀.events ≤ 4 * n ↔ needed ≤ n) (fuel : ℕ) :
    loop (untilComplete B h report) fuel ⟨x, 0⟩ =
      if needed < fuel then some ⟨afterReports report x needed, needed⟩ else none := by
  have complete : ∀ n, accmComplete B (afterReports report x n).accs h = true ↔ needed ≤ n := by
    intro n
    obtain ⟨m, good⟩ := metered n
    rw [good.complete_iff, enough]
  have ends : ∃ final, final = ⟨afterReports report x needed, needed⟩ ∧
      ∀ fuel, loop (untilComplete B h report) fuel ⟨x, 0⟩ =
        if needed < fuel then some final else none := by
    apply loop_ends (I := fun left c => ∃ n, n + left = needed ∧ c = ⟨afterReports report x n, n⟩)
    · rintro left c ⟨n, sum, rfl⟩
      have more : ¬ accmComplete B (afterReports report x n).accs h = true := by
        rw [complete]
        omega
      exact ⟨_, if_neg more, n + 1, by omega, by rw [afterReports_succ]⟩
    · rintro c ⟨n, rfl, rfl⟩
      exact ⟨_, if_pos ((complete n).mpr le_rfl), rfl⟩
    · exact ⟨0, Nat.zero_add needed, rfl⟩
  obtain ⟨final, rfl, ends⟩ := ends
  exact ends fuel

theorem events_covered {events : ℕ} (n : ℕ) : events ≤ 4 * n ↔ events ⌈/⌉ eventsPerRun ≤ n := by
  have positive : 0 < eventsPerRun := by decide
  rw [ceilDiv_le_iff_le_mul positive]
  dsimp only [eventsPerRun, maxCounters]
  omega

theorem Created.latest (answers : Answers P pmuV1_0_0) {accs : ℕ → Acc} {ops events : BitVec 16}
    {backingBuf : ℕ} {w : World H} {r : BitVec 8 × (ℕ → Acc) × World H}
    (new : Created B P accs ops events backingBuf w r) :
    r.2.2.pmu.latestInit = some statusSuccess := by
  rw [new.world]
  dsimp only
  rw [firstBatchInit, pmuInit_latest,
    batchInit_succeeds answers (.fresh ops events backingBuf) _ _ new.events_le]

def collectInference (B : AccBuild) (P : Platform H) (occur : Word → H → H) (h : BitVec 8)
    (inference : ℕ → Inference) (opsThisRun : ℕ → BitVec 16) (n : ℕ) (x : AccStore H) :
    AccStore H :=
  run (accLiveStep B P occur h) x ((inference n).accCalls (opsThisRun n).toNat)

/-- The occurrences that a cell is to count: those in its operator during the one inference that
measures its column, if that inference runs the operator. -/
def collectedCount (inference : ℕ → Inference) (opsThisRun : ℕ → BitVec 16) (op e : ℕ) : ℕ :=
  if op < (opsThisRun (e / 4)).toNat then ((inference (e / 4)).work op).count (mapEventId e) else 0

structure Collected (B : AccBuild) (P : Platform H) (evtyper : H → ℕ → Word)
    (enabled : H → ℕ → Bool) (programmed : ℕ → Prop) (h : BitVec 8) (a₀ : Acc)
    (inference : ℕ → Inference) (opsThisRun : ℕ → BitVec 16) (n : ℕ) (x : AccStore H)
    (m : Meter Word (ℕ × ℕ)) : Prop where
  store : StoreMetered B P evtyper enabled programmed h a₀ x n m
  totals : ∀ op < a₀.ops, ∀ e < a₀.events, m.total (op, e) =
    if e / 4 < n then collectedCount inference opsThisRun op e else 0

section Rounds
variable {inference : ℕ → Inference} {opsThisRun : ℕ → BitVec 16}

theorem Collected.next (laws : Counts P evtyper enabled occur) {n : ℕ} {x : AccStore H}
    {m : Meter Word (ℕ × ℕ)}
    (collected : Collected B P evtyper enabled programmed h a₀ inference opsThisRun n x m)
    (ok : programmed (n + 1) → AccLive.inferenceEnd.Succeeds B P h
      (run (accLiveStep B P occur h) x ((inference n).accBody (opsThisRun n).toNat))) :
    ∃ m', Collected B P evtyper enabled programmed h a₀ inference opsThisRun (n + 1)
      (collectInference B P occur h inference opsThisRun n x) m' := by
  have small : (opsThisRun n).toNat ≤ 65536 := (opsThisRun n).isLt.le
  obtain ⟨m', totals, store⟩ := collected.store.inference laws (inference n) small ok
  refine ⟨m', store, fun op hop e he => ?_⟩
  have covers := (batchPlan_covers a₀.ops a₀.events n op).mpr hop
  have measures := batchPlan_measures a₀.ops a₀.events n e
  rw [totals, collected.totals op hop e he]
  unfold Plan.adds collectedCount
  dsimp only
  by_cases now : n = e / 4
  · have both := And.intro covers (measures.mpr ⟨now, he⟩)
    rw [if_neg (by omega), if_pos (show e / 4 < n + 1 by omega), Nat.zero_add, if_pos both, now]
  · have unread : ¬ ((batchPlan a₀.ops a₀.events).covers (batchPosition n) op ∧
        (batchPlan a₀.ops a₀.events).measures (batchPosition n) e) :=
      fun both => now (measures.mp both.2).1
    rw [if_neg unread, ite_self, Nat.add_zero]
    exact if_congr (by omega) rfl rfl

theorem Collected.cells {ops events : BitVec 16} {backingBuf : ℕ} {x : AccStore H}
    {m : Meter Word (ℕ × ℕ)}
    (collected : Collected B P evtyper enabled programmed h (.fresh ops events backingBuf) inference
      opsThisRun (events.toNat ⌈/⌉ eventsPerRun) x m) :
    ∀ op < ops.toNat, ∀ e < events.toNat, programmed (e / 4) →
      (x.world.mem (backingBuf + (op * events.toNat + e))).toNat =
        collectedCount inference opsThisRun op e % 2 ^ 32 := by
  intro op hop e he ok
  have measured : e / 4 < events.toNat ⌈/⌉ eventsPerRun := by
    rw [← not_le, ← events_covered]
    omega
  have held := collected.store.entry.cells op hop e he ok
  rw [collected.totals op hop e he] at held
  exact held.trans (congrArg (· % 2 ^ 32) (if_pos measured))

end Rounds

def collectedAfter (B : AccBuild) (P : Platform H) (occur : Word → H → H)
    (inference : ℕ → Inference) (opsThisRun : ℕ → BitVec 16) (r : BitVec 8 × (ℕ → Acc) × World H)
    (n : ℕ) : AccStore H :=
  afterReports (collectInference B P occur r.1 inference opsThisRun) ⟨r.2.1, r.2.2⟩ n

section New
variable {accs : ℕ → Acc} {ops events : BitVec 16} {backingBuf : ℕ} {w : World H}
  {r : BitVec 8 × (ℕ → Acc) × World H} (new : Created B P accs ops events backingBuf w r)
  (inference : ℕ → Inference) (opsThisRun : ℕ → BitVec 16)
include new

theorem Created.collected (laws : Counts P evtyper enabled occur) (programmed : ℕ → Prop)
    (first : programmed 0 → r.2.2.pmu.latestInit = some statusSuccess)
    (rounds : ∀ n y m, StoreMetered B P evtyper enabled programmed r.1 (.fresh ops events backingBuf)
      y n m → collectedAfter B P occur inference opsThisRun r (n + 1) =
        accLiveStep B P occur r.1 y .inferenceEnd →
      programmed (n + 1) → AccLive.inferenceEnd.Succeeds B P r.1 y) (n : ℕ) :
    ∃ m, Collected B P evtyper enabled programmed r.1 (.fresh ops events backingBuf) inference
      opsThisRun n (collectedAfter B P occur inference opsThisRun r n) m := by
  induction n with
  | zero => exact ⟨.zero, new.metered laws programmed first, fun op hop e he => rfl⟩
  | succ n ih =>
    obtain ⟨m, collected⟩ := ih
    have next : collectedAfter B P occur inference opsThisRun r (n + 1) =
        collectInference B P occur r.1 inference opsThisRun n
          (collectedAfter B P occur inference opsThisRun r n) :=
      afterReports_succ ..
    rw [next]
    apply collected.next laws
    have body := collected.store.within laws ((inference n).accBody_within (opsThisRun n).toNat)
    apply rounds n _ _ body
    rw [next, collectInference, Inference.accCalls, run_append]
    rfl

theorem Created.collected_answering (answers : Answers P pmuV1_0_0)
    (laws : Counts P evtyper enabled occur) (n : ℕ) :
    ∃ m, Collected B P evtyper enabled (fun _ => True) r.1 (.fresh ops events backingBuf) inference
      opsThisRun n (collectedAfter B P occur inference opsThisRun r n) m :=
  new.collected inference opsThisRun laws (fun _ => True) (fun _ => new.latest answers)
    (fun _ _ _ metered _ _ => metered.succeeds answers) n

theorem Created.collection_ends (laws : Counts P evtyper enabled occur) (fuel : ℕ) :
    loop (untilComplete B r.1 (collectInference B P occur r.1 inference opsThisRun)) fuel
        ⟨⟨r.2.1, r.2.2⟩, 0⟩ =
      if events.toNat ⌈/⌉ eventsPerRun < fuel then
        some ⟨collectedAfter B P occur inference opsThisRun r (events.toNat ⌈/⌉ eventsPerRun),
          events.toNat ⌈/⌉ eventsPerRun⟩
      else none := by
  have metered : ∀ n, ∃ m, StoreMetered B P evtyper enabled (fun _ => False) r.1
      (.fresh ops events backingBuf) (collectedAfter B P occur inference opsThisRun r n) n m := by
    intro n
    obtain ⟨m, collected⟩ := new.collected inference opsThisRun laws (fun _ => False) False.elim
      (fun _ _ _ _ _ unprogrammed => unprogrammed.elim) n
    exact ⟨m, collected.store⟩
  exact untilComplete_ends metered events_covered fuel

end New

/-- On a platform that answers, a caller that reports inferences until the accumulator is complete
needs exactly one for every four events. By then the matrix that it is given has, for each operator
and event, the number of occurrences of the event in the operator during the one inference that
measures the event, as a 32-bit word has it, and the matrix printed says the same. -/
theorem accumulator_collects (answers : Answers P pmuV1_0_0)
    (laws : Counts P evtyper enabled occur) (accs : ℕ → Acc) (ops events : BitVec 16)
    (backingBuf : ℕ) (w : World H) (handle : h = (accmCreate B P accs ops events backingBuf w).1)
    (created : h ≠ 0xFF) (inference : ℕ → Inference) (opsThisRun : ℕ → BitVec 16) (matrix : ℕ) :
    let needed := events.toNat ⌈/⌉ eventsPerRun
    let rows := (List.range ops.toNat).map fun op => op :: (List.range events.toNat).map fun e =>
      collectedCount inference opsThisRun op e % 2 ^ 32
    ∃ final : Collection H,
      (∀ fuel, loop (untilComplete B h (collectInference B P occur h inference opsThisRun)) fuel
          ⟨(accmStart B P accs ops events backingBuf w).store, 0⟩ =
        if needed < fuel then some final else none) ∧
      final.inferences = needed ∧ accmGet B final.store.accs h (some matrix) = some backingBuf ∧
      (∀ op < ops.toNat, ∀ e < events.toNat,
        (final.store.world.mem (backingBuf + (op * events.toNat + e))).toNat =
          collectedCount inference opsThisRun op e % 2 ^ 32) ∧
      ∃ texts,
        accmPrintMatrix B final.store.accs h backingBuf ops events final.store.world =
          { final.store.world with pmu := final.store.world.pmu.printed texts } ∧
        decodeMatrix (textBytes texts) = some ⟨(List.range events.toNat).map matrixName, rows⟩ := by
  subst handle
  intro needed rows
  have new := accmCreate_created created
  obtain ⟨m, collected⟩ := new.collected_answering inference opsThisRun answers laws needed
  have live := collected.store.live
  have cells := fun op hop e he => collected.cells op hop e he trivial
  refine ⟨_, new.collection_ends inference opsThisRun laws, rfl, ?_, cells, _,
    accmPrintMatrix_eq .., ?_⟩
  · rw [accmGet, live]
    exact congrArg some collected.store.entry.same.sum
  · exact matrixTexts_decoded new.events_le (by rw [live]; rfl) new.buffer cells

/-- Two operators whose work causes misses of the data cache, as many as the inference says. -/
def missInference (n : ℕ) : Inference where
  work op := List.replicate (n + op) 0x0003
  idle _ := [0x0003]

theorem accumulator_collects_ref :
    ∃ final : Collection RefPmu,
      (∀ fuel, loop (untilComplete .default 0
            (collectInference .default steadyPlatform RefPmu.occur 0 missInference fun _ => 2)) fuel
          ⟨(accmStart .default steadyPlatform (fun _ => .zero) 2 5 4096 RefPmu.start.world).store, 0⟩ =
        if 2 < fuel then some final else none) ∧
      (final.store.world.mem (4096 + (1 * 5 + 2))).toNat = 1 := by
  obtain ⟨final, ends, -, -, cells, -⟩ := accumulator_collects (B := .default) (h := 0)
    (steadyPlatform_answers _) steadyPlatform_counts (fun _ => .zero) 2 5 4096 RefPmu.start.world rfl
    (by decide) missInference (fun _ => 2) 0
  exact ⟨final, ends, cells 1 (by decide) 2 (by decide)⟩

/-- Whatever fails on the platform, the loop ends after as many inferences, and a programming that
fails spoils no columns but those of its own batch: a column has its counts if the latest call of
`nsx_pmu_init` before the inference that measures it succeeded. -/
theorem accumulator_contains_failures (laws : Counts P evtyper enabled occur) (accs : ℕ → Acc)
    (ops events : BitVec 16) (backingBuf : ℕ) (w : World H)
    (handle : h = (accmCreate B P accs ops events backingBuf w).1) (created : h ≠ 0xFF)
    (inference : ℕ → Inference) (opsThisRun : ℕ → BitVec 16) :
    let after := collectedAfter B P occur inference opsThisRun
      (accmCreate B P accs ops events backingBuf w)
    let needed := events.toNat ⌈/⌉ eventsPerRun
    (∀ fuel, loop (untilComplete B h (collectInference B P occur h inference opsThisRun)) fuel
        ⟨(accmStart B P accs ops events backingBuf w).store, 0⟩ =
      if needed < fuel then some ⟨after needed, needed⟩ else none) ∧
    ∀ e < events.toNat, (after (e / 4)).world.pmu.latestInit = some statusSuccess →
      ∀ op < ops.toNat, ((after needed).world.mem (backingBuf + (op * events.toNat + e))).toNat =
        collectedCount inference opsThisRun op e % 2 ^ 32 := by
  subst handle
  intro after needed
  have new := accmCreate_created created
  refine ⟨new.collection_ends inference opsThisRun laws, fun e he ok op hop => ?_⟩
  obtain ⟨m, collected⟩ := new.collected inference opsThisRun laws
    (fun k => (after k).world.pmu.latestInit = some statusSuccess) id
    (fun n y m metered next latest =>
      metered.succeeds_of_latest (by rw [← next]; exact latest)) needed
  exact collected.cells op hop e he ok

def refThirdCallFails : World RefPmu := { RefPmu.start with outcomes := [0, 0, 1] }.world

/-- Each inference causes the event of the first of its columns, in every operator. -/
def firstColumnInference (n : ℕ) : Inference where
  work op := List.replicate (n + op + 1) (mapEventId (4 * n))
  idle _ := []

/-- The programming of the second batch fails; the third one has its counts. -/
theorem accumulator_contains_failures_ref :
    let after := collectedAfter .default refPlatform RefPmu.occur firstColumnInference (fun _ => 2)
      (accmCreate .default refPlatform (fun _ => .zero) 2 9 4096 refThirdCallFails)
    (after 1).world.pmu.latestInit = some statusInitFailed ∧
      ((after 3).world.mem (4096 + (1 * 9 + 8))).toNat = 4 :=
  ⟨by decide +kernel, (accumulator_contains_failures (B := .default) (h := 0) refPlatform_counts
    (fun _ => .zero) 2 9 4096 refThirdCallFails rfl (by decide) firstColumnInference
    fun _ => 2).2 8 (by decide) (by decide +kernel) 1 (by decide)⟩

/-- A caller that reads every layer into a table of its own, a row of `stride` cells for each. -/
def readLayers (B : AccBuild) (accs : ℕ → Acc) (h : BitVec 8) (out stride : ℕ)
    (callerCapacity : BitVec 16) (layers : ℕ) (w : World H) : World H :=
  (List.range layers).foldl
    (fun w layer => accmGetLayer B accs h layer (out + layer * stride) callerCapacity.toNat w) w

theorem readLayers_eq {accs : ℕ → Acc} {i : ℕ} (live : handleToAcc B accs h = some i)
    {out layers : ℕ} (nonNull : out ≠ 0) (stride : ℕ) (callerCapacity : BitVec 16)
    (inside : layers ≤ (accs i).ops) (w : World H) :
    readLayers B accs h out stride callerCapacity layers w =
      { w with
        mem := copyRows w.mem out stride (accs i).sum (accs i).events
          (min callerCapacity.toNat (accs i).events) layers } := by
  induction layers with
  | zero => rfl
  | succ layers ih =>
    have taken : (if callerCapacity.toNat < (accs i).events then callerCapacity.toNat
        else (accs i).events) = min callerCapacity.toNat (accs i).events := by
      split <;> omega
    have read : ¬ (out + layers * stride = 0 ∨ layers ≥ (accs i).ops) := by
      omega
    rw [readLayers, List.range_succ, List.foldl_append]
    change accmGetLayer B accs h layers _ _
      (readLayers B accs h out stride callerCapacity layers w) = _
    rw [ih (by omega), accmGetLayer, live]
    dsimp only
    rw [if_neg read, taken, copyRows_succ]

/-- When the loop has ended on a platform that answers, a caller that reads the layers into a table
of its own, apart from the matrix, has in every row the counts of the first events, as many as it
asked for, and nothing else in memory has changed. -/
theorem accumulator_layers (answers : Answers P pmuV1_0_0)
    (laws : Counts P evtyper enabled occur) (accs : ℕ → Acc) (ops events : BitVec 16)
    (backingBuf : ℕ) (w : World H) (handle : h = (accmCreate B P accs ops events backingBuf w).1)
    (created : h ≠ 0xFF) (inference : ℕ → Inference) (opsThisRun : ℕ → BitVec 16)
    (out stride : ℕ) (callerCapacity : BitVec 16) (nonNull : out ≠ 0)
    (rowFits : callerCapacity.toNat ≤ stride)
    (apart : out + ops.toNat * stride ≤ backingBuf ∨
      backingBuf + ops.toNat * events.toNat ≤ out) :
    let columns := min callerCapacity.toNat events.toNat
    ∃ final : Collection H,
      (∀ fuel, loop (untilComplete B h (collectInference B P occur h inference opsThisRun)) fuel
          ⟨(accmStart B P accs ops events backingBuf w).store, 0⟩ =
        if events.toNat ⌈/⌉ eventsPerRun < fuel then some final else none) ∧
      let read := readLayers B final.store.accs h out stride callerCapacity ops.toNat
        final.store.world
      read.pmu = final.store.world.pmu ∧
      (∀ op < ops.toNat, ∀ e < columns, (read.mem (out + op * stride + e)).toNat =
        collectedCount inference opsThisRun op e % 2 ^ 32) ∧
      ∀ a, (∀ op < ops.toNat, ¬ (out + op * stride ≤ a ∧ a < out + op * stride + columns)) →
        read.mem a = final.store.world.mem a := by
  subst handle
  intro columns
  have new := accmCreate_created created
  obtain ⟨m, collected⟩ := new.collected_answering inference opsThisRun answers laws
    (events.toNat ⌈/⌉ eventsPerRun)
  refine ⟨_, new.collection_ends inference opsThisRun laws, ?_⟩
  dsimp only
  generalize collectedAfter B P occur inference opsThisRun _ _ = final at collected ⊢
  have same := collected.store.entry.same
  have copied := readLayers_eq collected.store.live nonNull stride callerCapacity same.ops.ge
    final.world
  rw [same.sum, same.events] at copied
  change readLayers _ _ _ _ _ _ ops.toNat _ = { final.world with
    mem := copyRows final.world.mem out stride backingBuf events.toNat columns ops.toNat } at copied
  rw [copied]
  refine ⟨rfl, fun op hop e he => ?_, fun a outside => copyRows_outside _ outside⟩
  have asked : columns ≤ stride := (Nat.min_le_left ..).trans rowFits
  have inRow : columns ≤ events.toNat := Nat.min_le_right ..
  have cell := copyRows_inside final.world.mem apart asked inRow hop he
  dsimp only
  rw [cell, Nat.add_assoc]
  exact collected.cells op hop e (he.trans_le inRow) trivial

/-- Rows of four cells, of which the first three of five events are read. -/
theorem accumulator_layers_ref :
    ∃ final : Collection RefPmu,
      (∀ fuel, loop (untilComplete .default 0
            (collectInference .default steadyPlatform RefPmu.occur 0 missInference fun _ => 4)) fuel
          ⟨(accmStart .default steadyPlatform (fun _ => .zero) 4 5 4096 RefPmu.start.world).store, 0⟩ =
        if 2 < fuel then some final else none) ∧
      ((readLayers .default final.store.accs 0 64 4 3 4 final.store.world).mem
        (64 + 3 * 4 + 2)).toNat = 3 := by
  obtain ⟨final, ends, -, cells, -⟩ := accumulator_layers (B := .default) (h := 0)
    (steadyPlatform_answers _) steadyPlatform_counts (fun _ => .zero) 4 5 4096 RefPmu.start.world rfl
    (by decide) missInference (fun _ => 4) 64 4 3 (by decide) (by decide) (by decide)
  exact ⟨final, ends, cells 3 (by decide) 2 (by decide)⟩

end NsxPmu
