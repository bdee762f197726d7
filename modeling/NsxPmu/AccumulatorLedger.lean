import NsxPmu.AccumulatorRuns
import Mathlib.Algebra.Order.Floor.Div

set_option autoImplicit false

/-!
# Where the counts of an accumulator come from

Every cell of the matrix holds the sum of the readings that were taken of its
operator during the inference that measures its event.
-/
namespace NsxPmu
open Function (update)
open WordMemory LabelledRuns

variable {H : Type} {P : Platform H} {evtyper : H → ℕ → Word} {B : AccBuild} {h : BitVec 8}

def Pmu.latestInit (s : Pmu H) : Option Status := s.inits.head?.map InitRecord.status

/-- The batch of an entry is set up, unless the entry is complete. -/
structure BatchReady (evtyper : H → ℕ → Word) (a : Acc) (s : Pmu H) : Prop where
  ready : a.complete = false → PairsReady a.batchSize a.slotId a.cfg s.driver
  programmed : a.complete = false → PairsProgrammed evtyper a.batchSize a.slotId s.hw

theorem Acc.batchSize_le (a : Acc) : a.batchSize ≤ 4 := by
  unfold Acc.batchSize
  omega

theorem AccInvariant.batchSize_complete {a : Acc} (inv : AccInvariant a)
    (complete : a.complete = true) : a.batchSize = 0 := by
  have := inv.complete.mp complete
  unfold Acc.batchSize
  omega

theorem AccInvariant.nextEvent_open {a : Acc} (inv : AccInvariant a)
    (incomplete : a.complete = false) : a.nextEvent < a.events := by
  have open_iff := inv.complete
  rw [incomplete] at open_iff
  simp only [Bool.false_eq_true, false_iff] at open_iff
  omega

theorem pmuInit_latest (P : Platform H) (cfg : PmuConfig) (s : Pmu H) :
    (pmuInit P cfg s).2.2.latestInit = some (pmuInit P cfg s).1 := by
  unfold Pmu.latestInit
  rw [pmuInit_history]
  rfl

theorem batchReady_of_init (laws : Programs P evtyper) {a b : Acc} {s : Pmu H} {old : PmuConfig}
    {api : Option CoreApi} (size : b.batchSize = a.batchSize) (id : b.slotId = a.slotId)
    (cfg : b.cfg = (pmuInit P (pairedConfig api old a.batchSize a.slotId) s).2.1)
    (ok : (pmuInit P (pairedConfig api old a.batchSize a.slotId) s).1 = statusSuccess) :
    BatchReady evtyper b (pmuInit P (pairedConfig api old a.batchSize a.slotId) s).2.2 := by
  have slots := pairedConfig_slots api old a.batchSize a.slotId
  refine ⟨fun _ => ?_, fun _ => ?_⟩
  · rw [size, id, cfg]
    exact pairsReady_of_init slots a.batchSize_le ok
  · rw [size, id]
    exact laws.pairs_of_init slots a.batchSize_le ok

/-- Calls whose programming of the PMU succeeds, and hardware that nobody else programs. -/
def AccUndisturbed (B : AccBuild) (P : Platform H) (evtyper : H → ℕ → Word) (h : BitVec 8)
    (x : AccStore H) : AccCall H → Prop
  | .inferenceEnd =>
    (accmInferenceEnd B P x.accs h x.world).2.pmu.latestInit = some statusSuccess
  | .elapse f => ∀ k < maxCounters, evtyper (f x.world.pmu.hw) k = evtyper x.world.pmu.hw k
  | _ => True

theorem inferenceEnd_invariant {a : Acc} {w : World H} (inv : AccInvariant a) :
    AccInvariant (inferenceEnd P a w).1 ∧ SameMatrix a (inferenceEnd P a w).1 := by
  rcases inferenceEnd_cases P w inv with
    ⟨-, eq⟩ | ⟨incomplete, last, eq⟩ | ⟨incomplete, more, eq⟩
  · rw [eq]
    exact ⟨inv, .refl a⟩
  · rw [eq]
    have measuring := inv.nextEvent_open incomplete
    refine ⟨⟨inv.ops_pos, inv.events_pos, inv.events_le, ?_, ?_⟩, rfl, rfl, rfl, rfl⟩
    · dsimp only [Acc.nextBatch]
      omega
    · exact ⟨fun _ => last, fun _ => rfl⟩
  · rw [eq]
    refine ⟨⟨inv.ops_pos, inv.events_pos, inv.events_le, ?_, ?_⟩, rfl, rfl, rfl, rfl⟩
    · dsimp only [Acc.nextBatch]
      omega
    · dsimp only [Acc.nextBatch]
      rw [incomplete]
      simp only [Bool.false_eq_true, false_iff]
      omega

theorem AccInvariant.small {a : Acc} (inv : AccInvariant a) : a.nextEvent + 4 < 65536 := by
  have := inv.events_le
  have := inv.nextEvent_lt
  omega

structure SameBatch (a a' : Acc) : Prop extends SameMatrix a a' where
  complete : a'.complete = a.complete
  nextEvent : a'.nextEvent = a.nextEvent
  slots : a'.cfg.events = a.cfg.events

theorem SameBatch.refl (a : Acc) : SameBatch a a := ⟨.refl a, rfl, rfl, rfl⟩

section SameBatch
variable {a a' : Acc} (same : SameBatch a a')

include same

theorem SameBatch.invariant (inv : AccInvariant a) : AccInvariant a' := by
  constructor
  · rw [same.ops]
    exact inv.ops_pos
  · rw [same.events]
    exact inv.events_pos
  · rw [same.events]
    exact inv.events_le
  · rw [same.nextEvent, same.events]
    exact inv.nextEvent_lt
  · rw [same.complete, same.nextEvent, same.events]
    exact inv.complete

theorem SameBatch.batchSize : a'.batchSize = a.batchSize := by
  rw [Acc.batchSize, same.events, same.nextEvent, Acc.batchSize]

theorem SameBatch.slotId : a'.slotId = a.slotId := by
  funext slot
  rw [Acc.slotId, same.nextEvent, Acc.slotId]

end SameBatch

theorem tagLookup_same (text : ℕ → List (BitVec 8)) (a : Acc) (tag : ℕ) (create : Bool) :
    SameBatch a (tagLookup text a tag create).2 := by
  rw [tagLookup_acc]
  exact ⟨⟨rfl, rfl, rfl, rfl⟩, rfl, rfl, rfl⟩

structure KeepsBatch (a : Acc) (w : World H) (r : Acc × World H) : Prop where
  entry : SameBatch a r.1
  inits : r.2.pmu.inits = w.pmu.inits
  driver : r.2.pmu.driver = w.pmu.driver
  unread : ¬ (w.pmu.driver.initialized = true ∧ w.pmu.driver.profiling = true) → r.1.cfg = a.cfg

theorem keepsBatch_tag {a : Acc} {w : World H} (text : ℕ → List (BitVec 8)) (tag : ℕ)
    (create : Bool) :
    KeepsBatch a w (if tag = 0 then a else (tagLookup text a tag create).2, w) := by
  by_cases null : tag = 0
  · rw [if_pos null]
    exact ⟨.refl a, rfl, rfl, fun _ => rfl⟩
  · rw [if_neg null]
    refine ⟨tagLookup_same text a tag create, rfl, rfl, fun _ => ?_⟩
    dsimp only
    rw [tagLookup_acc]

theorem accStep_keeps (P : Platform H) {a : Acc} (w : World H) (inv : AccInvariant a)
    {call : AccCall H} (within : call.endsInference = false) :
    KeepsBatch a w (accStep P a w call) := by
  cases call with
  | inferenceEnd => cases within
  | inferenceBegin => exact ⟨.refl a, rfl, rfl, fun _ => rfl⟩
  | opBegin op =>
    dsimp only [accStep, opBegin]
    split <;> exact ⟨.refl a, rfl, rfl, fun _ => rfl⟩
  | opEnd op =>
    dsimp only [accStep]
    by_cases inside : op.toNat < a.ops
    · have frame := pmuGetCounters_frame P a.cfg w.pmu
      rw [opEnd_inside P w inv.small inside]
      refine ⟨⟨⟨rfl, rfl, rfl, rfl⟩, rfl, rfl, frame.events⟩, frame.inits, frame.driver,
        fun off => ?_⟩
      dsimp only
      rw [pmuGetCounters_refused P a.cfg off]
    · rw [opEnd_outside P w inside]
      exact ⟨.refl a, rfl, rfl, fun _ => rfl⟩
  | resolveTag text tag => exact keepsBatch_tag text tag true
  | findTag text tag => exact keepsBatch_tag text tag false
  | elapse f => exact ⟨.refl a, rfl, rfl, fun _ => rfl⟩

theorem accStep_position (P : Platform H) {a : Acc} (w : World H) (inv : AccInvariant a)
    {call : AccCall H} (stays : call.endsInference = false) :
    (accStep P a w call).1.nextEvent = a.nextEvent ∧
      (accStep P a w call).1.complete = a.complete :=
  have same := (accStep_keeps P w inv stays).entry
  ⟨same.nextEvent, same.complete⟩

theorem AccCall.inferenceEnd_of {call : AccCall H} (ends : call.endsInference = true) :
    call = .inferenceEnd := by
  cases call with
  | inferenceEnd => rfl
  | _ => cases ends

theorem accStep_invariant {a : Acc} {w : World H} (inv : AccInvariant a) (call : AccCall H) :
    AccInvariant (accStep P a w call).1 ∧ SameMatrix a (accStep P a w call).1 := by
  cases ends : call.endsInference with
  | true =>
    obtain rfl := AccCall.inferenceEnd_of ends
    exact inferenceEnd_invariant inv
  | false =>
    have same := (accStep_keeps P w inv ends).entry
    exact ⟨same.invariant inv, same.toSameMatrix⟩

def AccQuiet (P : Platform H) (evtyper : H → ℕ → Word) (a : Acc) (w : World H) :
    AccCall H → Prop
  | .inferenceEnd => (inferenceEnd P a w).2.pmu.latestInit = some statusSuccess
  | .elapse f => ∀ k < maxCounters, evtyper (f w.pmu.hw) k = evtyper w.pmu.hw k
  | _ => True

theorem BatchReady.of_pmu {a b : Acc} {s s' : Pmu H} (ready : BatchReady evtyper a s)
    (complete : b.complete = a.complete) (size : b.batchSize = a.batchSize)
    (id : b.slotId = a.slotId) (events : b.cfg.events = a.cfg.events)
    (driver : s'.driver = s.driver)
    (types : ∀ k < maxCounters, evtyper s'.hw k = evtyper s.hw k) : BatchReady evtyper b s' where
  ready := by
    intro measuring
    rw [complete] at measuring
    have before := ready.ready measuring
    rw [size, id, driver]
    exact ⟨by rw [events]; exact before.slots, before.few, by rw [events]; exact before.layout,
      before.initialized, before.profiling⟩
  programmed := by
    intro measuring
    rw [complete] at measuring
    rw [size, id]
    exact (ready.programmed measuring).of_evtyper a.batchSize_le types

theorem accStep_types (laws : Programs P evtyper) {a : Acc} {w : World H} (inv : AccInvariant a)
    {call : AccCall H} (within : call.endsInference = false) (quiet : AccQuiet P evtyper a w call) :
    ∀ k < maxCounters, evtyper (accStep P a w call).2.pmu.hw k = evtyper w.pmu.hw k := by
  intro k hk
  cases call with
  | inferenceEnd => cases within
  | inferenceBegin => rfl
  | opBegin op =>
    dsimp only [accStep, opBegin]
    split
    · rfl
    · exact laws.pmuResetCounters _ hk
  | opEnd op =>
    dsimp only [accStep]
    by_cases inside : op.toNat < a.ops
    · rw [opEnd_inside P w inv.small inside]
      exact laws.pmuGetCounters _ _ hk
    · rw [opEnd_outside P w inside]
  | resolveTag text tag => rfl
  | findTag text tag => rfl
  | elapse f => exact quiet k hk

theorem accStep_ready (laws : Programs P evtyper) {a : Acc} {w : World H} (inv : AccInvariant a)
    (ready : BatchReady evtyper a w.pmu) {call : AccCall H} (quiet : AccQuiet P evtyper a w call) :
    BatchReady evtyper (accStep P a w call).1 (accStep P a w call).2.pmu := by
  cases ends : call.endsInference with
  | false =>
    have keeps := accStep_keeps P w inv ends
    exact ready.of_pmu keeps.entry.complete keeps.entry.batchSize keeps.entry.slotId
      keeps.entry.slots keeps.driver (accStep_types laws inv ends quiet)
  | true =>
    obtain rfl := AccCall.inferenceEnd_of ends
    dsimp only [AccQuiet, accStep] at quiet ⊢
    rcases inferenceEnd_cases P w inv with ⟨-, eq⟩ | ⟨-, -, eq⟩ | ⟨-, -, eq⟩
    · rw [eq]
      exact ready
    · rw [eq]
      exact ⟨fun measuring => absurd measuring (by simp), fun measuring => absurd measuring (by simp)⟩
    · rw [eq] at quiet ⊢
      dsimp only at quiet
      rw [pmuInit_latest, Option.some.injEq] at quiet
      exact batchReady_of_init laws rfl rfl rfl quiet

theorem opEnd_cell {a : Acc} {w : World H} (inv : AccInvariant a)
    (ready : BatchReady evtyper a w.pmu) (op : ℕ) {r e : ℕ} (hr : r < a.ops) (he : e < a.events) :
    (opEnd P op a w).2.mem (a.cell r e) = w.mem (a.cell r e) +
      if op = r ∧ a.nextEvent ≤ e ∧ e < a.nextEvent + a.batchSize then
        pairReading P (pausedHw P w.pmu) (2 * (e - a.nextEvent))
      else 0 := by
  by_cases inside : op < a.ops
  · have row : ∀ i < a.batchSize, a.nextEvent + i < a.events := by
      unfold Acc.batchSize
      omega
    rw [opEnd_inside P w inv.small inside]
    refine (addAll_row row he).trans ?_
    by_cases target : op = r ∧ a.nextEvent ≤ e ∧ e < a.nextEvent + a.batchSize
    · have measuring : a.complete = false := by
        by_contra complete
        rw [inv.batchSize_complete (by simpa using complete)] at target
        omega
      obtain ⟨-, -, values⟩ := (ready.ready measuring).getCounters (P := P)
      rw [if_pos target, if_pos target, values (e - a.nextEvent) (by omega)]
      rfl
    · rw [if_neg target, if_neg target]
      rfl
  · rw [opEnd_outside P w inside, if_neg (by omega), add_zero]

theorem inferenceEnd_memory (P : Platform H) {a : Acc} (w : World H) (inv : AccInvariant a) :
    (inferenceEnd P a w).2.mem = w.mem := by
  rcases inferenceEnd_cases P w inv with ⟨-, eq⟩ | ⟨-, -, eq⟩ | ⟨-, -, eq⟩ <;> rw [eq]

theorem accStep_memory {a : Acc} {w : World H} (inv : AccInvariant a) (call : AccCall H) {m : ℕ}
    (outside : m < a.sum ∨ a.sum + a.ops * a.events ≤ m) :
    (accStep P a w call).2.mem m = w.mem m := by
  cases call with
  | opEnd op =>
    dsimp only [accStep]
    by_cases inside : op.toNat < a.ops
    · rw [opEnd_inside P w inv.small inside]
      apply addAll_other
      intro slot hs same
      have hs := List.mem_range.mp hs
      have inRow : a.nextEvent + slot < a.events := by
        unfold Acc.batchSize at hs
        omega
      have below := rowMajor_lt inside inRow
      unfold Acc.cell at same
      omega
    · rw [opEnd_outside P w inside]
  | inferenceEnd =>
    dsimp only [accStep]
    rw [inferenceEnd_memory P w inv]
  | opBegin op =>
    dsimp only [accStep, opBegin]
    split <;> rfl
  | inferenceBegin => rfl
  | resolveTag text tag => rfl
  | findTag text tag => rfl
  | elapse f => rfl

/-- A complete entry stays complete; no call through it writes to the memory, calls
`nsx_pmu_init` or programs the PMU anew. -/
theorem accStep_complete (laws : Programs P evtyper) {a : Acc} {w : World H}
    (inv : AccInvariant a) (complete : a.complete = true) {call : AccCall H}
    (quiet : AccQuiet P evtyper a w call) :
    (accStep P a w call).1.complete = true ∧ (accStep P a w call).2.mem = w.mem ∧
      (accStep P a w call).2.pmu.inits = w.pmu.inits ∧
      ∀ k < maxCounters, evtyper (accStep P a w call).2.pmu.hw k = evtyper w.pmu.hw k := by
  cases ends : call.endsInference with
  | true =>
    obtain rfl := AccCall.inferenceEnd_of ends
    have stays : inferenceEnd P a w = (a, w) := if_pos complete
    dsimp only [accStep]
    rw [stays]
    exact ⟨complete, rfl, rfl, fun _ _ => rfl⟩
  | false =>
    have keeps := accStep_keeps P w inv ends
    refine ⟨keeps.entry.complete.trans complete, ?_, keeps.inits, accStep_types laws inv ends quiet⟩
    cases call with
    | inferenceEnd => cases ends
    | opBegin op =>
      dsimp only [accStep, opBegin]
      split <;> rfl
    | opEnd op =>
      dsimp only [accStep]
      by_cases inside : op.toNat < a.ops
      · rw [opEnd_inside P w inv.small inside, inv.batchSize_complete complete]
        rfl
      · rw [opEnd_outside P w inside]
    | _ => rfl

end NsxPmu
