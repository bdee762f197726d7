import NsxPmu.Accumulator
import NsxPmu.CaptureLedger

set_option autoImplicit false

/-!
# Runs of an accumulator

The calls a caller can make through a handle, and what each does to the entry of
a live handle and to the driver.
-/
namespace NsxPmu
open Function (update)
open WordMemory LabelledRuns

variable {H : Type}

/-- The calls through a handle, and the hardware running on between two calls. -/
inductive AccCall (H : Type) where
  | inferenceBegin
  | inferenceEnd
  | opBegin (opIdx : BitVec 16)
  | opEnd (opIdx : BitVec 16)
  | resolveTag (text : ℕ → List (BitVec 8)) (tag : ℕ)
  | findTag (text : ℕ → List (BitVec 8)) (tag : ℕ)
  | elapse (f : H → H)

def AccCall.endsInference : AccCall H → Bool
  | .inferenceEnd => true
  | _ => false

structure AccStore (H : Type) where
  accs : ℕ → Acc
  world : World H

def accmStep (B : AccBuild) (P : Platform H) (h : BitVec 8) (x : AccStore H) :
    AccCall H → AccStore H
  | .inferenceBegin => ⟨accmInferenceBegin x.accs h, x.world⟩
  | .inferenceEnd =>
    ⟨(accmInferenceEnd B P x.accs h x.world).1, (accmInferenceEnd B P x.accs h x.world).2⟩
  | .opBegin op =>
    ⟨(accmOpBegin B P x.accs h op.toNat x.world).1, (accmOpBegin B P x.accs h op.toNat x.world).2⟩
  | .opEnd op =>
    ⟨(accmOpEnd B P x.accs h op.toNat x.world).1, (accmOpEnd B P x.accs h op.toNat x.world).2⟩
  | .resolveTag text tag => ⟨(accmResolveTag B text x.accs h tag).2, x.world⟩
  | .findTag text tag => ⟨(accmFindTag B text x.accs h tag).2, x.world⟩
  | .elapse f => ⟨x.accs, x.world.elapse f⟩

def accStep (P : Platform H) (a : Acc) (w : World H) : AccCall H → Acc × World H
  | .inferenceBegin => (a, w)
  | .inferenceEnd => inferenceEnd P a w
  | .opBegin op => opBegin P op.toNat a w
  | .opEnd op => opEnd P op.toNat a w
  | .resolveTag text tag => (if tag = 0 then a else (tagLookup text a tag true).2, w)
  | .findTag text tag => (if tag = 0 then a else (tagLookup text a tag false).2, w)
  | .elapse f => (a, w.elapse f)

theorem handleToAcc_some {B : AccBuild} {accs : ℕ → Acc} {h : BitVec 8} {i : ℕ}
    (live : handleToAcc B accs h = some i) : i = h.toNat := by
  unfold handleToAcc at live
  split at live
  · exact (Option.some.inj live).symm
  · cases live

theorem handleToAcc_live {B : AccBuild} {accs : ℕ → Acc} {h : BitVec 8} :
    handleToAcc B accs h = some h.toNat ↔
      h.toNat < B.maxActive ∧ (accs h.toNat).inUse = true := by
  unfold handleToAcc
  split <;> simp_all

theorem accmStep_dead {B : AccBuild} {P : Platform H} {h : BitVec 8} {x : AccStore H} (dead : handleToAcc B x.accs h = none)
    (call : AccCall H) :
    accmStep B P h x call = x ∨ ∃ f, call = .elapse f ∧
      accmStep B P h x call = ⟨x.accs, x.world.elapse f⟩ := by
  cases call with
  | elapse f => exact .inr ⟨f, rfl, rfl⟩
  | inferenceBegin => exact .inl rfl
  | inferenceEnd => simp [accmStep, accmInferenceEnd, onHandle, dead]
  | opBegin op => simp [accmStep, accmOpBegin, onHandle, dead]
  | opEnd op => simp [accmStep, accmOpEnd, onHandle, dead]
  | resolveTag text tag => simp [accmStep, accmResolveTag, accmTag, dead]
  | findTag text tag => simp [accmStep, accmFindTag, accmTag, dead]

theorem accmStep_live {B : AccBuild} (P : Platform H) {h : BitVec 8} {x : AccStore H} {i : ℕ}
    (live : handleToAcc B x.accs h = some i) (call : AccCall H) :
    accmStep B P h x call =
      ⟨update x.accs i (accStep P (x.accs i) x.world call).1,
        (accStep P (x.accs i) x.world call).2⟩ := by
  cases call with
  | inferenceBegin => simp [accmStep, accStep, accmInferenceBegin]
  | inferenceEnd => simp [accmStep, accStep, accmInferenceEnd, onHandle, live]
  | opBegin op => simp [accmStep, accStep, accmOpBegin, onHandle, live]
  | opEnd op => simp [accmStep, accStep, accmOpEnd, onHandle, live]
  | resolveTag text tag =>
    by_cases null : tag = 0 <;> simp [accmStep, accStep, accmResolveTag, accmTag, live, null]
  | findTag text tag =>
    by_cases null : tag = 0 <;> simp [accmStep, accStep, accmFindTag, accmTag, live, null]
  | elapse f => simp [accmStep, accStep]

/-- The fields that `nsx_pmu_accm_create` fixes are the same in two entries. -/
structure SameMatrix (a a' : Acc) : Prop where
  inUse : a'.inUse = a.inUse
  ops : a'.ops = a.ops
  events : a'.events = a.events
  sum : a'.sum = a.sum

theorem SameMatrix.refl (a : Acc) : SameMatrix a a := ⟨rfl, rfl, rfl, rfl⟩

theorem SameMatrix.trans {a b c : Acc} (h : SameMatrix a b) (h' : SameMatrix b c) :
    SameMatrix a c :=
  ⟨h'.inUse.trans h.inUse, h'.ops.trans h.ops, h'.events.trans h.events, h'.sum.trans h.sum⟩

theorem tagLookup_acc (text : ℕ → List (BitVec 8)) (a : Acc) (tag : ℕ) (create : Bool) :
    (tagLookup text a tag create).2 =
      { a with
          nextRow := (tagLookup text a tag create).2.nextRow
          tagMap := (tagLookup text a tag create).2.tagMap } := by
  unfold tagLookup
  split
  · rfl
  · split
    · rfl
    · split <;> rfl

structure AccInvariant (a : Acc) : Prop where
  ops_pos : 1 ≤ a.ops
  events_pos : 1 ≤ a.events
  events_le : a.events ≤ 70
  nextEvent_lt : a.nextEvent < a.events + 4
  complete : a.complete = true ↔ a.events ≤ a.nextEvent

def Acc.batchSize (a : Acc) : ℕ := min 4 (a.events - a.nextEvent)

def Acc.slotId (a : Acc) (slot : ℕ) : Word := mapEventId (a.nextEvent + slot)

theorem selectBatchEvents_createUntil (a : Acc) (l : List ℕ) (cfg : PmuConfig) :
    selectBatchEvents a l cfg = createUntil (fun i => decide (u16 (a.nextEvent + i) ≥ a.events))
      (fun i => mapEventId (u16 (a.nextEvent + i))) l cfg := by
  induction l generalizing cfg with
  | nil => rfl
  | cons i l ih =>
    rw [selectBatchEvents, createUntil, ih]
    simp

theorem batchConfig_eq {a : Acc} (small : a.nextEvent + 4 < 65536) :
    batchConfig a = pairedConfig (some pmuV1_0_0) a.cfg a.batchSize a.slotId := by
  have exact_ : ∀ i < 4, u16 (a.nextEvent + i) = a.nextEvent + i := by
    intro i hi
    exact u16_of_lt (by omega)
  have size : a.batchSize = min 4 (a.events - a.nextEvent) := rfl
  rw [batchConfig, selectBatchEvents_createUntil]
  apply createUntil_paired (some pmuV1_0_0) a.cfg (by omega)
  · intro i hi
    rw [exact_ i hi, decide_eq_true_iff]
    omega
  · intro i hi
    rw [exact_ i (by omega)]
    rfl

theorem addBatchReadings_eq {a : Acc} (small : a.nextEvent + 4 < 65536) (op s n : ℕ)
    (mem : ℕ → Word) (le : s + n ≤ 4) :
    addBatchReadings a op (List.range' s n) mem =
      addAll (fun i => a.sum + (op * a.events + (a.nextEvent + i)))
        (fun i => (a.cfg.counter i).counterValue)
        (List.range' s (min n (a.events - (a.nextEvent + s)))) mem := by
  induction n generalizing s mem with
  | zero =>
    rw [Nat.zero_min]
    rfl
  | succ n ih =>
    rw [List.range'_succ, addBatchReadings, u16_of_lt (by omega)]
    by_cases stop : a.nextEvent + s ≥ a.events
    · rw [if_pos stop, Nat.sub_eq_zero_of_le stop, Nat.min_zero]
      rfl
    · have size : min (n + 1) (a.events - (a.nextEvent + s)) =
          min n (a.events - (a.nextEvent + (s + 1))) + 1 := by omega
      rw [if_neg stop, ih (s + 1) _ (by omega), size, List.range'_succ]
      rfl

def Acc.cell (a : Acc) (op event : ℕ) : ℕ := a.sum + (op * a.events + event)

theorem SameMatrix.cell {a a' : Acc} (same : SameMatrix a a') (op event : ℕ) :
    a'.cell op event = a.cell op event := by
  unfold Acc.cell
  rw [same.sum, same.events]

theorem addBatchReadings_all {a : Acc} (small : a.nextEvent + 4 < 65536) (op : ℕ)
    (mem : ℕ → Word) :
    addBatchReadings a op (List.range eventsPerRun) mem =
      addAll (fun i => a.cell op (a.nextEvent + i)) (fun i => (a.cfg.counter i).counterValue)
        (List.range a.batchSize) mem := by
  have range : List.range eventsPerRun = List.range' 0 4 := by decide
  rw [range, addBatchReadings_eq small op 0 4 mem (by omega), List.range_eq_range']
  rfl

theorem opEnd_outside (P : Platform H) {a : Acc} (w : World H) {op : ℕ} (outside : ¬ op < a.ops) :
    opEnd P op a w = (a, w) := if_pos (by omega)

theorem opEnd_inside (P : Platform H) {a : Acc} (w : World H) (small : a.nextEvent + 4 < 65536)
    {op : ℕ} (inside : op < a.ops) :
    opEnd P op a w =
      ({ a with cfg := (pmuGetCounters P a.cfg w.pmu).2.1 },
        ⟨(pmuGetCounters P a.cfg w.pmu).2.2,
          addAll (fun i => a.cell op (a.nextEvent + i))
            (fun i => ((pmuGetCounters P a.cfg w.pmu).2.1.counter i).counterValue)
            (List.range a.batchSize) w.mem⟩) := by
  have readings := addBatchReadings_all (a := { a with cfg := (pmuGetCounters P a.cfg w.pmu).2.1 })
    small op w.mem
  unfold opEnd
  rw [if_neg (by omega)]
  dsimp only
  rw [readings]
  rfl

def Acc.nextBatch (a : Acc) : Acc := { a with nextEvent := a.nextEvent + 4 }

theorem inferenceEnd_cases (P : Platform H) {a : Acc} (w : World H) (inv : AccInvariant a) :
    (a.complete = true ∧ inferenceEnd P a w = (a, w)) ∨
    (a.complete = false ∧ a.events ≤ a.nextEvent + 4 ∧
      inferenceEnd P a w = ({ a.nextBatch with complete := true }, w)) ∨
    (a.complete = false ∧ a.nextEvent + 4 < a.events ∧
      inferenceEnd P a w =
        ({ a.nextBatch with cfg := (pmuInit P (pairedConfig (some pmuV1_0_0) a.cfg
              a.nextBatch.batchSize a.nextBatch.slotId) w.pmu).2.1 },
          { w with pmu := (pmuInit P (pairedConfig (some pmuV1_0_0) a.cfg
              a.nextBatch.batchSize a.nextBatch.slotId) w.pmu).2.2 })) := by
  have events := inv.events_le
  have next := inv.nextEvent_lt
  by_cases complete : a.complete = true
  · exact .inl ⟨complete, if_pos complete⟩
  · right
    have incomplete : a.complete = false := by simpa using complete
    unfold inferenceEnd
    rw [if_neg complete, u16_of_lt (by dsimp only [eventsPerRun, maxCounters]; omega)]
    dsimp only [eventsPerRun, maxCounters]
    by_cases last : a.nextEvent + 8 / 2 ≥ a.events
    · rw [if_pos last]
      exact .inl ⟨incomplete, last, rfl⟩
    · rw [if_neg last]
      refine .inr ⟨incomplete, by omega, ?_⟩
      have small : a.nextBatch.nextEvent + 4 < 65536 := by
        dsimp only [Acc.nextBatch]
        omega
      change ((cfgSelectEvents P a.nextBatch w.pmu).1,
        ({ w with pmu := (cfgSelectEvents P a.nextBatch w.pmu).2 } : World H)) = _
      rw [cfgSelectEvents, batchConfig_eq small]
      rfl

end NsxPmu
