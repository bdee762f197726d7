import NsxPmu.PmuDriver
import NsxPmu.Lib.WordMemory

set_option autoImplicit false

/-!
# Accumulators

`nsx_pmu_accumulator.c`. An accumulator collects one matrix of operators and events
over as many inferences as the events need batches of counters. The accumulators
live in a fixed table and callers hold the index of an entry.
-/
namespace NsxPmu
open Function (update)
open WordMemory

/-- The build-time limits `NSX_PMU_MAX_ACTIVE_MATRICES` and `NSX_PMU_MAX_OPS`. The loops over
them count in a `uint8_t` and a `uint16_t`. -/
structure AccBuild where
  maxActive : ℕ
  maxOps : ℕ
  maxActive_le : maxActive ≤ 255
  maxOps_le : maxOps ≤ 65535

/-- The limits of the header for an Armv8-M PMU. -/
def AccBuild.default : AccBuild := ⟨1, 4096, by decide, by decide⟩

abbrev eventsPerRun : ℕ := maxCounters / 2

/-- `tag_map_t`. A tag is the address of its text and 0 for NULL. -/
structure TagMap where
  tag : ℕ
  row : ℕ

structure Acc where
  inUse : Bool
  complete : Bool
  ops : ℕ
  events : ℕ
  nextEvent : ℕ
  nextRow : ℕ
  sum : ℕ
  tagMap : ℕ → TagMap
  cfg : PmuConfig

/-- An entry after `memset(a, 0, sizeof(*a))`. -/
def Acc.zero : Acc := ⟨false, false, 0, 0, 0, 0, 0, fun _ => ⟨0, 0⟩, .zero⟩

variable {H : Type}

/-- `handle_to_acc`: the live entry of a handle. -/
def handleToAcc (B : AccBuild) (accs : ℕ → Acc) (h : BitVec 8) : Option ℕ :=
  if h.toNat < B.maxActive ∧ (accs h.toNat).inUse = true then some h.toNat else none

/-- The loop of `cfg_select_events` over the slots of the batch. -/
def selectBatchEvents (a : Acc) : List ℕ → PmuConfig → PmuConfig
  | [], cfg => cfg
  | i :: rest, cfg =>
    let ev := u16 (a.nextEvent + i)
    if ev ≥ a.events then cfg
    else selectBatchEvents a rest (pmuEventCreate cfg i (mapEventId ev) .size32)

/-- The configuration that `cfg_select_events` hands to `nsx_pmu_init`. -/
def batchConfig (a : Acc) : PmuConfig :=
  selectBatchEvents a (List.range eventsPerRun) { pmuResetConfig a.cfg with api := some pmuV1_0_0 }

def cfgSelectEvents (P : Platform H) (a : Acc) (s : Pmu H) : Acc × Pmu H :=
  let r := pmuInit P (batchConfig a) s
  ({ a with cfg := r.2.1 }, r.2.2)

/-- `nsx_pmu_accm_create`; the handle 0xFF reports a failure. -/
def accmCreate (B : AccBuild) (P : Platform H) (accs : ℕ → Acc) (ops events : BitVec 16)
    (backingBuf : ℕ) (w : World H) : BitVec 8 × (ℕ → Acc) × World H :=
  if backingBuf = 0 ∨ ops.toNat = 0 ∨ ops.toNat > B.maxOps ∨ events.toNat = 0 ∨
      events.toNat > pmuMapSize then (0xFF, accs, w)
  else match (List.range B.maxActive).find? fun idx => !(accs idx).inUse with
    | none => (0xFF, accs, w)
    | some idx =>
      let a := { Acc.zero with
        inUse := true, ops := ops.toNat, events := events.toNat, sum := backingBuf }
      let mem := zeroRange w.mem backingBuf (ops.toNat * events.toNat)
      let r := cfgSelectEvents P a w.pmu
      (BitVec.ofNat 8 idx, update accs idx r.1, ⟨r.2, mem⟩)

/-- A call through a handle: nothing happens when the handle is not live. -/
def onHandle (B : AccBuild) (accs : ℕ → Acc) (h : BitVec 8) (f : Acc → World H → Acc × World H)
    (w : World H) : (ℕ → Acc) × World H :=
  match handleToAcc B accs h with
  | none => (accs, w)
  | some i => (update accs i (f (accs i) w).1, (f (accs i) w).2)

def accmDestroy (B : AccBuild) (accs : ℕ → Acc) (h : BitVec 8) (w : World H) :
    (ℕ → Acc) × World H :=
  onHandle B accs h (fun _ w => (.zero, w)) w

def accmInferenceBegin (accs : ℕ → Acc) (_h : BitVec 8) : ℕ → Acc := accs

def inferenceEnd (P : Platform H) (a : Acc) (w : World H) : Acc × World H :=
  if a.complete then (a, w)
  else
    let a := { a with nextEvent := u16 (a.nextEvent + eventsPerRun) }
    if a.nextEvent ≥ a.events then ({ a with complete := true }, w)
    else
      let r := cfgSelectEvents P a w.pmu
      (r.1, { w with pmu := r.2 })

def accmInferenceEnd (B : AccBuild) (P : Platform H) (accs : ℕ → Acc) (h : BitVec 8)
    (w : World H) : (ℕ → Acc) × World H :=
  onHandle B accs h (inferenceEnd P) w

def opBegin (P : Platform H) (opIdx : ℕ) (a : Acc) (w : World H) : Acc × World H :=
  if opIdx ≥ a.ops then (a, w) else (a, { w with pmu := pmuResetCounters P w.pmu })

def accmOpBegin (B : AccBuild) (P : Platform H) (accs : ℕ → Acc) (h : BitVec 8) (opIdx : ℕ)
    (w : World H) : (ℕ → Acc) × World H :=
  onHandle B accs h (opBegin P opIdx) w

/-- The loop of `nsx_pmu_accm_op_end` over the slots of the batch. -/
def addBatchReadings (a : Acc) (opIdx : ℕ) : List ℕ → (ℕ → Word) → (ℕ → Word)
  | [], mem => mem
  | i :: rest, mem =>
    let ev := u16 (a.nextEvent + i)
    if ev ≥ a.events then mem
    else addBatchReadings a opIdx rest
      (addAt mem (a.sum + (opIdx * a.events + ev)) (a.cfg.counter i).counterValue)

/-- `nsx_pmu_accm_op_end` on a live entry. The status of the read-out is not looked at. -/
def opEnd (P : Platform H) (opIdx : ℕ) (a : Acc) (w : World H) : Acc × World H :=
  if opIdx ≥ a.ops then (a, w)
  else
    let r := pmuGetCounters P a.cfg w.pmu
    let a := { a with cfg := r.2.1 }
    (a, ⟨r.2.2, addBatchReadings a opIdx (List.range eventsPerRun) w.mem⟩)

def accmOpEnd (B : AccBuild) (P : Platform H) (accs : ℕ → Acc) (h : BitVec 8) (opIdx : ℕ)
    (w : World H) : (ℕ → Acc) × World H :=
  onHandle B accs h (opEnd P opIdx) w

/-- `tag_lookup`. `text` is what the addresses point at during the call. -/
def tagLookup (text : ℕ → List (BitVec 8)) (a : Acc) (tag : ℕ) (createIfMissing : Bool) : ℕ × Acc :=
  match (List.range a.nextRow).find? fun i => (a.tagMap i).tag == tag with
  | some i => ((a.tagMap i).row, a)
  | none =>
    match (List.range a.nextRow).find? fun i => text (a.tagMap i).tag == text tag with
    | some i => ((a.tagMap i).row, a)
    | none =>
      if !createIfMissing || a.nextRow ≥ a.ops then (65535, a)
      else
        (a.nextRow, { a with
          nextRow := u16 (a.nextRow + 1), tagMap := update a.tagMap a.nextRow ⟨tag, a.nextRow⟩ })

/-- `nsx_pmu_accm_resolve_tag` and `nsx_pmu_accm_find_tag`, which differ in whether a new tag
gets a row. -/
def accmTag (createIfMissing : Bool) (B : AccBuild) (text : ℕ → List (BitVec 8)) (accs : ℕ → Acc)
    (h : BitVec 8) (tag : ℕ) : ℕ × (ℕ → Acc) :=
  match handleToAcc B accs h with
  | none => (65535, accs)
  | some i =>
    if tag = 0 then (65535, accs)
    else
      let r := tagLookup text (accs i) tag createIfMissing
      (r.1, update accs i r.2)

def accmResolveTag (B : AccBuild) (text : ℕ → List (BitVec 8)) (accs : ℕ → Acc) (h : BitVec 8)
    (tag : ℕ) : ℕ × (ℕ → Acc) :=
  accmTag true B text accs h tag

def accmFindTag (B : AccBuild) (text : ℕ → List (BitVec 8)) (accs : ℕ → Acc) (h : BitVec 8)
    (tag : ℕ) : ℕ × (ℕ → Acc) :=
  accmTag false B text accs h tag

def accmComplete (B : AccBuild) (accs : ℕ → Acc) (h : BitVec 8) : Bool :=
  match handleToAcc B accs h with
  | none => false
  | some i => (accs i).complete

def accmGetLayer (B : AccBuild) (accs : ℕ → Acc) (h : BitVec 8) (layer out callerCapacity : ℕ)
    (w : World H) : World H :=
  match handleToAcc B accs h with
  | none => w
  | some i =>
    let a := accs i
    if out = 0 ∨ layer ≥ a.ops then w
    else
      let n := if callerCapacity < a.events then callerCapacity else a.events
      { w with mem := copyRange w.mem out (a.sum + layer * a.events) n }

/-- `nsx_pmu_accm_get`: what stands in `*matrix` afterwards. The pointer may be NULL. -/
def accmGet (B : AccBuild) (accs : ℕ → Acc) (h : BitVec 8) (matrix : Option ℕ) : Option ℕ :=
  matrix.map fun old => (handleToAcc B accs h).elim old fun i => (accs i).sum

def printMatrixHeader (events : ℕ) (s : Pmu H) : Pmu H :=
  ((List.range events).foldl (fun s j => s.printf ((pmuMapAt j).regname ++ " "))
    (s.printf "Op: ")).printf "\n"

def printMatrixRow (mem : ℕ → Word) (matrix events : ℕ) (s : Pmu H) (i : ℕ) : Pmu H :=
  ((List.range events).foldl
    (fun s j => s.printf (toString (mem (matrix + (i * events + j))).toNat ++ ", "))
    (s.printf (toString i ++ ", "))).printf "\n"

/-- `nsx_pmu_accmprint_matrix`. The matrix, its operators and its events are those of the caller,
the handle has to be live. -/
def accmPrintMatrix (B : AccBuild) (accs : ℕ → Acc) (h : BitVec 8) (matrix : ℕ)
    (ops events : BitVec 16) (w : World H) : World H :=
  let s := printMatrixHeader events.toNat w.pmu
  if (handleToAcc B accs h).isSome ∧ matrix ≠ 0 then
    { w with pmu := (List.range ops.toNat).foldl (printMatrixRow w.mem matrix events.toNat) s }
  else { w with pmu := s }

end NsxPmu
