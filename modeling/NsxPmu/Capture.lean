import NsxPmu.PmuDriver
import NsxPmu.Lib.WordMemory

set_option autoImplicit false

/-!
# Chunked captures

`nsx_pmu_capture.c`. A capture walks a model in chunks of operators; within a
chunk it repeats the model once for every group of events that fits the counters
and adds what it reads to a matrix of one row an operator and one column an
event. Entry points take the object behind a pointer that is not NULL.
-/
namespace NsxPmu
open Function (update)
open WordMemory

abbrev maxEventsPerPass : ℕ := maxCounters / 2

/-- `nsx_pmu_capture_cfg_t`. A pointer to words is the address of the first word and 0
for NULL; the event map is the content behind its pointer. -/
structure CaptureCfg where
  api : Option CoreApi
  totalOps : BitVec 16
  opsPerChunk : BitVec 16
  eventCount : BitVec 16
  eventsPerPass : BitVec 8
  eventMapIndices : Option (ℕ → BitVec 16)
  matrixStorage : ℕ
  matrixStorageCount : Word

structure Capture where
  api : Option CoreApi
  eventMapIndices : Option (ℕ → BitVec 16)
  matrixStorage : ℕ
  matrixStorageCount : ℕ
  totalOps : ℕ
  opsPerChunk : ℕ
  totalEventCount : ℕ
  currentChunkStart : ℕ
  currentChunkOps : ℕ
  currentEventBase : ℕ
  eventsPerPass : ℕ
  currentPassEvents : ℕ
  chunkReady : Bool
  complete : Bool
  pmuCfg : PmuConfig

variable {H : Type}

def captureMinU16 (left right : ℕ) : ℕ := if left < right then left else right

def captureRequiredStorage (ops events : ℕ) : ℕ := u32 (ops * events)

def captureGetEventCount (cfg : CaptureCfg) : ℕ :=
  if cfg.eventCount.toNat = 0 then pmuMapSize else cfg.eventCount.toNat

def captureGetOpsPerChunk (cfg : CaptureCfg) : ℕ :=
  if cfg.opsPerChunk.toNat = 0 then cfg.totalOps.toNat else cfg.opsPerChunk.toNat

def captureCurrentChunkOffset (c : Capture) (chunkOpIndex logicalEventIndex : ℕ) : ℕ :=
  u32 (chunkOpIndex * c.totalEventCount + logicalEventIndex)

def captureGetEventMapIndex (c : Capture) (logicalEventIndex : ℕ) : Except Status ℕ :=
  if logicalEventIndex ≥ c.totalEventCount then .error statusInvalidConfig
  else
    let mapIndex := match c.eventMapIndices with
      | none => logicalEventIndex
      | some indices => (indices logicalEventIndex).toNat
    if mapIndex ≥ pmuMapSize then .error statusInvalidConfig else .ok mapIndex

/-- The loop of `nsx_pmu_capture_prepare_pass` over the slots of the pass. -/
def selectPassEvents (c : Capture) : List ℕ → PmuConfig → Option Status × PmuConfig
  | [], pmuCfg => (none, pmuCfg)
  | slot :: rest, pmuCfg =>
    match captureGetEventMapIndex c (u16 (c.currentEventBase + slot)) with
    | .error status => (some status, pmuCfg)
    | .ok mapIndex =>
      selectPassEvents c rest (pmuEventCreate pmuCfg slot (mapEventId mapIndex) .size32)

def capturePreparePass (P : Platform H) (c : Capture) (s : Pmu H) : Status × Capture × Pmu H :=
  let c := { c with pmuCfg := { pmuResetConfig c.pmuCfg with api := c.api } }
  if c.currentEventBase ≥ c.totalEventCount then
    (statusSuccess, { c with currentPassEvents := 0 }, s)
  else
    let passEvents := captureMinU16 c.eventsPerPass (u16Sub c.totalEventCount c.currentEventBase)
    let c := { c with currentPassEvents := u8 passEvents }
    let selected := selectPassEvents c (List.range passEvents) c.pmuCfg
    match selected.1 with
    | some status => (status, { c with pmuCfg := selected.2 }, s)
    | none =>
      let r := pmuInit P selected.2 s
      (r.1, { c with pmuCfg := r.2.1 }, r.2.2)

def captureResetChunk (P : Platform H) (c : Capture) (chunkStart : ℕ) (w : World H) :
    Status × Capture × World H :=
  let c := { c with currentChunkStart := chunkStart }
  let c := { c with
    currentChunkOps := captureMinU16 c.opsPerChunk (u16Sub c.totalOps c.currentChunkStart)
    currentEventBase := 0
    currentPassEvents := 0
    chunkReady := false }
  let mem := zeroRange w.mem c.matrixStorage
    (captureRequiredStorage c.currentChunkOps c.totalEventCount)
  let r := capturePreparePass P c w.pmu
  (r.1, r.2.1, ⟨r.2.2, mem⟩)

def captureInit (P : Platform H) (c : Capture) (cfg : CaptureCfg) (w : World H) :
    Status × Capture × World H :=
  if cfg.matrixStorage = 0 then (statusInvalidHandle, c, w)
  else if cfg.totalOps.toNat = 0 then (statusInvalidConfig, c, w)
  else
    let totalEventCount := captureGetEventCount cfg
    let opsPerChunk := captureGetOpsPerChunk cfg
    if totalEventCount = 0 ∨ totalEventCount > pmuMapSize ∨
        opsPerChunk = 0 ∨ opsPerChunk > cfg.totalOps.toNat then (statusInvalidConfig, c, w)
    else
      let c := { c with
        api := some (cfg.api.getD pmuV1_0_0)
        eventMapIndices := cfg.eventMapIndices
        matrixStorage := cfg.matrixStorage
        matrixStorageCount := cfg.matrixStorageCount.toNat
        totalOps := cfg.totalOps.toNat
        opsPerChunk := u16 opsPerChunk
        totalEventCount := u16 totalEventCount
        eventsPerPass :=
          if cfg.eventsPerPass.toNat = 0 then maxEventsPerPass else cfg.eventsPerPass.toNat }
      if c.eventsPerPass > maxEventsPerPass then (statusInvalidConfig, c, w)
      else if c.matrixStorageCount < captureRequiredStorage c.opsPerChunk c.totalEventCount then
        (statusInvalidConfig, c, w)
      else captureResetChunk P { c with complete := false, pmuCfg := .zero } 0 w

def captureReset (P : Platform H) (c : Capture) (w : World H) : Status × Capture × World H :=
  if c.matrixStorage = 0 then (statusInvalidHandle, c, w)
  else captureResetChunk P { c with complete := false } 0 w

def captureModelBegin (c : Capture) : Capture := c

def captureModelEnd (P : Platform H) (c : Capture) (w : World H) : Status × Capture × World H :=
  if c.chunkReady || c.complete then (statusSuccess, c, w)
  else
    let nextEventBase := u16 (c.currentEventBase + c.currentPassEvents)
    if nextEventBase ≥ c.totalEventCount then
      (statusSuccess,
        { c with
            chunkReady := true
            complete := decide (c.currentChunkStart + c.currentChunkOps ≥ c.totalOps) }, w)
    else
      let r := capturePreparePass P { c with currentEventBase := nextEventBase } w.pmu
      (r.1, r.2.1, { w with pmu := r.2.2 })

/-- The chunk row of an operator, when the operator is sampled. -/
def captureShouldSampleLayer (c : Capture) (globalOpIndex : ℕ) : Option ℕ :=
  if globalOpIndex < c.currentChunkStart ∨
      globalOpIndex ≥ c.currentChunkStart + c.currentChunkOps then none
  else some (u16Sub globalOpIndex c.currentChunkStart)

def captureLayerBegin (P : Platform H) (c : Capture) (globalOpIndex : ℕ) (w : World H) : World H :=
  match captureShouldSampleLayer c globalOpIndex with
  | none => w
  | some _ => { w with pmu := pmuResetCounters P w.pmu }

/-- The loop of `nsx_pmu_capture_layer_end` over the slots of the pass. -/
def addPassReadings (c : Capture) (chunkOpIndex : ℕ) (mem : ℕ → Word) : ℕ → Word :=
  addAll
    (fun slot => c.matrixStorage +
      captureCurrentChunkOffset c chunkOpIndex (u16 (c.currentEventBase + slot)))
    (fun slot => (c.pmuCfg.counter slot).counterValue) (List.range c.currentPassEvents) mem

def captureLayerEnd (P : Platform H) (c : Capture) (globalOpIndex : ℕ) (w : World H) :
    Capture × World H :=
  match captureShouldSampleLayer c globalOpIndex with
  | none => (c, w)
  | some chunkOpIndex =>
    let r := pmuGetCounters P c.pmuCfg w.pmu
    let c := { c with pmuCfg := r.2.1 }
    if r.1 ≠ statusSuccess then (c, { w with pmu := r.2.2 })
    else (c, ⟨r.2.2, addPassReadings c chunkOpIndex w.mem⟩)

def captureChunkReady (c : Capture) : Bool := c.chunkReady

def captureComplete (c : Capture) : Bool := c.complete

def captureAdvanceChunk (P : Platform H) (c : Capture) (w : World H) : Status × Capture × World H :=
  if !c.chunkReady then (statusInvalidConfig, c, w)
  else if c.complete then (statusSuccess, { c with chunkReady := false }, w)
  else captureResetChunk P c (u16 (c.currentChunkStart + c.currentChunkOps)) w

structure CaptureChunkInfo where
  chunkStart : ℕ
  chunkOps : ℕ
  totalOps : ℕ
  eventCount : ℕ
  eventsPerPass : ℕ
  chunkReady : Bool
  complete : Bool

/-- What `nsx_pmu_capture_get_chunk_info` stores; it returns success. -/
def captureGetChunkInfo (c : Capture) : CaptureChunkInfo where
  chunkStart := c.currentChunkStart
  chunkOps := c.currentChunkOps
  totalOps := c.totalOps
  eventCount := c.totalEventCount
  eventsPerPass := c.eventsPerPass
  chunkReady := c.chunkReady
  complete := c.complete

/-- The address that `nsx_pmu_capture_get_chunk_matrix` stores; it returns success. -/
def captureGetChunkMatrix (c : Capture) : ℕ := c.matrixStorage

end NsxPmu
