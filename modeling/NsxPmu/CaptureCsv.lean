import NsxPmu.Capture
import NsxPmu.Transport

set_option autoImplicit false

/-!
# CSV serialisation of a chunk

`nsx_pmu_capture_serialize_csv`: the calls of the transport in order, the first
failing one of which ends the function.
-/
namespace NsxPmu

variable {X : Type}

/-- A step for the event map index of a column; an index that is refused is returned. -/
def withEventMapIndex (c : Capture) (logicalEventIndex : ℕ) (f : ℕ → SinkStep X) : SinkStep X :=
  fun x =>
    match captureGetEventMapIndex c logicalEventIndex with
    | .error status => (status, x)
    | .ok mapIndex => f mapIndex x

def csvChunkLine (c : Capture) : Bytes :=
  ascii "# chunk_start=" ++ formatUnsigned c.currentChunkStart ++
  ascii ",chunk_ops=" ++ formatUnsigned c.currentChunkOps ++
  ascii ",total_ops=" ++ formatUnsigned c.totalOps ++
  ascii ",event_count=" ++ formatUnsigned c.totalEventCount ++
  ascii ",events_per_pass=" ++ formatUnsigned c.eventsPerPass ++ ascii "\n"

def csvHeaderSteps (c : Capture) (t : Transport X) : List (SinkStep X) :=
  [transportWriteCstr t "# nsx_pmu_capture_csv_v1\n", transportPrintf t (csvChunkLine c),
    transportWriteCstr t "layer_index"] ++
  (List.range c.totalEventCount).map (fun e => withEventMapIndex c e fun mapIndex =>
    transportPrintf t (ascii "," ++ ascii (pmuMapAt mapIndex).regname)) ++
  [transportWriteCstr t "\n", transportWriteCstr t "event_id"] ++
  (List.range c.totalEventCount).map (fun e => withEventMapIndex c e fun mapIndex =>
    transportPrintf t (ascii ",0x" ++ formatHex4 (pmuMapAt mapIndex).eventId.toNat)) ++
  [transportWriteCstr t "\n"]

def csvRowSteps (c : Capture) (mem : ℕ → Word) (t : Transport X) (chunkOpIndex : ℕ) :
    List (SinkStep X) :=
  [transportPrintf t (formatUnsigned (c.currentChunkStart + chunkOpIndex))] ++
  (List.range c.totalEventCount).map (fun e => transportPrintf t
    (ascii "," ++
      formatUnsigned (mem (c.matrixStorage + captureCurrentChunkOffset c chunkOpIndex e)).toNat)) ++
  [transportWriteCstr t "\n"]

/-- `nsx_pmu_capture_serialize_csv`. The capture and the memory are only read. -/
def captureSerializeCsv (c : Capture) (mem : ℕ → Word) (t : Transport X) (includeHeader : Bool) :
    SinkStep X := fun x =>
  if !c.chunkReady then (statusInvalidConfig, x)
  else
    let header := if includeHeader then csvHeaderSteps c t else []
    let rows := (List.range c.currentChunkOps).flatMap (csvRowSteps c mem t)
    (SinkStep.all (header ++ rows)).andThen (transportFlush t) x

end NsxPmu
