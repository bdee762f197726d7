import NsxPmu.CsvScript
import NsxPmu.Lib.SeparatedText
import NsxPmu.Lib.Numerals

set_option autoImplicit false

/-!
# The text of a chunk

What `nsx_pmu_capture_serialize_csv` hands to a transport that accepts every
write, block by block and then line by line.
-/
namespace NsxPmu
open SeparatedText

variable {X : Type}

/-- The transport with a record of the blocks that its write callback was called with. -/
def Transport.recorded (t : Transport X) : Transport (X × List Bytes) where
  write := t.write.map fun write x data => ((write x.1 data).1, ((write x.1 data).2, x.2 ++ [data]))
  flush := t.flush.map fun flush x => ((flush x.1).1, ((flush x.1).2, x.2))

/-- The one step does what the other does, and adds to the record. -/
def SinkStep.RecordedBy (f : SinkStep X) (g : SinkStep (X × List Bytes)) : Prop :=
  ∀ x log, ∃ blocks, g (x, log) = ((f x).1, ((f x).2, log ++ blocks))

section Recorded
variable (t : Transport X)

theorem transportWrite_recorded (data : Bytes) :
    (transportWrite t data).RecordedBy (transportWrite t.recorded data) := by
  intro x log
  unfold transportWrite Transport.recorded
  cases t.write with
  | none => exact ⟨[], by simp⟩
  | some write => exact ⟨[data], rfl⟩

theorem transportFlush_recorded (x : X) (log : List Bytes) :
    transportFlush t.recorded (x, log) = ((transportFlush t x).1, ((transportFlush t x).2, log)) := by
  unfold transportFlush Transport.recorded
  cases t.flush <;> rfl

variable {f g : SinkStep X} {f' g' : SinkStep (X × List Bytes)}

theorem SinkStep.RecordedBy.andThen (hf : f.RecordedBy f') (hg : g.RecordedBy g') :
    (f.andThen g).RecordedBy (f'.andThen g') := by
  intro x log
  obtain ⟨blocks, eq⟩ := hf x log
  obtain ⟨more, eq'⟩ := hg (f x).2 (log ++ blocks)
  unfold SinkStep.andThen
  rw [eq]
  dsimp only
  split
  · exact ⟨blocks, rfl⟩
  · exact ⟨blocks ++ more, by rw [eq', List.append_assoc]⟩

theorem SinkStep.RecordedBy.all {l : List (SinkStep X)} {l' : List (SinkStep (X × List Bytes))}
    (h : List.Forall₂ SinkStep.RecordedBy l l') : (SinkStep.all l).RecordedBy (SinkStep.all l') := by
  induction h with
  | nil => exact fun x log => ⟨[], by simp [SinkStep.all]⟩
  | cons first _ ih => exact first.andThen ih

theorem scriptStep_recorded (item : Option Bytes) :
    (scriptStep t item).RecordedBy (scriptStep t.recorded item) := by
  cases item with
  | none => exact fun x log => ⟨[], by rw [List.append_nil]; rfl⟩
  | some data => exact transportWrite_recorded t data

theorem script_recorded (script : List (Option Bytes)) :
    List.Forall₂ SinkStep.RecordedBy (script.map (scriptStep t))
      (script.map (scriptStep t.recorded)) := by
  induction script with
  | nil => exact .nil
  | cons item script ih => exact .cons (scriptStep_recorded t item) ih

theorem captureSerializeCsv_recorded (c : Capture) (mem : ℕ → Word) (includeHeader : Bool) :
    (captureSerializeCsv c mem t includeHeader).RecordedBy
      (captureSerializeCsv c mem t.recorded includeHeader) := by
  cases ready : c.chunkReady with
  | false =>
    intro x log
    refine ⟨[], ?_⟩
    unfold captureSerializeCsv
    rw [ready, List.append_nil]
    rfl
  | true =>
    have script := SinkStep.RecordedBy.all (script_recorded t (csvScript c mem includeHeader))
    have flush : (transportFlush t).RecordedBy (transportFlush t.recorded) :=
      fun x log => ⟨[], by rw [transportFlush_recorded, List.append_nil]⟩
    rw [captureSerializeCsv_script ready, captureSerializeCsv_script ready]
    exact script.andThen flush

end Recorded

/-- A capture of which every column can be serialised. -/
structure CsvReady (c : Capture) : Prop where
  inv : CaptureInvariant c
  ready : c.chunkReady = true
  known : ∀ e < c.totalEventCount, c.mapEntry e < pmuMapSize

def csvName (c : Capture) (e : ℕ) : Bytes := ascii (pmuMapAt (c.mapEntry e)).regname

def csvId (c : Capture) (e : ℕ) : ℕ := (mapEventId (c.mapEntry e)).toNat

def csvValue (c : Capture) (mem : ℕ → Word) (row e : ℕ) : ℕ := (mem (c.cell row e)).toNat

structure PrintsWhole (c : Capture) (mem : ℕ → Word) : Prop where
  chunkLine : (csvChunkLine c).length < printfBufferBytes
  name : ∀ e < c.totalEventCount, (ascii "," ++ csvName c e).length < printfBufferBytes
  id : ∀ e < c.totalEventCount, (ascii ",0x" ++ formatHex4 (csvId c e)).length < printfBufferBytes
  row : ∀ i < c.currentChunkOps,
    (formatUnsigned (c.currentChunkStart + i)).length < printfBufferBytes
  value : ∀ i < c.currentChunkOps, ∀ e < c.totalEventCount,
    (ascii "," ++ formatUnsigned (csvValue c mem i e)).length < printfBufferBytes

theorem formatUnsigned_length {n k : ℕ} (hk : 0 < k) (h : n < 10 ^ k) :
    (formatUnsigned n).length ≤ k := by
  rw [formatUnsigned, List.length_map]
  exact (Nat.length_toDigits_le_iff (by decide) hk).mpr h

theorem formatHex4_length {n : ℕ} (h : n < 16 ^ 8) : (formatHex4 n).length ≤ 8 := by
  have digits := (Nat.length_toDigits_le_iff (b := 16) (by decide) (by decide)).mpr h
  simp only [formatHex4, List.length_append, List.length_replicate, List.length_map]
  omega

theorem regname_plain : ∀ m < pmuMapSize, (ascii (pmuMapAt m).regname).length < 50 ∧
    charByte '\n' ∉ ascii (pmuMapAt m).regname ∧ charByte ',' ∉ ascii (pmuMapAt m).regname := by
  decide +kernel

theorem CsvReady.printsWhole {c : Capture} (ready : CsvReady c) (mem : ℕ → Word) :
    PrintsWhole c mem := by
  have lt := ready.inv.totalOps_lt
  have start := ready.inv.chunkStart_lt
  have ops := ready.inv.chunkOps
  have count := ready.inv.eventCount_le
  have perPass := ready.inv.eventsPerPass_le
  have short {n : ℕ} (h : n < 65536) : (formatUnsigned n).length ≤ 5 :=
    formatUnsigned_length (by decide) (by omega)
  refine ⟨?_, ?_, ?_, ?_, ?_⟩
  · have a := short (show c.currentChunkStart < 65536 by omega)
    have b := short (show c.currentChunkOps < 65536 by omega)
    have d := short lt
    have e := short (show c.totalEventCount < 65536 by omega)
    have f := short (show c.eventsPerPass < 65536 by omega)
    have keys : (ascii "# chunk_start=").length + (ascii ",chunk_ops=").length +
        (ascii ",total_ops=").length + (ascii ",event_count=").length +
        (ascii ",events_per_pass=").length + (ascii "\n").length = 67 := by decide
    simp only [csvChunkLine, List.length_append, printfBufferBytes]
    omega
  · intro e he
    have name := (regname_plain _ (ready.known e he)).1
    have comma : (ascii ",").length = 1 := by decide
    simp only [List.length_append, printfBufferBytes, csvName]
    omega
  · intro e he
    have id := formatHex4_length (mapEventId (c.mapEntry e)).isLt
    have key : (ascii ",0x").length = 3 := by decide
    simp only [List.length_append, printfBufferBytes, csvId]
    omega
  · intro i hi
    have := short (show c.currentChunkStart + i < 65536 by omega)
    dsimp only [printfBufferBytes]
    omega
  · intro i hi e he
    have value : (formatUnsigned (csvValue c mem i e)).length ≤ 10 :=
      formatUnsigned_length (by decide) ((mem (c.cell i e)).isLt.trans (by decide))
    have comma : (ascii ",").length = 1 := by decide
    simp only [List.length_append, printfBufferBytes]
    omega

theorem printfBlock_whole {formatted : Bytes} (fits : formatted.length < printfBufferBytes) :
    printfBlock formatted = formatted := by
  rw [printfBlock, if_neg (by omega), List.take_length]

def csvHeaderBlocks (c : Capture) : List Bytes :=
  [ascii "# nsx_pmu_capture_csv_v1\n", csvChunkLine c, ascii "layer_index"] ++
  (List.range c.totalEventCount).map (fun e => ascii "," ++ csvName c e) ++
  [ascii "\n", ascii "event_id"] ++
  (List.range c.totalEventCount).map (fun e => ascii ",0x" ++ formatHex4 (csvId c e)) ++
  [ascii "\n"]

def csvRowBlocks (c : Capture) (mem : ℕ → Word) (row : ℕ) : List Bytes :=
  [formatUnsigned (c.currentChunkStart + row)] ++
  (List.range c.totalEventCount).map (fun e => ascii "," ++ formatUnsigned (csvValue c mem row e)) ++
  [ascii "\n"]

def csvBlocks (c : Capture) (mem : ℕ → Word) (includeHeader : Bool) : List Bytes :=
  (if includeHeader then csvHeaderBlocks c else []) ++
    (List.range c.currentChunkOps).flatMap (csvRowBlocks c mem)

theorem csvColumn_known {c : Capture} {e : ℕ} (he : e < c.totalEventCount)
    (known : c.mapEntry e < pmuMapSize) (text : ℕ → Bytes) :
    csvColumn c text e = some (printfBlock (text (c.mapEntry e))) := by
  rw [csvColumn, captureGetEventMapIndex_eq he, if_pos known]

theorem csvHeaderScript_eq {c : Capture} {mem : ℕ → Word} (known : ∀ e < c.totalEventCount,
    c.mapEntry e < pmuMapSize) (whole : PrintsWhole c mem) :
    csvHeaderScript c = (csvHeaderBlocks c).map some := by
  have names : ∀ e ∈ List.range c.totalEventCount,
      csvColumn c (fun m => ascii "," ++ ascii (pmuMapAt m).regname) e =
        some (ascii "," ++ csvName c e) := by
    intro e inside
    have he := List.mem_range.mp inside
    rw [csvColumn_known he (known e he)]
    exact congrArg some (printfBlock_whole (whole.name e he))
  have ids : ∀ e ∈ List.range c.totalEventCount,
      csvColumn c (fun m => ascii ",0x" ++ formatHex4 (pmuMapAt m).eventId.toNat) e =
        some (ascii ",0x" ++ formatHex4 (csvId c e)) := by
    intro e inside
    have he := List.mem_range.mp inside
    rw [csvColumn_known he (known e he)]
    exact congrArg some (printfBlock_whole (whole.id e he))
  rw [csvHeaderScript, csvHeaderBlocks, printfBlock_whole whole.chunkLine,
    List.map_congr_left names, List.map_congr_left ids]
  simp only [List.map_append, List.map_map, List.map_cons, List.map_nil]
  rfl

theorem csvRowScript_eq {c : Capture} {mem : ℕ → Word} (inv : CaptureInvariant c)
    (whole : PrintsWhole c mem) {row : ℕ} (hr : row < c.currentChunkOps) :
    csvRowScript c mem row = (csvRowBlocks c mem row).map some := by
  have values : ∀ e ∈ List.range c.totalEventCount, some (printfBlock (ascii "," ++
      formatUnsigned (mem (c.matrixStorage + captureCurrentChunkOffset c row e)).toNat)) =
        some (ascii "," ++ formatUnsigned (csvValue c mem row e)) := by
    intro e inside
    have he := List.mem_range.mp inside
    rw [captureCurrentChunkOffset_eq inv hr he]
    exact congrArg some (printfBlock_whole (whole.value row hr e he))
  rw [csvRowScript, csvRowBlocks, printfBlock_whole (whole.row row hr),
    List.map_congr_left values]
  simp only [List.map_append, List.map_map, List.map_cons, List.map_nil]
  rfl

theorem CsvReady.script {c : Capture} (ready : CsvReady c) (mem : ℕ → Word)
    (includeHeader : Bool) :
    csvScript c mem includeHeader = (csvBlocks c mem includeHeader).map some := by
  have whole := ready.printsWhole mem
  have rows : (List.range c.currentChunkOps).flatMap (csvRowScript c mem) =
      ((List.range c.currentChunkOps).flatMap (csvRowBlocks c mem)).map some := by
    rw [List.map_flatMap]
    apply List.flatMap_congr
    intro row inside
    exact csvRowScript_eq ready.inv whole (List.mem_range.mp inside)
  rw [csvScript, csvBlocks, rows, List.map_append]
  cases includeHeader with
  | false => rfl
  | true => rw [if_pos rfl, if_pos rfl, csvHeaderScript_eq ready.known whole]

theorem captureSerializeCsv_eq {c : Capture} (ready : CsvReady c) (mem : ℕ → Word)
    (t : Transport X) (includeHeader : Bool) :
    captureSerializeCsv c mem t includeHeader =
      (SinkStep.all ((csvBlocks c mem includeHeader).map (transportWrite t))).andThen
        (transportFlush t) := by
  rw [captureSerializeCsv_script ready.ready, ready.script, List.map_map]
  rfl

theorem Transport.AcceptsWrites.all {t : Transport X} (accepts : t.AcceptsWrites)
    (blocks : List Bytes) (x : X) (log : List Bytes) :
    (SinkStep.all (blocks.map (transportWrite t)) x).1 = statusSuccess ∧
    SinkStep.all (blocks.map (transportWrite t.recorded)) (x, log) =
      (statusSuccess, ((SinkStep.all (blocks.map (transportWrite t)) x).2, log ++ blocks)) := by
  obtain ⟨write, defined, ok⟩ := accepts
  induction blocks generalizing x log with
  | nil => exact ⟨rfl, by simp [SinkStep.all]⟩
  | cons data blocks ih =>
    have plain : transportWrite t data x = (statusSuccess, (write x data).2) := by
      rw [transportWrite, defined]
      exact Prod.ext (ok x data) rfl
    have noted : transportWrite t.recorded data (x, log) =
        (statusSuccess, ((write x data).2, log ++ [data])) := by
      rw [transportWrite, Transport.recorded, defined]
      exact Prod.ext (ok x data) rfl
    obtain ⟨status, rest⟩ := ih (write x data).2 (log ++ [data])
    rw [List.map_cons, List.map_cons, SinkStep.all, SinkStep.all, SinkStep.andThen_ok plain,
      SinkStep.andThen_ok noted, rest, List.append_assoc]
    exact ⟨status, rfl⟩

theorem captureSerializeCsv_accepted {c : Capture} (ready : CsvReady c) (mem : ℕ → Word)
    {t : Transport X} (accepts : t.AcceptsWrites) (includeHeader : Bool) (x : X) :
    captureSerializeCsv c mem t.recorded includeHeader (x, []) =
      ((captureSerializeCsv c mem t includeHeader x).1,
        ((captureSerializeCsv c mem t includeHeader x).2, csvBlocks c mem includeHeader)) := by
  obtain ⟨status, recorded⟩ := accepts.all (csvBlocks c mem includeHeader) x []
  rw [captureSerializeCsv_eq ready, captureSerializeCsv_eq ready]
  unfold SinkStep.andThen
  rw [recorded, if_neg (not_not_intro status), if_neg (not_not_intro rfl)]
  exact transportFlush_recorded t _ _

end NsxPmu
