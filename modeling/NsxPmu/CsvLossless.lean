import NsxPmu.CsvText

set_option autoImplicit false

/-!
# Reading a serialised chunk back

A decoder for the CSV text. It gives back the header and every cell that
`nsx_pmu_capture_serialize_csv` was called with, so no two chunks share a text.
-/
namespace NsxPmu
open SeparatedText LabelledRuns

variable {X : Type}

def comma : BitVec 8 := charByte ','

def decimalDigit (b : BitVec 8) : Option ℕ :=
  if 48 ≤ b.toNat ∧ b.toNat ≤ 57 then some (b.toNat - 48) else none

def hexDigit (b : BitVec 8) : Option ℕ :=
  if 97 ≤ b.toNat ∧ b.toNat ≤ 102 then some (b.toNat - 87) else decimalDigit b

def parseUnsigned (field : Bytes) : Option ℕ := Numerals.read 10 decimalDigit field

def parseHexId (field : Bytes) : Option ℕ :=
  (after (ascii "0x") field).bind (Numerals.read 16 hexDigit)

def parseNumber (key : String) (field : Bytes) : Option ℕ :=
  (after (ascii key) field).bind parseUnsigned

structure CsvNumbers where
  chunkStart : ℕ
  chunkOps : ℕ
  totalOps : ℕ
  eventCount : ℕ
  eventsPerPass : ℕ
  deriving DecidableEq

structure CsvHeader where
  numbers : CsvNumbers
  names : List Bytes
  ids : List ℕ
  deriving DecidableEq

/-- What a text says: its header, when it has one, and its rows, each with the index of the
operator first. -/
structure CsvContent where
  header : Option CsvHeader
  rows : List (List ℕ)
  deriving DecidableEq

def decodeNumbers (line : Bytes) : Option CsvNumbers :=
  match line.splitOn comma with
  | [chunkStart, chunkOps, totalOps, eventCount, eventsPerPass] => do
    return ⟨← parseNumber "# chunk_start=" chunkStart, ← parseNumber "chunk_ops=" chunkOps,
      ← parseNumber "total_ops=" totalOps, ← parseNumber "event_count=" eventCount,
      ← parseNumber "events_per_pass=" eventsPerPass⟩
  | _ => none

/-- The fields of a line behind its first one, which must be `label`. -/
def fieldsAfter (label : String) (line : Bytes) : Option (List Bytes) :=
  match line.splitOn comma with
  | first :: rest => if first = ascii label then some rest else none
  | [] => none

def decodeHeader : List Bytes → Option CsvHeader
  | [version, numbers, names, ids] =>
    if version = ascii "# nsx_pmu_capture_csv_v1" then do
      return ⟨← decodeNumbers numbers, ← fieldsAfter "layer_index" names,
        ← (← fieldsAfter "event_id" ids).mapM parseHexId⟩
    else none
  | _ => none

def decodeRow (line : Bytes) : Option (List ℕ) := (line.splitOn comma).mapM parseUnsigned

/-- Reads a text of one line a row, behind four lines of header if there is one. -/
def decodeCsv (includeHeader : Bool) (text : Bytes) : Option CsvContent := do
  let ls ← lines newline text
  if includeHeader then
    return ⟨some (← decodeHeader (ls.take 4)), ← (ls.drop 4).mapM decodeRow⟩
  else return ⟨none, ← ls.mapM decodeRow⟩

def csvHeader (c : Capture) : CsvHeader :=
  ⟨⟨c.currentChunkStart, c.currentChunkOps, c.totalOps, c.totalEventCount, c.eventsPerPass⟩,
    (List.range c.totalEventCount).map (csvName c), (List.range c.totalEventCount).map (csvId c)⟩

def csvRow (c : Capture) (mem : ℕ → Word) (row : ℕ) : List ℕ :=
  (c.currentChunkStart + row) :: (List.range c.totalEventCount).map (csvValue c mem row)

/-- What the text of a chunk is to say. -/
def csvContent (c : Capture) (mem : ℕ → Word) (includeHeader : Bool) : CsvContent :=
  ⟨if includeHeader then some (csvHeader c) else none,
    (List.range c.currentChunkOps).map (csvRow c mem)⟩

theorem mapM_map_some {α β γ : Type} {f : α → β} {g : β → Option γ} {h : α → γ} {l : List α}
    (each : ∀ a ∈ l, g (f a) = some (h a)) : (l.map f).mapM g = some (l.map h) := by
  induction l with
  | nil => rfl
  | cons a l ih =>
    rw [List.map_cons, List.mapM_cons, each a (by simp), ih fun b hb => each b (by simp [hb])]
    rfl

theorem decimalDigit_known : ∀ d < 10, decimalDigit (charByte d.digitChar) = some d := by decide

theorem hexDigit_known : ∀ d < 16, hexDigit (charByte d.digitChar) = some d := by decide

theorem parseUnsigned_format (n : ℕ) : parseUnsigned (formatUnsigned n) = some n :=
  Numerals.read_toDigits charByte (by decide) decimalDigit_known 0 n

theorem parseHexId_format (n : ℕ) : parseHexId (ascii "0x" ++ formatHex4 n) = some n := by
  rw [parseHexId, after_append, Option.bind_some]
  exact Numerals.read_toDigits charByte (by decide) hexDigit_known _ n

theorem parseNumber_format (key : String) (n : ℕ) :
    parseNumber key (ascii key ++ formatUnsigned n) = some n := by
  rw [parseNumber, after_append, Option.bind_some, parseUnsigned_format]

theorem formatUnsigned_plain (n : ℕ) : newline ∉ formatUnsigned n ∧ comma ∉ formatUnsigned n :=
  ⟨Numerals.not_mem_of_read (parseUnsigned_format n) (by decide),
    Numerals.not_mem_of_read (parseUnsigned_format n) (by decide)⟩

theorem formatHex4_plain (n : ℕ) : newline ∉ formatHex4 n ∧ comma ∉ formatHex4 n := by
  have read : Numerals.read 16 hexDigit (formatHex4 n) = some n :=
    Numerals.read_toDigits charByte (by decide) hexDigit_known _ n
  exact ⟨Numerals.not_mem_of_read read (by decide), Numerals.not_mem_of_read read (by decide)⟩

def csvNumbersLine (c : Capture) : Bytes :=
  joined comma (ascii "# chunk_start=" ++ formatUnsigned c.currentChunkStart)
    [ascii "chunk_ops=" ++ formatUnsigned c.currentChunkOps,
      ascii "total_ops=" ++ formatUnsigned c.totalOps,
      ascii "event_count=" ++ formatUnsigned c.totalEventCount,
      ascii "events_per_pass=" ++ formatUnsigned c.eventsPerPass]

def csvNamesLine (c : Capture) : Bytes :=
  joined comma (ascii "layer_index") ((List.range c.totalEventCount).map (csvName c))

def csvIdsLine (c : Capture) : Bytes :=
  joined comma (ascii "event_id")
    ((List.range c.totalEventCount).map fun e => ascii "0x" ++ formatHex4 (csvId c e))

def csvRowLine (c : Capture) (mem : ℕ → Word) (row : ℕ) : Bytes :=
  joined comma (formatUnsigned (c.currentChunkStart + row))
    ((List.range c.totalEventCount).map fun e => formatUnsigned (csvValue c mem row e))

def csvHeaderLines (c : Capture) : List Bytes :=
  [ascii "# nsx_pmu_capture_csv_v1", csvNumbersLine c, csvNamesLine c, csvIdsLine c]

def csvRowLines (c : Capture) (mem : ℕ → Word) : List Bytes :=
  (List.range c.currentChunkOps).map (csvRowLine c mem)

theorem flatten_columns (first : Bytes) (field : ℕ → Bytes) (l : List ℕ) :
    first ++ (l.map fun e => ascii "," ++ field e).flatten = joined comma first (l.map field) := by
  rw [joined, List.flatMap_map, ← List.flatMap_def]
  rfl

theorem csvChunkLine_eq (c : Capture) : csvChunkLine c = csvNumbersLine c ++ [newline] := by
  have split (key : String) (tail : Bytes) (h : ascii key = comma :: tail) (n : Bytes) :
      ascii key ++ n = comma :: (tail ++ n) := by
    rw [h, List.cons_append]
  have stop : ascii "\n" = [newline] := by decide
  simp only [csvChunkLine, csvNumbersLine, joined, List.flatMap_cons, List.flatMap_nil,
    List.append_assoc, List.append_nil, stop,
    split ",chunk_ops=" (ascii "chunk_ops=") (by decide),
    split ",total_ops=" (ascii "total_ops=") (by decide),
    split ",event_count=" (ascii "event_count=") (by decide),
    split ",events_per_pass=" (ascii "events_per_pass=") (by decide), List.cons_append]

theorem csvHeaderBlocks_flatten (c : Capture) :
    (csvHeaderBlocks c).flatten = unlines newline (csvHeaderLines c) := by
  have version : ascii "# nsx_pmu_capture_csv_v1\n" =
      ascii "# nsx_pmu_capture_csv_v1" ++ [newline] := by decide
  have stop : ascii "\n" = [newline] := by decide
  have id (e : ℕ) : ascii ",0x" ++ formatHex4 (csvId c e) =
      ascii "," ++ (ascii "0x" ++ formatHex4 (csvId c e)) := by
    have key : ascii ",0x" = ascii "," ++ ascii "0x" := by decide
    rw [key, List.append_assoc]
  have names := flatten_columns (ascii "layer_index") (csvName c) (List.range c.totalEventCount)
  have ids := flatten_columns (ascii "event_id") (fun e => ascii "0x" ++ formatHex4 (csvId c e))
    (List.range c.totalEventCount)
  simp only [csvHeaderBlocks, csvHeaderLines, csvNamesLine, csvIdsLine, unlines, ← names, ← ids,
    version, stop, csvChunkLine_eq, id, List.flatten_append, List.flatten_cons, List.flatten_nil,
    List.flatMap_cons, List.flatMap_nil, List.append_assoc, List.append_nil]

theorem csvRowBlocks_flatten (c : Capture) (mem : ℕ → Word) (row : ℕ) :
    (csvRowBlocks c mem row).flatten = csvRowLine c mem row ++ [newline] := by
  have stop : ascii "\n" = [newline] := by decide
  have values := flatten_columns (formatUnsigned (c.currentChunkStart + row))
    (fun e => formatUnsigned (csvValue c mem row e)) (List.range c.totalEventCount)
  simp only [csvRowBlocks, csvRowLine, ← values, stop, List.flatten_append, List.flatten_cons,
    List.flatten_nil, List.append_assoc, List.append_nil]

def csvLines (c : Capture) (mem : ℕ → Word) (includeHeader : Bool) : List Bytes :=
  (if includeHeader then csvHeaderLines c else []) ++ csvRowLines c mem

theorem csvBlocks_flatten (c : Capture) (mem : ℕ → Word) (includeHeader : Bool) :
    (csvBlocks c mem includeHeader).flatten = unlines newline (csvLines c mem includeHeader) := by
  have rows (l : List ℕ) : (l.flatMap (csvRowBlocks c mem)).flatten =
      unlines newline (l.map (csvRowLine c mem)) := by
    induction l with
    | nil => rfl
    | cons row l ih =>
      rw [List.flatMap_cons, List.flatten_append, ih, csvRowBlocks_flatten]
      rfl
  rw [csvBlocks, csvLines, List.flatten_append, unlines_append, rows]
  cases includeHeader with
  | false => rfl
  | true =>
    rw [if_pos rfl, if_pos rfl, csvHeaderBlocks_flatten]
    rfl

theorem numberField_plain {a : BitVec 8} {key : String} (hk : a ∉ ascii key)
    (sign : a = newline ∨ a = comma) (n : ℕ) : a ∉ ascii key ++ formatUnsigned n := by
  have plain := formatUnsigned_plain n
  rw [List.mem_append, not_or]
  refine ⟨hk, ?_⟩
  rcases sign with rfl | rfl
  · exact plain.1
  · exact plain.2

theorem numbersLine_fields {a : BitVec 8} (c : Capture) (sign : a = newline ∨ a = comma) :
    a ∉ ascii "# chunk_start=" ++ formatUnsigned c.currentChunkStart ∧
    ∀ l ∈ [ascii "chunk_ops=" ++ formatUnsigned c.currentChunkOps,
      ascii "total_ops=" ++ formatUnsigned c.totalOps,
      ascii "event_count=" ++ formatUnsigned c.totalEventCount,
      ascii "events_per_pass=" ++ formatUnsigned c.eventsPerPass], a ∉ l := by
  have keys : ∀ key ∈ ["# chunk_start=", "chunk_ops=", "total_ops=", "event_count=",
      "events_per_pass="], a ∉ ascii key := by
    rcases sign with rfl | rfl <;> decide
  refine ⟨numberField_plain (keys _ (by simp)) sign _, ?_⟩
  simp only [List.mem_cons, List.not_mem_nil, or_false, forall_eq_or_imp, forall_eq]
  exact ⟨numberField_plain (keys _ (by simp)) sign _, numberField_plain (keys _ (by simp)) sign _,
    numberField_plain (keys _ (by simp)) sign _, numberField_plain (keys _ (by simp)) sign _⟩

theorem hexField_plain {a : BitVec 8} (sign : a = newline ∨ a = comma) (n : ℕ) :
    a ∉ ascii "0x" ++ formatHex4 n := by
  have plain := formatHex4_plain n
  rw [List.mem_append, not_or]
  rcases sign with rfl | rfl
  · exact ⟨by decide, plain.1⟩
  · exact ⟨by decide, plain.2⟩

theorem csvLines_plain {c : Capture} (known : ∀ e < c.totalEventCount, c.mapEntry e < pmuMapSize)
    (mem : ℕ → Word) (includeHeader : Bool) :
    ∀ l ∈ csvLines c mem includeHeader, newline ∉ l := by
  have other : newline ≠ comma := by decide
  have rows : ∀ l ∈ csvRowLines c mem, newline ∉ l := by
    intro l hl
    obtain ⟨row, -, rfl⟩ := List.mem_map.mp hl
    apply not_mem_joined other (formatUnsigned_plain _).1
    intro field hfield
    obtain ⟨e, -, rfl⟩ := List.mem_map.mp hfield
    exact (formatUnsigned_plain _).1
  have header : ∀ l ∈ csvHeaderLines c, newline ∉ l := by
    simp only [csvHeaderLines, List.mem_cons, List.not_mem_nil, or_false, forall_eq_or_imp, forall_eq]
    refine ⟨by decide, ?_, ?_, ?_⟩
    · have fields := numbersLine_fields c (.inl rfl : newline = newline ∨ newline = comma)
      exact not_mem_joined other fields.1 fields.2
    · apply not_mem_joined other (by decide)
      intro field hfield
      obtain ⟨e, he, rfl⟩ := List.mem_map.mp hfield
      exact (regname_plain _ (known e (List.mem_range.mp he))).2.1
    · apply not_mem_joined other (by decide)
      intro field hfield
      obtain ⟨e, -, rfl⟩ := List.mem_map.mp hfield
      exact hexField_plain (.inl rfl) _
  intro l hl
  rcases List.mem_append.mp hl with hl | hl
  · cases includeHeader with
    | false => simp at hl
    | true => exact header l hl
  · exact rows l hl

theorem decodeNumbers_line (c : Capture) :
    decodeNumbers (csvNumbersLine c) = some (csvHeader c).numbers := by
  have fields := numbersLine_fields c (.inr rfl : comma = newline ∨ comma = comma)
  unfold decodeNumbers csvNumbersLine
  rw [splitOn_joined fields.1 fields.2]
  simp only [parseNumber_format]
  rfl

theorem fieldsAfter_line {label : String} {fields : List Bytes} (hl : comma ∉ ascii label)
    (hf : ∀ l ∈ fields, comma ∉ l) :
    fieldsAfter label (joined comma (ascii label) fields) = some fields := by
  unfold fieldsAfter
  rw [splitOn_joined hl hf]
  exact if_pos rfl

theorem decodeHeader_lines {c : Capture}
    (known : ∀ e < c.totalEventCount, c.mapEntry e < pmuMapSize) :
    decodeHeader (csvHeaderLines c) = some (csvHeader c) := by
  have names : fieldsAfter "layer_index" (csvNamesLine c) =
      some ((List.range c.totalEventCount).map (csvName c)) := by
    apply fieldsAfter_line (by decide)
    intro field hfield
    obtain ⟨e, he, rfl⟩ := List.mem_map.mp hfield
    exact (regname_plain _ (known e (List.mem_range.mp he))).2.2
  have texts : fieldsAfter "event_id" (csvIdsLine c) = some
      ((List.range c.totalEventCount).map fun e => ascii "0x" ++ formatHex4 (csvId c e)) := by
    apply fieldsAfter_line (by decide)
    intro field hfield
    obtain ⟨e, -, rfl⟩ := List.mem_map.mp hfield
    exact hexField_plain (.inr rfl) _
  have ids : ((List.range c.totalEventCount).map
      fun e => ascii "0x" ++ formatHex4 (csvId c e)).mapM parseHexId =
        some ((List.range c.totalEventCount).map (csvId c)) :=
    mapM_map_some fun e _ => parseHexId_format _
  simp only [csvHeaderLines, decodeHeader, if_true, decodeNumbers_line, names, texts]
  simp only [Option.bind_eq_bind, Option.bind_some, ids]
  rfl

theorem decodeRow_line (c : Capture) (mem : ℕ → Word) (row : ℕ) :
    decodeRow (csvRowLine c mem row) = some (csvRow c mem row) := by
  have values : ((List.range c.totalEventCount).map
      fun e => formatUnsigned (csvValue c mem row e)).mapM parseUnsigned =
        some ((List.range c.totalEventCount).map (csvValue c mem row)) :=
    mapM_map_some fun e _ => parseUnsigned_format _
  have plain : ∀ l ∈ (List.range c.totalEventCount).map
      fun e => formatUnsigned (csvValue c mem row e), comma ∉ l := by
    intro field hfield
    obtain ⟨e, -, rfl⟩ := List.mem_map.mp hfield
    exact (formatUnsigned_plain _).2
  rw [decodeRow, csvRowLine, splitOn_joined (formatUnsigned_plain _).2 plain, List.mapM_cons,
    parseUnsigned_format, values]
  rfl

theorem decodeCsv_blocks {c : Capture}
    (known : ∀ e < c.totalEventCount, c.mapEntry e < pmuMapSize) (mem : ℕ → Word)
    (includeHeader : Bool) :
    decodeCsv includeHeader (csvBlocks c mem includeHeader).flatten =
      some (csvContent c mem includeHeader) := by
  have rows : (csvRowLines c mem).mapM decodeRow =
      some ((List.range c.currentChunkOps).map (csvRow c mem)) :=
    mapM_map_some fun row _ => decodeRow_line c mem row
  unfold decodeCsv
  rw [csvBlocks_flatten, lines_unlines (csvLines_plain known mem includeHeader)]
  simp only [Option.bind_eq_bind, Option.bind_some]
  cases includeHeader with
  | false =>
    have all : csvLines c mem false = csvRowLines c mem := rfl
    rw [if_neg Bool.false_ne_true, all, rows]
    rfl
  | true =>
    have top : (csvLines c mem true).take 4 = csvHeaderLines c := rfl
    have rest : (csvLines c mem true).drop 4 = csvRowLines c mem := rfl
    rw [if_pos rfl, top, rest, decodeHeader_lines known, rows]
    rfl

/-- The same chunk: its place and size, and all its cells. -/
structure SameGrid (c : Capture) (mem : ℕ → Word) (c' : Capture) (mem' : ℕ → Word) : Prop where
  chunkStart : c'.currentChunkStart = c.currentChunkStart
  chunkOps : c'.currentChunkOps = c.currentChunkOps
  eventCount : c'.totalEventCount = c.totalEventCount
  rows : ∀ i < c.currentChunkOps, ∀ e < c.totalEventCount, mem' (c'.cell i e) = mem (c.cell i e)

/-- The same header, event map and chunk. -/
structure SameCsv (c : Capture) (mem : ℕ → Word) (c' : Capture) (mem' : ℕ → Word) : Prop
    extends SameGrid c mem c' mem' where
  totalOps : c'.totalOps = c.totalOps
  eventsPerPass : c'.eventsPerPass = c.eventsPerPass
  map : ∀ e < c.totalEventCount, c'.mapEntry e = c.mapEntry e

theorem range_map_inj {α : Type} {n n' : ℕ} {f f' : ℕ → α} :
    (List.range n').map f' = (List.range n).map f ↔ n' = n ∧ ∀ i < n, f' i = f i := by
  constructor
  · intro eq
    have length := congrArg List.length eq
    simp only [List.length_map, List.length_range] at length
    subst length
    exact ⟨rfl, fun i hi => List.map_inj_left.mp eq i (List.mem_range.mpr hi)⟩
  · rintro ⟨rfl, same⟩
    exact List.map_congr_left fun i hi => same i (List.mem_range.mp hi)

section Injective
variable {c c' : Capture} {mem mem' : ℕ → Word}

theorem csvRows_inj (inv : CaptureInvariant c) :
    (List.range c'.currentChunkOps).map (csvRow c' mem') =
        (List.range c.currentChunkOps).map (csvRow c mem) ↔ SameGrid c mem c' mem' := by
  have start := inv.chunkStart_lt
  have ops := inv.chunkOps
  have perChunk := inv.opsPerChunk_pos
  rw [range_map_inj]
  constructor
  · rintro ⟨chunkOps, same⟩
    have first := same 0 (by omega)
    simp only [csvRow, List.cons.injEq, range_map_inj] at first same
    refine ⟨by omega, chunkOps, first.2.1, fun i hi e he => ?_⟩
    exact BitVec.eq_of_toNat_eq ((same i hi).2.2 e he)
  · rintro ⟨chunkStart, chunkOps, eventCount, rows⟩
    refine ⟨chunkOps, fun i hi => ?_⟩
    simp only [csvRow, List.cons.injEq, range_map_inj]
    exact ⟨by rw [chunkStart], eventCount, fun e he => congrArg BitVec.toNat (rows i hi e he)⟩

theorem csvContent_inj (ready : CsvReady c) (ready' : CsvReady c') :
    csvContent c' mem' true = csvContent c mem true ↔ SameCsv c mem c' mem' := by
  simp only [csvContent, if_true, CsvContent.mk.injEq, Option.some.injEq, csvHeader,
    CsvHeader.mk.injEq, CsvNumbers.mk.injEq, csvRows_inj ready.inv, range_map_inj]
  constructor
  · rintro ⟨⟨⟨-, -, totalOps, count, perPass⟩, -, -, ids⟩, grid⟩
    refine ⟨grid, totalOps, perPass, fun e he => ?_⟩
    have id : mapEventId (c'.mapEntry e) = mapEventId (c.mapEntry e) :=
      BitVec.eq_of_toNat_eq (ids e he)
    exact mapEventId_injective _ (ready'.known e (by omega)) _ (ready.known e he) id
  · rintro ⟨grid, totalOps, perPass, map⟩
    refine ⟨⟨⟨grid.chunkStart, grid.chunkOps, totalOps, grid.eventCount, perPass⟩,
      ⟨grid.eventCount, fun e he => ?_⟩, grid.eventCount, fun e he => ?_⟩, grid⟩
    · rw [csvName, csvName, map e he]
    · rw [csvId, csvId, map e he]

theorem SameGrid.rowLines (same : SameGrid c mem c' mem') :
    csvRowLines c' mem' = csvRowLines c mem := by
  obtain ⟨chunkStart, chunkOps, eventCount, rows⟩ := same
  refine range_map_inj.mpr ⟨chunkOps, fun i hi => ?_⟩
  have values : (List.range c'.totalEventCount).map (fun e => formatUnsigned (csvValue c' mem' i e)) =
      (List.range c.totalEventCount).map fun e => formatUnsigned (csvValue c mem i e) := by
    refine range_map_inj.mpr ⟨eventCount, fun e he => ?_⟩
    rw [csvValue, csvValue, rows i hi e he]
  rw [csvRowLine, csvRowLine, chunkStart, values]

theorem SameCsv.headerLines (same : SameCsv c mem c' mem') :
    csvHeaderLines c' = csvHeaderLines c := by
  obtain ⟨⟨chunkStart, chunkOps, eventCount, -⟩, totalOps, perPass, map⟩ := same
  have names : (List.range c'.totalEventCount).map (csvName c') =
      (List.range c.totalEventCount).map (csvName c) := by
    refine range_map_inj.mpr ⟨eventCount, fun e he => ?_⟩
    rw [csvName, csvName, map e he]
  have ids : (List.range c'.totalEventCount).map (fun e => ascii "0x" ++ formatHex4 (csvId c' e)) =
      (List.range c.totalEventCount).map fun e => ascii "0x" ++ formatHex4 (csvId c e) := by
    refine range_map_inj.mpr ⟨eventCount, fun e he => ?_⟩
    rw [csvId, csvId, map e he]
  rw [csvHeaderLines, csvHeaderLines, csvNamesLine, csvNamesLine, csvIdsLine, csvIdsLine, names, ids,
    csvNumbersLine, csvNumbersLine, chunkStart, chunkOps, eventCount, totalOps, perPass]

end Injective

/-- The bytes that the write callback is called with, one block after another. -/
def csvBytes (c : Capture) (mem : ℕ → Word) (t : Transport X) (includeHeader : Bool) (x : X) : Bytes :=
  (captureSerializeCsv c mem t.recorded includeHeader (x, [])).2.2.flatten

theorem csvBytes_eq {c : Capture} (ready : CsvReady c) (mem : ℕ → Word) {t : Transport X}
    (accepts : t.AcceptsWrites) (includeHeader : Bool) (x : X) :
    csvBytes c mem t includeHeader x = (csvBlocks c mem includeHeader).flatten := by
  rw [csvBytes, captureSerializeCsv_accepted ready mem accepts]

/-- The CSV encoding is lossless: no print is cut off, the text decodes to the header and the
rows of the chunk, and two chunks have the same text exactly when they agree in what it shows. -/
theorem csv_lossless {c : Capture} (ready : CsvReady c) (mem : ℕ → Word) {t : Transport X}
    (accepts : t.AcceptsWrites) (x : X) :
    PrintsWhole c mem ∧
    (∀ includeHeader,
      (captureSerializeCsv c mem t.recorded includeHeader (x, [])).1 =
        (captureSerializeCsv c mem t includeHeader x).1 ∧
      (captureSerializeCsv c mem t.recorded includeHeader (x, [])).2.1 =
        (captureSerializeCsv c mem t includeHeader x).2 ∧
      decodeCsv includeHeader (csvBytes c mem t includeHeader x) =
        some (csvContent c mem includeHeader)) ∧
    ∀ {Y : Type} (c' : Capture) (mem' : ℕ → Word) (t' : Transport Y) (y : Y), CsvReady c' →
      t'.AcceptsWrites →
      (csvBytes c' mem' t' true y = csvBytes c mem t true x ↔ SameCsv c mem c' mem') ∧
      (csvBytes c' mem' t' false y = csvBytes c mem t false x ↔ SameGrid c mem c' mem') := by
  refine ⟨ready.printsWhole mem, ?_, ?_⟩
  · intro includeHeader
    obtain ⟨blocks, recorded⟩ := captureSerializeCsv_recorded t c mem includeHeader x []
    rw [csvBytes_eq ready mem accepts, recorded]
    exact ⟨rfl, rfl, decodeCsv_blocks ready.known mem includeHeader⟩
  · intro Y c' mem' t' y ready' accepts'
    have decoded {includeHeader : Bool}
        (same : (csvBlocks c' mem' includeHeader).flatten = (csvBlocks c mem includeHeader).flatten) :
        csvContent c' mem' includeHeader = csvContent c mem includeHeader := by
      have content' := decodeCsv_blocks ready'.known mem' includeHeader
      rw [same, decodeCsv_blocks ready.known mem includeHeader] at content'
      exact (Option.some.inj content').symm
    rw [csvBytes_eq ready mem accepts, csvBytes_eq ready' mem' accepts',
      csvBytes_eq ready mem accepts, csvBytes_eq ready' mem' accepts']
    refine ⟨⟨fun same => (csvContent_inj ready ready').mp (decoded same), fun same => ?_⟩,
      ⟨fun same => ?_, fun same => ?_⟩⟩
    · rw [csvBlocks_flatten, csvBlocks_flatten, csvLines, csvLines, same.headerLines,
        same.toSameGrid.rowLines]
    · exact (csvRows_inj ready.inv).mp (congrArg CsvContent.rows (decoded same))
    · rw [csvBlocks_flatten, csvBlocks_flatten, csvLines, csvLines, same.rowLines]
      rfl

def refReadyChunk : CaptureState RefPmu :=
  run (captureStep refPlatform)
    (captureStart refPlatform .zero (refCaptureCfg 1 0 5 0) RefPmu.start.world)
    [CaptureCall.layerEnd (X := Unit) 0, .modelEnd, .modelEnd]

theorem csv_lossless_ref :
    decodeCsv true (csvBytes refReadyChunk.capture refReadyChunk.world.mem nullTransport true ()) =
      some (csvContent refReadyChunk.capture refReadyChunk.world.mem true) :=
  have reached : CaptureReached Unit refPlatform refReadyChunk :=
    ⟨.zero, refCaptureCfg 1 0 5 0, RefPmu.start.world,
      [.layerEnd 0, .modelEnd, .modelEnd], by decide, rfl⟩
  ((csv_lossless ⟨reached.invariant, by decide +kernel, by decide +kernel⟩ refReadyChunk.world.mem
    (t := nullTransport) ⟨_, rfl, fun _ _ => rfl⟩ ()).2.1 true).2.2

end NsxPmu
