import NsxPmu.CaptureRuns
import NsxPmu.Lib.WriteScripts

set_option autoImplicit false

/-!
# The serialiser and a sink that fails

`nsx_pmu_capture_serialize_csv` is a script of blocks that does not depend on the
transport, and what a transport sees of it ends at the first error.
-/
namespace NsxPmu
open WriteScripts

variable {X : Type}

/-- A call of one of the callbacks, with the status it returned. -/
inductive TransportCall where
  | write (data : Bytes) (status : Status)
  | flush (status : Status)

def TransportCall.ofWrite (call : Bytes × Status) : TransportCall := .write call.1 call.2

def TransportCall.block? : TransportCall → Option Bytes
  | .write data _ => some data
  | .flush _ => none

def TransportCall.isFlush : TransportCall → Bool
  | .write _ _ => false
  | .flush _ => true

/-- The transport with a record of the calls of its callbacks. -/
def Transport.logged (t : Transport X) : Transport (X × List TransportCall) where
  write := t.write.map fun write x data =>
    ((write x.1 data).1, ((write x.1 data).2, x.2 ++ [.write data (write x.1 data).1]))
  flush := t.flush.map fun flush x =>
    ((flush x.1).1, ((flush x.1).2, x.2 ++ [.flush (flush x.1).1]))

/-- The block that `nsx_pmu_transport_printf` writes. -/
def printfBlock (formatted : Bytes) : Bytes :=
  formatted.take (if formatted.length ≥ printfBufferBytes then printfBufferBytes - 1
    else formatted.length)

def csvColumn (c : Capture) (text : ℕ → Bytes) (e : ℕ) : Option Bytes :=
  match captureGetEventMapIndex c e with
  | .error _ => none
  | .ok mapIndex => some (printfBlock (text mapIndex))

def csvHeaderScript (c : Capture) : List (Option Bytes) :=
  [some (ascii "# nsx_pmu_capture_csv_v1\n"), some (printfBlock (csvChunkLine c)),
    some (ascii "layer_index")] ++
  (List.range c.totalEventCount).map (csvColumn c fun m => ascii "," ++ ascii (pmuMapAt m).regname) ++
  [some (ascii "\n"), some (ascii "event_id")] ++
  (List.range c.totalEventCount).map
    (csvColumn c fun m => ascii ",0x" ++ formatHex4 (pmuMapAt m).eventId.toNat) ++
  [some (ascii "\n")]

def csvRowScript (c : Capture) (mem : ℕ → Word) (row : ℕ) : List (Option Bytes) :=
  [some (printfBlock (formatUnsigned (c.currentChunkStart + row)))] ++
  (List.range c.totalEventCount).map (fun e => some (printfBlock (ascii "," ++
    formatUnsigned (mem (c.matrixStorage + captureCurrentChunkOffset c row e)).toNat))) ++
  [some (ascii "\n")]

def csvScript (c : Capture) (mem : ℕ → Word) (includeHeader : Bool) : List (Option Bytes) :=
  (if includeHeader then csvHeaderScript c else []) ++
    (List.range c.currentChunkOps).flatMap (csvRowScript c mem)

def scriptStep (t : Transport X) : Option Bytes → SinkStep X
  | none => fun x => (statusInvalidConfig, x)
  | some data => transportWrite t data

theorem captureGetEventMapIndex_error {c : Capture} {e : ℕ} {status : Status}
    (refused : captureGetEventMapIndex c e = .error status) : status = statusInvalidConfig := by
  by_cases inside : e < c.totalEventCount
  · rw [captureGetEventMapIndex_eq inside] at refused
    split at refused
    · cases refused
    · exact (Except.error.inj refused).symm
  · rw [captureGetEventMapIndex, if_pos (Nat.not_lt.mp inside)] at refused
    exact (Except.error.inj refused).symm

theorem withEventMapIndex_script (c : Capture) (t : Transport X) (text : ℕ → Bytes) (e : ℕ) :
    withEventMapIndex c e (fun m => transportPrintf t (text m)) =
      scriptStep t (csvColumn c text e) := by
  funext x
  unfold withEventMapIndex csvColumn
  cases found : captureGetEventMapIndex c e with
  | error status =>
    obtain rfl := captureGetEventMapIndex_error found
    rfl
  | ok m => rfl

theorem csvHeaderSteps_script (c : Capture) (t : Transport X) :
    csvHeaderSteps c t = (csvHeaderScript c).map (scriptStep t) := by
  simp only [csvHeaderSteps, csvHeaderScript, withEventMapIndex_script, List.map_append,
    List.map_map, List.map_cons, List.map_nil]
  rfl

theorem csvRowSteps_script (c : Capture) (mem : ℕ → Word) (t : Transport X) (row : ℕ) :
    csvRowSteps c mem t row = (csvRowScript c mem row).map (scriptStep t) := by
  simp only [csvRowSteps, csvRowScript, List.map_append, List.map_map, List.map_cons, List.map_nil]
  rfl

theorem captureSerializeCsv_script {c : Capture} (ready : c.chunkReady = true) (mem : ℕ → Word)
    (t : Transport X) (includeHeader : Bool) :
    captureSerializeCsv c mem t includeHeader =
      (SinkStep.all ((csvScript c mem includeHeader).map (scriptStep t))).andThen
        (transportFlush t) := by
  have rows : (List.range c.currentChunkOps).flatMap (csvRowSteps c mem t) =
      ((List.range c.currentChunkOps).flatMap (csvRowScript c mem)).map (scriptStep t) := by
    rw [List.map_flatMap]
    apply List.flatMap_congr
    intro row _
    exact csvRowSteps_script c mem t row
  funext x
  unfold captureSerializeCsv csvScript
  rw [if_neg (by simp [ready]), rows, List.map_append]
  cases includeHeader with
  | false => rfl
  | true =>
    rw [if_pos rfl, if_pos rfl, csvHeaderSteps_script]

theorem mem_csvScript_none {c : Capture} {mem : ℕ → Word} {includeHeader : Bool} :
    none ∉ csvScript c mem includeHeader ↔
      (includeHeader = true → ∀ e < c.totalEventCount, c.mapEntry e < pmuMapSize) := by
  have columns : ∀ text, (∀ e < c.totalEventCount, ¬ csvColumn c text e = none) ↔
      ∀ e < c.totalEventCount, c.mapEntry e < pmuMapSize := by
    intro text
    refine forall_congr' fun e => forall_congr' fun he => ?_
    unfold csvColumn
    rw [captureGetEventMapIndex_eq he]
    by_cases known : c.mapEntry e < pmuMapSize
    · simp [known]
    · simp [known]
  have rows : none ∉ (List.range c.currentChunkOps).flatMap (csvRowScript c mem) := by
    simp [csvRowScript]
  unfold csvScript
  rw [List.mem_append, not_or]
  cases includeHeader with
  | false => simp [rows]
  | true => simp [rows, csvHeaderScript, columns]

def seenCalls (calls : List (Bytes × Status)) (flushes : List Status) : List TransportCall :=
  calls.map TransportCall.ofWrite ++ flushes.map .flush

section Seen
variable {calls : List (Bytes × Status)} {flushes : List Status}

theorem seenCalls_blocks : (seenCalls calls flushes).filterMap TransportCall.block? =
    calls.map Prod.fst := by
  have none_ : (flushes.map TransportCall.flush).filterMap TransportCall.block? = [] := by
    simp [TransportCall.block?]
  have all : (calls.map TransportCall.ofWrite).filterMap TransportCall.block? = calls.map Prod.fst := by
    induction calls with
    | nil => rfl
    | cons call calls ih => exact congrArg (call.1 :: ·) ih
  rw [seenCalls, List.filterMap_append, none_, all, List.append_nil]

theorem seenCalls_write {data : Bytes} {status : Status} :
    .write data status ∈ seenCalls calls flushes ↔ (data, status) ∈ calls := by
  simp [seenCalls, TransportCall.ofWrite]

theorem seenCalls_flush {status : Status} :
    .flush status ∈ seenCalls calls flushes ↔ status ∈ flushes := by
  simp [seenCalls, TransportCall.ofWrite]

theorem seenCalls_count : (seenCalls calls flushes).countP TransportCall.isFlush = flushes.length := by
  have none_ : (calls.map TransportCall.ofWrite).countP TransportCall.isFlush = 0 := by
    simp [TransportCall.ofWrite, TransportCall.isFlush]
  have all : (flushes.map TransportCall.flush).countP TransportCall.isFlush = flushes.length := by
    induction flushes with
    | nil => rfl
    | cons status flushes ih =>
      rw [List.map_cons, List.countP_cons, ih, List.length_cons]
      rfl
  rw [seenCalls, List.countP_append, none_, all, Nat.zero_add]

/-- A script is played and, if all of it was written, the transport flushed. -/
structure SinkSession (script : List (Option Bytes)) (flush : Option (X → Status × X))
    (written : List (Bytes × Status)) (status : Status) (flushes : List Status) (result : Status) :
    Prop where
  outcome : Outcome statusSuccess statusInvalidConfig script written status
  stopped : status ≠ statusSuccess → result = status ∧ flushes = []
  passed : status = statusSuccess →
    (flush = none → result = statusSuccess) ∧ flushes = flush.toList.map fun _ => result

section Session
variable {script : List (Option Bytes)} {flush : Option (X → Status × X)}
  {status result : Status}

theorem SinkSession.failure_last (session : SinkSession script flush calls status flushes result)
    {before after : List TransportCall} {data : Bytes} {answer : Status}
    (eq : seenCalls calls flushes = before ++ .write data answer :: after)
    (bad : answer ≠ statusSuccess) : after = [] ∧ result = answer := by
  have called : .write data answer ∈ seenCalls calls flushes := by
    rw [eq]
    exact List.mem_append_right _ List.mem_cons_self
  rw [seenCalls_write] at called
  obtain ⟨returned, rfl⟩ := session.stopped fun ok =>
    bad (((session.outcome.ok_iff statusInvalidConfig_ne).mp ok).1 _ called)
  rw [seenCalls, List.map_nil, List.append_nil] at eq
  obtain ⟨first, rest, rfl, -, tail⟩ := List.map_eq_append_iff.mp eq
  obtain ⟨call, later, rfl, here, rfl⟩ := List.map_eq_cons_iff.mp tail
  obtain ⟨rfl, rfl⟩ := TransportCall.write.inj here
  obtain ⟨rfl, last⟩ := session.outcome.failure_last rfl bad
  exact ⟨rfl, returned.trans last⟩

theorem SinkSession.whole (session : SinkSession script flush calls status flushes result)
    (ok : status = statusSuccess) :
    calls.map Prod.fst = text script ∧
    seenCalls calls flushes = (text script).map (.write · statusSuccess) ++
      flush.toList.map (fun _ => .flush result) ∧
    (flush = none → result = statusSuccess) := by
  obtain ⟨returned, flushed⟩ := session.passed ok
  have taken := session.outcome.taken ((session.outcome.ok_iff statusInvalidConfig_ne).mp ok).1
  refine ⟨?_, ?_, returned⟩
  · rw [taken, List.map_map]
    exact List.map_id _
  · rw [flushed, seenCalls, taken, List.map_map, List.map_map]
    rfl

theorem SinkSession.unflushed (session : SinkSession script flush calls status flushes result)
    (failed : status ≠ statusSuccess) :
    result ≠ statusSuccess ∧ ∀ answer, .flush answer ∉ seenCalls calls flushes := by
  obtain ⟨returned, rfl⟩ := session.stopped failed
  refine ⟨returned.trans_ne failed, fun answer => ?_⟩
  rw [seenCalls_flush]
  exact List.not_mem_nil

theorem SinkSession.flushed_once (session : SinkSession script flush calls status flushes result)
    (present : flush ≠ none) :
    (seenCalls calls flushes).countP TransportCall.isFlush = 1 ↔ status = statusSuccess := by
  rw [seenCalls_count]
  by_cases ok : status = statusSuccess
  · obtain ⟨flush', rfl⟩ := Option.ne_none_iff_exists'.mp present
    simp [ok, (session.passed ok).2]
  · simp [ok, (session.stopped ok).2]

theorem SinkSession.success_iff (session : SinkSession script flush calls status flushes result) :
    result = statusSuccess ↔ status = statusSuccess ∧
      (flush ≠ none → .flush statusSuccess ∈ seenCalls calls flushes) := by
  rw [seenCalls_flush]
  by_cases ok : status = statusSuccess
  · obtain ⟨returned, flushed⟩ := session.passed ok
    cases flush with
    | none => simp [ok, returned rfl]
    | some flush =>
      rw [flushed]
      simp [ok, eq_comm]
  · simp [ok, (session.stopped ok).1]

end Session

end Seen

theorem taken_of_accepting {write : X → Bytes → Status × X} {calls : List (Bytes × Status)}
    (accepting : ∀ x data, (write x data).1 = statusSuccess)
    (answers : ∀ call ∈ calls, ∃ y, (write y call.1).1 = call.2) :
    ∀ call ∈ calls, call.2 = statusSuccess := by
  intro call member
  obtain ⟨y, answer⟩ := answers call member
  exact answer.symm.trans (accepting y call.1)

section Logged
variable (write : X → Bytes → Status × X) (flush : Option (X → Status × X))

theorem script_logged (script : List (Option Bytes)) (x : X) (log : List TransportCall) :
    ∃ calls, Outcome statusSuccess statusInvalidConfig script calls
        (SinkStep.all (script.map (scriptStep ⟨some write, flush⟩)) x).1 ∧
      (∀ call ∈ calls, ∃ y, (write y call.1).1 = call.2) ∧
      SinkStep.all (script.map (scriptStep (Transport.logged ⟨some write, flush⟩))) (x, log) =
        ((SinkStep.all (script.map (scriptStep ⟨some write, flush⟩)) x).1,
          ((SinkStep.all (script.map (scriptStep ⟨some write, flush⟩)) x).2,
            log ++ calls.map TransportCall.ofWrite)) := by
  induction script generalizing x log with
  | nil => exact ⟨[], .done, by simp, by simp [SinkStep.all]⟩
  | cons item script ih =>
    rw [List.map_cons, List.map_cons, SinkStep.all, SinkStep.all]
    cases item with
    | none =>
      rw [SinkStep.andThen_failed (f := scriptStep ⟨some write, flush⟩ none) statusInvalidConfig_ne,
        SinkStep.andThen_failed (f := scriptStep (Transport.logged _) none) statusInvalidConfig_ne]
      refine ⟨[], .gaveUp script, by simp, ?_⟩
      rw [List.map_nil, List.append_nil]
      rfl
    | some data =>
      have seen : scriptStep (Transport.logged ⟨some write, flush⟩) (some data) (x, log) =
          ((write x data).1, ((write x data).2, log ++ [.write data (write x data).1])) := rfl
      by_cases taken : (write x data).1 = statusSuccess
      · have here : scriptStep ⟨some write, flush⟩ (some data) x =
            (statusSuccess, (write x data).2) := Prod.ext taken rfl
        rw [taken] at seen
        obtain ⟨calls, outcome, answers, eq⟩ :=
          ih (write x data).2 (log ++ [.write data statusSuccess])
        rw [SinkStep.andThen_ok here, SinkStep.andThen_ok seen, eq]
        refine ⟨(data, statusSuccess) :: calls, .next data outcome, ?_, ?_⟩
        · exact List.forall_mem_cons.mpr ⟨⟨x, taken⟩, answers⟩
        · rw [List.append_assoc]
          rfl
      · rw [SinkStep.andThen_failed (f := scriptStep ⟨some write, flush⟩ (some data)) taken,
          SinkStep.andThen_failed (by rw [seen]; exact taken), seen]
        exact ⟨[(data, (write x data).1)], .failed data script taken, by simp, rfl⟩

/-- What a transport sees of the serialiser: the calls of the script and, if they all passed, the
flush. -/
theorem captureSerializeCsv_logged {c : Capture} (ready : c.chunkReady = true) (mem : ℕ → Word)
    (includeHeader : Bool) (x : X) :
    let r := captureSerializeCsv c mem (Transport.logged ⟨some write, flush⟩) includeHeader (x, [])
    captureSerializeCsv c mem ⟨some write, flush⟩ includeHeader x = (r.1, r.2.1) ∧
    ∃ written status flushes,
      SinkSession (csvScript c mem includeHeader) flush written status flushes r.1 ∧
      (∀ call ∈ written, ∃ y, (write y call.1).1 = call.2) ∧
      r.2.2 = seenCalls written flushes := by
  intro r
  obtain ⟨calls, outcome, answers, eq⟩ :=
    script_logged write flush (csvScript c mem includeHeader) x []
  rw [List.nil_append] at eq
  have plain := captureSerializeCsv_script ready mem ⟨some write, flush⟩ includeHeader
  have logged := captureSerializeCsv_script ready mem (Transport.logged ⟨some write, flush⟩)
    includeHeader
  dsimp only [r]
  rw [plain, logged]
  generalize SinkStep.all ((csvScript c mem includeHeader).map (scriptStep ⟨some write, flush⟩)) =
    f at outcome eq ⊢
  by_cases passed : (f x).1 = statusSuccess
  · have here : f x = (statusSuccess, (f x).2) := Prod.ext passed rfl
    rw [passed] at eq
    rw [SinkStep.andThen_ok here, SinkStep.andThen_ok eq]
    cases flush with
    | none =>
      refine ⟨rfl, calls, _, [], ⟨outcome, fun failed => absurd passed failed, fun _ => ?_⟩,
        answers, (List.append_nil _).symm⟩
      exact ⟨fun _ => rfl, rfl⟩
    | some flush =>
      refine ⟨rfl, calls, _, [(flush (f x).2).1],
        ⟨outcome, fun failed => absurd passed failed, fun _ => ?_⟩, answers, rfl⟩
      exact ⟨fun absent => absurd absent (Option.some_ne_none _), rfl⟩
  · rw [SinkStep.andThen_failed passed, SinkStep.andThen_failed (by rw [eq]; exact passed), eq]
    exact ⟨rfl, calls, _, [], ⟨outcome, fun _ => ⟨rfl, rfl⟩, fun ok => absurd ok passed⟩,
      answers, (List.append_nil _).symm⟩

end Logged

/-- The blocks that the serialiser passes to a transport that accepts every write. -/
def csvText (c : Capture) (mem : ℕ → Word) (includeHeader : Bool) : List Bytes :=
  (captureSerializeCsv c mem nullTransport.logged includeHeader ((), [])).2.2.filterMap
    TransportCall.block?

theorem captureSerializeCsv_text {c : Capture} (ready : c.chunkReady = true) (mem : ℕ → Word)
    (includeHeader : Bool) {u : Transport X} (accepts : u.AcceptsWrites) (x : X) :
    (captureSerializeCsv c mem u.logged includeHeader (x, [])).2.2.filterMap TransportCall.block? =
      text (csvScript c mem includeHeader) := by
  obtain ⟨write, flush⟩ := u
  obtain ⟨write, rfl, ok⟩ := accepts
  obtain ⟨-, calls, status, flushes, session, answers, seen⟩ :=
    captureSerializeCsv_logged write flush ready mem includeHeader x
  rw [seen, seenCalls_blocks, session.outcome.taken (taken_of_accepting ok answers), List.map_map]
  exact List.map_id _

/-- On any transport, the serialiser passes a prefix of the text that an accepting transport gets.
A write that fails is the last call and gives the result. The flush is called once, after the whole
text, when every write passed and no map index was refused, and then it gives the result. -/
theorem serialize_stops_at_first_error {c : Capture} (ready : c.chunkReady = true)
    (mem : ℕ → Word) (includeHeader : Bool) (write : X → Bytes → Status × X)
    (flush : Option (X → Status × X)) (x : X) :
    let r := captureSerializeCsv c mem (Transport.logged ⟨some write, flush⟩) includeHeader (x, [])
    let calls := r.2.2
    let blocks := calls.filterMap TransportCall.block?
    let good := (∀ data status, .write data status ∈ calls → status = statusSuccess) ∧
      (includeHeader = true → ∀ e < c.totalEventCount, c.mapEntry e < pmuMapSize)
    captureSerializeCsv c mem ⟨some write, flush⟩ includeHeader x = (r.1, r.2.1) ∧
    (∀ (Y : Type) (u : Transport Y), u.AcceptsWrites → ∀ y,
      (captureSerializeCsv c mem u.logged includeHeader (y, [])).2.2.filterMap TransportCall.block? =
        csvText c mem includeHeader) ∧
    blocks <+: csvText c mem includeHeader ∧
    (∀ before data status after, calls = before ++ .write data status :: after →
      status ≠ statusSuccess → after = [] ∧ r.1 = status) ∧
    (good → blocks = csvText c mem includeHeader ∧
      calls = blocks.map (.write · statusSuccess) ++ flush.toList.map (fun _ => .flush r.1) ∧
      (flush = none → r.1 = statusSuccess)) ∧
    (¬ good → r.1 ≠ statusSuccess ∧ ∀ status, .flush status ∉ calls) ∧
    (flush ≠ none → (calls.countP TransportCall.isFlush = 1 ↔ good)) ∧
    (r.1 = statusSuccess ↔ good ∧ (flush ≠ none → .flush statusSuccess ∈ calls)) := by
  intro r calls blocks good
  obtain ⟨plain, written, status, flushes, session, -, seen⟩ :=
    captureSerializeCsv_logged write flush ready mem includeHeader x
  replace session :
    SinkSession (csvScript c mem includeHeader) flush written status flushes r.1 := session
  replace seen : calls = seenCalls written flushes := seen
  have text_eq : csvText c mem includeHeader = text (csvScript c mem includeHeader) :=
    captureSerializeCsv_text ready mem includeHeader ⟨_, rfl, fun _ _ => rfl⟩ ()
  have handed : blocks = written.map Prod.fst := by
    dsimp only [blocks]
    rw [seen, seenCalls_blocks]
  have good_iff : good ↔ status = statusSuccess := by
    dsimp only [good]
    rw [session.outcome.ok_iff statusInvalidConfig_ne, mem_csvScript_none, seen]
    simp only [seenCalls_write, Prod.forall]
  rw [good_iff, text_eq, seen, handed]
  refine ⟨plain, ?_, session.outcome.prefix_text, ?_, ?_, session.unflushed,
    session.flushed_once, session.success_iff⟩
  · intro Y u accepts y
    exact captureSerializeCsv_text ready mem includeHeader accepts y
  · intro before data answer after eq bad
    exact session.failure_last eq bad
  · intro ok
    obtain ⟨blocks_eq, calls_eq, returned⟩ := session.whole ok
    rw [blocks_eq]
    exact ⟨rfl, calls_eq, returned⟩

def refFullSink : Transport ℕ :=
  ⟨some fun room _ => if room = 0 then (statusFailure, 0) else (statusSuccess, room - 1),
    some fun room => (statusSuccess, room)⟩

def refOneCell : Capture :=
  { Capture.zero with totalEventCount := 1, currentChunkOps := 1, chunkReady := true }

theorem serialize_stops_at_first_error_ref :
    let r := captureSerializeCsv refOneCell (fun _ => 5) refFullSink.logged true (3, [])
    r.2.2.filterMap TransportCall.block? <+: csvText refOneCell (fun _ => 5) true ∧
      r.1 ≠ statusSuccess ∧ ∀ status, .flush status ∉ r.2.2 := by
  obtain ⟨-, -, delivered, -, -, stopped, flushed, -⟩ :=
    serialize_stops_at_first_error (c := refOneCell) rfl (fun _ => 5) true _ refFullSink.flush 3
  refine ⟨delivered, stopped fun good => ?_⟩
  have once := (flushed (Option.some_ne_none _)).mpr good
  exact absurd once (by decide +kernel)

end NsxPmu
