import NsxPmu.CaptureRounds
import NsxPmu.PrintedCsv

set_option autoImplicit false

/-!
# From occurrences to printed text

A caller that runs inferences under a capture and prints every chunk that is
ready through the log sink. What has been printed in the end reads back as one
table of the occurrences of every event in every operator.
-/
namespace NsxPmu
open LabelledRuns WindowCounts SeparatedText BoundedLoops

variable {H : Type}

/-- A caller's progress: the capture, the sink it prints to and the inferences it ran. -/
structure Delivery (H : Type) where
  state : CaptureState H
  sink : LogSink
  inferences : ℕ

def Delivery.measured (P : Platform H) (occur : Word → H → H) (inference : ℕ → Inference)
    (d : Delivery H) : CaptureState H :=
  run (liveStep P occur) d.state
    ((inference d.inferences).calls (X := LogSink) (captureGetChunkInfo d.state.capture).totalOps)

/-- One round of the caller's loop, which ends with the last chunk. The header goes with the first
one. -/
def deliverRound (P : Platform H) (occur : Word → H → H) (N : ℕ) (inference : ℕ → Inference)
    (d : Delivery H) : Delivery H ⊕ Delivery H :=
  let x := d.measured P occur inference
  let info := captureGetChunkInfo x.capture
  if !info.chunkReady then .inl ⟨x, d.sink, d.inferences + 1⟩
  else
    let printed := captureSerializeCsv x.capture x.world.mem (logSinkTransport N)
      (decide (info.chunkStart = 0)) d.sink
    if info.complete then .inr ⟨x, printed.2, d.inferences + 1⟩
    else .inl ⟨liveStep P occur x (.advanceChunk (X := LogSink)), printed.2, d.inferences + 1⟩

def Delivery.next (P : Platform H) (occur : Word → H → H) (N : ℕ) (inference : ℕ → Inference)
    (d : Delivery H) : Delivery H :=
  (deliverRound P occur N inference d).elim id id

section Same
variable (P : Platform H) (occur : Word → H → H) (N : ℕ) (inference : ℕ → Inference)

end Same

def Plan.rowLine (p : Plan) (values : ℕ → ℕ → ℕ) (op : ℕ) : Bytes :=
  countsLine op ((List.range p.events).map (values op))

def Plan.printedBefore (p : Plan) (values : ℕ → ℕ → ℕ) (header : List Bytes) (chunk : ℕ) :
    List Bytes :=
  (if chunk = 0 then [] else header) ++ (List.range (p.opsBefore chunk)).map (p.rowLine values)

theorem SameSetup.symm {c c' : Capture} (same : SameSetup c c') : SameSetup c' c :=
  ⟨same.api.symm, same.eventMapIndices.symm, same.matrixStorage.symm, same.matrixStorageCount.symm,
    same.totalOps.symm, same.opsPerChunk.symm, same.totalEventCount.symm, same.eventsPerPass.symm⟩

theorem SameChunk.headerLines {c c' : Capture} (same : SameChunk c c') :
    csvHeaderLines c' = csvHeaderLines c := by
  have names : csvName c' = csvName c := by
    funext e
    rw [csvName, csvName, same.mapEntry]
  have ids : csvId c' = csvId c := by
    funext e
    rw [csvId, csvId, same.mapEntry]
  rw [csvHeaderLines, csvHeaderLines, csvNamesLine, csvNamesLine, csvIdsLine, csvIdsLine, names, ids,
    csvNumbersLine, csvNumbersLine, same.chunkStart, same.chunkOps, same.totalEventCount,
    same.totalOps, same.eventsPerPass]

section Printing
variable {p : Plan} {k : ℕ} (below : k * p.opsPerChunk < p.totalOps)
include below

theorem Plan.printedBefore_succ (values : ℕ → ℕ → ℕ) (header : List Bytes) :
    p.printedBefore values header k ++ ((if k = 0 then header else []) ++
        (List.range (min p.opsPerChunk (p.totalOps - k * p.opsPerChunk))).map fun r =>
          p.rowLine values (k * p.opsPerChunk + r)) =
      p.printedBefore values header (k + 1) := by
  unfold Plan.printedBefore
  rw [Plan.opsBefore_succ below, Plan.opsBefore_of_lt below, if_neg (Nat.succ_ne_zero k),
    List.range_add, List.map_append, List.map_map]
  by_cases first : k = 0
  · subst first
    simp only [if_true, Nat.zero_mul, List.range_zero, List.map_nil, List.nil_append]
    rfl
  · simp only [if_neg first, List.nil_append, List.append_assoc]
    rfl

end Printing

theorem Plan.printedBefore_congr {p : Plan} {values values' : ℕ → ℕ → ℕ} (header : List Bytes)
    {k : ℕ} (same : ∀ op < p.opsBefore k, values' op = values op) :
    p.printedBefore values' header k = p.printedBefore values header k := by
  refine congrArg _ (List.map_congr_left fun op hop => ?_)
  rw [Plan.rowLine, Plan.rowLine, same op (List.mem_range.mp hop)]

section Printed
variable {programmed : ℕ → Prop} {inference : ℕ → Inference} {x : Capture} {k : ℕ}
  {z : CaptureState H}

def PrintedBefore (programmed : ℕ → Prop) (inference : ℕ → Inference) (x : Capture) (chunk : ℕ)
    (text : Bytes) : Prop :=
  ∃ values, text = unlines newline
      (x.plan.printedBefore values (csvHeaderLines (x.openChunk 0)) chunk) ∧
    x.plan.Faithful x.columnId inference programmed values (x.plan.opsBefore chunk)

theorem CountedChunk.rowLines (counted : CountedChunk programmed inference x k z)
    {values : ℕ → ℕ → ℕ}
    (held : ∀ row, values (k * x.opsPerChunk + row) = csvValue z.capture z.world.mem row) :
    csvRowLines z.capture z.world.mem =
      (List.range (min x.opsPerChunk (x.totalOps - k * x.opsPerChunk))).map
        fun row => x.plan.rowLine values (k * x.opsPerChunk + row) := by
  rw [csvRowLines, counted.ops]
  refine List.map_congr_left fun row _ => ?_
  rw [csvRowLine_counts, counted.start, counted.setup.totalEventCount, Plan.rowLine, held]
  rfl

theorem CountedChunk.headerLines (counted : CountedChunk programmed inference x k z) :
    (if decide (z.capture.currentChunkStart = 0) = true then csvHeaderLines z.capture else []) =
      if k = 0 then csvHeaderLines (x.openChunk 0) else [] := by
  have start := counted.start
  by_cases first : k = 0
  · have same : SameChunk (x.openChunk 0) z.capture := by
      refine ⟨(x.openChunk_same 0).symm.trans counted.setup, ?_, ?_⟩
      · rw [start, first, Nat.zero_mul]
        rfl
      · rw [counted.ops, first, Nat.zero_mul]
        rfl
    rw [start, first, Nat.zero_mul, if_pos (by decide), if_pos rfl, same.headerLines]
  · have positive := Nat.mul_pos (Nat.pos_of_ne_zero first) counted.inv.opsPerChunk_pos
    rw [counted.setup.opsPerChunk, ← start] at positive
    rw [if_neg first, if_neg]
    simp only [decide_eq_true_eq]
    omega

theorem CountedChunk.printedBefore (counted : CountedChunk programmed inference x k z) {text : Bytes}
    (before : PrintedBefore programmed inference x k text) :
    PrintedBefore programmed inference x (k + 1) (text ++ unlines newline
      (csvLines z.capture z.world.mem (decide (z.capture.currentChunkStart = 0)))) := by
  obtain ⟨values, rfl, faithful⟩ := before
  have below : k * x.plan.opsPerChunk < x.plan.totalOps := counted.below
  have start := Plan.opsBefore_of_lt below
  let values' := fun op => if op < k * x.opsPerChunk then values op
    else csvValue z.capture z.world.mem (op - k * x.opsPerChunk)
  have held : ∀ row, values' (k * x.opsPerChunk + row) = csvValue z.capture z.world.mem row := by
    intro row
    dsimp only [values']
    rw [if_neg (by omega), Nat.add_sub_cancel_left]
  have kept : ∀ op < x.plan.opsBefore k, values' op = values op := by
    intro op hop
    exact if_pos (hop.trans_eq start)
  refine ⟨values', ?_, ?_⟩
  · rw [csvLines, counted.headerLines, counted.rowLines held, ← unlines_append,
      ← Plan.printedBefore_congr _ kept]
    exact congrArg _ (Plan.printedBefore_succ below ..)
  · intro op hop e he now
    by_cases earlier : op < x.plan.opsBefore k
    · rw [kept op earlier]
      exact faithful op earlier e he now
    · obtain ⟨row, inside, rfl⟩ := counted.row earlier hop
      rw [held]
      exact counted.counts row inside e he now

end Printed

/-- The header of the table of a whole capture. -/
def CaptureCfg.csvHeader (cfg : CaptureCfg) : CsvHeader where
  numbers := ⟨0, cfg.plan.opsPerChunk, cfg.plan.totalOps, cfg.plan.events, cfg.plan.eventsPerPass⟩
  names := (List.range cfg.plan.events).map fun e => ascii (pmuMapAt (cfg.mapEntry e)).regname
  ids := (List.range cfg.plan.events).map fun e => (cfg.columnId e).toNat

section Started
variable {P : Platform H} {evtyper : H → ℕ → Word} {enabled : H → ℕ → Bool} {occur : Word → H → H}
  {N : ℕ} {inference : ℕ → Inference} {c : Capture} {cfg : CaptureCfg} {w : World H}

end Started

/-- Operator 0 has one occurrence of the event of column 1. Operator 1 has one of the event of
column 2 for each inference that came before. -/
def refInference (n : ℕ) : Inference where
  work op := if op = 0 then [0x0001] else List.replicate n 0x0003
  idle _ := [0x0003]

end NsxPmu
