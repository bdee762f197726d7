import NsxPmu.CaptureLedger
import Mathlib.Algebra.Order.Floor.Div

set_option autoImplicit false

/-!
# Whole captures

A caller that reports every operator of every inference, reads a chunk when it is
ready and then goes on to the next one, until the capture is complete.
-/
namespace NsxPmu
open WordMemory LabelledRuns

variable {H X : Type}

def operatorCalls (work : ℕ → H → H) (op : ℕ) : List (CaptureCall H X) :=
  [.layerBegin (BitVec.ofNat 16 op), .elapse (work op), .layerEnd (BitVec.ofNat 16 op)]

def inferenceCalls (totalOps : ℕ) (work : ℕ → H → H) : List (CaptureCall H X) :=
  (List.range totalOps).flatMap (operatorCalls work) ++ [.modelEnd]

structure ChunkRead where
  start : ℕ
  ops : ℕ
  rows : List (List Word)

def readChunk (x : CaptureState H) : ChunkRead where
  start := x.capture.currentChunkStart
  ops := x.capture.currentChunkOps
  rows := (List.range x.capture.currentChunkOps).map fun r =>
    (List.range x.capture.totalEventCount).map fun e => x.world.mem (x.capture.cell r e)

/-- A caller's progress: the capture, the inferences it ran, the chunks it read and the
samples that were taken. -/
structure Profile (H : Type) where
  state : CaptureState H
  inferences : ℕ
  chunks : List ChunkRead
  log : List Sample

/-- The caller's loop, for at most `fuel` inferences. `work n op` is what the operator `op`
does to the hardware in inference `n`. -/
def profile (P : Platform H) (evtyper : H → ℕ → Word) (totalOps : ℕ) (work : ℕ → ℕ → H → H) :
    ℕ → Profile H → Option (Profile H)
  | 0, _ => none
  | fuel + 1, s =>
    let calls : List (CaptureCall H Unit) := inferenceCalls totalOps (work s.inferences)
    let x := run (captureStep P) s.state calls
    let log := s.log ++ collect (captureStep P) (captureSamples P evtyper) s.state calls
    if !x.capture.chunkReady then
      profile P evtyper totalOps work fuel ⟨x, s.inferences + 1, s.chunks, log⟩
    else if x.capture.complete then some ⟨x, s.inferences + 1, s.chunks ++ [readChunk x], log⟩
    else
      profile P evtyper totalOps work fuel
        ⟨captureStep P x (.advanceChunk (X := Unit)), s.inferences + 1, s.chunks ++ [readChunk x], log⟩

theorem operatorCalls_pass (P : Platform H) {work : ℕ → H → H} {op : ℕ} {x : CaptureState H}
    (inv : CaptureInvariant x.capture) {call : CaptureCall H X}
    (member : call ∈ operatorCalls work op) :
    SamePass x.capture (captureStep P x call).capture := by
  simp only [operatorCalls, List.mem_cons, List.not_mem_nil, or_false] at member
  rcases member with rfl | rfl | rfl
  · exact .refl _
  · exact .refl _
  · exact captureLayerEnd_pass P x.world inv _

/-- A capture that is measuring and will find all its events. -/
structure Midway (evtyper : H → ℕ → Word) (api : CoreApi) (x : CaptureState H) : Prop where
  inv : CaptureInvariant x.capture
  ready : PassReady evtyper x
  unready : x.capture.chunkReady = false
  incomplete : x.capture.complete = false
  api : x.capture.api = some api
  known : ∀ e < x.capture.totalEventCount, x.capture.mapEntry e < pmuMapSize

theorem SameSetup.mapEntry {c c' : Capture} (same : SameSetup c c') (event : ℕ) :
    c'.mapEntry event = c.mapEntry event := by
  unfold Capture.mapEntry
  rw [same.eventMapIndices]

section Answering
variable {P : Platform H} {evtyper : H → ℕ → Word} {api : CoreApi}

theorem capturePreparePass_succeeds (answers : Answers P api) {c : Capture} (s : Pmu H)
    (setup : CaptureSetup c) (base : c.currentEventBase < c.totalEventCount)
    (version : c.api = some api) (known : ∀ e < c.totalEventCount, c.mapEntry e < pmuMapSize) :
    (capturePreparePass P c s).1 = statusSuccess := by
  have le := setup.eventsPerPass_le
  have few : c.passSize ≤ 4 := by
    unfold Capture.passSize
    omega
  rcases capturePreparePass_cases P s setup base with ⟨entries, eq⟩ | ⟨⟨slot, hs, bad⟩, -⟩
  · rw [eq]
    exact answers.pairs version (pairedConfig_slots _ _ _ _) few
      fun slot hs => getMapIndex_isSome (entries slot hs)
  · exact absurd (known _ (Capture.passSize_inside (List.mem_range.mpr hs))) bad

theorem Midway.modelEnd_succeeds (answers : Answers P api) {x : CaptureState H}
    (mid : Midway evtyper api x) : (captureModelEnd P x.capture x.world).1 = statusSuccess := by
  rcases captureModelEnd_cases P x.world mid.inv with ⟨-, eq⟩ | ⟨-, -, -, eq⟩ | ⟨-, -, -, more, eq⟩
  · rw [eq]
  · rw [eq]
  · rw [eq]
    have same : SameSetup x.capture x.capture.nextPass := .progress
    exact capturePreparePass_succeeds answers _ (mid.inv.toCaptureSetup.of_same same) more mid.api
      mid.known

theorem Midway.of_pass {x y : CaptureState H} (mid : Midway evtyper api x)
    (inv : CaptureInvariant y.capture) (ready : PassReady evtyper y)
    (same : SameSetup x.capture y.capture) (unready : y.capture.chunkReady = false)
    (incomplete : y.capture.complete = false) : Midway evtyper api y where
  inv := inv
  ready := ready
  unready := unready
  incomplete := incomplete
  api := same.api.trans mid.api
  known := by
    intro e he
    rw [same.mapEntry]
    exact mid.known e (he.trans_eq same.totalEventCount)

/-- The work of the operators leaves the programming of the PMU alone. -/
def Quiet (evtyper : H → ℕ → Word) (f : H → H) : Prop :=
  ∀ hw, ∀ k < maxCounters, evtyper (f hw) k = evtyper hw k

theorem operatorCalls_measuring {work : ℕ → H → H} (quiet : ∀ op, Quiet evtyper (work op)) {op : ℕ}
    (x : CaptureState H) {call : CaptureCall H X}
    (member : call ∈ operatorCalls work op) :
    Measuring P evtyper x call := by
  simp only [operatorCalls, List.mem_cons, List.not_mem_nil, or_false] at member
  rcases member with rfl | rfl | rfl
  · exact ⟨rfl, trivial⟩
  · exact ⟨rfl, quiet op x.world.pmu.hw⟩
  · exact ⟨rfl, trivial⟩

def sampleCount (op column : ℕ) (l : List Sample) : ℕ :=
  (l.filter fun s => s.op = op ∧ s.column = column).length

@[simp] theorem sampleCount_nil (op column : ℕ) : sampleCount op column [] = 0 := rfl

theorem sampleCount_append (op column : ℕ) (l k : List Sample) :
    sampleCount op column (l ++ k) = sampleCount op column l + sampleCount op column k := by
  simp [sampleCount]

theorem sampleCount_other {op column : ℕ} {l : List Sample}
    (h : ∀ s ∈ l, ¬ (s.op = op ∧ s.column = column)) : sampleCount op column l = 0 := by
  rw [sampleCount, List.length_eq_zero_iff, List.filter_eq_nil_iff]
  intro s hs
  simpa using h s hs

theorem pairSamples_count (P : Platform H) (evtyper : H → ℕ → Word) (hw : H)
    (op base n op' column : ℕ) :
    sampleCount op' column ((List.range n).map (pairSample P evtyper hw op base)) =
      if op' = op ∧ base ≤ column ∧ column < base + n then 1 else 0 := by
  by_cases target : op' = op ∧ base ≤ column ∧ column < base + n
  · obtain ⟨rfl, lo, hi⟩ := target
    obtain ⟨slot, rfl⟩ : ∃ slot, column = base + slot := ⟨column - base, by omega⟩
    rw [if_pos ⟨rfl, lo, hi⟩, sampleCount,
      pairSamples_filter P evtyper hw (show slot < n by omega)]
    rfl
  · rw [if_neg target]
    apply sampleCount_other
    intro s hs
    obtain ⟨slot, hslot, rfl⟩ := List.mem_map.mp hs
    have hslot := List.mem_range.mp hslot
    simp only [pairSample]
    omega

def Capture.samples (c : Capture) (op column : ℕ) : Prop :=
  (c.currentChunkStart ≤ op ∧ op < c.currentChunkStart + c.currentChunkOps) ∧
    c.currentEventBase ≤ column ∧ column < c.currentEventBase + c.currentPassEvents

instance (c : Capture) (op column : ℕ) : Decidable (c.samples op column) :=
  inferInstanceAs (Decidable (_ ∧ _))

theorem SamePass.samples {c c' : Capture} (same : SamePass c c') (op column : ℕ) :
    c'.samples op column ↔ c.samples op column := by
  unfold Capture.samples
  rw [same.chunkStart, same.chunkOps, same.eventBase, same.passEvents]

theorem captureSamples_count (P : Platform H) (evtyper : H → ℕ → Word) (x : CaptureState H)
    {op : ℕ} (small : op < 65536) (op' column : ℕ) :
    sampleCount op' column (captureSamples P evtyper x (.layerEnd (X := X) (BitVec.ofNat 16 op))) =
      if op' = op ∧ x.capture.samples op' column then 1 else 0 := by
  have index : (BitVec.ofNat 16 op).toNat = op := by
    rw [BitVec.toNat_ofNat]
    omega
  simp only [captureSamples, index]
  by_cases inside : x.capture.currentChunkStart ≤ op ∧
      op < x.capture.currentChunkStart + x.capture.currentChunkOps
  · rw [if_pos inside, pairSamples_count]
    unfold Capture.samples
    by_cases here : op' = op
    · subst here
      simp only [inside, true_and]
    · simp only [here, false_and]
  · rw [if_neg inside, sampleCount_nil, if_neg]
    rintro ⟨rfl, samples⟩
    exact inside samples.1

structure InPass (evtyper : H → ℕ → Word) (x y : CaptureState H) : Prop where
  chunk : InChunk evtyper x y
  pass : SamePass x.capture y.capture

theorem InPass.run (laws : Programs P evtyper) {work : ℕ → H → H}
    (quiet : ∀ op, Quiet evtyper (work op)) {x y : CaptureState H} (inside : InPass evtyper x y)
    {calls : List (CaptureCall H X)} (members : ∀ call ∈ calls, ∃ op, call ∈ operatorCalls work op) :
    InPass evtyper x (run (captureStep P) y calls) := by
  have all : AllSteps (captureStep P) (fun _ call => ∃ op, call ∈ operatorCalls work op) y calls :=
    AllSteps_of_forall (fun call h _ => members call h) y
  refine run_invariant ?_ inside all
  rintro z call ⟨chunk, pass⟩ ⟨op, member⟩
  exact ⟨chunk.step laws (operatorCalls_measuring quiet z member),
    pass.trans (operatorCalls_pass P chunk.inv member)⟩

theorem operators_count (laws : Programs P evtyper) {work : ℕ → H → H}
    (quiet : ∀ op, Quiet evtyper (work op)) {x y : CaptureState H} (inside : InPass evtyper x y)
    {ops : List ℕ} (small : ∀ op ∈ ops, op < 65536) (op' column : ℕ) :
    sampleCount op' column (collect (captureStep P) (captureSamples P evtyper) y
      (ops.flatMap (operatorCalls (X := X) work))) =
      if x.capture.samples op' column then ops.count op' else 0 := by
  induction ops generalizing y with
  | nil => simp
  | cons op ops ih =>
    have first : InPass evtyper x
        (LabelledRuns.run (captureStep P) y (operatorCalls (X := X) work op)) :=
      inside.run laws quiet fun call h => ⟨op, h⟩
    -- the reading is taken at the third call, which sees the same pass
    have before : InPass evtyper x (LabelledRuns.run (captureStep P) y
        [CaptureCall.layerBegin (X := X) (BitVec.ofNat 16 op), .elapse (work op)]) := by
      refine inside.run laws quiet fun call h => ⟨op, ?_⟩
      simp only [List.mem_cons, List.not_mem_nil, or_false] at h
      rcases h with rfl | rfl <;> simp [operatorCalls]
    have seen : sampleCount op' column (collect (captureStep P) (captureSamples P evtyper) y
        (operatorCalls (X := X) work op)) =
        if op' = op ∧ x.capture.samples op' column then 1 else 0 := by
      have read := captureSamples_count P evtyper (X := X) (LabelledRuns.run (captureStep P) y
        [CaptureCall.layerBegin (X := X) (BitVec.ofNat 16 op), .elapse (work op)])
        (small op (by simp)) op' column
      simp only [before.pass.samples] at read
      rw [← read]
      simp [operatorCalls, captureSamples]
    rw [List.flatMap_cons, collect_append, sampleCount_append, seen,
      ih first (fun i hi => small i (by simp [hi])), List.count_cons]
    by_cases samples : x.capture.samples op' column
    · by_cases here : op = op'
      · simp [samples, here, Nat.add_comm]
      · have other : op' ≠ op := fun h => here h.symm
        simp [samples, here, other]
    · simp [samples]

end Answering

end NsxPmu
