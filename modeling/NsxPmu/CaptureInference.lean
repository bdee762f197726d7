import NsxPmu.CaptureOccurrences
import NsxPmu.CaptureSchedule

set_option autoImplicit false

/-!
# What an inference adds

An inference reported to a capture, operator by operator, adds the occurrences
of each operator to the cells of the position and nothing to any other cell.
-/
namespace NsxPmu
open LabelledRuns WindowCounts

variable {H X : Type}

/-- The occurrences of an inference: those of every operator, and those before it that belong to
no operator. The ones behind the last operator are before the one that does not exist. -/
structure Inference where
  work : ℕ → List Word
  idle : ℕ → List Word

def Inference.operator (i : Inference) (op : ℕ) : List (LiveCall X) :=
  (i.idle op).map .occur ++
    .layerBegin (BitVec.ofNat 16 op) :: ((i.work op).map .occur ++ [.layerEnd (BitVec.ofNat 16 op)])

def Inference.body (i : Inference) (totalOps : ℕ) : List (LiveCall X) :=
  .modelBegin :: ((List.range totalOps).flatMap i.operator ++ (i.idle totalOps).map .occur)

def Inference.calls (i : Inference) (totalOps : ℕ) : List (LiveCall X) :=
  i.body totalOps ++ [.modelEnd]

def Plan.adds (p : Plan) (id : ℕ → Word) (pos : Position) (i : Inference) (cell : ℕ × ℕ) : ℕ :=
  if p.covers pos cell.1 ∧ p.measures pos cell.2 then (i.work cell.1).count (id cell.2) else 0

def LiveCall.stays : LiveCall X → Bool
  | .modelEnd => false
  | .advanceChunk => false
  | _ => true

theorem LiveCall.toCall_stays (occur : Word → H → H) (call : LiveCall X) :
    (call.toCall occur).stays = call.stays := by
  cases call <;> rfl

theorem LiveCall.succeeds_of_stays {P : Platform H} {x : CaptureState H} {call : LiveCall X}
    (stays : call.stays = true) : call.Succeeds P x := by
  cases call with
  | modelEnd => cases stays
  | advanceChunk => cases stays
  | _ => trivial

theorem Inference.operator_stays (i : Inference) (op : ℕ) :
    ∀ call ∈ i.operator (X := X) op, call.stays = true := by
  simp only [Inference.operator, List.mem_append, List.mem_cons, List.mem_map, List.not_mem_nil,
    or_false]
  rintro call (⟨event, -, rfl⟩ | rfl | ⟨event, -, rfl⟩ | rfl) <;> rfl

theorem Inference.body_stays (i : Inference) (totalOps : ℕ) :
    ∀ call ∈ i.body (X := X) totalOps, call.stays = true := by
  intro call member
  rcases List.mem_cons.mp member with rfl | member
  · rfl
  rcases List.mem_append.mp member with member | member
  · obtain ⟨op, -, inside⟩ := List.mem_flatMap.mp member
    exact i.operator_stays op call inside
  · obtain ⟨event, -, rfl⟩ := List.mem_map.mp member
    rfl

section Ticks
variable (p : Plan) (id : ℕ → Word) (pos : Position) (occur : Word → H → H)

theorem Plan.step_live_stays {call : LiveCall X} (stays : call.stays = true) :
    p.step pos (LiveCall.toCall occur call) = pos :=
  p.step_stays pos ((call.toCall_stays occur).trans stays)

theorem Plan.run_live_stays {calls : List (LiveCall X)} (stays : ∀ call ∈ calls, call.stays = true) :
    run (fun pos call => p.step pos (LiveCall.toCall occur call)) pos calls = pos :=
  LabelledRuns.run_stays fun call h => p.step_live_stays pos occur (stays call h)

theorem Plan.history_stays {calls : List (LiveCall X)} (stays : ∀ call ∈ calls, call.stays = true) :
    p.history occur id pos calls = calls.flatMap (p.ticks id pos) :=
  collect_stays fun call h => p.step_live_stays pos occur (stays call h)

theorem Plan.occurs_ticks (events : List Word) :
    (events.map (LiveCall.occur (X := X))).flatMap (p.ticks id pos) = events.map .occur := by
  rw [List.flatMap_map]
  exact List.map_eq_flatMap.symm

theorem Inference.operator_ticks (i : Inference) {op : ℕ} (small : op < 65536) :
    (i.operator (X := X) op).flatMap (p.ticks id pos) =
      if p.covers pos op then (i.idle op).map .occur ++
        .mark :: ((i.work op).map .occur ++ [.sample (p.reads id pos op)])
      else (i.idle op ++ i.work op).map .occur := by
  have index : (BitVec.ofNat 16 op).toNat = op := by
    rw [BitVec.toNat_ofNat]
    omega
  rw [Inference.operator, List.flatMap_append, List.flatMap_cons, List.flatMap_append,
    List.flatMap_singleton, p.occurs_ticks, p.occurs_ticks]
  simp only [Plan.ticks, index]
  by_cases covered : p.covers pos op
  · simp only [if_pos covered, List.singleton_append]
  · simp only [if_neg covered, List.nil_append, List.append_nil, List.map_append]

theorem Inference.operator_total (i : Inference) (m : Meter Word (ℕ × ℕ)) {op : ℕ}
    (small : op < 65536) (cell : ℕ × ℕ) :
    (run meterStep m ((i.operator (X := X) op).flatMap (p.ticks id pos))).total cell =
      m.total cell + if cell.1 = op then p.adds id pos i cell else 0 := by
  rw [i.operator_ticks p id pos small]
  unfold Plan.adds
  by_cases covered : p.covers pos op
  · rw [if_pos covered, run_window]
    dsimp only [Plan.reads]
    by_cases here : cell.1 = op
    · by_cases measured : p.measures pos cell.2
      · simp only [here, covered, measured, and_self, if_true, Option.elim_some]
      · simp only [here, measured, and_false, if_false, if_true, Option.elim_none]
    · simp only [here, false_and, if_false, Option.elim_none]
  · rw [if_neg covered, run_occurs]
    by_cases here : cell.1 = op
    · simp only [here, covered, false_and, if_false, if_true, Nat.add_zero]
    · simp only [here, if_false, Nat.add_zero]

theorem Inference.operators_total (i : Inference) (m : Meter Word (ℕ × ℕ)) {n : ℕ}
    (small : n ≤ 65536) (cell : ℕ × ℕ) :
    (run meterStep m
      (((List.range n).flatMap (i.operator (X := X))).flatMap (p.ticks id pos))).total cell =
      m.total cell + if cell.1 < n then p.adds id pos i cell else 0 := by
  induction n with
  | zero => rfl
  | succ n ih =>
    rw [List.range_succ, List.flatMap_append, List.flatMap_singleton, List.flatMap_append, run_append,
      i.operator_total p id pos _ (by omega), ih (by omega), Nat.add_assoc]
    congr 1
    by_cases here : cell.1 = n
    · rw [if_pos here, if_neg (by omega), if_pos (by omega), Nat.zero_add]
    · rw [if_neg here, Nat.add_zero]
      exact if_congr (by omega) rfl rfl

theorem Inference.total_run (i : Inference) (m : Meter Word (ℕ × ℕ)) {n : ℕ} (small : n ≤ 65536)
    (cell : ℕ × ℕ) :
    (run meterStep m ((i.calls (X := X) n).flatMap (p.ticks id pos))).total cell =
      m.total cell + if cell.1 < n then p.adds id pos i cell else 0 := by
  have operators := i.operators_total (X := X) p id pos m small cell
  have silent : p.ticks id pos (.modelBegin (X := X)) = [] := rfl
  rw [Inference.calls, Inference.body, List.flatMap_append, List.flatMap_cons, List.flatMap_append,
    p.occurs_ticks, silent, List.nil_append, run_append, run_append, run_occurs, ← operators,
    List.flatMap_singleton]
  dsimp only [Plan.ticks]
  split <;> rfl

theorem Inference.total (i : Inference) (m : Meter Word (ℕ × ℕ)) (small : p.totalOps ≤ 65536)
    (cell : ℕ × ℕ) :
    (run meterStep m ((i.calls (X := X) p.totalOps).flatMap (p.ticks id pos))).total cell =
      m.total cell + p.adds id pos i cell := by
  rw [i.total_run p id pos m small cell]
  congr 1
  unfold Plan.adds Plan.covers
  split
  · rfl
  · rw [if_neg]
    rintro ⟨⟨-, -, below⟩, -⟩
    omega

end Ticks

/-- A capture that finds all its events in the map and an API that the platform knows. -/
structure Programmable (api : CoreApi) (c : Capture) : Prop where
  version : c.api = some api
  known : ∀ e < c.totalEventCount, c.mapEntry e < pmuMapSize

theorem SameSetup.known {c c' : Capture} (same : SameSetup c c')
    (known : ∀ e < c.totalEventCount, c.mapEntry e < pmuMapSize) :
    ∀ e < c'.totalEventCount, c'.mapEntry e < pmuMapSize := by
  intro e he
  rw [same.mapEntry]
  exact known e (he.trans_eq same.totalEventCount)

theorem Programmable.of_same {api : CoreApi} {c c' : Capture} (programmable : Programmable api c)
    (same : SameSetup c c') : Programmable api c' :=
  ⟨same.api.trans programmable.version, same.known programmable.known⟩

variable {P : Platform H} {evtyper : H → ℕ → Word} {enabled : H → ℕ → Bool} {occur : Word → H → H}
  {programmed : ℕ → Prop} {api : CoreApi}

theorem captureModelEnd_moves (P : Platform H) {c : Capture} (w : World H)
    (inv : CaptureInvariant c) :
    (captureModelEnd P c w).1 = statusSuccess ∨
      c.plan.roundOf (c.plan.step c.position (.modelEnd : CaptureCall H X)) =
        c.plan.roundOf c.position + 1 := by
  rcases captureModelEnd_cases P w inv with ⟨-, eq⟩ | ⟨-, -, -, eq⟩ | ⟨ready, complete, -, next, -⟩
  · left
    rw [eq]
  · left
    rw [eq]
  · right
    have moves : ¬ (c.position.ready || c.position.complete) = true := by
      simp [Capture.position, ready, complete]
    rw [Plan.step, if_neg moves, if_pos (inv.morePasses.mpr next)]
    rfl

theorem Follows.inference (laws : Counts P evtyper enabled occur) {x y : CaptureState H}
    {pos : Position} {m : Meter Word (ℕ × ℕ)}
    (follows : Follows P evtyper enabled programmed x y pos m) (i : Inference)
    (ok : let z := LabelledRuns.run (liveStep P occur) y (i.body (X := X) x.capture.plan.totalOps)
      programmed (x.capture.plan.roundOf pos + 1) →
        (captureModelEnd P z.capture z.world).1 = statusSuccess) :
    ∃ m', (∀ cell, m'.total cell =
        m.total cell + x.capture.plan.adds x.capture.columnId pos i cell) ∧
      Follows P evtyper enabled programmed x
        (LabelledRuns.run (liveStep P occur) y (i.calls (X := X) x.capture.plan.totalOps))
        (x.capture.plan.step pos (.modelEnd : CaptureCall H X)) m' := by
  have small : x.capture.plan.totalOps < 65536 := by
    have lt := follows.metered.inv.totalOps_lt
    rwa [follows.setup.totalOps] at lt
  have stays := i.body_stays (X := X) x.capture.plan.totalOps
  have ends := follows.run laws (AllSteps_of_forall (l := i.body (X := X) x.capture.plan.totalOps)
    (fun call member z _ => LiveCall.succeeds_of_stays (stays call member)) y)
  rw [x.capture.plan.run_live_stays pos occur stays] at ends
  have next := ends.step laws .modelEnd fun now => by
    rcases captureModelEnd_moves (X := X) P _ ends.metered.inv with done | moves
    · exact done
    · rw [ends.setup.plan, ends.position] at moves
      rw [ends.next_round] at now
      exact ok (moves ▸ now)
  rw [Inference.calls, run_append]
  refine ⟨_, fun cell => ?_, next⟩
  rw [← i.total (X := X) x.capture.plan x.capture.columnId pos m (by omega),
    x.capture.plan.history_stays x.capture.columnId pos occur stays, ← run_append, Inference.calls,
    List.flatMap_append, List.flatMap_singleton]

section Answering
variable (answers : Answers P api)
include answers

theorem captureModelEnd_succeeds {c : Capture} (w : World H) (inv : CaptureInvariant c)
    (programmable : Programmable api c) : (captureModelEnd P c w).1 = statusSuccess := by
  rcases captureModelEnd_cases P w inv with ⟨-, eq⟩ | ⟨-, -, -, eq⟩ | ⟨-, -, -, more, eq⟩
  · rw [eq]
  · rw [eq]
  · rw [eq]
    have same : SameSetup c c.nextPass := .progress
    have next := programmable.of_same same
    exact capturePreparePass_succeeds answers _ (inv.toCaptureSetup.of_same same) more next.version
      next.known

theorem captureAdvanceChunk_succeeds {c : Capture} (w : World H) (inv : CaptureInvariant c)
    (programmable : Programmable api c) (ready : c.chunkReady = true) :
    (captureAdvanceChunk P c w).1 = statusSuccess := by
  have setup := inv.toCaptureSetup
  rcases captureAdvanceChunk_cases P w inv with ⟨unready, -⟩ | ⟨-, -, eq⟩ | ⟨-, -, -, more, eq⟩
  · exact absurd (unready.symm.trans ready) (by decide)
  · rw [eq]
  · have same := c.openChunk_same (c.currentChunkStart + c.opsPerChunk)
    have next := programmable.of_same same
    rw [eq, captureResetChunk_eq P w setup more]
    exact capturePreparePass_succeeds answers _ (setup.of_same same) setup.eventCount_pos next.version
      next.known

end Answering

end NsxPmu
