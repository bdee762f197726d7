import NsxPmu.CaptureLedger

set_option autoImplicit false

/-!
# Measured columns

A capture with what its caller knows of the current chunk: which calls of
`nsx_pmu_init` were made for it and for which of its passes, and whether the last
pass was set up.
-/
namespace NsxPmu
open LabelledRuns

variable {H X : Type} {P : Platform H}

/-- A call of `nsx_pmu_init` made for a pass: the first event of the pass, how many events
it has, and the call. -/
structure Preparation where
  eventBase : ℕ
  passEvents : ℕ
  init : InitRecord

/-- `preparations` are those of the current chunk; `prepared` tells whether the latest
preparation of a pass succeeded. -/
structure TrackedCapture (H : Type) where
  state : CaptureState H
  preparations : List Preparation
  prepared : Bool

/-- The calls of `nsx_pmu_init` that a history has more than an earlier one, each with the
pass that the capture now stands at. -/
def preparationsSince (before : List InitRecord) (x : CaptureState H) : List Preparation :=
  (x.world.pmu.inits.take (x.world.pmu.inits.length - before.length)).map fun init =>
    ⟨x.capture.currentEventBase, x.capture.currentPassEvents, init⟩

def startsChunk (c : Capture) : CaptureCall H X → Bool
  | .reset => true
  | .advanceChunk => c.chunkReady && !c.complete
  | _ => false

def startsPass (c : Capture) : CaptureCall H X → Bool
  | .modelEnd => !c.chunkReady && !c.complete &&
      c.currentEventBase + c.currentPassEvents < c.totalEventCount
  | call => startsChunk c call

/-- What a call returns; the calls without a result count as successful. -/
def captureStatus (P : Platform H) (x : CaptureState H) : CaptureCall H X → Status
  | .reset => (captureReset P x.capture x.world).1
  | .modelEnd => (captureModelEnd P x.capture x.world).1
  | .advanceChunk => (captureAdvanceChunk P x.capture x.world).1
  | _ => statusSuccess

def trackedStep (P : Platform H) (t : TrackedCapture H) (call : CaptureCall H X) :
    TrackedCapture H where
  state := captureStep P t.state call
  preparations :=
    preparationsSince t.state.world.pmu.inits (captureStep P t.state call) ++
      if startsChunk t.state.capture call then [] else t.preparations
  prepared :=
    if startsPass t.state.capture call then captureStatus P t.state call == statusSuccess
    else t.prepared

def trackedStart (P : Platform H) (c : Capture) (cfg : CaptureCfg) (w : World H) :
    TrackedCapture H :=
  ⟨captureStart P c cfg w, preparationsSince w.pmu.inits (captureStart P c cfg w), true⟩

theorem trackedStep_state (P : Platform H) (t : TrackedCapture H) (calls : List (CaptureCall H X)) :
    (run (trackedStep P) t calls).state = run (captureStep P) t.state calls := by
  induction calls generalizing t with
  | nil => rfl
  | cons call calls ih => exact ih (trackedStep P t call)

/-- The call was made for a pass that covers the column, and programmed it with the
column's event in the column's slot. -/
structure Preparation.Programs (p : Preparation) (c : Capture) (event : ℕ) : Prop where
  base_le : p.eventBase ≤ event
  lt_end : event < p.eventBase + p.passEvents
  status : p.init.status = statusSuccess
  slot : p.init.cfg.events (event - p.eventBase) = ⟨true, c.columnId event, .size32⟩
  counter : p.init.driver.ambiqPmuConfig.eventTypes (2 * (event - p.eventBase)) = c.columnId event

instance (p : Preparation) (c : Capture) (event : ℕ) : Decidable (p.Programs c event) :=
  decidable_of_iff (p.eventBase ≤ event ∧ event < p.eventBase + p.passEvents ∧
      p.init.status = statusSuccess ∧
      p.init.cfg.events (event - p.eventBase) = ⟨true, c.columnId event, .size32⟩ ∧
      p.init.driver.ambiqPmuConfig.eventTypes (2 * (event - p.eventBase)) = c.columnId event)
    ⟨fun ⟨base, last, status, slot, counter⟩ => ⟨base, last, status, slot, counter⟩,
      fun ⟨base, last, status, slot, counter⟩ => ⟨base, last, status, slot, counter⟩⟩

def TrackedCapture.Measured (t : TrackedCapture H) (event : ℕ) : Prop :=
  ∃ p ∈ t.preparations, p.Programs t.state.capture event

instance (t : TrackedCapture H) (event : ℕ) : Decidable (t.Measured event) :=
  inferInstanceAs (Decidable (∃ p ∈ t.preparations, _))

structure PassRecords (c : Capture) (before after : List InitRecord) (ok : Prop) : Prop where
  grows : ∃ new, after = new ++ before ∧ (ok → ∃ r ∈ new, r.status = statusSuccess ∧
    ∀ slot < c.passSize, r.cfg.events slot = ⟨true, c.slotId slot, .size32⟩ ∧
      r.driver.ambiqPmuConfig.eventTypes (2 * slot) = c.slotId slot)

theorem capturePreparePass_records (P : Platform H) {c : Capture} (s : Pmu H)
    (setup : CaptureSetup c) (base : c.currentEventBase < c.totalEventCount) :
    PassRecords c s.inits (capturePreparePass P c s).2.2.inits
      ((capturePreparePass P c s).1 = statusSuccess) := by
  have le := setup.eventsPerPass_le
  have few : c.passSize ≤ 4 := by
    unfold Capture.passSize
    omega
  rcases capturePreparePass_cases P s setup base with ⟨-, eq⟩ | ⟨-, failed, same⟩
  · rw [eq]
    refine ⟨[_], pmuInit_history P _ s, fun ok => ⟨_, List.mem_singleton_self _, ok, ?_⟩⟩
    intro slot hs
    have ready := pairsReady_of_init (pairedConfig_slots c.api c.pmuCfg c.passSize c.slotId) few ok
    exact ⟨ready.slots.on few hs, (ready.types hs).1⟩
  · rw [same]
    exact ⟨[], rfl, fun ok => absurd (failed.symm.trans ok) statusInvalidConfig_ne⟩

theorem preparationsSince_eq {before new : List InitRecord} {x : CaptureState H}
    (grows : x.world.pmu.inits = new ++ before) :
    preparationsSince before x = new.map fun init =>
      ⟨x.capture.currentEventBase, x.capture.currentPassEvents, init⟩ := by
  unfold preparationsSince
  rw [grows, List.length_append, Nat.add_sub_cancel_right, List.take_left]

theorem TrackedCapture.Measured.grows {t t' : TrackedCapture H} {event : ℕ}
    (measured : t.Measured event) (kept : t.preparations ⊆ t'.preparations)
    (same : SameSetup t.state.capture t'.state.capture) : t'.Measured event := by
  obtain ⟨p, member, programs⟩ := measured
  refine ⟨p, kept member, { programs with slot := ?_, counter := ?_ }⟩
  · rw [same.columnId]
    exact programs.slot
  · rw [same.columnId]
    exact programs.counter

theorem PassRecords.measured {c : Capture} {before : List InitRecord} {ok : Prop}
    {t : TrackedCapture H} (records : PassRecords c before t.state.world.pmu.inits ok) (hok : ok)
    (kept : preparationsSince before t.state ⊆ t.preparations) (same : SameSetup c t.state.capture)
    (base : t.state.capture.currentEventBase = c.currentEventBase)
    (pass : t.state.capture.currentPassEvents = c.passSize) {event : ℕ}
    (lo : c.currentEventBase ≤ event) (hi : event < c.currentEventBase + c.passSize) :
    t.Measured event := by
  obtain ⟨new, grows, success⟩ := records.grows
  obtain ⟨r, member, status, slots⟩ := success hok
  rw [preparationsSince_eq grows] at kept
  have here : c.slotId (event - c.currentEventBase) = c.columnId event := by
    unfold Capture.slotId
    rw [Nat.add_sub_cancel' lo]
  obtain ⟨slot, counter⟩ := slots (event - c.currentEventBase) (by omega)
  rw [here, ← same.columnId] at slot counter
  rw [base, pass] at kept
  exact ⟨_, kept (List.mem_map_of_mem member), lo, hi, status, slot, counter⟩

/-- What holds of a capture whose caller goes on only from passes that were set up. -/
structure TrackedInvariant (t : TrackedCapture H) : Prop where
  inv : CaptureInvariant t.state.capture
  ready : t.state.capture.chunkReady = true → t.prepared = true
  earlier : ∀ e < t.state.capture.currentEventBase, t.Measured e
  current : t.prepared = true → ∀ e, t.state.capture.currentEventBase ≤ e →
    e < t.state.capture.currentEventBase + t.state.capture.currentPassEvents → t.Measured e

theorem TrackedInvariant.ofResetChunk {c : Capture} {w : World H} {chunkStart : ℕ}
    (setup : CaptureSetup c) (start : chunkStart < c.totalOps) (dvd : c.opsPerChunk ∣ chunkStart)
    (incomplete : c.complete = false) {t : TrackedCapture H}
    (state : t.state = ⟨(captureResetChunk P c chunkStart w).2.1,
      (captureResetChunk P c chunkStart w).2.2⟩)
    (kept : preparationsSince w.pmu.inits t.state ⊆ t.preparations)
    (status : t.prepared = true → (captureResetChunk P c chunkStart w).1 = statusSuccess) :
    TrackedInvariant t := by
  have inv := captureResetChunk_invariant P w setup start dvd incomplete
  have capture := captureResetChunk_capture P w setup start
  have opened := setup.of_same (c.openChunk_same chunkStart)
  have records := capturePreparePass_records P w.pmu opened setup.eventCount_pos
  have same := (capturePreparePass_chunk P w.pmu opened setup.eventCount_pos).toSameSetup
  rw [captureResetChunk_eq P w setup start] at inv capture status state
  obtain ⟨x, preparations, prepared⟩ := t
  obtain rfl : x = _ := state
  have base := congrArg Capture.currentEventBase capture
  have pass := congrArg Capture.currentPassEvents capture
  refine ⟨inv, ?_, ?_, ?_⟩
  · intro ready
    dsimp only at ready capture
    rw [capture] at ready
    cases ready
  · intro e he
    dsimp only at he base
    rw [base] at he
    exact absurd he (Nat.not_lt_zero e)
  · intro ok e _ hi
    dsimp only at hi base pass
    rw [base, pass] at hi
    exact PassRecords.measured (c := c.openChunk chunkStart) records (status ok) kept same base pass
      (Nat.zero_le e) hi

theorem TrackedInvariant.ofSamePass {t t' : TrackedCapture H} (h : TrackedInvariant t)
    (inv : CaptureInvariant t'.state.capture) (kept : t.preparations ⊆ t'.preparations)
    (prepared : t'.prepared = t.prepared) (same : SameSetup t.state.capture t'.state.capture)
    (base : t'.state.capture.currentEventBase = t.state.capture.currentEventBase)
    (pass : t'.state.capture.currentPassEvents = t.state.capture.currentPassEvents)
    (ready : t'.state.capture.chunkReady = true → t.prepared = true) : TrackedInvariant t' where
  inv := inv
  ready := by
    rw [prepared]
    exact ready
  earlier := by
    intro e he
    rw [base] at he
    exact (h.earlier e he).grows kept same
  current := by
    rw [prepared, base, pass]
    intro ok e lo hi
    exact (h.current ok e lo hi).grows kept same

/-- The caller goes on to the end of an inference only in a pass that was set up. -/
def EndsPreparedPass (t : TrackedCapture H) : CaptureCall H X → Prop
  | .modelEnd => t.prepared = true
  | _ => True

theorem TrackedInvariant.ofNextPass {t t' : TrackedCapture H} (h : TrackedInvariant t)
    (prepared : t.prepared = true) (ready : t.state.capture.chunkReady = false)
    (incomplete : t.state.capture.complete = false)
    (full : t.state.capture.currentPassEvents = t.state.capture.eventsPerPass)
    (more : t.state.capture.currentEventBase + t.state.capture.eventsPerPass <
      t.state.capture.totalEventCount)
    (state : t'.state = ⟨(capturePreparePass P t.state.capture.nextPass t.state.world.pmu).2.1,
      { t.state.world with
          pmu := (capturePreparePass P t.state.capture.nextPass t.state.world.pmu).2.2 }⟩)
    (kept : t.preparations ⊆ t'.preparations)
    (fresh : preparationsSince t.state.world.pmu.inits t'.state ⊆ t'.preparations)
    (status : t'.prepared = true →
      (capturePreparePass P t.state.capture.nextPass t.state.world.pmu).1 = statusSuccess) :
    TrackedInvariant t' := by
  obtain ⟨inv, same⟩ := capturePreparePass_nextPass P t.state.world.pmu h.inv more ready incomplete
  have setup := h.inv.toCaptureSetup.of_same
    (show SameSetup t.state.capture t.state.capture.nextPass from .progress)
  have records := capturePreparePass_records P t.state.world.pmu setup more
  have moved := (capturePreparePass_chunk P t.state.world.pmu setup more).toSameSetup
  have capture := capturePreparePass_capture P t.state.world.pmu setup more
  obtain ⟨x, preparations, next⟩ := t'
  obtain rfl : x = _ := state
  have base := congrArg Capture.currentEventBase capture
  have pass := congrArg Capture.currentPassEvents capture
  refine ⟨inv, ?_, ?_, ?_⟩
  · intro nextReady
    dsimp only at nextReady
    rw [capture] at nextReady
    exact absurd (ready.symm.trans nextReady) (by decide)
  · intro e he
    replace he : e < t.state.capture.currentEventBase + t.state.capture.eventsPerPass :=
      he.trans_eq base
    have before : t.Measured e := by
      by_cases early : e < t.state.capture.currentEventBase
      · exact h.earlier e early
      · exact h.current prepared e (by omega) (by omega)
    exact before.grows kept same
  · intro ok e lo hi
    dsimp only at lo hi base pass
    rw [base] at lo hi
    rw [pass] at hi
    exact PassRecords.measured (c := t.state.capture.nextPass) records (status ok) fresh moved base
      pass lo hi

theorem trackedStep_fresh (P : Platform H) (t : TrackedCapture H) (call : CaptureCall H X) :
    preparationsSince t.state.world.pmu.inits (trackedStep P t call).state ⊆
      (trackedStep P t call).preparations :=
  List.subset_append_left _ _

theorem trackedStep_kept (P : Platform H) {t : TrackedCapture H} {call : CaptureCall H X}
    (stays : startsChunk t.state.capture call = false) :
    t.preparations ⊆ (trackedStep P t call).preparations := by
  simp only [trackedStep, stays, Bool.false_eq_true, if_false]
  exact List.subset_append_right _ _

theorem trackedStep_prepared {t : TrackedCapture H} {call : CaptureCall H X}
    (starts : startsPass t.state.capture call = true)
    (prepared : (trackedStep P t call).prepared = true) :
    captureStatus P t.state call = statusSuccess := by
  simp only [trackedStep, starts, if_true] at prepared
  exact eq_of_beq prepared

theorem TrackedInvariant.reset {t : TrackedCapture H} (h : TrackedInvariant t) :
    TrackedInvariant (trackedStep P t (.reset (X := X))) := by
  have setup := h.inv.toCaptureSetup
  have eq := captureReset_eq P t.state.world setup
  refine TrackedInvariant.ofResetChunk (P := P) (w := t.state.world) setup.incomplete
    setup.totalOps_pos (Nat.dvd_zero _) rfl ?_ (trackedStep_fresh P t _) ?_
  · simp only [trackedStep, captureStep, eq]
  · intro prepared
    have ok := trackedStep_prepared rfl prepared
    rwa [captureStatus, eq] at ok

theorem TrackedInvariant.modelEnd {t : TrackedCapture H} (h : TrackedInvariant t)
    (prepared : t.prepared = true) :
    TrackedInvariant (trackedStep P t (.modelEnd (X := X))) := by
  have inv := h.inv
  have kept : t.preparations ⊆ (trackedStep P t (.modelEnd (X := X))).preparations :=
    trackedStep_kept P rfl
  rcases captureModelEnd_cases P t.state.world inv with
    ⟨frozen, eq⟩ | ⟨ready, complete, last, eq⟩ | ⟨ready, complete, full, more, eq⟩
  · have stays : startsPass t.state.capture (CaptureCall.modelEnd (H := H) (X := X)) = false := by
      rcases frozen with h | h <;> simp [startsPass, h]
    refine h.ofSamePass (captureStep_invariant P _ inv).1 kept (by simp [trackedStep, stays])
      ?_ ?_ ?_ ?_ <;> simp only [trackedStep, captureStep, eq]
    · exact .refl _
    · exact h.ready
  · have stays : startsPass t.state.capture (CaptureCall.modelEnd (H := H) (X := X)) = false := by
      simp [startsPass, last]
    refine h.ofSamePass (captureStep_invariant P _ inv).1 kept (by simp [trackedStep, stays])
      ?_ ?_ ?_ ?_ <;> simp only [trackedStep, captureStep, eq]
    · exact .progress
    · exact fun _ => prepared
  · have starts : startsPass t.state.capture (CaptureCall.modelEnd (H := H) (X := X)) = true := by
      simp [startsPass, ready, complete, full, more]
    refine h.ofNextPass (P := P) prepared ready complete full more ?_ kept
      (trackedStep_fresh P t _) ?_
    · simp only [trackedStep, captureStep, eq]
    · intro next
      have ok := trackedStep_prepared starts next
      rwa [captureStatus, eq] at ok

theorem TrackedInvariant.advanceChunk {t : TrackedCapture H} (h : TrackedInvariant t) :
    TrackedInvariant (trackedStep P t (.advanceChunk (X := X))) := by
  have inv := h.inv
  rcases captureAdvanceChunk_cases P t.state.world inv with
    ⟨ready, eq⟩ | ⟨ready, complete, eq⟩ | ⟨ready, complete, full, more, eq⟩
  · have stays : startsChunk t.state.capture (CaptureCall.advanceChunk (H := H) (X := X)) =
        false := by
      simp [startsChunk, ready]
    refine h.ofSamePass (captureStep_invariant P _ inv).1 (trackedStep_kept P stays)
      (by simp [trackedStep, startsPass, stays]) ?_ ?_ ?_ ?_ <;>
      simp only [trackedStep, captureStep, eq]
    · exact .refl _
    · exact h.ready
  · have stays : startsChunk t.state.capture (CaptureCall.advanceChunk (H := H) (X := X)) =
        false := by
      simp [startsChunk, complete]
    refine h.ofSamePass (captureStep_invariant P _ inv).1 (trackedStep_kept P stays)
      (by simp [trackedStep, startsPass, stays]) ?_ ?_ ?_ ?_ <;>
      simp only [trackedStep, captureStep, eq]
    · exact .progress
    · exact fun _ => h.ready ready
  · have starts : startsPass t.state.capture (CaptureCall.advanceChunk (H := H) (X := X)) =
        true := by
      simp [startsPass, startsChunk, ready, complete]
    refine TrackedInvariant.ofResetChunk (P := P) (w := t.state.world) inv.toCaptureSetup more
      (Nat.dvd_add inv.chunkStart_dvd (Nat.dvd_refl _)) complete ?_ (trackedStep_fresh P t _) ?_
    · simp only [trackedStep, captureStep, eq]
    · intro prepared
      have ok := trackedStep_prepared starts prepared
      rwa [captureStatus, eq] at ok

theorem TrackedInvariant.layerEnd {t : TrackedCapture H} (h : TrackedInvariant t) (op : BitVec 16) :
    TrackedInvariant (trackedStep P t (.layerEnd (X := X) op)) := by
  have same := captureLayerEnd_pass P t.state.world h.inv op.toNat
  refine h.ofSamePass (captureStep_invariant P _ h.inv).1 (trackedStep_kept P rfl) rfl
    same.toSameSetup same.eventBase same.passEvents ?_
  dsimp only [trackedStep, captureStep]
  rw [same.chunkReady]
  exact h.ready

theorem TrackedInvariant.step {t : TrackedCapture H} (h : TrackedInvariant t)
    {call : CaptureCall H X} (ends : EndsPreparedPass t call) :
    TrackedInvariant (trackedStep P t call) := by
  have inv := (captureStep_invariant P call h.inv).1
  cases call with
  | reset => exact h.reset
  | modelEnd => exact h.modelEnd ends
  | advanceChunk => exact h.advanceChunk
  | layerEnd op => exact h.layerEnd op
  | layerBegin op => exact h.ofSamePass inv (trackedStep_kept P rfl) rfl (.refl _) rfl rfl h.ready
  | modelBegin => exact h.ofSamePass inv (trackedStep_kept P rfl) rfl (.refl _) rfl rfl h.ready
  | serializeCsv _ _ _ =>
    exact h.ofSamePass inv (trackedStep_kept P rfl) rfl (.refl _) rfl rfl h.ready
  | elapse _ => exact h.ofSamePass inv (trackedStep_kept P rfl) rfl (.refl _) rfl rfl h.ready

theorem captureSerializeCsv_unready {c : Capture} (unready : c.chunkReady = false)
    (mem : ℕ → Word) (transport : Transport X) (includeHeader : Bool) (x : X) :
    captureSerializeCsv c mem transport includeHeader x = (statusInvalidConfig, x) :=
  if_pos (by rw [unready]; rfl)

/-- As long as no inference is ended in a pass that failed to be set up, every column of a
ready chunk was programmed by a successful call of `nsx_pmu_init` that was made for a pass of
that chunk with the column in it, and no other chunk is serialised. -/
theorem ready_chunk_measured (P : Platform H) (c : Capture) (cfg : CaptureCfg) (w : World H)
    (ok : (captureInit P c cfg w).1 = statusSuccess) (calls : List (CaptureCall H X))
    (ends : AllSteps (trackedStep P) EndsPreparedPass (trackedStart P c cfg w) calls) :
    let t := run (trackedStep P) (trackedStart P c cfg w) calls
    t.state = run (captureStep P) (captureStart P c cfg w) calls ∧
    (captureChunkReady t.state.capture = true →
      ∀ e < t.state.capture.totalEventCount, t.Measured e) ∧
    ∀ (transport : Transport X) (includeHeader : Bool) (x : X),
      captureSerializeCsv t.state.capture t.state.world.mem transport includeHeader x =
        (statusInvalidConfig, x) ∨
      ∀ e < t.state.capture.totalEventCount, t.Measured e := by
  intro t
  have state : t.state = run (captureStep P) (captureStart P c cfg w) calls :=
    trackedStep_state P _ calls
  obtain ⟨valid, eq⟩ := captureStart_eq ok
  have setup := valid.setup c
  have start : TrackedInvariant (trackedStart P c cfg w) := by
    refine TrackedInvariant.ofResetChunk (P := P) (w := w) setup setup.totalOps_pos
      (Nat.dvd_zero _) rfl ?_ (fun _ member => member) fun _ => ?_
    · unfold trackedStart captureStart
      rw [eq]
    · rw [← eq]
      exact ok
  have last : TrackedInvariant t :=
    run_invariant (fun _ _ h ends => h.step ends) start ends
  have measured : t.state.capture.chunkReady = true →
      ∀ e < t.state.capture.totalEventCount, t.Measured e := by
    intro ready e he
    have columns := (last.inv.ready ready).1
    by_cases early : e < t.state.capture.currentEventBase
    · exact last.earlier e early
    · exact last.current (last.ready ready) e (by omega) (by omega)
  refine ⟨state, measured, fun transport includeHeader x => ?_⟩
  cases ready : t.state.capture.chunkReady with
  | false => exact .inl (captureSerializeCsv_unready ready _ transport includeHeader x)
  | true => exact .inr (measured ready)

theorem ready_chunk_measured_ref :
    (run (trackedStep refPlatform)
      (trackedStart refPlatform .zero (refCaptureCfg 1 0 5 0) RefPmu.start.world)
      [CaptureCall.modelEnd (X := Unit), .layerEnd 0, .modelEnd]).Measured 4 :=
  (ready_chunk_measured refPlatform .zero (refCaptureCfg 1 0 5 0) RefPmu.start.world (by decide)
    [CaptureCall.modelEnd (X := Unit), .layerEnd 0, .modelEnd]
    ⟨rfl, trivial, rfl, trivial⟩).2.1 (by decide +kernel) 4 (by decide +kernel)

/-- The second pass of eight columns fails to be programmed, the caller ends the inference all
the same, and the chunk is ready, and serialised, with four columns that were never programmed. -/
theorem ready_chunk_unmeasured :
    let t := run (trackedStep refPlatform)
      (trackedStart refPlatform .zero (refCaptureCfg 1 0 8 0)
        ({ RefPmu.start with outcomes := [0, 0, 1] } : RefPmu).world)
      [CaptureCall.modelEnd (X := Unit), .modelEnd]
    (captureInit refPlatform .zero (refCaptureCfg 1 0 8 0)
      ({ RefPmu.start with outcomes := [0, 0, 1] } : RefPmu).world).1 = statusSuccess ∧
    captureChunkReady t.state.capture = true ∧
    (captureSerializeCsv t.state.capture t.state.world.mem nullTransport true ()).1 =
      statusSuccess ∧
    ∀ e < 8, t.Measured e ↔ e < 4 := by
  decide +kernel

end NsxPmu
