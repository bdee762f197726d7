import NsxPmu.CaptureRetry
import NsxPmu.CsvText
import NsxPmu.InitAllocation

set_option autoImplicit false

/-!
# When an event map entry is refused

`nsx_pmu_capture_init` looks at the entries of the first pass only. The others
are looked at by the calls that prepare their pass or print their column.
-/
namespace NsxPmu
open WordMemory LabelledRuns

variable {H X : Type} {P : Platform H}

theorem pmuInit_status_of_known {cfg : PmuConfig} {s : Pmu H} {total : ℕ}
    (counted : countCounters cfg.events (List.range maxCounters) 0 = some total)
    (fits : total ≤ maxCounters) (known : AllKnown cfg.events) :
    (pmuInit P cfg s).1 ≠ statusInvalidConfig := by
  have version : statusInvalidVersion ≠ statusInvalidConfig := by decide
  have failed : statusInitFailed ≠ statusInvalidConfig := by decide
  change (pmuInitCall P cfg s).1 ≠ statusInvalidConfig
  unfold pmuInitCall
  split
  · exact version
  · rename_i api _
    dsimp only
    split
    · exact version
    · rw [counted]
      dsimp only
      rw [if_neg (Nat.not_lt.mpr fits)]
      unfold programPmu
      dsimp only
      rw [(stageConfig_known_iff cfg s.driver).mpr known]
      dsimp only
      split
      · exact failed
      · split
        · exact failed
        · exact statusInvalidConfig_ne.symm

theorem PairedSlots.not_invalidConfig {n : ℕ} {id : ℕ → Word} {cfg : PmuConfig} {s : Pmu H}
    (slots : PairedSlots n id cfg.events) (few : n ≤ 4)
    (known : ∀ i < n, (getMapIndex (id i)).isSome) :
    (pmuInit P cfg s).1 ≠ statusInvalidConfig := by
  exact pmuInit_status_of_known (slots.counted few) (by dsimp only [maxCounters]; omega)
    (slots.known known)

theorem capturePreparePass_invalid_iff {c : Capture} (s : Pmu H) (setup : CaptureSetup c)
    (base : c.currentEventBase < c.totalEventCount) :
    (capturePreparePass P c s).1 = statusInvalidConfig ↔ ¬ c.passKnown := by
  have le := setup.eventsPerPass_le
  rcases capturePreparePass_cases P s setup base with ⟨known, eq⟩ | ⟨⟨slot, hs, bad⟩, status, -⟩
  · have few : c.passSize ≤ 4 := by
      unfold Capture.passSize
      omega
    have ids : ∀ i < c.passSize, (getMapIndex (c.slotId i)).isSome :=
      fun i hi => getMapIndex_isSome (known i hi)
    have fine : (pmuInit P (pairedConfig c.api c.pmuCfg c.passSize c.slotId) s).1 ≠
        statusInvalidConfig :=
      (pairedConfig_slots c.api c.pmuCfg c.passSize c.slotId).not_invalidConfig few ids
    rw [eq]
    exact ⟨fun refused => absurd refused fine, fun unknown => absurd known unknown⟩
  · exact ⟨fun _ known => bad (known slot hs), fun _ => status⟩

def Capture.firstPassKnown (c : Capture) : Prop :=
  ∀ e < min c.eventsPerPass c.totalEventCount, c.mapEntry e < pmuMapSize

theorem SameSetup.firstPassKnown {c c' : Capture} (same : SameSetup c c') :
    c'.firstPassKnown ↔ c.firstPassKnown := by
  unfold Capture.firstPassKnown Capture.mapEntry
  rw [same.eventsPerPass, same.totalEventCount, same.eventMapIndices]

theorem openChunk_passKnown (c : Capture) (chunkStart : ℕ) :
    (c.openChunk chunkStart).passKnown ↔ c.firstPassKnown := by
  have entry (slot : ℕ) : (c.openChunk chunkStart).mapEntry (0 + slot) = c.mapEntry slot := by
    rw [Nat.zero_add]
    rfl
  unfold Capture.passKnown Capture.firstPassKnown
  change (∀ slot < min c.eventsPerPass (c.totalEventCount - 0),
    (c.openChunk chunkStart).mapEntry (0 + slot) < pmuMapSize) ↔ _
  simp only [entry, Nat.sub_zero]

theorem captureResetChunk_invalid_iff (P : Platform H) {c : Capture} (w : World H) {chunkStart : ℕ}
    (setup : CaptureSetup c) (start : chunkStart < c.totalOps) :
    (captureResetChunk P c chunkStart w).1 = statusInvalidConfig ↔ ¬ c.firstPassKnown := by
  rw [captureResetChunk_eq P w setup start, ← openChunk_passKnown c chunkStart]
  exact capturePreparePass_invalid_iff w.pmu (setup.of_same (c.openChunk_same chunkStart))
    setup.eventCount_pos

theorem captureInit_firstPassKnown {c : Capture} {cfg : CaptureCfg} {w : World H}
    (ok : (captureInit P c cfg w).1 = statusSuccess) : (cfg.fresh c).firstPassKnown := by
  obtain ⟨valid, eq⟩ := captureStart_eq ok
  have setup := valid.setup c
  rw [eq] at ok
  by_contra unknown
  have refused := (captureResetChunk_invalid_iff P w setup setup.totalOps_pos).mpr unknown
  exact statusInvalidConfig_ne (refused.symm.trans ok)

theorem captureModelEnd_invalid_iff {c : Capture} {w : World H} (inv : CaptureInvariant c) :
    (captureModelEnd P c w).1 = statusInvalidConfig ↔
      ∃ t ∈ PassMove.modelEnd.target c, ¬ t.passKnown := by
  have success : statusSuccess ≠ statusInvalidConfig := by decide
  have none_ : (∃ t ∈ (none : Option Capture), ¬ t.passKnown) →
      statusSuccess = statusInvalidConfig := by
    rintro ⟨t, member, -⟩
    cases member
  rcases captureModelEnd_cases P w inv with
    ⟨frozen, eq⟩ | ⟨-, -, last, eq⟩ | ⟨unready, incomplete, pass, more, eq⟩
  · have target : PassMove.modelEnd.target c = none := by
      rcases frozen with frozen | frozen <;> simp [PassMove.target, frozen]
    rw [eq, target]
    exact ⟨fun h => absurd h success, none_⟩
  · have target : PassMove.modelEnd.target c = none := by simp [PassMove.target, last]
    rw [eq, target]
    exact ⟨fun h => absurd h success, none_⟩
  · have target : PassMove.modelEnd.target c = some c.nextPass := by
      unfold PassMove.target
      exact if_neg (by simp [unready, incomplete]; omega)
    have same : SameSetup c c.nextPass := .progress
    rw [eq, target]
    simp only [Option.mem_some_iff, exists_eq_left']
    exact capturePreparePass_invalid_iff w.pmu (inv.toCaptureSetup.of_same same) more

section Serialising
variable {t : Transport X}

/-- On a transport that accepts every write, a ready chunk is refused exactly when its header
is asked for and has an unknown entry; otherwise the flush decides. -/
theorem captureSerializeCsv_status (accepts : t.AcceptsWrites) {c : Capture}
    (ready : c.chunkReady = true) (mem : ℕ → Word) (includeHeader : Bool) (x : X) :
    (includeHeader = true ∧ (∃ e < c.totalEventCount, ¬ c.mapEntry e < pmuMapSize) ∧
      (captureSerializeCsv c mem t includeHeader x).1 = statusInvalidConfig) ∨
    ((includeHeader = true → ∀ e < c.totalEventCount, c.mapEntry e < pmuMapSize) ∧
      ∃ y, captureSerializeCsv c mem t includeHeader x = transportFlush t y) := by
  obtain ⟨write, flush⟩ := t
  obtain ⟨write, rfl, ok⟩ := accepts
  obtain ⟨calls, outcome, answers, -⟩ :=
    script_logged write flush (csvScript c mem includeHeader) x []
  have passed := taken_of_accepting ok answers
  rw [captureSerializeCsv_script ready]
  by_cases gives : none ∈ csvScript c mem includeHeader
  · obtain ⟨asked, unknown⟩ :=
      Classical.not_imp.mp (mem_csvScript_none.not.mp (not_not_intro gives))
    have refused := outcome.refused_of_taken passed gives
    rw [SinkStep.andThen_failed (refused.trans_ne statusInvalidConfig_ne)]
    exact .inl ⟨asked, by simpa using unknown, refused⟩
  · have known := mem_csvScript_none.mp gives
    have success := (outcome.ok_iff statusInvalidConfig_ne).mpr ⟨passed, gives⟩
    exact .inr ⟨known, _, SinkStep.andThen_ok (Prod.ext success rfl)⟩

end Serialising

/-- After a successful `nsx_pmu_capture_init` the entries of the first pass are known, and what
later calls return `NSX_STATUS_INVALID_CONFIG` for is an unknown entry of another pass: the call
of `nsx_pmu_capture_model_end` that prepares this pass, and the header. -/
theorem accepted_event_list (P : Platform H) (c : Capture) (cfg : CaptureCfg) (w : World H)
    (calls : List (CaptureCall H X)) {x : CaptureState H}
    (ok : (captureInit P c cfg w).1 = statusSuccess)
    (reached : x = run (captureStep P) (captureStart P c cfg w) calls) :
    SameSetup (cfg.fresh c) x.capture ∧ x.capture.firstPassKnown ∧
    (captureReset P x.capture x.world).1 ≠ statusInvalidConfig ∧
    (x.capture.chunkReady = true →
      (captureAdvanceChunk P x.capture x.world).1 ≠ statusInvalidConfig) ∧
    ((captureModelEnd P x.capture x.world).1 = statusInvalidConfig ↔
      ∃ t ∈ PassMove.modelEnd.target x.capture, ¬ t.passKnown) ∧
    (x.capture.chunkReady = true → ∀ (Y : Type) (t : Transport Y), t.AcceptsWrites →
      ∀ includeHeader y,
      (includeHeader = true ∧
        (∃ e < x.capture.totalEventCount, ¬ x.capture.mapEntry e < pmuMapSize) ∧
        (captureSerializeCsv x.capture x.world.mem t includeHeader y).1 = statusInvalidConfig) ∨
      ((includeHeader = true →
          ∀ e < x.capture.totalEventCount, x.capture.mapEntry e < pmuMapSize) ∧
        ∃ z, captureSerializeCsv x.capture x.world.mem t includeHeader y = transportFlush t z)) ∧
    ((∀ e < x.capture.totalEventCount, x.capture.mapEntry e < pmuMapSize) →
      (captureModelEnd P x.capture x.world).1 ≠ statusInvalidConfig) := by
  obtain ⟨start, first⟩ := captureStart_invariant ok
  obtain ⟨inv, later, -⟩ := captureRun_invariant P start calls
  rw [← reached] at inv later
  have same := first.trans later
  have setup := inv.toCaptureSetup
  have known : x.capture.firstPassKnown := same.firstPassKnown.mpr (captureInit_firstPassKnown ok)
  have modelEnd := captureModelEnd_invalid_iff (P := P) (w := x.world) inv
  refine ⟨same, known, ?_, ?_, modelEnd, ?_, ?_⟩
  · rw [captureReset_eq P x.world setup, ne_eq,
      captureResetChunk_invalid_iff P x.world setup.incomplete setup.totalOps_pos]
    exact not_not_intro known
  · intro ready
    rcases captureAdvanceChunk_cases P x.world inv with
      ⟨unready, -⟩ | ⟨-, -, eq⟩ | ⟨-, -, -, more, eq⟩
    · exact absurd (unready.symm.trans ready) Bool.false_ne_true
    · rw [eq]
      exact statusInvalidConfig_ne.symm
    · rw [eq, ne_eq, captureResetChunk_invalid_iff P x.world setup more]
      exact not_not_intro known
  · exact fun ready _ _ accepts includeHeader y =>
      captureSerializeCsv_status accepts ready x.world.mem includeHeader y
  · intro all
    rw [ne_eq, modelEnd]
    rintro ⟨t, target, unknown⟩
    refine unknown fun slot hs => ?_
    have next : t = x.capture.nextPass := by
      unfold PassMove.target at target
      dsimp only at target
      split at target
      · cases target
      · exact (Option.some.inj target).symm
    subst next
    exact all _ (Capture.passSize_inside (List.mem_range.mpr hs))

theorem accepted_event_list_ref :
    (captureReset refPlatform
      (run (captureStep refPlatform)
        (captureStart refPlatform .zero unknownEntryCfg RefPmu.start.world)
        [CaptureCall.layerEnd (X := Unit) 0, .modelEnd]).capture
      (run (captureStep refPlatform)
        (captureStart refPlatform .zero unknownEntryCfg RefPmu.start.world)
        [CaptureCall.layerEnd (X := Unit) 0, .modelEnd]).world).1 ≠ statusInvalidConfig :=
  (accepted_event_list refPlatform .zero unknownEntryCfg RefPmu.start.world
    [CaptureCall.layerEnd (X := Unit) 0, .modelEnd] (by decide +kernel) rfl).2.2.1

/-- The fifth entry is unknown: the configuration is accepted, and the first call of
`nsx_pmu_capture_model_end` returns that it is invalid, although no call of the PMU fails. -/
theorem accepted_entry_refused_later :
    let x := captureStart refPlatform .zero unknownEntryCfg RefPmu.start.world
    (captureInit refPlatform .zero unknownEntryCfg RefPmu.start.world).1 = statusSuccess ∧
    x.capture.totalEventCount = 5 ∧ ¬ x.capture.mapEntry 4 < pmuMapSize ∧
    (captureModelEnd refPlatform x.capture x.world).1 = statusInvalidConfig ∧
    (captureModelEnd refPlatform x.capture x.world).2.2.pmu.inits.map InitRecord.status =
      [statusSuccess] := by
  decide +kernel

end NsxPmu
