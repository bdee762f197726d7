import NsxPmu.CaptureRuns
import NsxPmu.PairedSlots

set_option autoImplicit false

/-!
# The passes of a capture

What preparing a pass does, and what a pass that was prepared successfully
promises: the driver and the hardware hold the events of its columns.
-/
namespace NsxPmu
open WordMemory LabelledRuns

variable {H X : Type}

def Capture.columnId (c : Capture) (event : ℕ) : Word := mapEventId (c.mapEntry event)

def Capture.slotId (c : Capture) (slot : ℕ) : Word := c.columnId (c.currentEventBase + slot)

theorem selectPassEvents_known {c : Capture} {l : List ℕ} {cfg : PmuConfig}
    (count : c.totalEventCount ≤ 70)
    (known : ∀ slot ∈ l, c.currentEventBase + slot < c.totalEventCount ∧
      c.mapEntry (c.currentEventBase + slot) < pmuMapSize) :
    selectPassEvents c l cfg = (none,
      { cfg with
          events := fun i => if i ∈ l then ⟨true, c.slotId i, .size32⟩ else cfg.events i }) := by
  induction l generalizing cfg with
  | nil => simp [selectPassEvents]
  | cons slot l ih =>
    obtain ⟨inside, entry⟩ := known slot (by simp)
    rw [selectPassEvents, u16_of_lt (by omega), captureGetEventMapIndex_eq inside, if_pos entry]
    dsimp only
    rw [ih (fun i hi => known i (by simp [hi]))]
    have events : ∀ i, (if i ∈ l then (⟨true, c.slotId i, .size32⟩ : PmuEvent)
        else (pmuEventCreate cfg slot (mapEventId (c.mapEntry (c.currentEventBase + slot)))
          .size32).events i) =
        if i ∈ slot :: l then ⟨true, c.slotId i, .size32⟩ else cfg.events i := by
      intro i
      by_cases here : i = slot
      · subst here
        by_cases later : i ∈ l <;> simp [later, pmuEventCreate, Capture.slotId, Capture.columnId]
      · simp [here, pmuEventCreate]
    simp only [events]
    rfl

theorem selectPassEvents_unknown {c : Capture} {l : List ℕ} {cfg : PmuConfig}
    (count : c.totalEventCount ≤ 70)
    (inside : ∀ slot ∈ l, c.currentEventBase + slot < c.totalEventCount)
    (unknown : ∃ slot ∈ l, ¬ c.mapEntry (c.currentEventBase + slot) < pmuMapSize) :
    (selectPassEvents c l cfg).1 = some statusInvalidConfig := by
  induction l generalizing cfg with
  | nil => simp at unknown
  | cons slot l ih =>
    have here := inside slot (by simp)
    rw [selectPassEvents, u16_of_lt (by omega), captureGetEventMapIndex_eq here]
    by_cases entry : c.mapEntry (c.currentEventBase + slot) < pmuMapSize
    · rw [if_pos entry]
      obtain ⟨bad, member, hbad⟩ := unknown
      rcases List.mem_cons.mp member with rfl | member
      · exact absurd entry hbad
      · exact ih (fun i hi => inside i (by simp [hi])) ⟨bad, member, hbad⟩
    · rw [if_neg entry]

def Capture.passSize (c : Capture) : ℕ :=
  min c.eventsPerPass (c.totalEventCount - c.currentEventBase)

def Capture.clearedPass (c : Capture) : Capture :=
  { c with
      currentPassEvents := c.passSize
      pmuCfg := { pmuResetConfig c.pmuCfg with api := c.api } }

theorem capturePreparePass_eq (P : Platform H) {c : Capture} (s : Pmu H)
    (setup : CaptureSetup c) (base : c.currentEventBase < c.totalEventCount) :
    capturePreparePass P c s =
      match (selectPassEvents c.clearedPass (List.range c.passSize) c.clearedPass.pmuCfg).1 with
      | some status => (status, { c with
          currentPassEvents := c.passSize
          pmuCfg := (selectPassEvents c.clearedPass (List.range c.passSize)
            c.clearedPass.pmuCfg).2 }, s)
      | none =>
        let r := pmuInit P (selectPassEvents c.clearedPass (List.range c.passSize)
          c.clearedPass.pmuCfg).2 s
        (r.1, { c with currentPassEvents := c.passSize, pmuCfg := r.2.1 }, r.2.2) := by
  have le := setup.eventsPerPass_le
  have count := setup.eventCount_le
  have size : captureMinU16 c.eventsPerPass (u16Sub c.totalEventCount c.currentEventBase) =
      c.passSize := by
    rw [u16Sub_of_le (by omega) (by omega), captureMinU16_eq, Capture.passSize]
  have small : u8 c.passSize = c.passSize := u8_of_lt (by unfold Capture.passSize; omega)
  unfold capturePreparePass
  dsimp only
  rw [if_neg (by omega), size, small]
  rfl

theorem Capture.passSize_inside {c : Capture} {slot : ℕ} (hs : slot ∈ List.range c.passSize) :
    c.currentEventBase + slot < c.totalEventCount := by
  have hs := List.mem_range.mp hs
  unfold Capture.passSize at hs
  omega

theorem selectPassEvents_pass {c : Capture} (count : c.totalEventCount ≤ 70)
    (known : ∀ slot < c.passSize, c.mapEntry (c.currentEventBase + slot) < pmuMapSize) :
    selectPassEvents c.clearedPass (List.range c.passSize) c.clearedPass.pmuCfg =
      (none, pairedConfig c.api c.pmuCfg c.passSize c.slotId) := by
  rw [selectPassEvents_known (c := c.clearedPass) (l := List.range c.passSize) count fun slot hs =>
    ⟨Capture.passSize_inside hs, known slot (List.mem_range.mp hs)⟩]
  simp only [List.mem_range]
  rfl

/-- The pass programs the events of its columns, unless the map has no such entry. -/
theorem capturePreparePass_cases (P : Platform H) {c : Capture} (s : Pmu H)
    (setup : CaptureSetup c) (base : c.currentEventBase < c.totalEventCount) :
    ((∀ slot < c.passSize, c.mapEntry (c.currentEventBase + slot) < pmuMapSize) ∧
      capturePreparePass P c s =
        ((pmuInit P (pairedConfig c.api c.pmuCfg c.passSize c.slotId) s).1,
          { c with
              currentPassEvents := c.passSize
              pmuCfg := (pmuInit P (pairedConfig c.api c.pmuCfg c.passSize c.slotId) s).2.1 },
          (pmuInit P (pairedConfig c.api c.pmuCfg c.passSize c.slotId) s).2.2)) ∨
    ((∃ slot < c.passSize, ¬ c.mapEntry (c.currentEventBase + slot) < pmuMapSize) ∧
      (capturePreparePass P c s).1 = statusInvalidConfig ∧
      (capturePreparePass P c s).2.2 = s) := by
  rw [capturePreparePass_eq P s setup base]
  by_cases known : ∀ slot < c.passSize, c.mapEntry (c.currentEventBase + slot) < pmuMapSize
  · rw [selectPassEvents_pass setup.eventCount_le known]
    exact .inl ⟨known, rfl⟩
  · obtain ⟨slot, hs, bad⟩ : ∃ slot < c.passSize,
        ¬ c.mapEntry (c.currentEventBase + slot) < pmuMapSize := by
      simpa using known
    have unknown : (selectPassEvents c.clearedPass (List.range c.passSize)
        c.clearedPass.pmuCfg).1 = some statusInvalidConfig :=
      selectPassEvents_unknown (c := c.clearedPass) setup.eventCount_le
        (fun _ => Capture.passSize_inside) ⟨slot, List.mem_range.mpr hs, bad⟩
    rw [unknown]
    exact .inr ⟨⟨slot, hs, bad⟩, rfl, rfl⟩

variable {P : Platform H} {evtyper : H → ℕ → Word}

/-- A pass that was prepared: its columns are known events, and the driver and the hardware
are set up for them. -/
structure PassReady (evtyper : H → ℕ → Word) (x : CaptureState H) : Prop where
  known : ∀ slot < x.capture.currentPassEvents,
    x.capture.mapEntry (x.capture.currentEventBase + slot) < pmuMapSize
  ready : PairsReady x.capture.currentPassEvents x.capture.slotId x.capture.pmuCfg
    x.world.pmu.driver
  programmed : PairsProgrammed evtyper x.capture.currentPassEvents x.capture.slotId x.world.pmu.hw

theorem capturePreparePass_ready (laws : Programs P evtyper) {c : Capture} {s : Pmu H}
    (setup : CaptureSetup c) (base : c.currentEventBase < c.totalEventCount)
    (ok : (capturePreparePass P c s).1 = statusSuccess) (mem : ℕ → Word) :
    PassReady evtyper ⟨(capturePreparePass P c s).2.1, ⟨(capturePreparePass P c s).2.2, mem⟩⟩ := by
  have le := setup.eventsPerPass_le
  have few : c.passSize ≤ 4 := by
    unfold Capture.passSize
    omega
  rcases capturePreparePass_cases P s setup base with ⟨known, eq⟩ | ⟨-, failed, -⟩
  · rw [eq] at ok ⊢
    have slots := pairedConfig_slots c.api c.pmuCfg c.passSize c.slotId
    exact ⟨known, pairsReady_of_init slots few ok, laws.pairs_of_init slots few ok⟩
  · exact absurd (failed.symm.trans ok) statusInvalidConfig_ne

theorem PassReady.of_world {x : CaptureState H} (ready : PassReady evtyper x) {w : World H}
    (driver : w.pmu.driver = x.world.pmu.driver)
    (types : ∀ k < maxCounters, evtyper w.pmu.hw k = evtyper x.world.pmu.hw k) :
    PassReady evtyper ⟨x.capture, w⟩ where
  known := ready.known
  ready := by rw [driver]; exact ready.ready
  programmed := ready.programmed.of_evtyper ready.ready.few types

/-- Successful calls, between which the hardware runs on and nobody programs it anew. -/
def Undisturbed (P : Platform H) (evtyper : H → ℕ → Word) (x : CaptureState H) :
    CaptureCall H X → Prop
  | .reset => (captureReset P x.capture x.world).1 = statusSuccess
  | .modelEnd => (captureModelEnd P x.capture x.world).1 = statusSuccess
  | .advanceChunk => (captureAdvanceChunk P x.capture x.world).1 = statusSuccess
  | .elapse f => ∀ k < maxCounters, evtyper (f x.world.pmu.hw) k = evtyper x.world.pmu.hw k
  | _ => True

theorem captureResetChunk_ready (laws : Programs P evtyper) {c : Capture} {w : World H}
    {chunkStart : ℕ} (setup : CaptureSetup c) (start : chunkStart < c.totalOps)
    (ok : (captureResetChunk P c chunkStart w).1 = statusSuccess) :
    PassReady evtyper
      ⟨(captureResetChunk P c chunkStart w).2.1, (captureResetChunk P c chunkStart w).2.2⟩ := by
  rw [captureResetChunk_eq P w setup start] at ok ⊢
  exact capturePreparePass_ready laws (setup.of_same (c.openChunk_same chunkStart))
    setup.eventCount_pos ok _

theorem captureLayerEnd_ready (laws : Programs P evtyper) {x : CaptureState H}
    (inv : CaptureInvariant x.capture) (ready : PassReady evtyper x) (op : ℕ) :
    PassReady evtyper ⟨(captureLayerEnd P x.capture op x.world).1,
      (captureLayerEnd P x.capture op x.world).2⟩ := by
  by_cases inside : x.capture.currentChunkStart ≤ op ∧
      op < x.capture.currentChunkStart + x.capture.currentChunkOps
  · rw [captureLayerEnd_inside P x.world inv inside]
    exact ⟨ready.known, ready.ready.getCounters.2.1,
      ready.programmed.of_evtyper ready.ready.few fun _ hk => laws.pmuGetCounters _ _ hk⟩
  · rw [captureLayerEnd_outside P x.world inv inside]
    exact ready

theorem captureStep_ready (laws : Programs P evtyper) {x : CaptureState H}
    (inv : CaptureInvariant x.capture) (ready : PassReady evtyper x) {call : CaptureCall H X}
    (ok : Undisturbed P evtyper x call) : PassReady evtyper (captureStep P x call) := by
  have setup := inv.toCaptureSetup
  cases call with
  | reset =>
    dsimp only [Undisturbed, captureStep] at ok ⊢
    rw [captureReset_eq P x.world setup] at ok ⊢
    exact captureResetChunk_ready laws setup.incomplete setup.totalOps_pos ok
  | modelBegin => exact ready
  | modelEnd =>
    dsimp only [Undisturbed, captureStep] at ok ⊢
    rcases captureModelEnd_cases P x.world inv with ⟨-, eq⟩ | ⟨-, -, -, eq⟩ | ⟨-, -, -, more, eq⟩
    · rw [eq]
      exact ready
    · rw [eq]
      exact ⟨ready.known, ready.ready, ready.programmed⟩
    · rw [eq] at ok ⊢
      have same : SameSetup x.capture x.capture.nextPass := .progress
      exact capturePreparePass_ready laws (setup.of_same same) more ok _
  | layerBegin op =>
    dsimp only [captureStep, captureLayerBegin]
    split
    · exact ready
    · exact ready.of_world rfl fun _ hk => laws.pmuResetCounters _ hk
  | layerEnd op => exact captureLayerEnd_ready laws inv ready op.toNat
  | advanceChunk =>
    dsimp only [Undisturbed, captureStep] at ok ⊢
    rcases captureAdvanceChunk_cases P x.world inv with
      ⟨-, eq⟩ | ⟨-, -, eq⟩ | ⟨-, -, -, more, eq⟩
    · rw [eq]
      exact ready
    · rw [eq]
      exact ⟨ready.known, ready.ready, ready.programmed⟩
    · rw [eq] at ok ⊢
      exact captureResetChunk_ready laws setup more ok
  | serializeCsv _ _ _ => exact ready
  | elapse f => exact ready.of_world rfl ok

end NsxPmu
