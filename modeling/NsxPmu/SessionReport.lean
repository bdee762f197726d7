import NsxPmu.EventCounting
import NsxPmu.Characterize
import NsxPmu.EventNames

set_option autoImplicit false

/-!
# What a session prints

A session of `nsx_pmu_init`, read out and printed: every enabled slot with the name
of its event and the number of its occurrences. The presets are configurations to
start such a session with.
-/
namespace NsxPmu
open LabelledRuns
open Function (update)

variable {H : Type} {P : Platform H} {evtyper : H → ℕ → Word} {enabled : H → ℕ → Bool}
  {occur : Word → H → H}

/-- What is printed for a slot that counts the table entry `m` and has counted `n` occurrences. -/
def countLines (slot m n : ℕ) : List String :=
  ["[" ++ toString slot ++ "] " ++ (pmuMapAt m).regname ++ "=" ++ toString n ++ "\r\n",
    "    " ++ (pmuMapAt m).description ++ "\r\n"]

/-- What is printed for the slots of a configuration that have counted `n`. -/
def reportLines (cfg : PmuConfig) (n : ℕ → ℕ) : List String :=
  (List.range maxCounters).flatMap fun i =>
    if (cfg.events i).enabled then
      (getMapIndex (cfg.events i).eventId).elim [] fun m => countLines i m (n i)
    else []

theorem storeReading_mapIndex (counter : ℕ → PmuCounter) (j : ℕ) (value : Word) (i : ℕ) :
    (update counter j { counter j with counterValue := value } i).mapIndex =
      (counter i).mapIndex := by
  by_cases here : i = j
  · rw [here, Function.update_self]
  · rw [Function.update_of_ne here]

theorem readCounters_mapIndex (d : Driver) (hw : H) (events : ℕ → PmuEvent) (rounds k : ℕ)
    (counter : ℕ → PmuCounter) (i : ℕ) :
    (readCounters P d hw events rounds k counter i).mapIndex = (counter i).mapIndex := by
  induction rounds generalizing k counter with
  | zero => rfl
  | succ rounds ih =>
    rw [readCounters]
    split
    · rfl
    · split
      · exact ih _ _
      · dsimp only
        split
        · exact (ih _ _).trans (storeReading_mapIndex counter _ _ i)
        · exact (ih _ _).trans (storeReading_mapIndex counter _ _ i)

theorem pmuGetCounters_mapIndex (cfg : PmuConfig) (s : Pmu H) (i : ℕ) :
    ((pmuGetCounters P cfg s).2.1.counter i).mapIndex = (cfg.counter i).mapIndex := by
  unfold pmuGetCounters
  split
  · rfl
  · exact readCounters_mapIndex ..

structure Labelled (cfg : PmuConfig) (console : List String) (x : CountSession H) : Prop where
  events : x.cfg.events = cfg.events
  mapped : ∀ i < maxCounters, (cfg.events i).enabled = true →
    getMapIndex (cfg.events i).eventId = some (x.cfg.counter i).mapIndex
  console : x.pmu.console = console

theorem Labelled.getCounters {cfg : PmuConfig} {console : List String} {x : CountSession H}
    (labelled : Labelled cfg console x) :
    Labelled cfg console ⟨(pmuGetCounters P x.cfg x.pmu).2.1, (pmuGetCounters P x.cfg x.pmu).2.2⟩ := by
  have frame := pmuGetCounters_frame P x.cfg x.pmu
  refine ⟨frame.events.trans labelled.events, fun i hi on => ?_, frame.console.trans labelled.console⟩
  rw [pmuGetCounters_mapIndex]
  exact labelled.mapped i hi on

theorem Labelled.step {cfg : PmuConfig} {console : List String} {x : CountSession H}
    (labelled : Labelled cfg console x) (call : CountCall) :
    Labelled cfg console (countStep P occur x call) := by
  cases call with
  | occur event => exact ⟨labelled.events, labelled.mapped, labelled.console⟩
  | resetCounters => exact ⟨labelled.events, labelled.mapped, labelled.console⟩
  | getCounters => exact labelled.getCounters

theorem labelled_of_init {cfg : PmuConfig} {s : Pmu H} (ok : (pmuInit P cfg s).1 = statusSuccess) :
    Labelled cfg s.console ⟨(pmuInit P cfg s).2.1, (pmuInit P cfg s).2.2⟩ := by
  have staged := (pmuInit_session ok).staged
  exact ⟨staged.events, staged.mapped, pmuInit_silent ok⟩

theorem Labelled.printed {cfg : PmuConfig} {console : List String} {x : CountSession H} {n : ℕ → ℕ}
    (labelled : Labelled cfg console x)
    (counts : ∀ i < maxCounters, (cfg.events i).enabled = true →
      (x.cfg.counter i).counterValue.toNat = n i) :
    (pmuPrintCounters x.cfg x.pmu).2.console = console ++ reportLines cfg n := by
  rw [pmuPrintCounters]
  dsimp only
  rw [printSlots_eq]
  dsimp only
  rw [labelled.console, reportLines]
  congr 1
  refine List.flatMap_congr fun i member => ?_
  have hi := List.mem_range.mp member
  rw [slotLines, labelled.events]
  cases on : (cfg.events i).enabled with
  | false => rfl
  | true =>
    rw [labelled.mapped i hi on, ← counts i hi on]
    rfl

theorem Labelled.name {cfg : PmuConfig} {console : List String} {x : CountSession H}
    (labelled : Labelled cfg console x) {i m : ℕ} (hi : i < maxCounters)
    (on : (cfg.events i).enabled = true) (entry : getMapIndex (cfg.events i).eventId = some m) :
    bufferText (pmuGetName (some x.cfg) i) = ascii (pmuMapAt m).regname := by
  have found := labelled.mapped i hi on
  rw [entry, Option.some.injEq] at found
  have fits := regname_fits m (getMapIndex_some entry).1
  unfold pmuGetName
  dsimp only
  rw [if_neg (by omega), labelled.events, on, ← found]
  exact bufferText_copyName fits.2 fits.1

theorem session_readout (laws : Counts P evtyper enabled occur) {cfg : PmuConfig} {s : Pmu H}
    (ok : (pmuInit P cfg s).1 = statusSuccess) (calls : List CountCall) :
    let x := run (countStep P occur) ⟨(pmuInit P cfg s).2.1, (pmuInit P cfg s).2.2⟩ calls
    let read := pmuGetCounters P x.cfg x.pmu
    read.1 = statusSuccess ∧ Labelled cfg s.console ⟨read.2.1, read.2.2⟩ ∧
    ∀ i < maxCounters, (cfg.events i).enabled = true → (read.2.1.counter i).counterValue.toNat =
      run (tally (cfg.events i).eventId) 0 calls % (cfg.events i).counterSize.modulus := by
  intro x read
  have labelled : Labelled cfg s.console x := run_invariant_of_step
    (fun _ call labelled => labelled.step call) (labelled_of_init ok) calls
  have programmed := pmuInit_session ok
  have session : SessionOf cfg.events x := run_invariant_of_step
    (fun _ call session => session.step call)
    ⟨programmed.staged.events, programmed.staged.layout, programmed.initialized,
      programmed.profiling⟩ calls
  have status : read.1 = statusSuccess :=
    (pmuGetCounters_frame P x.cfg x.pmu).status.mpr ⟨session.initialized, session.profiling⟩
  refine ⟨status, labelled.getCounters, fun i hi on => ?_⟩
  obtain ⟨base, placed, counting⟩ := counting_run laws ok calls hi on
  exact counting.readout laws placed

/-- The ids that a preset counts, in the order of the slots. -/
def presetIds : PmuPreset → List Word
  | .basicCpu => [armPmuCpuCycles, armPmuInstRetired, armPmuStallFrontend, armPmuStallBackend]
  | .memory => [armPmuMemAccess, armPmuL1dCacheRefill, armPmuBusAccess, armPmuBusCycles]
  | .mve =>
    [armPmuMveInstRetired, armPmuMveIntMacRetired, armPmuMveLdstMultiRetired, armPmuMveStall]
  | .mlDefault => [armPmuMveInstRetired, armPmuMveIntMacRetired, armPmuInstRetired, armPmuBusCycles]
  | .other _ => []

def presetId (preset : PmuPreset) (i : ℕ) : Word := (presetIds preset).getD i 0

theorem createPreset_paired (cfg : PmuConfig) (first second third fourth : Word) :
    createPreset (pmuResetConfig cfg) first second third fourth =
      pairedConfig cfg.api cfg 4 fun i => [first, second, third, fourth].getD i 0 := by
  unfold createPreset pairedConfig
  dsimp only [pmuEventCreate]
  congr 1
  funext i
  match i with
  | 0 => rfl
  | 1 => rfl
  | 2 => rfl
  | 3 => rfl
  | i + 4 =>
    rw [if_neg (by omega), Function.update_of_ne (by omega), Function.update_of_ne (by omega),
      Function.update_of_ne (by omega), Function.update_of_ne (by omega)]

/-- A preset is the cleared configuration with its events in the first slots; a value that is no
preset leaves it cleared. -/
theorem pmuApplyPreset_eq (cfg : PmuConfig) (preset : PmuPreset) :
    (pmuApplyPreset cfg preset).2 =
      pairedConfig cfg.api cfg (presetIds preset).length (presetId preset) := by
  cases preset with
  | other raw => rfl
  | _ => exact createPreset_paired ..

theorem presetIds_known (preset : PmuPreset) :
    (presetIds preset).length ≤ 4 ∧ ∀ i < (presetIds preset).length,
      (getMapIndex (presetId preset i)).isSome := by
  cases preset with
  | other raw => exact ⟨Nat.zero_le 4, fun i hi => absurd hi (Nat.not_lt_zero i)⟩
  | _ => decide

theorem reportLines_paired {cfg : PmuConfig} {n : ℕ} {id : ℕ → Word}
    (slots : PairedSlots n id cfg.events) (few : n ≤ 4) (count : ℕ → ℕ) :
    reportLines cfg count = (List.range n).flatMap fun i =>
      (getMapIndex (id i)).elim [] fun m => countLines i m (count i) := by
  rw [reportLines, PairedSlots.range_split few, List.flatMap_append]
  have off : ((List.range (maxCounters - n)).map (n + ·)).flatMap (fun i =>
      if (cfg.events i).enabled then
        (getMapIndex (cfg.events i).eventId).elim [] fun m => countLines i m (count i)
      else []) = [] := by
    apply List.flatMap_eq_nil_iff.mpr
    intro i hi
    rw [slots.off i hi]
    rfl
  rw [off, List.append_nil]
  refine List.flatMap_congr fun i member => ?_
  rw [slots.on few (List.mem_range.mp member)]
  rfl

/-- Whatever a configuration held before but its API, which is set and stays, a preset makes it a
session that counts the events of the preset: on a platform that answers the session starts, and a
read-out that is printed says of each of them the name and the number of occurrences since the last
mark, as a 32-bit word has it. -/
theorem preset_report (laws : Counts P evtyper enabled occur) {api : CoreApi}
    (answers : Answers P api) (cfg : PmuConfig) (version : cfg.api = some api) (preset : PmuPreset)
    (s : Pmu H) (calls : List CountCall) :
    let applied := pmuApplyPreset cfg preset
    let started := pmuInit P applied.2 s
    let x := run (countStep P occur) ⟨started.2.1, started.2.2⟩ calls
    let read := pmuGetCounters P x.cfg x.pmu
    (applied.1 = statusSuccess ↔ presetIds preset ≠ []) ∧ started.1 = statusSuccess ∧
    read.1 = statusSuccess ∧
    (pmuPrintCounters read.2.1 read.2.2).2.console = s.console ++
      (List.range (presetIds preset).length).flatMap fun i =>
        (getMapIndex (presetId preset i)).elim [] fun m =>
          countLines i m (run (tally (presetId preset i)) 0 calls % 2 ^ 32) := by
  intro applied started x read
  obtain ⟨few, known⟩ := presetIds_known preset
  have slots : PairedSlots (presetIds preset).length (presetId preset) applied.2.events := by
    dsimp only [applied]
    rw [pmuApplyPreset_eq]
    exact pairedConfig_slots _ _ _ _
  have kept : applied.2.api = some api := by
    dsimp only [applied]
    rw [pmuApplyPreset_eq]
    exact version
  have ok : started.1 = statusSuccess := answers.pairs kept slots few known
  obtain ⟨status, labelled, counts⟩ := session_readout laws ok calls
  refine ⟨?_, ok, status, ?_⟩
  · cases preset with
    | other raw => exact iff_of_false statusInvalidConfig_ne fun h => h rfl
    | _ => exact iff_of_true rfl (by decide)
  · refine (labelled.printed counts).trans (congrArg _ ((reportLines_paired slots few _).trans ?_))
    refine List.flatMap_congr fun i member => ?_
    rw [slots.on few (List.mem_range.mp member)]
    rfl

theorem preset_report_ref :
    let started := pmuInit steadyPlatform
      (pmuApplyPreset { PmuConfig.zero with api := some pmuV1_0_0 } .memory).2 ⟨.start, .start, [], []⟩
    let x := run (countStep steadyPlatform RefPmu.occur) ⟨started.2.1, started.2.2⟩
      [.occur 0x0003, .occur 0x0003, .occur 0x001D]
    let read := pmuGetCounters steadyPlatform x.cfg x.pmu
    (pmuPrintCounters read.2.1 read.2.2).2.console =
      ["[0] ARM_PMU_MEM_ACCESS=0\r\n", "    Data memory access\r\n",
        "[1] ARM_PMU_L1D_CACHE_REFILL=2\r\n", "    L1 D-Cache refill\r\n",
        "[2] ARM_PMU_BUS_ACCESS=0\r\n", "    Bus access\r\n",
        "[3] ARM_PMU_BUS_CYCLES=1\r\n", "    Bus cycles\r\n"] :=
  (preset_report steadyPlatform_counts (steadyPlatform_answers pmuV1_0_0)
    { PmuConfig.zero with api := some pmuV1_0_0 } rfl .memory ⟨.start, .start, [], []⟩
    [.occur 0x0003, .occur 0x0003, .occur 0x001D]).2.2.2.trans (by decide +kernel)

end NsxPmu
