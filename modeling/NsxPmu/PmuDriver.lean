import NsxPmu.EventMap
import Mathlib.Logic.Function.Basic

set_option autoImplicit false

/-!
# The PMU driver

`nsx_pmu_utils.c`: the driver's file-scope state, the programming of the event
counters by `nsx_pmu_init` and their read-out by `nsx_pmu_get_counters`. The
vendor layer and the CMSIS accessors are outside the repository; they are a
parameter that acts on an arbitrary hardware state, and so may succeed or fail
at any call.
-/
namespace NsxPmu
open Function (update)

structure AmbiqPmuConfig where
  counters : Word
  eventTypes : ℕ → Word

/-- The functions the driver calls and the repository does not define. -/
structure Platform (H : Type) where
  coreCheckApi : CoreApi → CoreApi → CoreApi → H → Status × H
  ambiqPmuEnable : H → Status × H
  ambiqPmuInit : AmbiqPmuConfig → H → Status × H
  cntrEnable : Word → H → H
  cntrDisable : Word → H → H
  cyccntReset : H → H
  evcntrAllReset : H → H
  setCntrOvs : Word → H → H
  getEvcntr : ℕ → H → Word

/-- The file-scope variables of `nsx_pmu_utils.c`. -/
structure Driver where
  ambiqPmuConfig : AmbiqPmuConfig
  initialized : Bool
  profiling : Bool
  configIndex : ℕ → ℕ
  mapLength : ℕ

def Driver.start : Driver := ⟨⟨0, fun _ => 0⟩, false, false, fun _ => 0, 0⟩

/-- One finished call of `nsx_pmu_init`: its status, and the configuration and the
driver state as the call left them. -/
structure InitRecord where
  status : Status
  cfg : PmuConfig
  driver : Driver

/-- The driver with the hardware below it and the text `nsx_printf` has printed.
`inits` is a history of the calls of `nsx_pmu_init`, newest first, that no
function reads. -/
structure Pmu (H : Type) where
  driver : Driver
  hw : H
  console : List String
  inits : List InitRecord

structure World (H : Type) where
  pmu : Pmu H
  mem : ℕ → Word

variable {H : Type}

def Pmu.printf (s : Pmu H) (text : String) : Pmu H := { s with console := s.console ++ [text] }

def counterMask (index : ℕ) : Word := 1#32 <<< index

/-- `PMU_CNTENSET_CCNTR_ENABLE_Msk`, the cycle counter. -/
def ccntrMask : Word := 0x80000000

/-- `NSX_PMU_VALID_COUNTERS`: the eight event counters and the cycle counter. -/
def validCounters : Word := 0x800000FF

def validOvsclrs : Word := 0x800000FF

def cntrEnable (P : Platform H) (counters : Word) (s : Pmu H) : Status × Pmu H :=
  if counters &&& ~~~validCounters ≠ 0 then (statusInvalidConfig, s)
  else (statusSuccess, { s with hw := P.cntrEnable counters s.hw })

def cntrDisable (P : Platform H) (counters : Word) (s : Pmu H) : Status × Pmu H :=
  if counters &&& ~~~validCounters ≠ 0 then (statusInvalidConfig, s)
  else (statusSuccess, { s with hw := P.cntrDisable counters s.hw })

def pmuResetCounters (P : Platform H) (s : Pmu H) : Pmu H :=
  { s with hw := P.setCntrOvs validOvsclrs (P.evcntrAllReset (P.cyccntReset s.hw)) }

/-- `nsx_pmu_get_map_length`: the bytes of `nsx_pmu_map`, 4 + 50 + 120 and padding an entry. -/
def pmuGetMapLength : ℕ := 70 * 176

/-- The validation loop of `nsx_pmu_init`: the counters the enabled slots need, or
nothing when one of them has no valid size. -/
def countCounters (events : ℕ → PmuEvent) : List ℕ → ℕ → Option ℕ
  | [], total => some total
  | i :: rest, total =>
    if !(events i).enabled then countCounters events rest total
    else match (events i).counterSize with
      | .size32 => countCounters events rest (total + 2)
      | .size16 => countCounters events rest (total + 1)
      | .other _ => none

/-- The loop that clears the counters and looks the event ids up. It stops at the
first unknown id, which it returns, with the slots up to there cleared. -/
def resolveEvents (events : ℕ → PmuEvent) :
    List ℕ → (ℕ → PmuCounter) → (ℕ → Word) → Option Word × (ℕ → PmuCounter) × (ℕ → Word)
  | [], counter, types => (none, counter, types)
  | i :: rest, counter, types =>
    let cleared := update counter i { counter i with counterValue := 0, added := false }
    let types := update types i 0xFFFF
    if !(events i).enabled then resolveEvents events rest cleared types
    else match getMapIndex (events i).eventId with
      | none => (some (events i).eventId, cleared, types)
      | some mapIndex =>
        resolveEvents events rest (update cleared i { cleared i with mapIndex := mapIndex }) types

/-- What the allocation loops of `nsx_pmu_init` write. -/
structure Allocation where
  total : ℕ
  mask : Word
  eventTypes : ℕ → Word
  configIndex : ℕ → ℕ
  counter : ℕ → PmuCounter

def Allocation.take (a : Allocation) (eventType : Word) : Allocation :=
  { a with
      mask := a.mask ||| counterMask a.total
      eventTypes := update a.eventTypes a.total eventType
      total := a.total + 1 }

def Allocation.setIndex (a : Allocation) (slot : ℕ) : Allocation :=
  { a with configIndex := update a.configIndex a.total slot }

def Allocation.setAdded (a : Allocation) (slot : ℕ) : Allocation :=
  { a with counter := update a.counter slot { a.counter slot with added := true } }

/-- The body of the loop over the 32-bit slots: a counter for the event and one chained to it. -/
def allocate32 (events : ℕ → PmuEvent) (a : Allocation) (i : ℕ) : Allocation :=
  if !(events i).enabled || (a.counter i).added || (events i).counterSize ≠ .size32 then a
  else (((a.setIndex i).take (events i).eventId).take armPmuChain).setAdded i

def allocate16 (events : ℕ → PmuEvent) (a : Allocation) (i : ℕ) : Allocation :=
  if !(events i).enabled || (a.counter i).added || (events i).counterSize ≠ .size16 then a
  else ((a.setIndex i).take (events i).eventId).setAdded i

def allocateCounters (events : ℕ → PmuEvent) (a : Allocation) : Allocation :=
  (List.range maxCounters).foldl (allocate16 events)
    ((List.range maxCounters).foldl (allocate32 events) a)

/-- `nsx_pmu_init` between its validation and its calls of the vendor layer: the
unknown event id it stops at, if any, and the configuration and globals it leaves. -/
def stageConfig (cfg : PmuConfig) (d : Driver) : Option Word × PmuConfig × Driver :=
  let r := resolveEvents cfg.events (List.range maxCounters) cfg.counter d.ambiqPmuConfig.eventTypes
  match r.1 with
  | some eventId =>
    (some eventId, { cfg with counter := r.2.1 },
      { d with mapLength := pmuGetMapLength, ambiqPmuConfig := ⟨0, r.2.2⟩ })
  | none =>
    let a := allocateCounters cfg.events ⟨0, ccntrMask, r.2.2, d.configIndex, r.2.1⟩
    (none, { cfg with counter := a.counter },
      { d with
          mapLength := pmuGetMapLength
          ambiqPmuConfig := ⟨a.mask, a.eventTypes⟩
          configIndex := a.configIndex })

/-- The part of `nsx_pmu_init` after its validation. -/
def programPmu (P : Platform H) (cfg : PmuConfig) (s : Pmu H) : Status × PmuConfig × Pmu H :=
  let staged := stageConfig cfg s.driver
  let s := { s with driver := staged.2.2 }
  match staged.1 with
  | some eventId =>
    (statusInvalidConfig, staged.2.1, s.printf ("Invalid event id " ++ toString eventId.toInt ++ "\n"))
  | none =>
    let enabled := P.ambiqPmuEnable s.hw
    if enabled.1 ≠ 0 then (statusInitFailed, staged.2.1, { s with hw := enabled.2 })
    else
      let programmed := P.ambiqPmuInit s.driver.ambiqPmuConfig enabled.2
      if programmed.1 ≠ 0 then (statusInitFailed, staged.2.1, { s with hw := programmed.2 })
      else
        (statusSuccess, staged.2.1,
          { s with
              hw := programmed.2
              driver := { s.driver with initialized := true, profiling := true } })

/-- `nsx_pmu_init` of a configuration that is not NULL, with API validation on. -/
def pmuInitCall (P : Platform H) (cfg : PmuConfig) (s : Pmu H) : Status × PmuConfig × Pmu H :=
  match cfg.api with
  | none => (statusInvalidVersion, cfg, s.printf "Invalid PMU API version\n")
  | some api =>
    let checked := P.coreCheckApi api pmuOldestSupportedVersion pmuCurrentVersion s.hw
    let s := { s with hw := checked.2 }
    if checked.1 ≠ statusSuccess then
      (statusInvalidVersion, cfg, s.printf "Invalid PMU API version\n")
    else match countCounters cfg.events (List.range maxCounters) 0 with
      | none => (statusInvalidConfig, cfg, s)
      | some total =>
        if total > maxCounters then
          (statusInvalidConfig, cfg,
            s.printf ("Too many counters enabled tc is " ++ toString total ++ "\n"))
        else programPmu P cfg s

/-- `nsx_pmu_init`, which the history records. -/
def pmuInit (P : Platform H) (cfg : PmuConfig) (s : Pmu H) : Status × PmuConfig × Pmu H :=
  let r := pmuInitCall P cfg s
  (r.1, r.2.1, { r.2.2 with inits := ⟨r.1, r.2.1, r.2.2.driver⟩ :: r.2.2.inits })

/-- The read-out loop of `nsx_pmu_get_counters` from counter `pmuIndex` on. Each
round moves on by one or two counters, so eight rounds reach the end. -/
def readCounters (P : Platform H) (d : Driver) (hw : H) (events : ℕ → PmuEvent) :
    ℕ → ℕ → (ℕ → PmuCounter) → (ℕ → PmuCounter)
  | 0, _, counter => counter
  | rounds + 1, pmuIndex, counter =>
    if pmuIndex ≥ maxCounters then counter
    else if d.ambiqPmuConfig.counters &&& counterMask pmuIndex = 0 then
      readCounters P d hw events rounds (pmuIndex + 1) counter
    else
      let cfgIndex := d.configIndex pmuIndex
      if (events cfgIndex).counterSize = .size32 then
        let baseValue := P.getEvcntr pmuIndex hw
        let chainValue := P.getEvcntr (pmuIndex + 1) hw
        readCounters P d hw events rounds (pmuIndex + 2)
          (update counter cfgIndex
            { counter cfgIndex with counterValue := baseValue + (chainValue <<< 16) })
      else
        readCounters P d hw events rounds (pmuIndex + 1)
          (update counter cfgIndex
            { counter cfgIndex with counterValue := P.getEvcntr pmuIndex hw })

/-- `nsx_pmu_get_counters` of a configuration that is not NULL. -/
def pmuGetCounters (P : Platform H) (cfg : PmuConfig) (s : Pmu H) : Status × PmuConfig × Pmu H :=
  if !s.driver.initialized || !s.driver.profiling then (statusInitFailed, cfg, s)
  else
    let paused := (cntrDisable P s.driver.ambiqPmuConfig.counters s).2
    let counter := readCounters P paused.driver paused.hw cfg.events maxCounters 0 cfg.counter
    let cleared := pmuResetCounters P paused
    let resumed := (cntrEnable P cleared.driver.ambiqPmuConfig.counters cleared).2
    (statusSuccess, { cfg with counter := counter }, resumed)

structure PmuCounters where
  counterValue : ℕ → Word

/-- `ns_delta_pmu`, which writes the counters `d`. -/
def deltaPmu (s e d : PmuCounters) : PmuCounters where
  counterValue i :=
    if i < maxCounters then
      let sv := s.counterValue i
      let ev := e.counterValue i
      if ev ≥ sv then ev - sv else ev
    else d.counterValue i

def pmuResetConfig (cfg : PmuConfig) : PmuConfig :=
  { cfg with
      events := fun i => if i < maxCounters then ⟨false, 0, .size16⟩ else cfg.events i
      counter := fun i => if i < maxCounters then ⟨false, 0, 0⟩ else cfg.counter i }

/-- `nsx_pmu_event_create` on the slot `i` of a configuration. -/
def pmuEventCreate (cfg : PmuConfig) (i : ℕ) (eventId : Word) (counterSize : CounterSize) :
    PmuConfig :=
  { cfg with events := update cfg.events i ⟨true, eventId, counterSize⟩ }

def printSlot (cfg : PmuConfig) (s : Pmu H) (i : ℕ) : Pmu H :=
  if !(cfg.events i).enabled then s
  else
    let entry := pmuMapAt (cfg.counter i).mapIndex
    let value := (cfg.counter i).counterValue
    (s.printf ("[" ++ toString i ++ "] " ++ entry.regname ++ "=" ++ toString value.toNat ++
      "\r\n")).printf ("    " ++ entry.description ++ "\r\n")

/-- `nsx_pmu_print_counters` of a configuration that is not NULL. -/
def pmuPrintCounters (cfg : PmuConfig) (s : Pmu H) : Status × Pmu H :=
  (statusSuccess, (List.range maxCounters).foldl (printSlot cfg) s)

abbrev characterizationBatchSize : ℕ := maxCounters / 2

/-- The loop of `nsx_pmu_characterize_function` over the slots of a batch. -/
def selectMapEvents (mapIndex : ℕ) : List ℕ → PmuConfig → PmuConfig
  | [], cfg => cfg
  | slot :: rest, cfg =>
    let eventIndex := mapIndex + slot
    if eventIndex ≥ pmuMapSize then cfg
    else selectMapEvents mapIndex rest (pmuEventCreate cfg slot (mapEventId eventIndex) .size32)

/-- A characterization under way. `invoked` is a history of the states in which the function was
called, oldest first, that no function reads. -/
structure Characterization (H : Type) where
  cfg : PmuConfig
  pmu : Pmu H
  invoked : List (Pmu H)

/-- The body of the loop of `nsx_pmu_characterize_function`, and whether the loop goes on. The
characterized function acts on everything but the driver. -/
def characterizeBatch (P : Platform H) (func : H → H) (mapIndex : ℕ) (x : Characterization H) :
    Bool × Characterization H :=
  let cfg := selectMapEvents mapIndex (List.range characterizationBatchSize)
    { pmuResetConfig x.cfg with api := some pmuV1_0_0 }
  let r := pmuInit P cfg x.pmu
  if r.1 ≠ statusSuccess then (false, { x with cfg := r.2.1, pmu := r.2.2 })
  else
    let invoked := x.invoked ++ [r.2.2]
    let q := pmuGetCounters P r.2.1 { r.2.2 with hw := func r.2.2.hw }
    if q.1 ≠ statusSuccess then (false, ⟨q.2.1, q.2.2, invoked⟩)
    else (true, ⟨q.2.1, (pmuPrintCounters q.2.1 q.2.2).2, invoked⟩)

def characterizeFrom (P : Platform H) (func : H → H) (mapIndex : ℕ) (x : Characterization H) :
    Characterization H :=
  if mapIndex < pmuMapSize then
    let r := characterizeBatch P func mapIndex x
    if r.1 then characterizeFrom P func (mapIndex + characterizationBatchSize) r.2 else r.2
  else x
termination_by pmuMapSize - mapIndex
decreasing_by
  rename_i more _
  dsimp only [pmuMapSize, characterizationBatchSize, maxCounters] at more ⊢
  omega

/-- `nsx_pmu_characterize_function` of a function and a configuration that are not NULL. -/
def characterizeFunction (P : Platform H) (func : H → H) (cfg : PmuConfig) (s : Pmu H) :
    Characterization H :=
  characterizeFrom P func 0 ⟨cfg, s, []⟩

/-- `nsx_pmu_preset_e`; `other` stands for a value that is no enumerator. -/
inductive PmuPreset where
  | basicCpu
  | memory
  | mve
  | mlDefault
  | other (raw : Word)
  deriving DecidableEq

def armPmuL1dCacheRefill : Word := 0x0003
def armPmuInstRetired : Word := 0x0008
def armPmuCpuCycles : Word := 0x0011
def armPmuMemAccess : Word := 0x0013
def armPmuBusAccess : Word := 0x0019
def armPmuBusCycles : Word := 0x001D
def armPmuStallFrontend : Word := 0x0023
def armPmuStallBackend : Word := 0x0024
def armPmuMveInstRetired : Word := 0x0200
def armPmuMveIntMacRetired : Word := 0x0228
def armPmuMveLdstMultiRetired : Word := 0x025C
def armPmuMveStall : Word := 0x02CC

/-- The four calls of `nsx_pmu_event_create` that each preset makes. -/
def createPreset (cfg : PmuConfig) (first second third fourth : Word) : PmuConfig :=
  let cfg := pmuEventCreate cfg 0 first .size32
  let cfg := pmuEventCreate cfg 1 second .size32
  let cfg := pmuEventCreate cfg 2 third .size32
  pmuEventCreate cfg 3 fourth .size32

/-- `nsx_pmu_apply_preset` of a configuration that is not NULL. -/
def pmuApplyPreset (cfg : PmuConfig) (preset : PmuPreset) : Status × PmuConfig :=
  let cfg := pmuResetConfig cfg
  match preset with
  | .basicCpu =>
    (statusSuccess, createPreset cfg armPmuCpuCycles armPmuInstRetired armPmuStallFrontend
      armPmuStallBackend)
  | .memory =>
    (statusSuccess, createPreset cfg armPmuMemAccess armPmuL1dCacheRefill armPmuBusAccess
      armPmuBusCycles)
  | .mve =>
    (statusSuccess, createPreset cfg armPmuMveInstRetired armPmuMveIntMacRetired
      armPmuMveLdstMultiRetired armPmuMveStall)
  | .mlDefault =>
    (statusSuccess, createPreset cfg armPmuMveInstRetired armPmuMveIntMacRetired armPmuInstRetired
      armPmuBusCycles)
  | .other _ => (statusInvalidConfig, cfg)

end NsxPmu
