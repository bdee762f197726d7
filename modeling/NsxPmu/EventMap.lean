import NsxPmu.Core

set_option autoImplicit false

/-!
# The event table

`nsx_pmu_map`, entry by entry in the order of the source, and the two lookups
the driver makes in it.
-/
namespace NsxPmu

structure PmuMapEntry where
  eventId : Word
  regname : String
  description : String

def pmuMap : List PmuMapEntry := [
  ⟨0x0000, "ARM_PMU_SW_INCR",
    "Software update to the PMU_SWINC register, architecturally executed and condition code check pass"⟩,
  ⟨0x0001, "ARM_PMU_L1I_CACHE_REFILL",
    "L1 I-Cache refill"⟩,
  ⟨0x0003, "ARM_PMU_L1D_CACHE_REFILL",
    "L1 D-Cache refill"⟩,
  ⟨0x0004, "ARM_PMU_L1D_CACHE",
    "L1 D-Cache access"⟩,
  ⟨0x0006, "ARM_PMU_LD_RETIRED",
    "Memory-reading instruction architecturally executed and condition code check pass"⟩,
  ⟨0x0007, "ARM_PMU_ST_RETIRED",
    "Memory-writing instruction architecturally executed and condition code check pass"⟩,
  ⟨0x0008, "ARM_PMU_INST_RETIRED",
    "Instruction architecturally executed"⟩,
  ⟨0x0009, "ARM_PMU_EXC_TAKEN",
    "Exception entry"⟩,
  ⟨0x000A, "ARM_PMU_EXC_RETURN",
    "Exception return instruction architecturally executed and the condition code check pass"⟩,
  ⟨0x000C, "ARM_PMU_PC_WRITE_RETIRED",
    "Software change to the Program Counter (PC). Instruction is architecturally executed and condition code check pass"⟩,
  ⟨0x000D, "ARM_PMU_BR_IMMED_RETIRED",
    "Immediate branch architecturally executed"⟩,
  ⟨0x000E, "ARM_PMU_BR_RETURN_RETIRED",
    "Function return instruction architecturally executed and the condition code check pass"⟩,
  ⟨0x000F, "ARM_PMU_UNALIGNED_LDST_RETIRED",
    "Unaligned memory memory-reading or memory-writing instruction architecturally executed and condition code check pass"⟩,
  ⟨0x0011, "ARM_PMU_CPU_CYCLES",
    "Cycle"⟩,
  ⟨0x0013, "ARM_PMU_MEM_ACCESS",
    "Data memory access"⟩,
  ⟨0x0014, "ARM_PMU_L1I_CACHE",
    "Level 1 instruction cache access"⟩,
  ⟨0x0015, "ARM_PMU_L1D_CACHE_WB",
    "Level 1 data cache write-back"⟩,
  ⟨0x0019, "ARM_PMU_BUS_ACCESS",
    "Bus access"⟩,
  ⟨0x001A, "ARM_PMU_MEMORY_ERROR",
    "Local memory error"⟩,
  ⟨0x001D, "ARM_PMU_BUS_CYCLES",
    "Bus cycles"⟩,
  ⟨0x001F, "ARM_PMU_L1D_CACHE_ALLOCATE",
    "Level 1 data cache allocation without refill"⟩,
  ⟨0x0021, "ARM_PMU_BR_RETIRED",
    "Branch instruction architecturally executed"⟩,
  ⟨0x0022, "ARM_PMU_BR_MIS_PRED_RETIRED",
    "Mispredicted branch instruction architecturally executed"⟩,
  ⟨0x0023, "ARM_PMU_STALL_FRONTEND",
    "No operation issued because of the frontend"⟩,
  ⟨0x0024, "ARM_PMU_STALL_BACKEND",
    "No operation issued because of the backend"⟩,
  ⟨0x0036, "ARM_PMU_LL_CACHE_RD",
    "Last level data cache read"⟩,
  ⟨0x0037, "ARM_PMU_LL_CACHE_MISS_RD",
    "Last level data cache read miss"⟩,
  ⟨0x0039, "ARM_PMU_L1D_CACHE_MISS_RD",
    "Level 1 data cache read miss"⟩,
  ⟨0x003C, "ARM_PMU_STALL",
    "Stall cycle for instruction or operation not sent for execution"⟩,
  ⟨0x0040, "ARM_PMU_L1D_CACHE_RD",
    "Level 1 data cache read"⟩,
  ⟨0x0100, "ARM_PMU_LE_RETIRED",
    "Loop end instruction executed"⟩,
  ⟨0x0108, "ARM_PMU_LE_CANCEL",
    "Loop end instruction not taken"⟩,
  ⟨0x0114, "ARM_PMU_SE_CALL_S",
    "Call to secure function, resulting in Security state change"⟩,
  ⟨0x0115, "ARM_PMU_SE_CALL_NS",
    "Call to non-secure function, resulting in Security state change"⟩,
  ⟨0x0200, "ARM_PMU_MVE_INST_RETIRED",
    "MVE instruction architecturally executed"⟩,
  ⟨0x0204, "ARM_PMU_MVE_FP_RETIRED",
    "MVE floating-point instruction architecturally executed"⟩,
  ⟨0x0208, "ARM_PMU_MVE_FP_HP_RETIRED",
    "MVE half-precision floating-point instruction architecturally executed"⟩,
  ⟨0x020C, "ARM_PMU_MVE_FP_SP_RETIRED",
    "MVE single-precision floating-point instruction architecturally executed"⟩,
  ⟨0x0214, "ARM_PMU_MVE_FP_MAC_RETIRED",
    "MVE floating-point multiply or multiply-accumulate instruction architecturally executed"⟩,
  ⟨0x0224, "ARM_PMU_MVE_INT_RETIRED",
    "MVE integer instruction architecturally executed"⟩,
  ⟨0x0228, "ARM_PMU_MVE_INT_MAC_RETIRED",
    "MVE multiply or multiply-accumulate instruction architecturally executed"⟩,
  ⟨0x0238, "ARM_PMU_MVE_LDST_RETIRED",
    "MVE load or store instruction architecturally executed"⟩,
  ⟨0x023C, "ARM_PMU_MVE_LD_RETIRED",
    "MVE load instruction architecturally executed"⟩,
  ⟨0x0240, "ARM_PMU_MVE_ST_RETIRED",
    "MVE store instruction architecturally executed"⟩,
  ⟨0x0244, "ARM_PMU_MVE_LDST_CONTIG_RETIRED",
    "MVE contiguous load or store instruction architecturally executed"⟩,
  ⟨0x0248, "ARM_PMU_MVE_LD_CONTIG_RETIRED",
    "MVE contiguous load instruction architecturally executed"⟩,
  ⟨0x024C, "ARM_PMU_MVE_ST_CONTIG_RETIRED",
    "MVE contiguous store instruction architecturally executed"⟩,
  ⟨0x0250, "ARM_PMU_MVE_LDST_NONCONTIG_RETIRED",
    "MVE non-contiguous load or store instruction architecturally executed"⟩,
  ⟨0x0254, "ARM_PMU_MVE_LD_NONCONTIG_RETIRED",
    "MVE non-contiguous load instruction architecturally executed"⟩,
  ⟨0x0258, "ARM_PMU_MVE_ST_NONCONTIG_RETIRED",
    "MVE non-contiguous store instruction architecturally executed"⟩,
  ⟨0x025C, "ARM_PMU_MVE_LDST_MULTI_RETIRED",
    "MVE memory instruction targeting multiple registers architecturally executed"⟩,
  ⟨0x0260, "ARM_PMU_MVE_LD_MULTI_RETIRED",
    "MVE memory load instruction targeting multiple registers architecturally executed"⟩,
  ⟨0x0264, "ARM_PMU_MVE_ST_MULTI_RETIRED",
    "MVE memory store instruction targeting multiple registers architecturally executed"⟩,
  ⟨0x028C, "ARM_PMU_MVE_LDST_UNALIGNED_RETIRED",
    "MVE unaligned memory load or store instruction architecturally executed"⟩,
  ⟨0x0290, "ARM_PMU_MVE_LD_UNALIGNED_RETIRED",
    "MVE unaligned load instruction architecturally executed"⟩,
  ⟨0x0294, "ARM_PMU_MVE_ST_UNALIGNED_RETIRED",
    "MVE unaligned store instruction architecturally executed"⟩,
  ⟨0x0298, "ARM_PMU_MVE_LDST_UNALIGNED_NONCONTIG_RETIRED",
    "MVE unaligned noncontiguous load or store instruction architecturally executed"⟩,
  ⟨0x02A0, "ARM_PMU_MVE_VREDUCE_RETIRED",
    "MVE vector reduction instruction architecturally executed"⟩,
  ⟨0x02A4, "ARM_PMU_MVE_VREDUCE_FP_RETIRED",
    "MVE floating-point vector reduction instruction architecturally executed"⟩,
  ⟨0x02A8, "ARM_PMU_MVE_VREDUCE_INT_RETIRED",
    "MVE integer vector reduction instruction architecturally executed"⟩,
  ⟨0x02B8, "ARM_PMU_MVE_PRED",
    "Cycles where one or more predicated beats architecturally executed"⟩,
  ⟨0x02CC, "ARM_PMU_MVE_STALL",
    "Stall cycles caused by an MVE instruction"⟩,
  ⟨0x02CD, "ARM_PMU_MVE_STALL_RESOURCE",
    "Stall cycles caused by an MVE instruction because of resource conflicts"⟩,
  ⟨0x02CE, "ARM_PMU_MVE_STALL_RESOURCE_MEM",
    "Stall cycles caused by an MVE instruction because of memory resource conflicts"⟩,
  ⟨0x02CF, "ARM_PMU_MVE_STALL_RESOURCE_FP",
    "Stall cycles caused by an MVE instruction because of floating-point resource conflicts"⟩,
  ⟨0x02D0, "ARM_PMU_MVE_STALL_RESOURCE_INT",
    "Stall cycles caused by an MVE instruction because of integer resource conflicts"⟩,
  ⟨0x02D3, "ARM_PMU_MVE_STALL_BREAK",
    "Stall cycles caused by an MVE chain break"⟩,
  ⟨0x02D4, "ARM_PMU_MVE_STALL_DEPENDENCY",
    "Stall cycles caused by MVE register dependency"⟩,
  ⟨0x4007, "ARM_PMU_ITCM_ACCESS",
    "Instruction TCM access"⟩,
  ⟨0x4008, "ARM_PMU_DTCM_ACCESS",
    "Data TCM access"⟩]

abbrev pmuMapSize : ℕ := 70

theorem pmuMap_length : pmuMap.length = pmuMapSize := by decide

def pmuMapAt (i : ℕ) : PmuMapEntry := pmuMap.getD i ⟨0, "", ""⟩

def mapEventId (i : ℕ) : Word := (pmuMapAt i).eventId

/-- `nsx_pmu_get_map_index`: the first entry with this id, or nothing for the C value -1. -/
def getMapIndex (eventId : Word) : Option ℕ :=
  (List.range pmuMapSize).find? fun i => mapEventId i == eventId

/-- `ARM_PMU_CHAIN`, the event of the upper half of a 32-bit pair. -/
def armPmuChain : Word := 0x001E

theorem getMapIndex_some {eventId : Word} {i : ℕ} (h : getMapIndex eventId = some i) :
    i < pmuMapSize ∧ mapEventId i = eventId := by
  have found := List.find?_some h
  have member := List.mem_of_find?_eq_some h
  exact ⟨List.mem_range.mp member, by simpa using found⟩

theorem getMapIndex_isSome {i : ℕ} (h : i < pmuMapSize) : (getMapIndex (mapEventId i)).isSome := by
  rw [getMapIndex, List.find?_isSome]
  exact ⟨i, List.mem_range.mpr h, by simp⟩

theorem mapEventId_ne_chain : ∀ i < pmuMapSize, mapEventId i ≠ armPmuChain := by decide

/-- The catalogue has no event twice, so the search finds the entry an id was taken from. -/
theorem mapEventId_injective :
    ∀ i < pmuMapSize, ∀ j < pmuMapSize, mapEventId i = mapEventId j → i = j := by decide +kernel

theorem getMapIndex_mapEventId {i : ℕ} (h : i < pmuMapSize) :
    getMapIndex (mapEventId i) = some i := by
  obtain ⟨j, hj⟩ := Option.isSome_iff_exists.mp (getMapIndex_isSome h)
  obtain ⟨hlt, heq⟩ := getMapIndex_some hj
  rw [hj, mapEventId_injective j hlt i h heq]

end NsxPmu
