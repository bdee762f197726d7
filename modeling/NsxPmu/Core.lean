import Mathlib.Data.BitVec

set_option autoImplicit false

/-!
# Words, statuses and API descriptors

The C types the library is written in. A `uint32_t` is a `BitVec 32`; the
`uint16_t` and `uint8_t` fields of the library's own state are natural numbers
and the stores to them narrow explicitly, since C computes with them as `int`.
-/
namespace NsxPmu

/-- A `uint32_t`. -/
abbrev Word := BitVec 32

/-- The value of an expression when it is stored in a `uint16_t`. -/
def u16 (n : ℕ) : ℕ := n % 65536

/-- The value of an expression when it is stored in a `uint8_t`. -/
def u8 (n : ℕ) : ℕ := n % 256

/-- The value of an expression of type `uint32_t`. -/
def u32 (n : ℕ) : ℕ := n % 4294967296

/-- The `int` difference of two `uint16_t` values when it is stored in a `uint16_t`. -/
def u16Sub (a b : ℕ) : ℕ := (a + (65536 - b)) % 65536

theorem u16_of_lt {n : ℕ} (h : n < 65536) : u16 n = n := Nat.mod_eq_of_lt h

theorem u8_of_lt {n : ℕ} (h : n < 256) : u8 n = n := Nat.mod_eq_of_lt h

theorem u32_of_lt {n : ℕ} (h : n < 4294967296) : u32 n = n := Nat.mod_eq_of_lt h

theorem u16Sub_of_le {a b : ℕ} (h : b ≤ a) (ha : a < 65536) : u16Sub a b = a - b := by
  unfold u16Sub
  omega

/-- The `NSX_STATUS_*` codes. -/
abbrev Status := Word

def statusSuccess : Status := 0
def statusFailure : Status := 0xFFFFFFFF
def statusInvalidHandle : Status := 1
def statusInvalidVersion : Status := 2
def statusInvalidConfig : Status := 3
def statusInitFailed : Status := 4

@[simp] theorem statusInvalidHandle_ne : statusInvalidHandle ≠ statusSuccess := by decide
@[simp] theorem statusInvalidVersion_ne : statusInvalidVersion ≠ statusSuccess := by decide
@[simp] theorem statusInvalidConfig_ne : statusInvalidConfig ≠ statusSuccess := by decide
@[simp] theorem statusInitFailed_ne : statusInitFailed ≠ statusSuccess := by decide

structure Semver where
  major : ℕ
  minor : ℕ
  revision : ℕ
  deriving DecidableEq

structure CoreApi where
  apiId : Word
  version : Semver
  deriving DecidableEq

def pmuApiId : Word := 0xCA000B

/-- `nsx_pmu_V1_0_0`, the API a collector falls back to. -/
def pmuV1_0_0 : CoreApi := ⟨pmuApiId, ⟨1, 0, 0⟩⟩
def pmuOldestSupportedVersion : CoreApi := ⟨pmuApiId, ⟨0, 0, 1⟩⟩
def pmuCurrentVersion : CoreApi := ⟨pmuApiId, ⟨1, 0, 0⟩⟩

/-- `NSX_PMU_MAX_COUNTERS`, the number of event counters. -/
abbrev maxCounters : ℕ := 8

/-- `nsx_pmu_event_counter_size_e`. The code tests for values outside the
enumeration, so they are part of the type. -/
inductive CounterSize where
  | size16
  | size32
  | other (raw : Word)
  deriving DecidableEq

structure PmuEvent where
  enabled : Bool
  eventId : Word
  counterSize : CounterSize
  deriving DecidableEq

structure PmuCounter where
  added : Bool
  mapIndex : ℕ
  counterValue : Word
  deriving DecidableEq

/-- `nsx_pmu_config_t`. The eight-entry arrays are functions, so that a write
outside them would show as a changed value at an index of 8 or above. -/
structure PmuConfig where
  api : Option CoreApi
  events : ℕ → PmuEvent
  counter : ℕ → PmuCounter

def PmuConfig.zero : PmuConfig := ⟨none, fun _ => ⟨false, 0, .size16⟩, fun _ => ⟨false, 0, 0⟩⟩

end NsxPmu
