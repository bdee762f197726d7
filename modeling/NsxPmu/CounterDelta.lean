import NsxPmu.EventCounting
import NsxPmu.PairedSlots

set_option autoImplicit false

/-!
# Differences of snapshots

`ns_delta_pmu` on the values of two successive read-outs. A read-out also resets
the counters, so the second snapshot counts from the first one on.
-/
namespace NsxPmu
open LabelledRuns

variable {H : Type} {P : Platform H} {evtyper : H → ℕ → Word} {enabled : H → ℕ → Bool}
  {occur : Word → H → H}

/-- A copy of the values that the last read-out left in a configuration. -/
def PmuConfig.snapshot (cfg : PmuConfig) : PmuCounters := ⟨fun i => (cfg.counter i).counterValue⟩

theorem deltaPmu_eq_second (s e d : PmuCounters) {i : ℕ} (hi : i < maxCounters) :
    (deltaPmu s e d).counterValue i = e.counterValue i ↔
      (s.counterValue i).toNat = 0 ∨
        (e.counterValue i).toNat < (s.counterValue i).toNat := by
  dsimp only [deltaPmu]
  rw [if_pos hi]
  by_cases le : s.counterValue i ≤ e.counterValue i
  · have order := BitVec.le_def.mp le
    rw [if_pos le, ← BitVec.toNat_inj, BitVec.toNat_sub_of_le le]
    omega
  · have order : ¬ (s.counterValue i).toNat ≤ (e.counterValue i).toNat :=
      fun h => le (BitVec.le_def.mpr h)
    rw [if_neg le]
    simp only [true_iff]
    omega

theorem tally_occurrences (event : Word) (n : ℕ) (events : List Word) :
    run (tally event) n (events.map .occur) = n + events.count event := by
  induction events generalizing n with
  | nil => rfl
  | cons other events ih =>
    rw [List.map_cons, run_cons, ih, tally, List.count_cons]
    by_cases mine : other = event
    · simp [mine]
      omega
    · simp [mine]

theorem snapshot_values (laws : Counts P evtyper enabled occur) {cfg : PmuConfig} {s : Pmu H}
    (ok : (pmuInit P cfg s).1 = statusSuccess) (calls : List CountCall) (events : List Word) {i : ℕ}
    (hi : i < maxCounters) (on : (cfg.events i).enabled = true) :
    let start : CountSession H := ⟨(pmuInit P cfg s).2.1, (pmuInit P cfg s).2.2⟩
    let x := run (countStep P occur) start (calls ++ [.getCounters])
    let y := run (countStep P occur) x (events.map .occur ++ [.getCounters])
    (x.cfg.snapshot.counterValue i).toNat =
        run (tally (cfg.events i).eventId) 0 calls % (cfg.events i).counterSize.modulus ∧
      (y.cfg.snapshot.counterValue i).toNat =
        events.count (cfg.events i).eventId % (cfg.events i).counterSize.modulus := by
  intro start x y
  obtain ⟨base, placed, first⟩ := counting_run laws ok calls hi on
  obtain ⟨base', placed', second⟩ :=
    counting_run laws ok (calls ++ [.getCounters] ++ events.map .occur) hi on
  have between : run (tally (cfg.events i).eventId) 0
      (calls ++ [.getCounters] ++ events.map .occur) = events.count (cfg.events i).eventId := by
    rw [run_append, run_append, tally_occurrences]
    exact Nat.zero_add _
  rw [between, run_append] at second
  have value := first.readout laws placed
  have value' := second.readout laws placed'
  constructor
  · dsimp only [x]
    rw [run_append]
    exact value
  · dsimp only [y]
    rw [run_append]
    exact value'

/-- Two successive snapshots with any past before the first and any occurrences between them, the
counts within the sizes of the slots. `ns_delta_pmu` gives every enabled slot the number of
occurrences between them exactly when each slot counted nothing before the first snapshot, or
more before it than between the two. -/
theorem delta_counts_interval_iff (laws : Counts P evtyper enabled occur) (cfg : PmuConfig)
    (s : Pmu H) (ok : (pmuInit P cfg s).1 = statusSuccess) (calls : List CountCall)
    (events : List Word) (d : PmuCounters)
    (small : ∀ i < maxCounters, (cfg.events i).enabled = true →
      run (tally (cfg.events i).eventId) 0 calls < (cfg.events i).counterSize.modulus ∧
      events.count (cfg.events i).eventId < (cfg.events i).counterSize.modulus) :
    let start : CountSession H := ⟨(pmuInit P cfg s).2.1, (pmuInit P cfg s).2.2⟩
    let x := run (countStep P occur) start (calls ++ [.getCounters])
    let y := run (countStep P occur) x (events.map .occur ++ [.getCounters])
    let delta := deltaPmu x.cfg.snapshot y.cfg.snapshot d
    (∀ i < maxCounters, (cfg.events i).enabled = true →
      (delta.counterValue i).toNat = events.count (cfg.events i).eventId) ↔
    ∀ i < maxCounters, (cfg.events i).enabled = true →
      run (tally (cfg.events i).eventId) 0 calls = 0 ∨
        events.count (cfg.events i).eventId < run (tally (cfg.events i).eventId) 0 calls := by
  intro start x y delta
  refine forall_congr' fun i => forall_congr' fun hi => forall_congr' fun on => ?_
  obtain ⟨first, second⟩ := snapshot_values laws ok calls events hi on
  obtain ⟨fits, fits'⟩ := small i hi on
  rw [Nat.mod_eq_of_lt fits] at first
  rw [Nat.mod_eq_of_lt fits'] at second
  have exact_ := deltaPmu_eq_second x.cfg.snapshot y.cfg.snapshot d hi
  rw [← BitVec.toNat_inj, first, second] at exact_
  exact exact_

def refWideConfig : PmuConfig := pairedConfig (some pmuV1_0_0) .zero 1 fun _ => mapEventId 0

theorem delta_counts_interval_iff_ref :
    let start : CountSession RefPmu :=
      ⟨(pmuInit refPlatform refWideConfig ⟨.start, .start, [], []⟩).2.1,
        (pmuInit refPlatform refWideConfig ⟨.start, .start, [], []⟩).2.2⟩
    let x := run (countStep refPlatform RefPmu.occur) start ([.resetCounters] ++ [.getCounters])
    let y := run (countStep refPlatform RefPmu.occur) x
      ([mapEventId 0, mapEventId 0].map .occur ++ [.getCounters])
    ((deltaPmu x.cfg.snapshot y.cfg.snapshot ⟨fun _ => 0⟩).counterValue 0).toNat = 2 :=
  (delta_counts_interval_iff refPlatform_counts refWideConfig ⟨.start, .start, [], []⟩
    (by decide +kernel) [.resetCounters] [mapEventId 0, mapEventId 0] ⟨fun _ => 0⟩
    (by decide +kernel)).mpr (by decide +kernel) 0 (by decide) (by decide +kernel)

/-- One occurrence before each of two snapshots: the counts agree, and their difference is zero. -/
theorem delta_loses_equal_interval :
    let start : CountSession RefPmu :=
      ⟨(pmuInit refPlatform refWideConfig ⟨.start, .start, [], []⟩).2.1,
        (pmuInit refPlatform refWideConfig ⟨.start, .start, [], []⟩).2.2⟩
    let x := run (countStep refPlatform RefPmu.occur) start
      ([.occur (mapEventId 0)] ++ [.getCounters])
    let y := run (countStep refPlatform RefPmu.occur) x
      ([mapEventId 0].map .occur ++ [.getCounters])
    (pmuInit refPlatform refWideConfig ⟨.start, .start, [], []⟩).1 = statusSuccess ∧
    refWideConfig.events 0 = ⟨true, mapEventId 0, .size32⟩ ∧
    [mapEventId 0].count (mapEventId 0) = 1 ∧
    ((deltaPmu x.cfg.snapshot y.cfg.snapshot ⟨fun _ => 0⟩).counterValue 0).toNat = 0 := by
  decide +kernel

end NsxPmu
