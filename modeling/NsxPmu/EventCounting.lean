import NsxPmu.ReferencePmu
import NsxPmu.Lib.ChainedCounters
import NsxPmu.Lib.LabelledRuns
import Mathlib.Data.BitVec

set_option autoImplicit false

/-!
# Counting events

Between two marks (the programming of the PMU, a reset, a read-out) the counters
of a slot hold the number of occurrences of its event, and a read-out returns it.
-/
namespace NsxPmu
open ConsecutiveIntervals ChainedCounters LabelledRuns

variable {H : Type} {P : Platform H} {evtyper : H → ℕ → Word} {enabled : H → ℕ → Bool}
  {occur : Word → H → H}

/-- What happens to a programmed PMU: one occurrence of an event, or a call. -/
inductive CountCall where
  | occur (event : Word)
  | resetCounters
  | getCounters

structure CountSession (H : Type) where
  cfg : PmuConfig
  pmu : Pmu H

def countStep (P : Platform H) (occur : Word → H → H) (x : CountSession H) :
    CountCall → CountSession H
  | .occur event => { x with pmu := { x.pmu with hw := occur event x.pmu.hw } }
  | .resetCounters => { x with pmu := pmuResetCounters P x.pmu }
  | .getCounters => ⟨(pmuGetCounters P x.cfg x.pmu).2.1, (pmuGetCounters P x.cfg x.pmu).2.2⟩

/-- The occurrences of an event since the last mark. -/
def tally (event : Word) (n : ℕ) : CountCall → ℕ
  | .occur other => if other = event then n + 1 else n
  | .resetCounters => 0
  | .getCounters => 0

def CounterSize.modulus : CounterSize → ℕ
  | .size32 => 2 ^ 32
  | _ => 2 ^ 16

/-- The counters from `base` on hold `n` occurrences of the event of a slot. -/
structure Holds (P : Platform H) (evtyper : H → ℕ → Word) (enabled : H → ℕ → Bool) (e : PmuEvent)
    (base n : ℕ) (hw : H) : Prop where
  bound : base < maxCounters
  event : evtyper hw base = e.eventId
  plain : e.eventId ≠ armPmuChain
  on : enabled hw base = true
  low : (P.getEvcntr base hw).toNat = n % 65536
  even : e.counterSize = .size32 → base % 2 = 0
  next : e.counterSize = .size32 → base + 1 < maxCounters
  chain : e.counterSize = .size32 → evtyper hw (base + 1) = armPmuChain
  chainOn : e.counterSize = .size32 → enabled hw (base + 1) = true
  high : e.counterSize = .size32 → (P.getEvcntr (base + 1) hw).toNat = n / 65536 % 65536

theorem Holds.occurs (laws : Counts P evtyper enabled occur) {e : PmuEvent} {base n : ℕ} {hw : H}
    (h : Holds P evtyper enabled e base n hw) (event : Word) :
    Holds P evtyper enabled e base (tally e.eventId n (.occur event)) (occur event hw) := by
  have kept := laws.occurs event hw base h.bound
  have plain : evtyper hw base ≠ armPmuChain := by
    rw [h.event]
    exact h.plain
  have lower := laws.event event hw base h.bound plain
  rw [h.event, h.on, h.low] at lower
  refine ⟨h.bound, kept.1.trans h.event, h.plain, kept.2.trans h.on, ?_, h.even, h.next, ?_, ?_, ?_⟩
  · rw [lower, tally]
    by_cases mine : event = e.eventId
    · rw [if_pos ⟨rfl, mine.symm⟩, if_pos mine]
      exact lowTick_mod 65536 n
    · rw [if_neg fun both => mine both.2.symm, if_neg mine]
  · intro wide
    exact (laws.occurs event hw _ (h.next wide)).1.trans (h.chain wide)
  · intro wide
    exact (laws.occurs event hw _ (h.next wide)).2.trans (h.chainOn wide)
  · intro wide
    have upper := laws.chain event hw base (h.next wide) (h.even wide) plain (h.chain wide)
    rw [h.chainOn wide, h.on, h.event, h.low, h.high wide] at upper
    rw [upper, tally]
    have carry := highTick_div (b := 65536) (by omega) n
    unfold highTick at carry
    by_cases mine : event = e.eventId
    · rw [if_pos mine, ← carry]
      by_cases wraps : n % 65536 = 65535
      · rw [if_pos ⟨rfl, rfl, mine.symm, wraps⟩, if_pos (by omega)]
      · rw [if_neg fun all => wraps all.2.2.2, if_neg (by omega)]
    · rw [if_neg fun all => mine all.2.2.1.symm, if_neg mine]

theorem Holds.zeroed {e : PmuEvent} {base n : ℕ} {hw hw' : H}
    (h : Holds P evtyper enabled e base n hw)
    (kept : ∀ k < maxCounters, evtyper hw' k = evtyper hw k)
    (on : ∀ k < maxCounters, enabled hw k = true → enabled hw' k = true)
    (zero : ∀ k < maxCounters, P.getEvcntr k hw' = 0) :
    Holds P evtyper enabled e base 0 hw' where
  bound := h.bound
  event := (kept _ h.bound).trans h.event
  plain := h.plain
  on := on _ h.bound h.on
  low := by
    rw [zero _ h.bound]
    rfl
  even := h.even
  next := h.next
  chain := fun wide => (kept _ (h.next wide)).trans (h.chain wide)
  chainOn := fun wide => on _ (h.next wide) (h.chainOn wide)
  high := by
    intro wide
    rw [zero _ (h.next wide)]
    rfl

theorem Counts.resetCounters (laws : Counts P evtyper enabled occur) (s : Pmu H) {k : ℕ}
    (hk : k < maxCounters) :
    evtyper (pmuResetCounters P s).hw k = evtyper s.hw k ∧
    enabled (pmuResetCounters P s).hw k = enabled s.hw k ∧
    P.getEvcntr k (pmuResetCounters P s).hw = 0 := by
  have cycle := laws.cyccntReset s.hw k hk
  have events := laws.evcntrAllReset (P.cyccntReset s.hw) k hk
  have flags := laws.setCntrOvs validOvsclrs (P.evcntrAllReset (P.cyccntReset s.hw)) k hk
  exact ⟨flags.1.trans (events.1.trans cycle.1), flags.2.1.trans (events.2.1.trans cycle.2.1),
    flags.2.2.trans events.2.2⟩

theorem Counts.paused (laws : Counts P evtyper enabled occur) (s : Pmu H) {k : ℕ}
    (hk : k < maxCounters) :
    evtyper (pausedHw P s) k = evtyper s.hw k ∧ P.getEvcntr k (pausedHw P s) = P.getEvcntr k s.hw := by
  unfold pausedHw NsxPmu.cntrDisable
  split
  · exact ⟨rfl, rfl⟩
  · have stopped := laws.cntrDisable s.driver.ambiqPmuConfig.counters s.hw k hk
    exact ⟨stopped.1, stopped.2.2⟩

theorem Counts.resumed (laws : Counts P evtyper enabled occur) {events : ℕ → PmuEvent} {s : Pmu H}
    (layout : Layout events s.driver) {k : ℕ} (hk : k < maxCounters) :
    evtyper (resumedHw P s) k = evtyper s.hw k ∧
    (enabled s.hw k = true → enabled (resumedHw P s) k = true) ∧
    P.getEvcntr k (resumedHw P s) = 0 := by
  rw [layout.resumedHw_eq]
  have stopped := laws.cntrDisable s.driver.ambiqPmuConfig.counters s.hw k hk
  have cleared := laws.resetCounters
    { s with hw := P.cntrDisable s.driver.ambiqPmuConfig.counters s.hw } hk
  dsimp only [pmuResetCounters] at cleared
  have started := laws.cntrEnable s.driver.ambiqPmuConfig.counters (P.setCntrOvs validOvsclrs
    (P.evcntrAllReset (P.cyccntReset (P.cntrDisable s.driver.ambiqPmuConfig.counters s.hw)))) k hk
  refine ⟨started.1.trans (cleared.1.trans stopped.1), ?_, started.2.2.trans cleared.2.2⟩
  intro on
  rw [started.2.1, cleared.2.1, stopped.2.1, on]
  cases s.driver.ambiqPmuConfig.counters.getLsbD k <;> rfl

theorem Holds.reading (laws : Counts P evtyper enabled occur) {events : ℕ → PmuEvent} {i base n : ℕ}
    {s : Pmu H} (h : Holds P evtyper enabled (events i) base n s.hw) :
    (slotReading P (pausedHw P s) events i base).toNat = n % (events i).counterSize.modulus := by
  unfold slotReading
  by_cases wide : (events i).counterSize = .size32
  · have value := pair_value 65536 n
    have high := Nat.mod_lt (n / 65536) (y := 65536) (by omega)
    have low := Nat.mod_lt n (y := 65536) (by omega)
    rw [if_pos wide, pairReading_eq, (laws.paused s h.bound).2, (laws.paused s (h.next wide)).2,
      BitVec.toNat_add, BitVec.toNat_mul, h.low, h.high wide, wide]
    dsimp only [CounterSize.modulus]
    have factor : (65536 : Word).toNat = 65536 := rfl
    have square : 65536 * 65536 = 2 ^ 32 := rfl
    rw [factor, Nat.mod_eq_of_lt (a := 65536 * _) (by omega), value, Nat.mod_mod, square]
  · have narrow : (events i).counterSize.modulus = 65536 := by
      cases size : (events i).counterSize with
      | size32 => exact absurd size wide
      | size16 => rfl
      | other raw => rfl
    rw [if_neg wide, (laws.paused s h.bound).2, h.low, narrow]

/-- The 32-bit slots come first, so each of them starts at an even counter. -/
theorem wide_base_even {events : ℕ → PmuEvent} {p : ℕ × ℕ}
    (placed : p ∈ place (width events) 0 (allocationOrder events))
    (wide : (events p.1).counterSize = .size32) : p.2 % 2 = 0 := by
  rw [allocationOrder, place_append, List.mem_append] at placed
  rcases placed with first | second
  · have two : ∀ i ∈ enabledSlots events .size32, width events i = 2 :=
      fun i hi => width_of_size32 (mem_enabledSlots.mp hi).2.2
    obtain ⟨k, hk⟩ := place_const_start two first
    omega
  · have narrow := (mem_enabledSlots.mp (mem_of_mem_place second)).2.2
    rw [wide] at narrow
    cases narrow

/-- A session of the events `want`: the caller's configuration asks for them and the driver
reads the counters as they were laid out for them. -/
structure SessionOf (want : ℕ → PmuEvent) (x : CountSession H) : Prop where
  events : x.cfg.events = want
  layout : Layout want x.pmu.driver
  initialized : x.pmu.driver.initialized = true
  profiling : x.pmu.driver.profiling = true

theorem SessionOf.step {want : ℕ → PmuEvent} {x : CountSession H} (session : SessionOf want x)
    (call : CountCall) : SessionOf want (countStep P occur x call) := by
  cases call with
  | occur event =>
    exact ⟨session.events, session.layout, session.initialized, session.profiling⟩
  | resetCounters =>
    exact ⟨session.events, session.layout, session.initialized, session.profiling⟩
  | getCounters =>
    have frame := pmuGetCounters_frame P x.cfg x.pmu
    refine ⟨frame.events.trans session.events, ?_, ?_, ?_⟩
    all_goals dsimp only [countStep]
    all_goals rw [frame.driver]
    · exact session.layout
    · exact session.initialized
    · exact session.profiling

/-- A session in which the slot `p.1`, laid out from the counter `p.2` on, holds `n`. -/
structure Counting (P : Platform H) (evtyper : H → ℕ → Word) (enabled : H → ℕ → Bool)
    (want : ℕ → PmuEvent) (p : ℕ × ℕ) (x : CountSession H) (n : ℕ) : Prop where
  session : SessionOf want x
  holds : Holds P evtyper enabled (want p.1) p.2 n x.pmu.hw

theorem counting_of_init (laws : Counts P evtyper enabled occur) {cfg : PmuConfig} {s : Pmu H}
    (ok : (pmuInit P cfg s).1 = statusSuccess) {p : ℕ × ℕ}
    (placed : p ∈ place (width cfg.events) 0 (allocationOrder cfg.events)) :
    Counting P evtyper enabled cfg.events p ⟨(pmuInit P cfg s).2.1, (pmuInit P cfg s).2.2⟩ 0 := by
  obtain ⟨staged, known, initialized, profiling, hw, programmed, eq⟩ := pmuInit_session ok
  have layout := staged.layout
  have size := layout.size
  have inside := place_bounds placed
  have slot := mem_allocationOrder.mp (mem_of_mem_place placed)
  have pos := width_pos cfg.events p.1
  have bound : p.2 < maxCounters := by omega
  have start : ∀ k < maxCounters,
      evtyper (pmuInit P cfg s).2.2.hw k =
        (pmuInit P cfg s).2.2.driver.ambiqPmuConfig.eventTypes k ∧
      enabled (pmuInit P cfg s).2.2.hw k =
        (pmuInit P cfg s).2.2.driver.ambiqPmuConfig.counters.getLsbD k ∧
      P.getEvcntr k (pmuInit P cfg s).2.2.hw = 0 := by
    intro k hk
    rw [eq]
    exact laws.init _ hw programmed k hk
  have on : ∀ k < maxCounters, k < extent (width cfg.events) (allocationOrder cfg.events) →
      enabled (pmuInit P cfg s).2.2.hw k = true := by
    intro k hk used
    rw [(start k hk).2.1]
    exact (layout.counters k (by dsimp only [maxCounters] at hk; omega)).mpr (.inr used)
  have next : (cfg.events p.1).counterSize = .size32 →
      p.2 + 1 < extent (width cfg.events) (allocationOrder cfg.events) := by
    intro wide
    rw [width_of_size32 wide] at inside
    omega
  refine ⟨⟨staged.events, layout, initialized, profiling⟩, bound, ?_, ?_, on _ bound (by omega), ?_,
    wide_base_even placed, fun wide => (next wide).trans_le size, ?_, ?_, ?_⟩
  · rw [(start _ bound).1, layout.types p placed]
  · obtain ⟨m, hm⟩ := Option.isSome_iff_exists.mp (known p.1 slot.1 slot.2.1)
    obtain ⟨hm, id⟩ := getMapIndex_some hm
    rw [← id]
    exact mapEventId_ne_chain m hm
  · rw [(start _ bound).2.2]
    rfl
  · intro wide
    rw [(start _ ((next wide).trans_le size)).1]
    exact layout.chained p placed wide
  · exact fun wide => on _ ((next wide).trans_le size) (next wide)
  · intro wide
    rw [(start _ ((next wide).trans_le size)).2.2]
    rfl

theorem Counting.step (laws : Counts P evtyper enabled occur) {want : ℕ → PmuEvent} {p : ℕ × ℕ}
    {x : CountSession H} {n : ℕ} (c : Counting P evtyper enabled want p x n) (call : CountCall) :
    Counting P evtyper enabled want p (countStep P occur x call)
      (tally (want p.1).eventId n call) := by
  refine ⟨c.session.step call, ?_⟩
  cases call with
  | occur event => exact c.holds.occurs laws event
  | resetCounters =>
    refine c.holds.zeroed ?_ ?_ ?_
    · exact fun k hk => (laws.resetCounters x.pmu hk).1
    · intro k hk on
      exact (laws.resetCounters x.pmu hk).2.1.trans on
    · exact fun k hk => (laws.resetCounters x.pmu hk).2.2
  | getCounters =>
    dsimp only [countStep, tally]
    rw [pmuGetCounters_ready x.cfg c.session.initialized c.session.profiling]
    refine c.holds.zeroed ?_ ?_ ?_
    · exact fun k hk => (laws.resumed c.session.layout hk).1
    · exact fun k hk => (laws.resumed c.session.layout hk).2.1
    · exact fun k hk => (laws.resumed c.session.layout hk).2.2

theorem counting_run (laws : Counts P evtyper enabled occur) {cfg : PmuConfig} {s : Pmu H}
    (ok : (pmuInit P cfg s).1 = statusSuccess) (calls : List CountCall) {i : ℕ}
    (hi : i < maxCounters) (on : (cfg.events i).enabled = true) :
    ∃ base, (i, base) ∈ place (width cfg.events) 0 (allocationOrder cfg.events) ∧
      Counting P evtyper enabled cfg.events (i, base)
        (run (countStep P occur) ⟨(pmuInit P cfg s).2.1, (pmuInit P cfg s).2.2⟩ calls)
        (run (tally (cfg.events i).eventId) 0 calls) := by
  obtain ⟨base, placed⟩ := exists_place (width cfg.events) 0
    ((pmuInit_session ok).staged.slots i hi on)
  exact ⟨base, placed,
    run_simulation (fun _ _ call c => c.step laws call) (counting_of_init laws ok placed) calls⟩

theorem Counting.readout (laws : Counts P evtyper enabled occur) {want : ℕ → PmuEvent} {i base : ℕ}
    {x : CountSession H} {n : ℕ} (c : Counting P evtyper enabled want (i, base) x n)
    (placed : (i, base) ∈ place (width want) 0 (allocationOrder want)) :
    ((pmuGetCounters P x.cfg x.pmu).2.1.counter i).counterValue.toNat =
      n % (want i).counterSize.modulus := by
  have events := c.session.events
  have own : Layout x.cfg.events x.pmu.driver := by
    rw [events]
    exact c.session.layout
  have read := (pmuGetCounters_layout (P := P) own c.session.initialized c.session.profiling).1
    (i, base) (by rwa [events])
  rw [read, events]
  exact c.holds.reading laws

/-- From a successful call of `nsx_pmu_init` on, whatever occurs and is called, a read-out
succeeds and gives every enabled slot the number of occurrences of its event since the last
mark, modulo the size of the slot. -/
theorem pmu_counts_occurrences (laws : Counts P evtyper enabled occur) (cfg : PmuConfig) (s : Pmu H)
    (ok : (pmuInit P cfg s).1 = statusSuccess) (calls : List CountCall) :
    let x := run (countStep P occur) ⟨(pmuInit P cfg s).2.1, (pmuInit P cfg s).2.2⟩ calls
    (pmuGetCounters P x.cfg x.pmu).1 = statusSuccess ∧
    ∀ i < maxCounters, (cfg.events i).enabled = true →
      ((pmuGetCounters P x.cfg x.pmu).2.1.counter i).counterValue.toNat =
        run (tally (cfg.events i).eventId) 0 calls % (cfg.events i).counterSize.modulus := by
  intro x
  have programmed := pmuInit_session ok
  have session : SessionOf cfg.events x := run_invariant_of_step
    (fun _ call session => session.step call)
    ⟨programmed.staged.events, programmed.staged.layout, programmed.initialized,
      programmed.profiling⟩ calls
  refine ⟨(pmuGetCounters_frame P x.cfg x.pmu).status.mpr
    ⟨session.initialized, session.profiling⟩, ?_⟩
  intro i hi on
  obtain ⟨base, placed, counting⟩ := counting_run laws ok calls hi on
  exact counting.readout laws placed

def refMixedConfig : PmuConfig :=
  { PmuConfig.zero with
      api := some pmuV1_0_0
      events := fun i =>
        if i = 2 then ⟨true, mapEventId 0, .size16⟩
        else if i = 5 then ⟨true, mapEventId 0, .size32⟩
        else if i = 6 then ⟨true, mapEventId 1, .size16⟩
        else ⟨false, 0, .size16⟩ }

theorem pmu_counts_occurrences_ref :
    let x := run (countStep refPlatform RefPmu.occur)
      ⟨(pmuInit refPlatform refMixedConfig ⟨.start, .start, [], []⟩).2.1,
        (pmuInit refPlatform refMixedConfig ⟨.start, .start, [], []⟩).2.2⟩
      [.occur (mapEventId 0), .getCounters, .occur (mapEventId 0), .occur (mapEventId 1),
        .occur (mapEventId 0)]
    ((pmuGetCounters refPlatform x.cfg x.pmu).2.1.counter 5).counterValue.toNat = 2 :=
  (pmu_counts_occurrences refPlatform_counts refMixedConfig ⟨.start, .start, [], []⟩ (by decide)
    [.occur (mapEventId 0), .getCounters, .occur (mapEventId 0), .occur (mapEventId 1),
      .occur (mapEventId 0)]).2 5 (by decide) rfl

end NsxPmu
