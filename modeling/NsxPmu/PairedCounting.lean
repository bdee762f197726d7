import NsxPmu.EventCounting
import NsxPmu.PairedSlots

set_option autoImplicit false

/-!
# Pairs that count

The PMU as a collector sees it: every pair of counters holds the occurrences of
the event of its slot since the last mark, and a read-out hands the counts over
and starts them anew.
-/
namespace NsxPmu
open Function (update)

variable {H : Type} {P : Platform H} {evtyper : H → ℕ → Word} {enabled : H → ℕ → Bool}
  {occur : Word → H → H} {n : ℕ} {id : ℕ → Word} {cfg : PmuConfig} {s : Pmu H} {since : Word → ℕ}

/-- The PMU is set up for the paired slots of a configuration, and every pair holds the count
that `since` gives for its event. -/
structure PairsCount (P : Platform H) (evtyper : H → ℕ → Word) (enabled : H → ℕ → Bool) (n : ℕ)
    (id : ℕ → Word) (cfg : PmuConfig) (s : Pmu H) (since : Word → ℕ) : Prop where
  slots : PairedSlots n id cfg.events
  few : n ≤ 4
  session : SessionOf cfg.events ⟨cfg, s⟩
  holds : ∀ i < n, Holds P evtyper enabled (cfg.events i) (2 * i) (since (id i)) s.hw

theorem PairsCount.counting (count : PairsCount P evtyper enabled n id cfg s since) {i : ℕ}
    (hi : i < n) :
    Counting P evtyper enabled cfg.events (i, 2 * i) ⟨cfg, s⟩ (since (id i)) :=
  ⟨count.session, count.holds i hi⟩

theorem PairsCount.eventId (count : PairsCount P evtyper enabled n id cfg s since) {i : ℕ}
    (hi : i < n) : (cfg.events i).eventId = id i := by
  rw [count.slots.on count.few hi]

theorem pairsCount_of_init (laws : Counts P evtyper enabled occur)
    (slots : PairedSlots n id cfg.events) (few : n ≤ 4)
    (ok : (pmuInit P cfg s).1 = statusSuccess) :
    PairsCount P evtyper enabled n id (pmuInit P cfg s).2.1 (pmuInit P cfg s).2.2 fun _ => 0 := by
  obtain ⟨events, layout, initialized, profiling⟩ := pmuInit_success ok
  refine ⟨by rwa [events], few, ⟨rfl, by rwa [events], initialized, profiling⟩, ?_⟩
  intro i hi
  rw [events]
  exact (counting_of_init laws ok (slots.placed few hi)).holds

theorem PairsCount.occurs (laws : Counts P evtyper enabled occur)
    (count : PairsCount P evtyper enabled n id cfg s since) (event : Word) :
    PairsCount P evtyper enabled n id cfg { s with hw := occur event s.hw }
      (update since event (since event + 1)) := by
  have session : SessionOf cfg.events (countStep P occur ⟨cfg, s⟩ (.occur event)) :=
    count.session.step _
  refine ⟨count.slots, count.few, session, ?_⟩
  intro i hi
  have next := ((count.counting hi).step laws (.occur event)).holds
  dsimp only [countStep, tally] at next
  rw [count.eventId hi] at next
  by_cases mine : event = id i
  · subst mine
    rw [Function.update_self]
    rwa [if_pos rfl] at next
  · rw [Function.update_of_ne (Ne.symm mine)]
    rwa [if_neg mine] at next

theorem PairsCount.resetCounters (laws : Counts P evtyper enabled occur)
    (count : PairsCount P evtyper enabled n id cfg s since) :
    PairsCount P evtyper enabled n id cfg (pmuResetCounters P s) fun _ => 0 := by
  have session : SessionOf cfg.events (countStep P occur ⟨cfg, s⟩ .resetCounters) :=
    count.session.step _
  exact ⟨count.slots, count.few, session,
    fun i hi => ((count.counting hi).step laws .resetCounters).holds⟩

theorem PairsCount.getCounters (laws : Counts P evtyper enabled occur)
    (count : PairsCount P evtyper enabled n id cfg s since) :
    (pmuGetCounters P cfg s).1 = statusSuccess ∧
    (∀ i < n, ((pmuGetCounters P cfg s).2.1.counter i).counterValue.toNat =
      since (id i) % 2 ^ 32) ∧
    PairsCount P evtyper enabled n id (pmuGetCounters P cfg s).2.1 (pmuGetCounters P cfg s).2.2
      fun _ => 0 := by
  have frame := pmuGetCounters_frame P cfg s
  have session : SessionOf cfg.events (countStep P occur ⟨cfg, s⟩ .getCounters) :=
    count.session.step _
  refine ⟨frame.status.mpr ⟨count.session.initialized, count.session.profiling⟩, ?_, ?_⟩
  · intro i hi
    have read := (count.counting hi).readout laws (count.slots.placed count.few hi)
    rw [count.slots.on count.few hi] at read
    exact read
  · refine ⟨by rw [frame.events]; exact count.slots, count.few, by rw [frame.events]; exact session, ?_⟩
    intro i hi
    rw [frame.events]
    exact ((count.counting hi).step laws .getCounters).holds

end NsxPmu
