import NsxPmu.Lib.LabelledRuns
import Mathlib.Logic.Function.Basic

set_option autoImplicit false

/-!
# Counts of windows

A meter counts occurrences of events since its last mark, and a sample adds the
counts of chosen events to chosen cells and marks. What a cell holds is the
number of occurrences that a sample closes the window of, which speaks of the
history alone.
-/
namespace WindowCounts
open LabelledRuns
open Function (update)

variable {ε κ : Type*}

/-- What a meter is told. A sample adds to the cell `k` the count of the event `read k`. -/
inductive Tick (ε κ : Type*) where
  | occur (event : ε)
  | mark
  | sample (read : κ → Option ε)

structure Meter (ε κ : Type*) where
  since : ε → ℕ
  total : κ → ℕ

def Meter.zero : Meter ε κ := ⟨fun _ => 0, fun _ => 0⟩

theorem elim_zero (o : Option ε) : o.elim 0 (fun _ => 0) = 0 := by
  cases o <;> rfl

variable [DecidableEq ε]

def meterStep (m : Meter ε κ) : Tick ε κ → Meter ε κ
  | .occur event => { m with since := update m.since event (m.since event + 1) }
  | .mark => { m with since := fun _ => 0 }
  | .sample read => ⟨fun _ => 0, fun k => m.total k + (read k).elim 0 m.since⟩

theorem run_occurs (m : Meter ε κ) (events : List ε) :
    run meterStep m (events.map .occur) =
      ⟨fun e => m.since e + events.count e, m.total⟩ := by
  induction events generalizing m with
  | nil => rfl
  | cons event events ih =>
    rw [List.map_cons, run_cons, ih]
    simp only [meterStep, List.count_cons]
    congr 1
    funext e
    by_cases here : event = e
    · subst here
      simp only [Function.update_self, beq_self_eq_true, if_true]
      omega
    · simp [Function.update_of_ne (Ne.symm here), here]

theorem run_window (m : Meter ε κ) (before events : List ε) (read : κ → Option ε) :
    run meterStep m (before.map .occur ++ .mark :: (events.map .occur ++ [.sample read])) =
      ⟨fun _ => 0, fun k => m.total k + (read k).elim 0 (events.count ·)⟩ := by
  rw [run_append, run_occurs, run_cons, run_append, run_occurs, run_cons, run_nil]
  simp only [meterStep, Nat.zero_add]

/-- The event that the window which is open now will be read for, on behalf of the cell `k`. -/
def nextRead (k : κ) : List (Tick ε κ) → Option ε
  | [] => none
  | .occur _ :: rest => nextRead k rest
  | .mark :: _ => none
  | .sample read :: _ => read k

/-- The occurrences in a history whose window is closed by a sample that reads their event
for the cell `k`. -/
def credited (k : κ) : List (Tick ε κ) → ℕ
  | [] => 0
  | .occur event :: rest => (if nextRead k rest = some event then 1 else 0) + credited k rest
  | .mark :: rest => credited k rest
  | .sample _ :: rest => credited k rest

/-- A cell ends up with what it held, what the open window held of the event it is read for,
and the occurrences credited to it. -/
theorem total_run (m : Meter ε κ) (l : List (Tick ε κ)) (k : κ) :
    (run meterStep m l).total k = m.total k + (nextRead k l).elim 0 m.since + credited k l := by
  induction l generalizing m with
  | nil => rfl
  | cons tick l ih =>
    rw [run_cons, ih]
    cases tick with
    | mark => simp only [meterStep, nextRead, credited, elim_zero, Option.elim_none]
    | sample read => simp only [meterStep, nextRead, credited, elim_zero, Nat.add_zero]
    | occur event =>
      simp only [meterStep, nextRead, credited]
      cases ahead : nextRead k l with
      | none => simp
      | some read =>
        by_cases same : read = event
        · subst same
          simp only [Option.elim_some, Function.update_self, if_true]
          omega
        · have other : ¬ some read = some event := fun h => same (Option.some.inj h)
          simp only [Option.elim_some, Function.update_of_ne same, if_neg other]
          omega

theorem total_run_zero (l : List (Tick ε κ)) (k : κ) :
    (run meterStep .zero l).total k = credited k l := by
  rw [total_run, Meter.zero]
  dsimp only
  rw [elim_zero, Nat.zero_add]

end WindowCounts
