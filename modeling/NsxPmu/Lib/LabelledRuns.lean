import Mathlib.Data.List.Basic
import Mathlib.Algebra.Group.Defs

set_option autoImplicit false

/-!
# Runs of a deterministic labelled machine

A machine is a step function `σ → α → σ`. A run is a list of labels; the facts
below carry one-step facts to whole runs, with a condition that the steps of
the run may have to meet, and read off what a run lets an observer see.
-/
namespace LabelledRuns

variable {σ τ α β : Type*}

/-- The state reached from `s` when the labels are taken in order. -/
def run (step : σ → α → σ) : σ → List α → σ
  | s, [] => s
  | s, a :: l => run step (step s a) l

/-- Every step of the run meets `ok`, read at the state before the step. -/
def AllSteps (step : σ → α → σ) (ok : σ → α → Prop) : σ → List α → Prop
  | _, [] => True
  | s, a :: l => ok s a ∧ AllSteps step ok (step s a) l

/-- What an observer of the steps sees along the run, in order. -/
def collect (step : σ → α → σ) (observe : σ → α → List β) : σ → List α → List β
  | _, [] => []
  | s, a :: l => observe s a ++ collect step observe (step s a) l

@[simp] theorem run_nil (step : σ → α → σ) (s : σ) : run step s [] = s := rfl

@[simp] theorem run_cons (step : σ → α → σ) (s : σ) (a : α) (l : List α) :
    run step s (a :: l) = run step (step s a) l := rfl

@[simp] theorem AllSteps_nil (step : σ → α → σ) (ok : σ → α → Prop) (s : σ) :
    AllSteps step ok s [] := trivial

@[simp] theorem AllSteps_cons (step : σ → α → σ) (ok : σ → α → Prop) (s : σ) (a : α) (l : List α) :
    AllSteps step ok s (a :: l) ↔ ok s a ∧ AllSteps step ok (step s a) l := Iff.rfl

@[simp] theorem collect_nil (step : σ → α → σ) (observe : σ → α → List β) (s : σ) :
    collect step observe s [] = [] := rfl

@[simp] theorem collect_cons (step : σ → α → σ) (observe : σ → α → List β) (s : σ) (a : α)
    (l : List α) :
    collect step observe s (a :: l) = observe s a ++ collect step observe (step s a) l := rfl

theorem run_append (step : σ → α → σ) (s : σ) (l k : List α) :
    run step s (l ++ k) = run step (run step s l) k := by
  induction l generalizing s with
  | nil => rfl
  | cons a l ih => exact ih (step s a)

theorem AllSteps_append (step : σ → α → σ) (ok : σ → α → Prop) (s : σ) (l k : List α) :
    AllSteps step ok s (l ++ k) ↔ AllSteps step ok s l ∧ AllSteps step ok (run step s l) k := by
  induction l generalizing s with
  | nil => simp
  | cons a l ih => simp [ih, and_assoc]

theorem collect_append (step : σ → α → σ) (observe : σ → α → List β) (s : σ) (l k : List α) :
    collect step observe s (l ++ k) =
      collect step observe s l ++ collect step observe (run step s l) k := by
  induction l generalizing s with
  | nil => rfl
  | cons a l ih => simp [ih, List.append_assoc]

/-- An invariant that the permitted steps preserve holds wherever a permitted run ends. -/
theorem run_invariant {step : σ → α → σ} {ok : σ → α → Prop} {I : σ → Prop}
    (preserved : ∀ s a, I s → ok s a → I (step s a)) {s : σ} {l : List α}
    (hs : I s) (hl : AllSteps step ok s l) : I (run step s l) := by
  induction l generalizing s with
  | nil => exact hs
  | cons a l ih => exact ih (preserved s a hs hl.1) hl.2

theorem run_invariant_of_step {step : σ → α → σ} {I : σ → Prop}
    (preserved : ∀ s a, I s → I (step s a)) {s : σ} (hs : I s) (l : List α) :
    I (run step s l) := by
  induction l generalizing s with
  | nil => exact hs
  | cons a l ih => exact ih (preserved s a hs)

theorem AllSteps_of_forall {step : σ → α → σ} {ok : σ → α → Prop} {l : List α}
    (h : ∀ a ∈ l, ∀ s, ok s a) (s : σ) : AllSteps step ok s l := by
  induction l generalizing s with
  | nil => trivial
  | cons a l ih => exact ⟨h a (by simp) s, ih (fun b hb => h b (by simp [hb])) _⟩

theorem run_stays {step : σ → α → σ} {s : σ} {l : List α} (stays : ∀ a ∈ l, step s a = s) :
    run step s l = s := by
  induction l with
  | nil => rfl
  | cons a l ih =>
    rw [run_cons, stays a (by simp)]
    exact ih fun b hb => stays b (by simp [hb])

theorem collect_stays {step : σ → α → σ} {observe : σ → α → List β} {s : σ} {l : List α}
    (stays : ∀ a ∈ l, step s a = s) : collect step observe s l = l.flatMap (observe s) := by
  induction l with
  | nil => rfl
  | cons a l ih =>
    rw [collect_cons, stays a (by simp), List.flatMap_cons, ih fun b hb => stays b (by simp [hb])]

theorem AllSteps_iff_states {step : σ → α → σ} {ok : σ → α → Prop} {I : σ → Prop}
    (good : σ → Prop) (preserved : ∀ s a, I s → I (step s a))
    (exact : ∀ s a, I s → good s → (good (step s a) ↔ ok s a)) {s : σ} (hs : I s) (start : good s)
    (l : List α) :
    AllSteps step ok s l ↔ ∀ before after, l = before ++ after → good (run step s before) := by
  induction l generalizing s with
  | nil =>
    refine ⟨fun _ before after eq => ?_, fun _ => trivial⟩
    obtain ⟨rfl, -⟩ := List.nil_eq_append_iff.mp eq
    exact start
  | cons a l ih =>
    rw [AllSteps_cons]
    constructor
    · rintro ⟨here, later⟩ before after eq
      have next := (exact s a hs start).mpr here
      cases before with
      | nil => exact start
      | cons b before =>
        obtain ⟨rfl, rfl⟩ : a = b ∧ l = before ++ after := by simpa using eq
        exact (ih (preserved s a hs) next).mp later before after rfl
    · intro h
      have next : good (step s a) := h [a] l rfl
      refine ⟨(exact s a hs start).mp next, (ih (preserved s a hs) next).mpr ?_⟩
      intro before after eq
      exact h (a :: before) after (by rw [eq, List.cons_append])

/-- A balance that every permitted step changes by what an observer sees is, after a run, the
balance before and all that was seen. -/
theorem run_ledger {M : Type*} [AddMonoid M] {step : σ → α → σ} {ok : σ → α → Prop} {I : σ → Prop}
    {observe : σ → α → List β} (balance : σ → M) (total : List β → M) (empty : total [] = 0)
    (append : ∀ l k, total (l ++ k) = total l + total k)
    (preserved : ∀ s a, I s → ok s a → I (step s a))
    (entry : ∀ s a, I s → ok s a → balance (step s a) = balance s + total (observe s a))
    {s : σ} {l : List α} (hs : I s) (hl : AllSteps step ok s l) :
    balance (run step s l) = balance s + total (collect step observe s l) := by
  induction l generalizing s with
  | nil => simp [empty]
  | cons a l ih =>
    have rest := ih (preserved s a hs hl.1) hl.2
    rw [run_cons, rest, entry s a hs hl.1, collect_cons, append, add_assoc]

theorem collect_forall {step : σ → α → σ} {ok : σ → α → Prop} {I : σ → Prop}
    {observe : σ → α → List β} {good : β → Prop}
    (preserved : ∀ s a, I s → ok s a → I (step s a))
    (shown : ∀ s a, I s → ok s a → ∀ b ∈ observe s a, good b)
    {s : σ} {l : List α} (hs : I s) (hl : AllSteps step ok s l) :
    ∀ b ∈ collect step observe s l, good b := by
  induction l generalizing s with
  | nil => simp
  | cons a l ih =>
    intro b hb
    rw [collect_cons, List.mem_append] at hb
    rcases hb with here | later
    · exact shown s a hs hl.1 b here
    · exact ih (preserved s a hs hl.1) hl.2 b later

theorem AllSteps_of_invariant {step : σ → α → σ} {ok good : σ → α → Prop} {I : σ → Prop}
    (preserved : ∀ s a, I s → ok s a → I (step s a)) (shown : ∀ s a, I s → ok s a → good s a)
    {s : σ} {l : List α} (hs : I s) (hl : AllSteps step ok s l) : AllSteps step good s l := by
  induction l generalizing s with
  | nil => trivial
  | cons a l ih => exact ⟨shown s a hs hl.1, ih (preserved s a hs hl.1) hl.2⟩

/-- Two machines in lockstep: a relation kept by every pair of steps relates the ends. -/
theorem run_simulation {step : σ → α → σ} {step' : τ → α → τ} {R : σ → τ → Prop}
    (kept : ∀ s t a, R s t → R (step s a) (step' t a)) {s : σ} {t : τ} (h : R s t) (l : List α) :
    R (run step s l) (run step' t l) := by
  induction l generalizing s t with
  | nil => exact h
  | cons a l ih => exact ih (kept s t a h)

/-- A machine whose steps are matched by what a schedule shows at them: a run is matched by all
that the schedule shows along it. -/
theorem run_scheduled {π : Type*} {step : σ → α → σ} {schedule : π → α → π}
    {observe : π → α → List β} {step' : τ → β → τ} {ok : σ → α → Prop} {R : σ → π → τ → Prop}
    (kept : ∀ s p t a, R s p t → ok s a → R (step s a) (schedule p a) (run step' t (observe p a)))
    {s : σ} {p : π} {t : τ} {l : List α} (h : R s p t) (hl : AllSteps step ok s l) :
    R (run step s l) (run schedule p l) (run step' t (collect schedule observe p l)) := by
  induction l generalizing s p t with
  | nil => exact h
  | cons a l ih =>
    rw [run_cons, run_cons, collect_cons, run_append]
    exact ih (kept s p t a h hl.1) hl.2

end LabelledRuns
