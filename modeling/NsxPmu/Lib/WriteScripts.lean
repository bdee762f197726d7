import Mathlib.Data.List.Basic

set_option autoImplicit false

/-!
# Scripts of writes

A program hands blocks to a sink one after the other and stops at the first block
that the sink does not take, or at a place where the program itself gives up.
-/
namespace WriteScripts

variable {β ε : Type*}

/-- The blocks a script handed over, each with the answer of the sink, and the status the script
ended with. The script gives up at a `none`. -/
inductive Outcome (ok refused : ε) : List (Option β) → List (β × ε) → ε → Prop
  | done : Outcome ok refused [] [] ok
  | gaveUp (rest : List (Option β)) : Outcome ok refused (none :: rest) [] refused
  | failed (block : β) (rest : List (Option β)) {status : ε} (bad : status ≠ ok) :
      Outcome ok refused (some block :: rest) [(block, status)] status
  | next (block : β) {rest : List (Option β)} {calls : List (β × ε)} {status : ε}
      (later : Outcome ok refused rest calls status) :
      Outcome ok refused (some block :: rest) ((block, ok) :: calls) status

/-- The blocks up to the place where the script gives up. -/
def text : List (Option β) → List β
  | [] => []
  | none :: _ => []
  | some block :: rest => block :: text rest

variable {ok refused status : ε} {script : List (Option β)} {calls : List (β × ε)}

theorem Outcome.prefix_text (h : Outcome ok refused script calls status) :
    calls.map Prod.fst <+: text script := by
  induction h with
  | done => exact List.prefix_refl _
  | gaveUp rest => exact List.prefix_refl _
  | failed block rest bad => exact ⟨text rest, rfl⟩
  | next block later ih =>
    obtain ⟨more, eq⟩ := ih
    exact ⟨more, congrArg (block :: ·) eq⟩

theorem Outcome.failure_last (h : Outcome ok refused script calls status) {before : List (β × ε)}
    {block : β} {answer : ε} {after : List (β × ε)} (eq : calls = before ++ (block, answer) :: after)
    (bad : answer ≠ ok) : after = [] ∧ status = answer := by
  induction h generalizing before with
  | done => simp at eq
  | gaveUp rest => simp at eq
  | failed block' rest bad' =>
    cases before with
    | nil =>
      obtain ⟨here, rfl⟩ := List.cons.inj eq
      exact ⟨rfl, congrArg Prod.snd here⟩
    | cons first before => simp at eq
  | next block' later ih =>
    cases before with
    | nil =>
      obtain ⟨here, -⟩ := List.cons.inj eq
      exact absurd (congrArg Prod.snd here).symm bad
    | cons first before => exact ih (List.cons.inj eq).2

theorem Outcome.taken (h : Outcome ok refused script calls status)
    (all : ∀ call ∈ calls, call.2 = ok) : calls = (text script).map fun block => (block, ok) := by
  induction h with
  | done => rfl
  | gaveUp rest => rfl
  | failed block rest bad => exact absurd (all _ List.mem_cons_self) bad
  | next block later ih =>
    rw [ih fun call member => all call (List.mem_cons_of_mem _ member)]
    rfl

theorem Outcome.ok_iff (h : Outcome ok refused script calls status) (distinct : refused ≠ ok) :
    status = ok ↔ (∀ call ∈ calls, call.2 = ok) ∧ none ∉ script := by
  induction h with
  | done => simp
  | gaveUp rest => simp [distinct]
  | failed block rest bad => simp [bad]
  | next block later ih => simp [ih]

theorem Outcome.refused_of_taken (h : Outcome ok refused script calls status)
    (all : ∀ call ∈ calls, call.2 = ok) (gives : none ∈ script) : status = refused := by
  induction h with
  | done => simp at gives
  | gaveUp rest => rfl
  | failed block rest bad => exact absurd (all _ List.mem_cons_self) bad
  | next block later ih =>
    exact ih (fun call member => all call (List.mem_cons_of_mem _ member)) (by simpa using gives)

end WriteScripts
