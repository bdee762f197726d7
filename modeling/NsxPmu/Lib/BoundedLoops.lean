import Mathlib.Data.Nat.Basic

set_option autoImplicit false

/-!
# Loops with a budget

A loop whose body goes on or stops, run with a budget of rounds. An invariant
that says how many rounds are left gives the exact number of rounds and what
holds at the end.
-/
namespace BoundedLoops

variable {σ τ : Type*}

/-- The loop with a budget of `fuel` rounds; `none` when the budget does not suffice. -/
def loop (body : σ → σ ⊕ τ) : ℕ → σ → Option τ
  | 0, _ => none
  | fuel + 1, s =>
    match body s with
    | .inl s' => loop body fuel s'
    | .inr t => some t

variable {body : σ → σ ⊕ τ}

theorem loop_inl {s s' : σ} (goes : body s = .inl s') (fuel : ℕ) :
    loop body (fuel + 1) s = loop body fuel s' := by
  rw [loop, goes]

theorem loop_inr {s : σ} {t : τ} (stops : body s = .inr t) (fuel : ℕ) :
    loop body (fuel + 1) s = some t := by
  rw [loop, stops]

/-- A loop with `n` rounds left before its last one ends with that one, and no earlier. -/
theorem loop_ends {I : ℕ → σ → Prop} {Q : τ → Prop}
    (next : ∀ n s, I (n + 1) s → ∃ s', body s = .inl s' ∧ I n s')
    (last : ∀ s, I 0 s → ∃ t, body s = .inr t ∧ Q t) {n : ℕ} {s : σ} (h : I n s) :
    ∃ t, Q t ∧ ∀ fuel, loop body fuel s = if n < fuel then some t else none := by
  induction n generalizing s with
  | zero =>
    obtain ⟨t, stops, good⟩ := last s h
    refine ⟨t, good, fun fuel => ?_⟩
    cases fuel with
    | zero => rfl
    | succ fuel => rw [loop_inr stops, if_pos (Nat.succ_pos fuel)]
  | succ n ih =>
    obtain ⟨s', goes, rest⟩ := next n s h
    obtain ⟨t, good, ends⟩ := ih rest
    refine ⟨t, good, fun fuel => ?_⟩
    cases fuel with
    | zero => rfl
    | succ fuel =>
      rw [loop_inl goes, ends]
      exact if_congr Nat.succ_lt_succ_iff.symm rfl rfl

end BoundedLoops
