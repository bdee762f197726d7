import Mathlib.Data.Nat.ModEq

set_option autoImplicit false

/-!
# Chained counters

Two counters of base `b`, the upper of which advances when the lower one wraps,
are one counter of base `b * b`.
-/
namespace ChainedCounters

def lowTick (b low : ℕ) : ℕ := (low + 1) % b

def highTick (b low high : ℕ) : ℕ := if low + 1 = b then (high + 1) % b else high

theorem lowTick_mod (b n : ℕ) : lowTick b (n % b) = (n + 1) % b := Nat.mod_add_mod n b 1

theorem div_succ {b : ℕ} (pos : 0 < b) (n : ℕ) :
    (n + 1) / b = n / b + if n % b + 1 = b then 1 else 0 := by
  have digit := Nat.mod_lt n pos
  have split := Nat.div_add_mod n b
  by_cases wrap : n % b + 1 = b
  · have whole : n + 1 = b * (n / b + 1) := by
      rw [Nat.mul_succ]
      omega
    rw [if_pos wrap, whole, Nat.mul_div_cancel_left _ pos]
  · have parts : n + 1 = b * (n / b) + (n % b + 1) := by omega
    have small : (n % b + 1) / b = 0 := Nat.div_eq_of_lt (by omega)
    rw [if_neg wrap, parts, Nat.mul_add_div pos, small]

theorem highTick_div {b : ℕ} (pos : 0 < b) (n : ℕ) :
    highTick b (n % b) (n / b % b) = (n + 1) / b % b := by
  unfold highTick
  rw [div_succ pos]
  split
  · exact Nat.mod_add_mod (n / b) b 1
  · rfl

theorem pair_value (b n : ℕ) : n % b + b * (n / b % b) = n % (b * b) := Nat.mod_mul.symm

end ChainedCounters
