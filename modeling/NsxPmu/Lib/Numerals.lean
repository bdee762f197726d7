import Mathlib.Data.Nat.Digits.Defs

set_option autoImplicit false

/-!
# Reading numerals back

Positional numerals over any alphabet. A reader that knows the value of every
digit reads back what `Nat.toDigits` prints, with or without leading zeros.
-/
namespace Numerals

variable {α : Type*} {base : ℕ} {value : α → Option ℕ}

/-- The number that a numeral continues to, after digits that are worth `acc`. -/
def readFrom (base : ℕ) (value : α → Option ℕ) : ℕ → List α → Option ℕ
  | acc, [] => some acc
  | acc, a :: l => (value a).bind fun d => readFrom base value (base * acc + d) l

/-- The number a numeral stands for. There is no empty numeral. -/
def read (base : ℕ) (value : α → Option ℕ) (l : List α) : Option ℕ :=
  if l.isEmpty then none else readFrom base value 0 l

theorem readFrom_append (acc : ℕ) (l k : List α) :
    readFrom base value acc (l ++ k) =
      (readFrom base value acc l).bind fun n => readFrom base value n k := by
  induction l generalizing acc with
  | nil => rfl
  | cons a l ih =>
    rw [List.cons_append, readFrom, readFrom]
    cases value a with
    | none => rfl
    | some d => exact ih _

theorem readFrom_mem {acc n : ℕ} {l : List α} (h : readFrom base value acc l = some n) :
    ∀ a ∈ l, (value a).isSome := by
  induction l generalizing acc with
  | nil => simp
  | cons a l ih =>
    rw [readFrom] at h
    cases ha : value a with
    | none => simp [ha] at h
    | some d =>
      rw [ha, Option.bind_some] at h
      intro b hb
      rcases List.mem_cons.mp hb with rfl | hb
      · rw [ha]
        rfl
      · exact ih h b hb

theorem not_mem_of_read {l : List α} {n : ℕ} {a : α} (h : read base value l = some n)
    (ha : value a = none) : a ∉ l := by
  intro member
  unfold read at h
  split at h
  · cases h
  · have digit := readFrom_mem h a member
    rw [ha] at digit
    cases digit

section Printed
variable (digit : Char → α) (hb : 1 < base)
  (known : ∀ d < base, value (digit d.digitChar) = some d)

include hb known

theorem readFrom_toDigits (n : ℕ) :
    readFrom base value 0 ((Nat.toDigits base n).map digit) = some n := by
  induction n using Nat.strongRecOn with
  | ind n ih =>
    rw [Nat.toDigits_eq_if hb]
    by_cases small : n < base
    · rw [if_pos small, List.map_singleton, readFrom, known n small]
      simp [readFrom]
    · have last := Nat.mod_lt n (show base > 0 by omega)
      have shorter := Nat.div_lt_self (show 0 < n by omega) hb
      rw [if_neg small, List.map_append, readFrom_append, ih _ shorter, Option.bind_some,
        List.map_singleton, readFrom, known _ last]
      simp [readFrom, Nat.div_add_mod]

theorem readFrom_zeros (k : ℕ) (l : List α) :
    readFrom base value 0 (List.replicate k (digit '0') ++ l) = readFrom base value 0 l := by
  have zero : value (digit '0') = some 0 := known 0 (by omega)
  induction k with
  | zero => rfl
  | succ k ih =>
    rw [List.replicate_succ, List.cons_append, readFrom, zero]
    exact ih

theorem read_toDigits (k n : ℕ) :
    read base value (List.replicate k (digit '0') ++ (Nat.toDigits base n).map digit) = some n := by
  have nonempty : (List.replicate k (digit '0') ++ (Nat.toDigits base n).map digit).isEmpty =
      false := by
    simp [List.isEmpty_eq_false_iff]
  rw [read, nonempty, if_neg Bool.false_ne_true, readFrom_zeros digit hb known,
    readFrom_toDigits digit hb known]

end Printed

end Numerals
