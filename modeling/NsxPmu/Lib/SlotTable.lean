import Mathlib.Data.Finset.Card
import Mathlib.Data.Finset.Range
import Mathlib.Data.List.Basic

set_option autoImplicit false

/-!
# Tables of slots

A table has slots below a capacity. A new object takes the first free slot, and the
object that leaves its slot frees it. Whoever holds the objects knows them by their
slots, as a list.
-/
namespace SlotTable
open Function (update)

variable {taken : ℕ → Bool} {N : ℕ} {held : List ℕ}

def firstFree (taken : ℕ → Bool) (N : ℕ) : Option ℕ := (List.range N).find? fun i => !taken i

theorem firstFree_some {i : ℕ} (found : firstFree taken N = some i) : i < N ∧ taken i = false := by
  have member := List.mem_range.mp (List.mem_of_find?_eq_some found)
  have free := List.find?_some found
  exact ⟨member, by simpa using free⟩

theorem firstFree_none : firstFree taken N = none ↔ ∀ i < N, taken i = true := by
  unfold firstFree
  rw [List.find?_eq_none]
  simp

/-- The taken slots, each of them once. -/
structure Lists (taken : ℕ → Bool) (N : ℕ) (held : List ℕ) : Prop where
  nodup : held.Nodup
  mem : ∀ i, i ∈ held ↔ i < N ∧ taken i = true

theorem lists_empty (free : ∀ i, taken i = false) : Lists taken N [] := by
  refine ⟨List.nodup_nil, fun i => ?_⟩
  simp [free i]

theorem Lists.congr {taken' : ℕ → Bool} (all : Lists taken N held)
    (same : ∀ i, taken' i = taken i) : Lists taken' N held := by
  have eq : taken' = taken := funext same
  rwa [eq]

theorem Lists.take (all : Lists taken N held) {i : ℕ} (inside : i < N) (free : taken i = false) :
    Lists (update taken i true) N (i :: held) := by
  have new : i ∉ held := by
    intro old
    have used := ((all.mem i).mp old).2
    rw [free] at used
    cases used
  refine ⟨List.nodup_cons.mpr ⟨new, all.nodup⟩, fun j => ?_⟩
  rw [List.mem_cons, all.mem j]
  by_cases here : j = i
  · subst here
    simp [inside]
  · rw [Function.update_of_ne here]
    simp [here]

theorem Lists.release (all : Lists taken N held) (i : ℕ) :
    Lists (update taken i false) N (held.erase i) := by
  refine ⟨all.nodup.erase i, fun j => ?_⟩
  rw [all.nodup.mem_erase_iff, all.mem j]
  by_cases here : j = i
  · subst here
    simp
  · rw [Function.update_of_ne here]
    simp [here]

theorem Lists.room_iff (all : Lists taken N held) :
    held.length < N ↔ ∃ i, firstFree taken N = some i := by
  have size : held.toFinset.card = held.length := List.toFinset_card_of_nodup all.nodup
  have inside : held.toFinset ⊆ Finset.range N := by
    intro i hi
    exact Finset.mem_range.mpr ((all.mem i).mp (List.mem_toFinset.mp hi)).1
  constructor
  · intro room
    by_contra none_
    have full : firstFree taken N = none := by
      cases found : firstFree taken N with
      | none => rfl
      | some i => exact absurd ⟨i, found⟩ none_
    have every : Finset.range N ⊆ held.toFinset := by
      intro i hi
      have hi := Finset.mem_range.mp hi
      exact List.mem_toFinset.mpr ((all.mem i).mpr ⟨hi, firstFree_none.mp full i hi⟩)
    have le := Finset.card_le_card every
    rw [Finset.card_range] at le
    omega
  · rintro ⟨i, found⟩
    obtain ⟨lt, free⟩ := firstFree_some found
    have proper : held.toFinset ⊂ Finset.range N := by
      refine (Finset.ssubset_iff_of_subset inside).mpr ⟨i, Finset.mem_range.mpr lt, ?_⟩
      intro old
      have used := ((all.mem i).mp (List.mem_toFinset.mp old)).2
      rw [free] at used
      cases used
    have less := Finset.card_lt_card proper
    rw [Finset.card_range] at less
    omega

end SlotTable
