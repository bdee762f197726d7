import Mathlib.Logic.Function.Basic
import Mathlib.Data.Nat.Basic
import Mathlib.Data.List.Basic
import Mathlib.Algebra.Group.Defs

set_option autoImplicit false

/-!
# Word memory

A memory of cells at natural addresses: clearing a range, adding to cells at
distinct addresses, and row-major tables.
-/
namespace WordMemory
open Function (update)

variable {α : Type*}

theorem rowMajor_injective {width r e r' e' : ℕ} (he : e < width) (he' : e' < width)
    (h : r * width + e = r' * width + e') : r = r' ∧ e = e' := by
  have pos : 0 < width := by omega
  have rows := congrArg (· / width) h
  have columns := congrArg (· % width) h
  simp only [Nat.mul_comm _ width, Nat.mul_add_div pos, Nat.div_eq_of_lt he,
    Nat.div_eq_of_lt he', Nat.mul_add_mod, Nat.mod_eq_of_lt he, Nat.mod_eq_of_lt he'] at rows columns
  exact ⟨by omega, columns⟩

theorem rowMajor_lt {width rows r e : ℕ} (hr : r < rows) (he : e < width) :
    r * width + e < rows * width := by
  have := Nat.mul_le_mul_right width (Nat.succ_le_of_lt hr)
  rw [Nat.succ_mul] at this
  omega

def zeroRange [Zero α] (mem : ℕ → α) (base n : ℕ) : ℕ → α :=
  fun a => if base ≤ a ∧ a < base + n then 0 else mem a

theorem zeroRange_inside [Zero α] (mem : ℕ → α) {base n a : ℕ} (lo : base ≤ a)
    (hi : a < base + n) : zeroRange mem base n a = 0 := if_pos ⟨lo, hi⟩

theorem zeroRange_outside [Zero α] (mem : ℕ → α) {base n a : ℕ}
    (h : a < base ∨ base + n ≤ a) : zeroRange mem base n a = mem a := by
  apply if_neg
  omega

/-- The memory with `n` cells from `source` on copied to `target` on. -/
def copyRange (mem : ℕ → α) (target source n : ℕ) : ℕ → α :=
  fun a => if target ≤ a ∧ a < target + n then mem (source + (a - target)) else mem a

theorem copyRange_outside (mem : ℕ → α) {target source n a : ℕ}
    (h : ¬ (target ≤ a ∧ a < target + n)) : copyRange mem target source n a = mem a := if_neg h

theorem copyRange_inside (mem : ℕ → α) {target source n j : ℕ} (hj : j < n) :
    copyRange mem target source n (target + j) = mem (source + j) := by
  unfold copyRange
  rw [if_pos (by omega), Nat.add_sub_cancel_left]

/-- The memory with the first `n` cells of every row of a table copied to the rows of another. -/
def copyRows (mem : ℕ → α) (target stride source width n rows : ℕ) : ℕ → α :=
  (List.range rows).foldl
    (fun m r => copyRange m (target + r * stride) (source + r * width) n) mem

theorem copyRows_succ (mem : ℕ → α) (target stride source width n rows : ℕ) :
    copyRows mem target stride source width n (rows + 1) =
      copyRange (copyRows mem target stride source width n rows) (target + rows * stride)
        (source + rows * width) n := by
  rw [copyRows, List.range_succ, List.foldl_append]
  rfl

theorem copyRows_outside (mem : ℕ → α) {target stride source width n rows a : ℕ}
    (outside : ∀ r < rows, ¬ (target + r * stride ≤ a ∧ a < target + r * stride + n)) :
    copyRows mem target stride source width n rows a = mem a := by
  induction rows with
  | zero => rfl
  | succ rows ih =>
    rw [copyRows_succ, copyRange_outside _ (outside rows rows.lt_succ_self)]
    exact ih fun r hr => outside r (Nat.lt_succ_of_lt hr)

theorem copyRows_inside (mem : ℕ → α) {target stride source width n rows r j : ℕ}
    (apart : target + rows * stride ≤ source ∨ source + rows * width ≤ target)
    (inTarget : n ≤ stride) (inSource : n ≤ width) (hr : r < rows) (hj : j < n) :
    copyRows mem target stride source width n rows (target + r * stride + j) =
      mem (source + r * width + j) := by
  induction rows with
  | zero => exact absurd hr r.not_lt_zero
  | succ rows ih =>
    rw [Nat.succ_mul, Nat.succ_mul] at apart
    rw [copyRows_succ]
    rcases Nat.lt_succ_iff_lt_or_eq.mp hr with before | rfl
    · have below : r * stride + j < rows * stride :=
        rowMajor_lt before (Nat.lt_of_lt_of_le hj inTarget)
      rw [copyRange_outside _ (by omega)]
      exact ih (by omega) before
    · rw [copyRange_inside _ hj]
      apply copyRows_outside
      intro k hk
      have row : k * stride + stride ≤ r * stride := by
        rw [← Nat.succ_mul]
        exact Nat.mul_le_mul_right stride hk
      omega

def addAt [Add α] (mem : ℕ → α) (a : ℕ) (v : α) : ℕ → α := update mem a (mem a + v)

def addAll [Add α] (address : ℕ → ℕ) (value : ℕ → α) (l : List ℕ) (mem : ℕ → α) : ℕ → α :=
  l.foldl (fun m i => addAt m (address i) (value i)) mem

theorem addAll_other [Add α] {address : ℕ → ℕ} {value : ℕ → α} {l : List ℕ} {mem : ℕ → α} {a : ℕ}
    (h : ∀ i ∈ l, address i ≠ a) : addAll address value l mem a = mem a := by
  induction l generalizing mem with
  | nil => rfl
  | cons i l ih =>
    change addAll address value l (addAt mem (address i) (value i)) a = mem a
    rw [ih (fun j hj => h j (by simp [hj]))]
    exact Function.update_of_ne (h i (by simp)).symm _ _

theorem addAll_at [Add α] {address : ℕ → ℕ} {value : ℕ → α} {l : List ℕ} {mem : ℕ → α}
    (nodup : l.Nodup) (distinct : ∀ i ∈ l, ∀ j ∈ l, address i = address j → i = j) {i : ℕ}
    (hi : i ∈ l) : addAll address value l mem (address i) = mem (address i) + value i := by
  induction l generalizing mem with
  | nil => simp at hi
  | cons k l ih =>
    rw [List.nodup_cons] at nodup
    change addAll address value l (addAt mem (address k) (value k)) (address i) = _
    rcases List.mem_cons.mp hi with rfl | hi'
    · rw [addAll_other]
      · exact Function.update_self ..
      · intro j hj eq
        exact nodup.1 (distinct j (by simp [hj]) i (by simp) eq ▸ hj)
    · rw [ih nodup.2 (fun a ha b hb => distinct a (by simp [ha]) b (by simp [hb])) hi']
      have other : address i ≠ address k := by
        intro eq
        exact nodup.1 (distinct i (by simp [hi']) k (by simp) eq ▸ hi')
      rw [addAt, Function.update_of_ne other]

theorem addAll_zero [AddZeroClass α] {address : ℕ → ℕ} {value : ℕ → α} {l : List ℕ} {mem : ℕ → α}
    (zero : ∀ i ∈ l, value i = 0) : addAll address value l mem = mem := by
  induction l generalizing mem with
  | nil => rfl
  | cons i l ih =>
    change addAll address value l (addAt mem (address i) (value i)) = mem
    have same : addAt mem (address i) (value i) = mem := by
      rw [addAt, zero i (by simp), add_zero, Function.update_eq_self]
    rw [same]
    exact ih fun j hj => zero j (by simp [hj])

theorem addAll_congr [Add α] {address address' : ℕ → ℕ} {value value' : ℕ → α} {l : List ℕ}
    (mem : ℕ → α) (ha : ∀ i ∈ l, address i = address' i) (hv : ∀ i ∈ l, value i = value' i) :
    addAll address value l mem = addAll address' value' l mem := by
  induction l generalizing mem with
  | nil => rfl
  | cons i l ih =>
    change addAll address value l (addAt mem (address i) (value i)) =
      addAll address' value' l (addAt mem (address' i) (value' i))
    rw [ha i (by simp), hv i (by simp)]
    exact ih _ (fun j hj => ha j (by simp [hj])) (fun j hj => hv j (by simp [hj]))

/-- Adding to the cells of a row from the column `base` on adds to those cells, each its own
value once, and to no other cell of the table. -/
theorem addAll_row [AddZeroClass α] {start width op base n r e : ℕ} {value : ℕ → α} {mem : ℕ → α}
    (inside : ∀ i < n, base + i < width) (he : e < width) :
    addAll (fun i => start + (op * width + (base + i))) value (List.range n) mem
        (start + (r * width + e)) =
      mem (start + (r * width + e)) +
        if op = r ∧ base ≤ e ∧ e < base + n then value (e - base) else 0 := by
  have cells : ∀ i < n, ∀ row column, column < width →
      start + (op * width + (base + i)) = start + (row * width + column) →
      op = row ∧ base + i = column := by
    intro i hi row column hc same
    exact rowMajor_injective (inside i hi) hc (by omega)
  by_cases target : op = r ∧ base ≤ e ∧ e < base + n
  · rw [if_pos target]
    obtain ⟨rfl, lo, hi⟩ := target
    obtain ⟨i, rfl⟩ : ∃ i, e = base + i := ⟨e - base, by omega⟩
    have hi : i < n := by omega
    rw [Nat.add_sub_cancel_left]
    apply addAll_at (i := i) List.nodup_range _ (List.mem_range.mpr hi)
    intro j hj k hk same
    have := (cells j (List.mem_range.mp hj) op _ (inside k (List.mem_range.mp hk)) same).2
    omega
  · rw [if_neg target, add_zero]
    apply addAll_other
    intro i hi same
    have hi := List.mem_range.mp hi
    have := cells i hi r e he same
    omega

end WordMemory
