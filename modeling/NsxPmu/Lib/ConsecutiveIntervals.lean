import Mathlib.Data.List.Basic
import Mathlib.Algebra.BigOperators.Group.List.Basic
import Mathlib.Algebra.GroupWithZero.Nat

set_option autoImplicit false

/-!
# Consecutive intervals

Items laid one after another from a start, each as long as its size. Every item
gets the interval that begins where the one before it ended, so the intervals
tile a range with no gap and no overlap.
-/
namespace ConsecutiveIntervals

variable {ι : Type*}

/-- Each item with the start of its interval. -/
def place (size : ι → ℕ) : ℕ → List ι → List (ι × ℕ)
  | _, [] => []
  | n, i :: l => (i, n) :: place size (n + size i) l

/-- The length of all intervals together. -/
def extent (size : ι → ℕ) (l : List ι) : ℕ := (l.map size).sum

@[simp] theorem extent_nil (size : ι → ℕ) : extent size [] = 0 := rfl

@[simp] theorem extent_cons (size : ι → ℕ) (i : ι) (l : List ι) :
    extent size (i :: l) = size i + extent size l := by
  simp [extent]

theorem extent_append (size : ι → ℕ) (l k : List ι) :
    extent size (l ++ k) = extent size l + extent size k := by
  simp [extent]

theorem extent_const {size : ι → ℕ} {c : ℕ} {l : List ι} (h : ∀ i ∈ l, size i = c) :
    extent size l = c * l.length := by
  induction l with
  | nil => rfl
  | cons i l ih =>
    rw [extent_cons, ih (fun j hj => h j (by simp [hj])), h i (by simp), List.length_cons,
      Nat.mul_succ, Nat.add_comm]

@[simp] theorem place_nil (size : ι → ℕ) (n : ℕ) : place size n [] = [] := rfl

@[simp] theorem place_cons (size : ι → ℕ) (n : ℕ) (i : ι) (l : List ι) :
    place size n (i :: l) = (i, n) :: place size (n + size i) l := rfl

theorem place_append (size : ι → ℕ) (n : ℕ) (l k : List ι) :
    place size n (l ++ k) = place size n l ++ place size (n + extent size l) k := by
  induction l generalizing n with
  | nil => simp
  | cons i l ih => simp [ih, Nat.add_assoc]

theorem place_map_fst (size : ι → ℕ) (n : ℕ) (l : List ι) :
    (place size n l).map Prod.fst = l := by
  induction l generalizing n with
  | nil => rfl
  | cons i l ih => simp [ih]

theorem mem_of_mem_place {size : ι → ℕ} {n : ℕ} {l : List ι} {p : ι × ℕ}
    (h : p ∈ place size n l) : p.1 ∈ l := by
  rw [← place_map_fst size n l]
  exact List.mem_map_of_mem h

theorem exists_place (size : ι → ℕ) (n : ℕ) {l : List ι} {i : ι} (h : i ∈ l) :
    ∃ m, (i, m) ∈ place size n l := by
  rw [← place_map_fst size n l, List.mem_map] at h
  obtain ⟨⟨j, m⟩, hp, rfl⟩ := h
  exact ⟨m, hp⟩

theorem place_congr {size size' : ι → ℕ} {l : List ι} (same : ∀ i ∈ l, size i = size' i) (n : ℕ) :
    place size n l = place size' n l ∧ extent size l = extent size' l := by
  induction l generalizing n with
  | nil => exact ⟨rfl, rfl⟩
  | cons i l ih =>
    have here := same i (by simp)
    obtain ⟨placed, length⟩ := ih (fun j hj => same j (by simp [hj])) (n + size' i)
    rw [place_cons, place_cons, extent_cons, extent_cons, here, placed, length]
    exact ⟨rfl, rfl⟩

theorem place_bounds {size : ι → ℕ} {n : ℕ} {l : List ι} {p : ι × ℕ}
    (h : p ∈ place size n l) : n ≤ p.2 ∧ p.2 + size p.1 ≤ n + extent size l := by
  induction l generalizing n with
  | nil => simp at h
  | cons i l ih =>
    rw [place_cons, List.mem_cons] at h
    rw [extent_cons]
    rcases h with rfl | h
    · simp only
      omega
    · have := ih h
      omega

/-- Every point of the range lies in one of the intervals. -/
theorem place_covers {size : ι → ℕ} {n m : ℕ} {l : List ι} (lo : n ≤ m)
    (hi : m < n + extent size l) : ∃ p ∈ place size n l, p.2 ≤ m ∧ m < p.2 + size p.1 := by
  induction l generalizing n with
  | nil => simp at hi; omega
  | cons i l ih =>
    rw [extent_cons] at hi
    by_cases inside : m < n + size i
    · exact ⟨(i, n), by simp, lo, inside⟩
    · obtain ⟨p, hp, h⟩ := ih (n := n + size i) (by omega) (by omega)
      exact ⟨p, by simp [hp], h⟩

theorem place_const {size : ι → ℕ} {c n : ℕ} {l : List ι} (h : ∀ i ∈ l, size i = c)
    {k : ℕ} {i : ι} (hk : l[k]? = some i) : (i, n + c * k) ∈ place size n l := by
  induction l generalizing n k with
  | nil => simp at hk
  | cons j l ih =>
    cases k with
    | zero =>
      obtain rfl : j = i := by simpa using hk
      simp
    | succ k =>
      have first : size j = c := h j (by simp)
      have tail := ih (n := n + size j) (fun i hi => h i (by simp [hi])) (by simpa using hk)
      have start : n + size j + c * k = n + c * (k + 1) := by
        rw [first, Nat.mul_succ]
        omega
      rw [start] at tail
      simp [tail]

theorem place_const_start {size : ι → ℕ} {c n : ℕ} {l : List ι} (h : ∀ i ∈ l, size i = c)
    {p : ι × ℕ} (hp : p ∈ place size n l) : ∃ k, p.2 = n + c * k := by
  induction l generalizing n with
  | nil => simp at hp
  | cons i l ih =>
    rw [place_cons, List.mem_cons] at hp
    rcases hp with rfl | hp
    · exact ⟨0, rfl⟩
    · obtain ⟨k, hk⟩ := ih (fun j hj => h j (by simp [hj])) hp
      refine ⟨k + 1, ?_⟩
      rw [hk, h i (by simp), Nat.mul_succ]
      omega

end ConsecutiveIntervals
