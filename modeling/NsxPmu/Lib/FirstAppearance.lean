import Mathlib.Data.List.Induction
import Mathlib.Data.List.Nodup
import Mathlib.Order.Basic

set_option autoImplicit false

/-!
# Numbering by first appearance

The distinct elements of a list, in the order in which they first appear, get the
numbers from zero on. A table with room for `n` of them keeps the first `n`.
-/
namespace FirstAppearance

variable {α : Type*} [BEq α] [LawfulBEq α]

theorem eraseDups_concat (l : List α) (a : α) :
    (l ++ [a]).eraseDups = if a ∈ l then l.eraseDups else l.eraseDups ++ [a] := by
  rw [List.eraseDups_append]
  split
  · rename_i old
    have rest : List.removeAll [a] l = [] := by simp [List.removeAll, old]
    rw [rest, List.eraseDups_nil, List.append_nil]
  · rename_i new
    have rest : List.removeAll [a] l = [a] := by simp [List.removeAll, new]
    rw [rest, List.eraseDups_cons]
    rfl

theorem eraseDups_nodup (l : List α) : l.eraseDups.Nodup := by
  induction l using List.reverseRecOn with
  | nil => exact List.nodup_nil
  | append_singleton l a ih =>
    rw [eraseDups_concat]
    split
    · exact ih
    · rename_i new
      rw [← List.concat_eq_append]
      exact ih.concat (fun old => new (List.mem_eraseDups.mp old))

theorem eraseDups_prefix (l k : List α) : l.eraseDups <+: (l ++ k).eraseDups := by
  rw [List.eraseDups_append]
  exact List.prefix_append ..

/-- The number of an element, if it appears and the table has room for it. -/
def number (l : List α) (n : ℕ) (a : α) : Option ℕ :=
  if a ∈ l ∧ l.eraseDups.idxOf a < n then some (l.eraseDups.idxOf a) else none

def tableSize (l : List α) (n : ℕ) : ℕ := min n l.eraseDups.length

theorem number_eq_some {l : List α} {n i : ℕ} {a : α} :
    number l n a = some i ↔ i < n ∧ l.eraseDups[i]? = some a := by
  unfold number
  constructor
  · intro eq
    split at eq
    · rename_i has
      obtain rfl := Option.some.inj eq
      exact ⟨has.2, List.getElem?_idxOf (List.mem_eraseDups.mpr has.1)⟩
    · cases eq
  · rintro ⟨lt, at_i⟩
    obtain ⟨inside, here⟩ := List.getElem?_eq_some_iff.mp at_i
    have index : l.eraseDups.idxOf a = i := by
      rw [← here]
      exact (eraseDups_nodup l).idxOf_getElem i inside
    have member : a ∈ l := by
      rw [← List.mem_eraseDups, ← here]
      exact List.getElem_mem inside
    rw [index, if_pos ⟨member, lt⟩]

theorem number_lt {l : List α} {n i : ℕ} {a : α} (eq : number l n a = some i) :
    i < tableSize l n := by
  obtain ⟨lt, at_i⟩ := number_eq_some.mp eq
  obtain ⟨inside, -⟩ := List.getElem?_eq_some_iff.mp at_i
  exact Nat.lt_min.mpr ⟨lt, inside⟩

theorem number_concat_new {l : List α} {n : ℕ} {a : α} (new : number l n a = none) :
    number (l ++ [a]) n a = if tableSize l n < n then some (tableSize l n) else none := by
  unfold number at new
  by_cases old : a ∈ l
  · have full : ¬ l.eraseDups.idxOf a < n := by
      intro lt
      rw [if_pos ⟨old, lt⟩] at new
      cases new
    have inside : l.eraseDups.idxOf a < l.eraseDups.length :=
      List.idxOf_lt_length_of_mem (List.mem_eraseDups.mpr old)
    have size : ¬ tableSize l n < n := by
      unfold tableSize
      omega
    rw [if_neg size, number, eraseDups_concat, if_pos old, if_neg fun h => full h.2]
  · have index : (l.eraseDups ++ [a]).idxOf a = l.eraseDups.length := by
      rw [List.idxOf_append_of_notMem (fun h => old (List.mem_eraseDups.mp h))]
      simp
    have member : a ∈ l ++ [a] := by simp
    rw [number, eraseDups_concat, if_neg old, index]
    unfold tableSize
    by_cases room : l.eraseDups.length < n
    · rw [if_pos ⟨member, room⟩, if_pos (by omega), Nat.min_eq_right (by omega)]
    · rw [if_neg (fun h => room h.2), if_neg (by omega)]

theorem tableSize_concat (l : List α) (n : ℕ) (a : α) :
    tableSize (l ++ [a]) n =
      if number l n a = none ∧ tableSize l n < n then tableSize l n + 1 else tableSize l n := by
  unfold tableSize number
  rw [eraseDups_concat]
  by_cases old : a ∈ l
  · have inside : l.eraseDups.idxOf a < l.eraseDups.length :=
      List.idxOf_lt_length_of_mem (List.mem_eraseDups.mpr old)
    rw [if_pos old, if_neg]
    rintro ⟨none_, room⟩
    rw [ite_eq_right_iff] at none_
    have full : ¬ l.eraseDups.idxOf a < n := by
      intro lt
      cases none_ ⟨old, lt⟩
    omega
  · rw [if_neg old, List.length_append, List.length_singleton]
    by_cases room : l.eraseDups.length < n
    · rw [if_pos ⟨if_neg fun h => old h.1, by omega⟩]
      omega
    · rw [if_neg (by omega)]
      omega

theorem number_append {l : List α} {n i : ℕ} {a : α} (eq : number l n a = some i) (k : List α) :
    number (l ++ k) n a = some i := by
  obtain ⟨lt, at_i⟩ := number_eq_some.mp eq
  obtain ⟨rest, append⟩ := eraseDups_prefix l k
  obtain ⟨inside, -⟩ := List.getElem?_eq_some_iff.mp at_i
  refine number_eq_some.mpr ⟨lt, ?_⟩
  rw [← append, List.getElem?_append_left inside, at_i]

theorem number_settled {l : List α} {a : α} (member : a ∈ l) (k : List α) (n : ℕ) :
    number (l ++ k) n a = number l n a := by
  obtain ⟨rest, append⟩ := eraseDups_prefix l k
  have index : (l ++ k).eraseDups.idxOf a = l.eraseDups.idxOf a := by
    rw [← append, List.idxOf_append_of_mem (List.mem_eraseDups.mpr member)]
  have later : a ∈ l ++ k := List.mem_append_left k member
  unfold number
  rw [index]
  exact if_congr (and_congr_left fun _ => iff_of_true later member) rfl rfl

theorem number_injective {l : List α} {n i : ℕ} {a b : α} (ha : number l n a = some i)
    (hb : number l n b = some i) : a = b := by
  have at_a := (number_eq_some.mp ha).2
  have at_b := (number_eq_some.mp hb).2
  exact Option.some.inj (at_a.symm.trans at_b)

theorem number_later {l : List α} {n i : ℕ} {a : α} (eq : number l n a = some i) (k : List α)
    {b : α} : number (l ++ k) n b = some i ↔ b = a := by
  have stays := number_append eq k
  constructor
  · intro same
    exact number_injective same stays
  · rintro rfl
    exact stays

theorem number_of_table {l : List α} {n i : ℕ} {a : α} (lt : i < tableSize l n)
    (at_i : l.eraseDups[i]? = some a) : number l n a = some i := by
  have room : i < n := (Nat.lt_min.mp lt).1
  exact number_eq_some.mpr ⟨room, at_i⟩

/-- A scan of the table finds the element where its number says. -/
theorem find_number {l : List α} {n : ℕ} {f : ℕ → α}
    (table : ∀ i < tableSize l n, l.eraseDups[i]? = some (f i)) (a : α) :
    ((List.range (tableSize l n)).find? fun i => f i == a) = number l n a := by
  cases eq : number l n a with
  | some i =>
    have lt := number_lt eq
    have here : f i = a :=
      Option.some.inj ((table i lt).symm.trans (number_eq_some.mp eq).2)
    refine List.find?_range_eq_some.mpr ⟨by simpa using here, List.mem_range.mpr lt, ?_⟩
    intro j before
    have inside : j < tableSize l n := by omega
    have apart : f j ≠ a := by
      intro same
      have second := number_of_table inside (table j inside)
      rw [same, eq] at second
      have both : i = j := Option.some.inj second
      omega
    simpa using apart
  | none =>
    refine List.find?_eq_none.mpr fun i member => ?_
    have inside := List.mem_range.mp member
    have apart : f i ≠ a := by
      intro same
      have second := number_of_table inside (table i inside)
      rw [same, eq] at second
      cases second
    simpa using apart

end FirstAppearance
