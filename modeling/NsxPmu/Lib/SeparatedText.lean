import Mathlib.Data.List.Basic

set_option autoImplicit false

/-!
# Lines and fields

Texts made of lines that each end with a terminator, and lines made of fields
with a separator between them. Where the parts do not contain the sign that
divides them, splitting the text gives the parts back.
-/
namespace SeparatedText

variable {α : Type*}

/-- The lines one after another, each with its terminator. -/
def unlines (terminator : α) (ls : List (List α)) : List α := ls.flatMap (· ++ [terminator])

/-- A first field and further ones, each behind a separator. -/
def joined (separator : α) (first : List α) (rest : List (List α)) : List α :=
  first ++ rest.flatMap (separator :: ·)

theorem unlines_append (terminator : α) (ls ks : List (List α)) :
    unlines terminator (ls ++ ks) = unlines terminator ls ++ unlines terminator ks :=
  List.flatMap_append

theorem not_mem_joined {separator a : α} {first : List α} {rest : List (List α)}
    (other : a ≠ separator) (hf : a ∉ first) (hr : ∀ l ∈ rest, a ∉ l) :
    a ∉ joined separator first rest := by
  simp only [joined, List.mem_append, List.mem_flatMap, List.mem_cons, not_or, not_exists, not_and]
  exact ⟨hf, fun l hl => ⟨other, hr l hl⟩⟩

variable [BEq α]

/-- The lines of a text, when its last line is terminated. -/
def lines (terminator : α) (text : List α) : Option (List (List α)) :=
  if (text.splitOn terminator).getLast? == some [] then some (text.splitOn terminator).dropLast
  else none

def after (key field : List α) : Option (List α) :=
  if field.take key.length == key then some (field.drop key.length) else none

variable [LawfulBEq α]

theorem splitOn_unlines {terminator : α} {ls : List (List α)} (h : ∀ l ∈ ls, terminator ∉ l) :
    (unlines terminator ls).splitOn terminator = ls ++ [[]] := by
  induction ls with
  | nil => exact List.splitOn_nil terminator
  | cons l ls ih =>
    have text : unlines terminator (l :: ls) = l ++ terminator :: unlines terminator ls := by
      simp [unlines]
    rw [text, List.splitOn_append_cons_self_of_not_mem (h l (by simp)),
      ih fun k hk => h k (by simp [hk]), List.cons_append]

theorem lines_unlines {terminator : α} {ls : List (List α)} (h : ∀ l ∈ ls, terminator ∉ l) :
    lines terminator (unlines terminator ls) = some ls := by
  rw [lines, splitOn_unlines h, List.getLast?_concat, List.dropLast_concat]
  exact if_pos (beq_self_eq_true _)

theorem splitOn_joined {separator : α} {first : List α} {rest : List (List α)}
    (hf : separator ∉ first) (hr : ∀ l ∈ rest, separator ∉ l) :
    (joined separator first rest).splitOn separator = first :: rest := by
  induction rest generalizing first with
  | nil => simp [joined, List.splitOn_eq_singleton hf]
  | cons l rest ih =>
    have text : joined separator first (l :: rest) =
        first ++ separator :: joined separator l rest := by
      simp [joined]
    rw [text, List.splitOn_append_cons_self_of_not_mem hf,
      ih (hr l (by simp)) fun k hk => hr k (by simp [hk])]

theorem after_append (key l : List α) : after key (key ++ l) = some l := by
  simp [after]

end SeparatedText
