import Mathlib.Data.List.Basic

set_option autoImplicit false

/-!
# Framing a stream into bounded lines

A framer collects the items of a stream and hands them on in frames: when a
terminator has arrived, when a frame is full, and when it is told to. Nothing is
lost, reordered or handed on twice, and every frame is a line or a piece of one.
-/
namespace LineFramer

variable {α : Type*}

structure Framer (α : Type*) where
  pending : List α
  frames : List (List α)

def Framer.content (s : Framer α) : List α := s.frames.flatten ++ s.pending

def Framer.emit (s : Framer α) : Framer α :=
  if s.pending.length = 0 then s else ⟨[], s.frames ++ [s.pending]⟩

variable [DecidableEq α]

/-- One item: it starts a new frame when the pending one is full, and ends it when it is the
terminator. -/
def Framer.put (limit : ℕ) (terminator : α) (s : Framer α) (a : α) : Framer α :=
  let s := if s.pending.length ≥ limit then s.emit else s
  let s := { s with pending := s.pending ++ [a] }
  if a = terminator then s.emit else s

def Framer.feed (limit : ℕ) (terminator : α) (s : Framer α) (l : List α) : Framer α :=
  l.foldl (Framer.put limit terminator) s

/-- A line or a piece of one, not longer than the limit. -/
structure Frame (limit : ℕ) (terminator : α) (f : List α) : Prop where
  nonempty : f ≠ []
  short : f.length ≤ limit
  last : terminator ∉ f.dropLast

structure Framer.Sound (limit : ℕ) (terminator : α) (s : Framer α) : Prop where
  short : s.pending.length ≤ limit
  unfinished : terminator ∉ s.pending
  frames : ∀ f ∈ s.frames, Frame limit terminator f

variable {limit : ℕ} {terminator : α} {s : Framer α}

omit [DecidableEq α] in
theorem Framer.emit_content (s : Framer α) : s.emit.content = s.content := by
  unfold Framer.emit Framer.content
  split
  · rfl
  · simp

omit [DecidableEq α] in
theorem Framer.emit_pending (s : Framer α) : s.emit.pending = [] := by
  unfold Framer.emit
  split
  · exact List.eq_nil_of_length_eq_zero ‹_›
  · rfl

omit [DecidableEq α] in
theorem Framer.emit_frames (old : ∀ f ∈ s.frames, Frame limit terminator f)
    (new : s.pending ≠ [] → Frame limit terminator s.pending) :
    ∀ f ∈ s.emit.frames, Frame limit terminator f := by
  unfold Framer.emit
  split
  · exact old
  · rename_i filled
    intro f hf
    rcases List.mem_append.mp hf with hf | hf
    · exact old f hf
    · obtain rfl := List.mem_singleton.mp hf
      exact new fun empty => filled (by rw [empty]; rfl)

omit [DecidableEq α] in
theorem Framer.Sound.emit (sound : s.Sound limit terminator) : s.emit.Sound limit terminator where
  short := by simp [s.emit_pending]
  unfinished := by simp [s.emit_pending]
  frames := Framer.emit_frames sound.frames fun filled =>
    ⟨filled, sound.short, fun member => sound.unfinished (List.dropLast_subset _ member)⟩

theorem Framer.put_content (s : Framer α) (a : α) :
    (s.put limit terminator a).content = s.content ++ [a] := by
  have kept : (if s.pending.length ≥ limit then s.emit else s).content = s.content := by
    split
    · exact s.emit_content
    · rfl
  unfold Framer.put
  generalize (if s.pending.length ≥ limit then s.emit else s) = room at kept
  have added : Framer.content { room with pending := room.pending ++ [a] } = s.content ++ [a] := by
    rw [← kept]
    exact (List.append_assoc ..).symm
  dsimp only
  split
  · rw [Framer.emit_content, added]
  · exact added

theorem Framer.Sound.put (positive : 0 < limit) (sound : s.Sound limit terminator) (a : α) :
    (s.put limit terminator a).Sound limit terminator := by
  have room : Framer.Sound limit terminator (if s.pending.length ≥ limit then s.emit else s) ∧
      (if s.pending.length ≥ limit then s.emit else s).pending.length < limit := by
    split
    · exact ⟨sound.emit, by rw [s.emit_pending]; exact positive⟩
    · exact ⟨sound, by omega⟩
  unfold Framer.put
  generalize (if s.pending.length ≥ limit then s.emit else s) = t at room
  obtain ⟨sound, space⟩ := room
  have short : (t.pending ++ [a]).length ≤ limit := by
    rw [List.length_append, List.length_singleton]
    exact space
  dsimp only
  split
  · exact ⟨by simp [Framer.emit_pending], by simp [Framer.emit_pending],
      Framer.emit_frames sound.frames fun filled =>
        ⟨filled, short, by rw [List.dropLast_concat]; exact sound.unfinished⟩⟩
  · rename_i other
    refine ⟨short, ?_, sound.frames⟩
    simp only [List.mem_append, List.mem_singleton, not_or]
    exact ⟨sound.unfinished, fun eq => other eq.symm⟩

theorem Framer.feed_content (s : Framer α) (l : List α) :
    (s.feed limit terminator l).content = s.content ++ l := by
  induction l generalizing s with
  | nil => exact (List.append_nil _).symm
  | cons a l ih =>
    change ((s.put limit terminator a).feed limit terminator l).content = _
    rw [ih, s.put_content, List.append_assoc]
    rfl

end LineFramer
