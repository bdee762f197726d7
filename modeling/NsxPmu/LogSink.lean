import NsxPmu.Transport
import NsxPmu.Lib.LineFramer
import NsxPmu.Lib.LabelledRuns
import Mathlib.Logic.Function.Basic

set_option autoImplicit false

/-!
# The log sink

The transport of `nsx_pmu_transport.c` that prints with `nsx_printf`. It gathers
what is written in a line buffer of `N` bytes and prints the buffer as a C string
when a line ends, when the buffer is full and when it is flushed.
-/
namespace NsxPmu
open Function (update)
open LineFramer LabelledRuns

structure LogSinkContext where
  lineBuffer : ℕ → BitVec 8
  used : ℕ

/-- The context, with the strings that were printed and the indices of the buffer that were
written. -/
structure LogSink where
  context : LogSinkContext
  printed : List Bytes
  written : List ℕ

def LogSink.store (s : LogSink) (index : ℕ) (byte : BitVec 8) : LogSink :=
  { s with
      context := { s.context with lineBuffer := update s.context.lineBuffer index byte }
      written := s.written ++ [index] }

def LogSink.setUsed (s : LogSink) (used : ℕ) : LogSink :=
  { s with context := { s.context with used := used } }

/-- The C string at the start of a buffer that has a NUL among its first `size` bytes. -/
def cString (buffer : ℕ → BitVec 8) (size : ℕ) : Bytes :=
  ((List.range size).map buffer).takeWhile fun byte => byte ≠ 0

/-- `nsx_printf("%s", context->line_buffer)`. -/
def LogSink.print (s : LogSink) : LogSink :=
  { s with printed := s.printed ++ [cString s.context.lineBuffer (s.context.used + 1)] }

def logSinkEmit : SinkStep LogSink := fun s =>
  if s.context.used = 0 then (statusSuccess, s)
  else (statusSuccess, (s.store s.context.used 0).print.setUsed 0)

/-- The body of the loop of `nsx_pmu_log_sink_write`, for a buffer of `N` bytes. -/
def logSinkPut (N : ℕ) (byte : BitVec 8) : SinkStep LogSink :=
  SinkStep.andThen
    (fun s => if s.context.used ≥ N - 1 then logSinkEmit s else (statusSuccess, s))
    fun s =>
      let s := (s.store s.context.used byte).setUsed (s.context.used + 1)
      if byte = newline then logSinkEmit s else (statusSuccess, s)

/-- `nsx_pmu_log_sink_write`; `none` is a NULL pointer with a size that is not zero. -/
def logSinkWrite (N : ℕ) : Option Bytes → SinkStep LogSink
  | none => fun s => (statusInvalidHandle, s)
  | some data => SinkStep.all (data.map (logSinkPut N))

def logSinkFlush : SinkStep LogSink := logSinkEmit

/-- What `nsx_pmu_transport_log_sink_init` makes of the context and of the transport. -/
def LogSink.start : LogSink := ⟨⟨fun _ => 0, 0⟩, [], []⟩

def logSinkTransport (N : ℕ) : Transport LogSink where
  write := some fun s data => logSinkWrite N (some data) s
  flush := some logSinkFlush

def LogSink.buffered (s : LogSink) : Bytes := (List.range s.context.used).map s.context.lineBuffer

def LogSink.framer (s : LogSink) : Framer (BitVec 8) := ⟨s.buffered, s.printed⟩

theorem LogSink.buffered_length (s : LogSink) : s.buffered.length = s.context.used := by
  simp [LogSink.buffered]

theorem cString_terminated (buffer : ℕ → BitVec 8) {size : ℕ}
    (plain : 0 ∉ (List.range size).map buffer) :
    cString (update buffer size 0) (size + 1) = (List.range size).map buffer := by
  have kept : (List.range size).map (update buffer size 0) = (List.range size).map buffer := by
    apply List.map_congr_left
    intro i hi
    have hi := List.mem_range.mp hi
    exact Function.update_of_ne (by omega) _ _
  have text : (List.range (size + 1)).map (update buffer size 0) =
      (List.range size).map buffer ++ [0] := by
    rw [List.range_succ, List.map_append, kept, List.map_singleton, Function.update_self]
  rw [cString, text, List.takeWhile_append_of_pos]
  · simp
  · intro byte member
    have other : byte ≠ 0 := fun zero => plain (zero ▸ member)
    exact decide_eq_true other

/-- What the sink has is sound: no NUL is pending, the texts are frames, and no index outside
the buffer was written. -/
structure LogSink.Good (N : ℕ) (s : LogSink) : Prop where
  plain : 0 ∉ s.buffered
  sound : s.framer.Sound (N - 1) newline
  written : ∀ i ∈ s.written, i < N

theorem LogSink.start_good (N : ℕ) : LogSink.start.Good N where
  plain := by simp [LogSink.buffered, LogSink.start]
  sound := ⟨Nat.zero_le _, by simp [LogSink.framer, LogSink.buffered, LogSink.start],
    by simp [LogSink.framer, LogSink.start]⟩
  written := by simp [LogSink.start]

variable {N : ℕ} {s : LogSink}

theorem LogSink.Good.used (good : s.Good N) : s.context.used ≤ N - 1 := by
  have short := good.sound.short
  change s.buffered.length ≤ N - 1 at short
  rwa [s.buffered_length] at short

theorem logSinkEmit_status (s : LogSink) : (logSinkEmit s).1 = statusSuccess := by
  unfold logSinkEmit
  split <;> rfl

theorem logSinkEmit_framer (plain : 0 ∉ s.buffered) : (logSinkEmit s).2.framer = s.framer.emit := by
  unfold logSinkEmit Framer.emit
  change _ = if s.buffered.length = 0 then _ else _
  rw [s.buffered_length]
  split
  · rfl
  · have text := cString_terminated s.context.lineBuffer plain
    simp only [LogSink.framer, LogSink.print, LogSink.setUsed, LogSink.store, LogSink.buffered, text]
    rfl

theorem logSinkEmit_written (s : LogSink) :
    ∀ i ∈ (logSinkEmit s).2.written, i ∈ s.written ∨ i = s.context.used := by
  unfold logSinkEmit
  split
  · exact fun i hi => .inl hi
  · intro i hi
    simpa [LogSink.print, LogSink.setUsed, LogSink.store] using hi

theorem logSinkEmit_good (hN : 2 ≤ N) (plain : 0 ∉ s.buffered) (used : s.context.used ≤ N - 1)
    (sound : s.framer.emit.Sound (N - 1) newline) (written : ∀ i ∈ s.written, i < N) :
    (logSinkEmit s).2.Good N := by
  have framer := logSinkEmit_framer plain
  have empty : (logSinkEmit s).2.buffered = [] := by
    change (logSinkEmit s).2.framer.pending = []
    rw [framer, Framer.emit_pending]
  refine ⟨by simp [empty], by rw [framer]; exact sound, ?_⟩
  intro i hi
  rcases logSinkEmit_written s i hi with old | rfl
  · exact written i old
  · omega

theorem buffered_append (s : LogSink) (byte : BitVec 8) :
    ((s.store s.context.used byte).setUsed (s.context.used + 1)).buffered = s.buffered ++ [byte] := by
  have kept : (List.range s.context.used).map (update s.context.lineBuffer s.context.used byte) =
      s.buffered := by
    apply List.map_congr_left
    intro i hi
    have hi := List.mem_range.mp hi
    exact Function.update_of_ne (by omega) _ _
  simp only [LogSink.buffered, LogSink.store, LogSink.setUsed]
  rw [List.range_succ, List.map_append, kept, List.map_singleton, Function.update_self]
  rfl

theorem LogSink.Good.room (hN : 2 ≤ N) (good : s.Good N) : ∃ r : LogSink,
    (if s.context.used ≥ N - 1 then logSinkEmit s else (statusSuccess, s)) = (statusSuccess, r) ∧
    r.framer = (if s.framer.pending.length ≥ N - 1 then s.framer.emit else s.framer) ∧
    0 ∉ r.buffered ∧ r.context.used + 1 ≤ N - 1 ∧ ∀ i ∈ r.written, i < N := by
  have full : (s.framer.pending.length ≥ N - 1) = (s.context.used ≥ N - 1) := by
    change (s.buffered.length ≥ N - 1) = _
    rw [s.buffered_length]
  have used := good.used
  simp only [full]
  by_cases filled : s.context.used ≥ N - 1
  · have emitted := logSinkEmit_good hN good.plain good.used good.sound.emit good.written
    have framer := logSinkEmit_framer good.plain
    have empty : (logSinkEmit s).2.context.used = 0 := by
      rw [← LogSink.buffered_length]
      change (logSinkEmit s).2.framer.pending.length = 0
      rw [framer, Framer.emit_pending]
      rfl
    exact ⟨(logSinkEmit s).2, by rw [if_pos filled, ← logSinkEmit_status s],
      by rw [if_pos filled, framer], emitted.plain, by omega, emitted.written⟩
  · exact ⟨s, if_neg filled, (if_neg filled).symm, good.plain, by omega, good.written⟩

theorem LogSink.Good.put (hN : 2 ≤ N) (good : s.Good N) {byte : BitVec 8} (nonzero : byte ≠ 0) :
    (logSinkPut N byte s).1 = statusSuccess ∧
    (logSinkPut N byte s).2.framer = s.framer.put (N - 1) newline byte ∧
    (logSinkPut N byte s).2.Good N := by
  have sound := good.sound.put (show 0 < N - 1 by omega) byte
  obtain ⟨r, room, framer, plain, space, written⟩ := good.room hN
  have put : logSinkPut N byte s = if byte = newline then
      logSinkEmit ((r.store r.context.used byte).setUsed (r.context.used + 1))
      else (statusSuccess, (r.store r.context.used byte).setUsed (r.context.used + 1)) :=
    SinkStep.andThen_ok room
  obtain ⟨t, added, text, printed, used, touched⟩ : ∃ t : LogSink,
      (r.store r.context.used byte).setUsed (r.context.used + 1) = t ∧
      t.buffered = r.buffered ++ [byte] ∧ t.printed = r.printed ∧
      t.context.used = r.context.used + 1 ∧ ∀ i ∈ t.written, i < N := by
    refine ⟨_, rfl, buffered_append r byte, rfl, rfl, fun i hi => ?_⟩
    rcases List.mem_append.mp hi with old | new
    · exact written i old
    · obtain rfl := List.mem_singleton.mp new
      omega
  rw [added] at put
  have pending : t.framer = ⟨r.framer.pending ++ [byte], r.framer.frames⟩ := by
    rw [LogSink.framer, text, printed]
    rfl
  have plain' : 0 ∉ t.buffered := by
    rw [text, List.mem_append, List.mem_singleton, not_or]
    exact ⟨plain, nonzero.symm⟩
  have model : s.framer.put (N - 1) newline byte =
      if byte = newline then t.framer.emit else t.framer := by
    rw [pending, framer]
    rfl
  rw [put, model]
  rw [model] at sound
  by_cases ends : byte = newline
  · rw [if_pos ends] at sound
    rw [if_pos ends, if_pos ends]
    exact ⟨logSinkEmit_status t, logSinkEmit_framer plain',
      logSinkEmit_good hN plain' (by omega) sound touched⟩
  · rw [if_neg ends] at sound
    rw [if_neg ends, if_neg ends]
    exact ⟨rfl, rfl, plain', sound, touched⟩

/-- A write feeds its bytes to the framer. -/
theorem LogSink.Good.write (hN : 2 ≤ N) (good : s.Good N) {data : Bytes} (plain : 0 ∉ data) :
    (logSinkWrite N (some data) s).1 = statusSuccess ∧
    (logSinkWrite N (some data) s).2.framer = s.framer.feed (N - 1) newline data ∧
    (logSinkWrite N (some data) s).2.Good N := by
  induction data generalizing s with
  | nil => exact ⟨rfl, rfl, good⟩
  | cons byte data ih =>
    have nonzero : byte ≠ 0 := fun zero => plain (by simp [zero])
    obtain ⟨status, framer, good'⟩ := good.put hN nonzero
    obtain ⟨rest, fed, good''⟩ := ih good' fun member => plain (List.mem_cons_of_mem byte member)
    have step : logSinkWrite N (some (byte :: data)) s =
        logSinkWrite N (some data) (logSinkPut N byte s).2 :=
      SinkStep.andThen_ok (by rw [← status])
    rw [step]
    refine ⟨rest, ?_, good''⟩
    rw [fed, framer]
    rfl

/-- A call of the sink through its transport. -/
inductive SinkCall where
  | write (data : Bytes)
  | flush

def SinkCall.text : SinkCall → Bytes
  | .write data => data
  | .flush => []

def sinkStep (N : ℕ) (s : LogSink) : SinkCall → LogSink
  | .write data => (transportWrite (logSinkTransport N) data s).2
  | .flush => (transportFlush (logSinkTransport N) s).2

theorem sinkStep_good (hN : 2 ≤ N) (good : s.Good N) {call : SinkCall} (plain : 0 ∉ call.text) :
    (sinkStep N s call).Good N ∧
      (sinkStep N s call).framer.content = s.framer.content ++ call.text := by
  cases call with
  | write data =>
    obtain ⟨-, fed, good'⟩ := good.write hN plain
    exact ⟨good', by rw [← Framer.feed_content, ← fed]; rfl⟩
  | flush =>
    have framer := logSinkEmit_framer good.plain
    refine ⟨logSinkEmit_good hN good.plain good.used good.sound.emit good.written, ?_⟩
    change (logSinkEmit s).2.framer.content = s.framer.content ++ []
    rw [framer, Framer.emit_content, List.append_nil]

theorem sinkRun_good (hN : 2 ≤ N) (good : s.Good N) {calls : List SinkCall}
    (plain : ∀ call ∈ calls, 0 ∉ call.text) :
    (run (sinkStep N) s calls).Good N ∧
      (run (sinkStep N) s calls).framer.content =
        s.framer.content ++ calls.flatMap SinkCall.text := by
  induction calls generalizing s with
  | nil => exact ⟨good, (List.append_nil _).symm⟩
  | cons call calls ih =>
    obtain ⟨good', content⟩ := sinkStep_good hN good (plain call (by simp))
    obtain ⟨good'', rest⟩ := ih good' fun c hc => plain c (by simp [hc])
    rw [run_cons, List.flatMap_cons, rest, content, List.append_assoc]
    exact ⟨good'', rfl⟩

/-- Whatever is written to the log sink, in whatever pieces, comes out in order and once, in
strings that are lines or pieces of lines; what has not come out is in the buffer. -/
theorem log_sink_keeps_text (hN : 2 ≤ N) (calls : List SinkCall)
    (plain : ∀ call ∈ calls, 0 ∉ call.text) (reached : s = run (sinkStep N) .start calls) :
    (s.context.used ≤ N - 1 ∧ ∀ i ∈ s.written, i < N) ∧
    (s.printed.flatten ++ s.buffered = calls.flatMap SinkCall.text ∧
      (sinkStep N s .flush).printed.flatten = calls.flatMap SinkCall.text) ∧
    (∀ text ∈ s.printed, text ≠ [] ∧ text.length ≤ N - 1 ∧ newline ∉ text.dropLast) ∧
    ∀ a b, 0 ∉ a → 0 ∉ b →
      sinkStep N (sinkStep N s (.write a)) (.write b) = sinkStep N s (.write (a ++ b)) := by
  obtain ⟨good, content⟩ := sinkRun_good hN (LogSink.start_good N) plain
  rw [← reached] at good content
  obtain ⟨flushed, same⟩ := @sinkStep_good N s hN good .flush (by simp [SinkCall.text])
  refine ⟨⟨good.used, good.written⟩, ⟨content, ?_⟩, ?_, ?_⟩
  · have empty : (sinkStep N s .flush).framer.pending = [] := by
      change (logSinkEmit s).2.framer.pending = []
      rw [logSinkEmit_framer good.plain, Framer.emit_pending]
    have all : (sinkStep N s .flush).printed.flatten =
        (sinkStep N s .flush).framer.content := by
      rw [Framer.content, empty, List.append_nil]
      rfl
    rw [all, same, content]
    exact List.append_nil _
  · exact fun text member => have frame := good.sound.frames text member
      ⟨frame.nonempty, frame.short, frame.last⟩
  · intro a b ha _
    have first := (good.write hN ha).1
    change (logSinkWrite N (some b) (logSinkWrite N (some a) s).2).2 =
      (SinkStep.all ((a ++ b).map (logSinkPut N)) s).2
    rw [List.map_append, SinkStep.all_append]
    exact congrArg Prod.snd (SinkStep.andThen_ok (by rw [← first]; rfl)).symm

theorem log_sink_keeps_text_ref :
    (sinkStep 4 (run (sinkStep 4) .start [.write (ascii "abcde\nf"), .flush, .write (ascii "g")])
      .flush).printed.flatten = ascii "abcde\nf" ++ ascii "g" :=
  (log_sink_keeps_text (by decide) [.write (ascii "abcde\nf"), .flush, .write (ascii "g")]
    (by decide) rfl).2.1.2

end NsxPmu
