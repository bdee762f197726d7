import NsxPmu.Core

set_option autoImplicit false

/-!
# Transports

`nsx_pmu_transport.c` as the serialiser uses it: two callbacks that thread a
context of any type, and the formatting of the few conversions it prints.
-/
namespace NsxPmu

abbrev Bytes := List (BitVec 8)

/-- `nsx_pmu_transport_t`: either callback may be NULL. -/
structure Transport (X : Type) where
  write : Option (X → Bytes → Status × X)
  flush : Option (X → Status × X)

/-- The write callback is there and never refuses. -/
def Transport.AcceptsWrites {X : Type} (t : Transport X) : Prop :=
  ∃ write, t.write = some write ∧ ∀ x data, (write x data).1 = statusSuccess

def nullTransport : Transport Unit := ⟨some fun _ _ => (statusSuccess, ()), none⟩

/-- A call that may fail and may change the context of the transport. -/
abbrev SinkStep (X : Type) := X → Status × X

variable {X : Type}

/-- `status = f(..); if (status != NSX_STATUS_SUCCESS) return status;` and what follows it. -/
def SinkStep.andThen (f g : SinkStep X) : SinkStep X := fun x =>
  if (f x).1 ≠ statusSuccess then f x else g (f x).2

/-- The steps in order, up to the first that fails. -/
def SinkStep.all : List (SinkStep X) → SinkStep X
  | [] => fun x => (statusSuccess, x)
  | f :: l => f.andThen (SinkStep.all l)

theorem SinkStep.andThen_ok {f g : SinkStep X} {x y : X} (h : f x = (statusSuccess, y)) :
    f.andThen g x = g y := by
  unfold SinkStep.andThen
  rw [if_neg (by rw [h]; exact not_not_intro rfl), h]

theorem SinkStep.andThen_failed {f g : SinkStep X} {x : X} (h : (f x).1 ≠ statusSuccess) :
    f.andThen g x = f x :=
  if_pos h

theorem SinkStep.all_append (l k : List (SinkStep X)) :
    SinkStep.all (l ++ k) = (SinkStep.all l).andThen (SinkStep.all k) := by
  induction l with
  | nil => rfl
  | cons f l ih =>
    funext x
    rw [List.cons_append, SinkStep.all, ih, SinkStep.all]
    unfold SinkStep.andThen
    by_cases failed : (f x).1 ≠ statusSuccess
    · simp only [if_pos failed]
    · simp only [if_neg failed]

def transportWrite (t : Transport X) (data : Bytes) : SinkStep X := fun x =>
  match t.write with
  | none => (statusInvalidHandle, x)
  | some write => write x data

def charByte (c : Char) : BitVec 8 := BitVec.ofNat 8 c.toNat

def newline : BitVec 8 := charByte '\n'

/-- The bytes of a text without the terminating NUL. -/
def ascii (text : String) : Bytes := text.toList.map charByte

def transportWriteCstr (t : Transport X) (text : String) : SinkStep X :=
  transportWrite t (ascii text)

abbrev printfBufferBytes : ℕ := 256

/-- `nsx_pmu_transport_printf` of the text its format and arguments stand for: what fits
the buffer, with room for the NUL, is written. -/
def transportPrintf (t : Transport X) (formatted : Bytes) : SinkStep X :=
  transportWrite t
    (formatted.take (if formatted.length ≥ printfBufferBytes then printfBufferBytes - 1
      else formatted.length))

def transportFlush (t : Transport X) : SinkStep X := fun x =>
  match t.flush with
  | none => (statusSuccess, x)
  | some flush => flush x

/-- The conversion `%u`. -/
def formatUnsigned (n : ℕ) : Bytes := (Nat.toDigits 10 n).map charByte

/-- The conversion `%04x`. -/
def formatHex4 (n : ℕ) : Bytes :=
  let digits := (Nat.toDigits 16 n).map charByte
  List.replicate (4 - digits.length) (charByte '0') ++ digits

end NsxPmu
