import NsxPmu.PmuDriver
import NsxPmu.Transport

set_option autoImplicit false

/-!
# Event names

`nsx_pmu_get_name` of `nsx_pmu_utils.c`, which copies a text to a buffer of the caller.
-/
namespace NsxPmu

abbrev eventNameMaxLen : ℕ := 50

/-- `nsx_pmu_copy_name`: the bytes of the buffer afterwards. `strncpy` fills up with NULs. -/
def pmuCopyName (src : String) : Bytes :=
  let copied := (ascii src).take (eventNameMaxLen - 1)
  copied ++ List.replicate (eventNameMaxLen - 1 - copied.length) 0 ++ [0]

/-- `nsx_pmu_get_name` with a buffer that is not NULL. The configuration may be. -/
def pmuGetName (cfg : Option PmuConfig) (i : ℕ) : Bytes :=
  match cfg with
  | none => pmuCopyName "Invalid handle"
  | some cfg =>
    if i ≥ maxCounters then pmuCopyName "Invalid handle"
    else if !(cfg.events i).enabled then pmuCopyName "Not enabled"
    else pmuCopyName (pmuMapAt (cfg.counter i).mapIndex).regname

/-- A byte of an identifier as the table has them: a capital letter, a digit or an underscore. -/
def nameByte (b : BitVec 8) : Bool :=
  (65 ≤ b.toNat && b.toNat ≤ 90) || (48 ≤ b.toNat && b.toNat ≤ 57) || b.toNat == 95

theorem regname_identifier : ∀ m < pmuMapSize,
    (ascii (pmuMapAt m).regname).length < eventNameMaxLen ∧
      (ascii (pmuMapAt m).regname).all nameByte = true := by
  decide +kernel

theorem regname_avoids {m : ℕ} (hm : m < pmuMapSize) {b : BitVec 8} (sign : nameByte b = false) :
    b ∉ ascii (pmuMapAt m).regname := by
  intro member
  have inside := List.all_eq_true.mp (regname_identifier m hm).2 b member
  exact absurd (sign.symm.trans inside) Bool.false_ne_true

theorem regname_fits (m : ℕ) (hm : m < pmuMapSize) :
    (ascii (pmuMapAt m).regname).length < eventNameMaxLen ∧ 0 ∉ ascii (pmuMapAt m).regname :=
  ⟨(regname_identifier m hm).1, regname_avoids hm rfl⟩

/-- The text in a buffer, up to its first NUL. -/
def bufferText (buffer : Bytes) : Bytes := buffer.takeWhile (· ≠ 0)

theorem pmuCopyName_length (src : String) :
    (pmuCopyName src).length = eventNameMaxLen ∧ (pmuCopyName src).getLast? = some 0 := by
  unfold pmuCopyName
  dsimp only
  refine ⟨?_, List.getLast?_concat⟩
  simp only [List.length_append, List.length_replicate, List.length_singleton, List.length_take,
    eventNameMaxLen]
  omega

theorem bufferText_copyName {src : String} (plain : 0 ∉ ascii src)
    (short : (ascii src).length < eventNameMaxLen) : bufferText (pmuCopyName src) = ascii src := by
  have whole : (ascii src).take (eventNameMaxLen - 1) = ascii src :=
    List.take_of_length_le (by omega)
  have nonzero : ∀ b ∈ ascii src, decide (b ≠ 0) = true := by
    intro b member
    exact decide_eq_true fun zero => plain (zero ▸ member)
  unfold bufferText pmuCopyName
  dsimp only
  rw [whole, List.append_assoc, List.takeWhile_append_of_pos nonzero, ← List.replicate_succ',
    List.replicate_succ, List.takeWhile_cons_of_neg (by decide), List.append_nil]

end NsxPmu
