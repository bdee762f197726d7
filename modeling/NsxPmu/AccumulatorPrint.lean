import NsxPmu.Accumulator
import NsxPmu.CsvLossless
import NsxPmu.EventNames
import NsxPmu.ReferencePmu

set_option autoImplicit false

/-!
# Printing a matrix

`nsx_pmu_accmprint_matrix` and a reader of its text. The names end with a space and
the numbers with a comma and a space, also the last of a line.
-/
namespace NsxPmu
open SeparatedText

variable {H : Type}

def space : BitVec 8 := charByte ' '

def Pmu.printed (s : Pmu H) (texts : List String) : Pmu H :=
  { s with console := s.console ++ texts }

theorem Pmu.printed_append (s : Pmu H) (texts more : List String) :
    (s.printed texts).printed more = s.printed (texts ++ more) := by
  simp [Pmu.printed]

theorem foldl_printed {f : Pmu H → ℕ → Pmu H} {texts : ℕ → List String}
    (one : ∀ s i, f s i = s.printed (texts i)) (l : List ℕ) (s : Pmu H) :
    l.foldl f s = s.printed (l.flatMap texts) := by
  induction l generalizing s with
  | nil => simp [Pmu.printed]
  | cons i l ih => rw [List.foldl_cons, one, ih, Pmu.printed_append, List.flatMap_cons]

theorem foldl_printf (text : ℕ → String) (l : List ℕ) (s : Pmu H) :
    l.foldl (fun s j => s.printf (text j)) s = s.printed (l.map text) := by
  rw [foldl_printed (fun s j => (rfl : s.printf (text j) = s.printed [text j])),
    List.map_eq_flatMap]

def matrixHeaderTexts (events : ℕ) : List String :=
  ["Op: "] ++ (List.range events).map (fun j => (pmuMapAt j).regname ++ " ") ++ ["\n"]

def matrixRowTexts (cell : ℕ → ℕ → Word) (events i : ℕ) : List String :=
  [toString i ++ ", "] ++ (List.range events).map (fun j => toString (cell i j).toNat ++ ", ") ++
    ["\n"]

theorem printMatrixHeader_eq (events : ℕ) (s : Pmu H) :
    printMatrixHeader events s = s.printed (matrixHeaderTexts events) := by
  have first : s.printf "Op: " = s.printed ["Op: "] := rfl
  rw [printMatrixHeader, foldl_printf, first, Pmu.printed_append]
  exact Pmu.printed_append ..

theorem printMatrixRow_eq (mem : ℕ → Word) (matrix events : ℕ) (s : Pmu H) (i : ℕ) :
    printMatrixRow mem matrix events s i =
      s.printed (matrixRowTexts (fun i j => mem (matrix + (i * events + j))) events i) := by
  have first : s.printf (toString i ++ ", ") = s.printed [toString i ++ ", "] := rfl
  rw [printMatrixRow, foldl_printf, first, Pmu.printed_append]
  exact Pmu.printed_append ..

def textBytes (texts : List String) : Bytes := texts.flatMap ascii

theorem ascii_append (a b : String) : ascii (a ++ b) = ascii a ++ ascii b := by
  simp [ascii]

theorem ascii_toString (n : ℕ) : ascii (toString n) = formatUnsigned n := by
  change (Nat.repr n).toList.map charByte = _
  rw [Nat.repr, String.toList_ofList]
  rfl

def matrixName (j : ℕ) : Bytes := ascii (pmuMapAt j).regname

def matrixHeaderLine (events : ℕ) : Bytes :=
  ascii "Op: " ++ unlines space ((List.range events).map matrixName)

def matrixRowLine (numbers : List ℕ) : Bytes :=
  numbers.flatMap fun n => formatUnsigned n ++ ascii ", "

theorem matrixHeaderTexts_bytes (events : ℕ) :
    textBytes (matrixHeaderTexts events) = matrixHeaderLine events ++ [newline] := by
  have names : textBytes ((List.range events).map fun j => (pmuMapAt j).regname ++ " ") =
      unlines space ((List.range events).map matrixName) := by
    rw [textBytes, unlines, List.flatMap_map, List.flatMap_map]
    exact List.flatMap_congr fun j _ => ascii_append _ _
  rw [matrixHeaderTexts, textBytes, List.flatMap_append, List.flatMap_append, ← textBytes, ← textBytes,
    names]
  rfl

theorem matrixRowTexts_bytes (cell : ℕ → ℕ → Word) (events i : ℕ) :
    textBytes (matrixRowTexts cell events i) =
      matrixRowLine (i :: (List.range events).map fun j => (cell i j).toNat) ++ [newline] := by
  have numbers : textBytes ((List.range events).map fun j => toString (cell i j).toNat ++ ", ") =
      matrixRowLine ((List.range events).map fun j => (cell i j).toNat) := by
    rw [textBytes, matrixRowLine, List.flatMap_map, List.flatMap_map]
    refine List.flatMap_congr fun j _ => ?_
    rw [ascii_append, ascii_toString]
  have number : textBytes [toString i ++ ", "] = formatUnsigned i ++ ascii ", " := by
    rw [textBytes, List.flatMap_singleton, ascii_append, ascii_toString]
  rw [matrixRowTexts, textBytes, List.flatMap_append, List.flatMap_append, ← textBytes, ← textBytes,
    number, numbers, matrixRowLine, matrixRowLine, List.flatMap_cons]
  rfl

/-- What a printed matrix says: the names of its columns, and each row behind its number. -/
structure PrintedMatrix where
  names : List Bytes
  rows : List (List ℕ)

def decodeMatrixNames (line : Bytes) : Option (List Bytes) :=
  (after (ascii "Op: ") line).bind (lines space)

def decodeMatrixRow (line : Bytes) : Option (List ℕ) :=
  (lines comma (line.filter (· ≠ space))).bind fun fields => fields.mapM parseUnsigned

/-- Reads a text of one line of names and one line a row. -/
def decodeMatrix (text : Bytes) : Option PrintedMatrix := do
  let ls ← lines newline text
  return ⟨← decodeMatrixNames (← ls.head?), ← ls.tail.mapM decodeMatrixRow⟩

theorem matrixName_plain (j : ℕ) (hj : j < pmuMapSize) :
    newline ∉ matrixName j ∧ space ∉ matrixName j :=
  ⟨regname_avoids hj rfl, regname_avoids hj rfl⟩

theorem decodeMatrixNames_line {events : ℕ} (few : events ≤ pmuMapSize) :
    decodeMatrixNames (matrixHeaderLine events) = some ((List.range events).map matrixName) := by
  rw [decodeMatrixNames, matrixHeaderLine, after_append, Option.bind_some, lines_unlines]
  intro name member
  obtain ⟨j, hj, rfl⟩ := List.mem_map.mp member
  exact (matrixName_plain j ((List.mem_range.mp hj).trans_le few)).2

theorem matrixRowLine_unspaced (numbers : List ℕ) :
    (matrixRowLine numbers).filter (· ≠ space) = unlines comma (numbers.map formatUnsigned) := by
  rw [matrixRowLine, List.filter_flatMap, unlines, List.flatMap_map]
  refine List.flatMap_congr fun n _ => ?_
  have digits : (formatUnsigned n).filter (· ≠ space) = formatUnsigned n := by
    refine List.filter_eq_self.mpr fun b member => decide_eq_true ?_
    rintro rfl
    exact Numerals.not_mem_of_read (parseUnsigned_format n) (by decide) member
  rw [List.filter_append, digits]
  rfl

theorem decodeMatrixRow_line (numbers : List ℕ) :
    decodeMatrixRow (matrixRowLine numbers) = some numbers := by
  have fields : lines comma (unlines comma (numbers.map formatUnsigned)) =
      some (numbers.map formatUnsigned) := by
    refine lines_unlines fun field member => ?_
    obtain ⟨n, -, rfl⟩ := List.mem_map.mp member
    exact (formatUnsigned_plain n).2
  have values : (numbers.map formatUnsigned).mapM parseUnsigned = some (numbers.map id) :=
    mapM_map_some fun n _ => parseUnsigned_format n
  rw [decodeMatrixRow, matrixRowLine_unspaced, fields, Option.bind_some, values, List.map_id]

theorem matrixHeaderLine_plain {events : ℕ} (few : events ≤ pmuMapSize) :
    newline ∉ matrixHeaderLine events := by
  rw [matrixHeaderLine, List.mem_append, not_or, unlines, List.mem_flatMap]
  refine ⟨by decide, ?_⟩
  rintro ⟨name, member, here⟩
  obtain ⟨j, hj, rfl⟩ := List.mem_map.mp member
  rcases List.mem_append.mp here with here | here
  · exact (matrixName_plain j ((List.mem_range.mp hj).trans_le few)).1 here
  · exact absurd (List.mem_singleton.mp here) (by decide)

theorem matrixRowLine_plain (numbers : List ℕ) : newline ∉ matrixRowLine numbers := by
  rw [matrixRowLine, List.mem_flatMap]
  rintro ⟨n, -, here⟩
  rcases List.mem_append.mp here with here | here
  · exact (formatUnsigned_plain n).1 here
  · exact absurd here (by decide)

theorem decodeMatrix_lines {events : ℕ} (few : events ≤ pmuMapSize) (rows : List (List ℕ)) :
    decodeMatrix (unlines newline (matrixHeaderLine events :: rows.map matrixRowLine)) =
      some ⟨(List.range events).map matrixName, rows⟩ := by
  have plain : ∀ l ∈ matrixHeaderLine events :: rows.map matrixRowLine, newline ∉ l := by
    intro l member
    rcases List.mem_cons.mp member with rfl | member
    · exact matrixHeaderLine_plain few
    · obtain ⟨row, -, rfl⟩ := List.mem_map.mp member
      exact matrixRowLine_plain row
  have values : (rows.map matrixRowLine).mapM decodeMatrixRow = some (rows.map id) :=
    mapM_map_some fun row _ => decodeMatrixRow_line row
  rw [decodeMatrix, lines_unlines plain]
  dsimp only [List.head?, List.tail, bind, Option.bind]
  rw [decodeMatrixNames_line few, values, List.map_id]
  rfl

def matrixTexts (B : AccBuild) (accs : ℕ → Acc) (h : BitVec 8) (matrix : ℕ)
    (ops events : BitVec 16) (mem : ℕ → Word) : List String :=
  matrixHeaderTexts events.toNat ++
    if (handleToAcc B accs h).isSome ∧ matrix ≠ 0 then
      (List.range ops.toNat).flatMap
        (matrixRowTexts (fun i j => mem (matrix + (i * events.toNat + j))) events.toNat)
    else []

theorem matrixTexts_bytes (B : AccBuild) (accs : ℕ → Acc) (h : BitVec 8) (matrix : ℕ)
    (ops events : BitVec 16) (mem : ℕ → Word) :
    textBytes (matrixTexts B accs h matrix ops events mem) =
      unlines newline (matrixHeaderLine events.toNat ::
        (if (handleToAcc B accs h).isSome ∧ matrix ≠ 0 then
          (List.range ops.toNat).map fun i => i :: (List.range events.toNat).map fun j =>
            (mem (matrix + (i * events.toNat + j))).toNat
        else []).map matrixRowLine) := by
  rw [matrixTexts, textBytes, List.flatMap_append, ← textBytes, matrixHeaderTexts_bytes]
  unfold unlines
  rw [List.flatMap_cons]
  split
  · rw [List.flatMap_assoc, List.flatMap_map, List.flatMap_map]
    exact congrArg _ (List.flatMap_congr fun i _ => matrixRowTexts_bytes _ _ i)
  · rfl

theorem accmPrintMatrix_eq (B : AccBuild) (accs : ℕ → Acc) (h : BitVec 8) (matrix : ℕ)
    (ops events : BitVec 16) (w : World H) :
    accmPrintMatrix B accs h matrix ops events w =
      { w with pmu := w.pmu.printed (matrixTexts B accs h matrix ops events w.mem) } := by
  unfold accmPrintMatrix matrixTexts
  rw [printMatrixHeader_eq]
  dsimp only
  split
  · rw [foldl_printed fun s i => printMatrixRow_eq w.mem matrix events.toNat s i,
      Pmu.printed_append]
  · rw [List.append_nil]

theorem matrixTexts_decoded {B : AccBuild} {accs : ℕ → Acc} {h : BitVec 8} {matrix : ℕ}
    {ops events : BitVec 16} {mem : ℕ → Word} {cell : ℕ → ℕ → ℕ} (few : events.toNat ≤ pmuMapSize)
    (live : (handleToAcc B accs h).isSome) (buffer : matrix ≠ 0)
    (cells : ∀ i < ops.toNat, ∀ j < events.toNat,
      (mem (matrix + (i * events.toNat + j))).toNat = cell i j) :
    decodeMatrix (textBytes (matrixTexts B accs h matrix ops events mem)) =
      some ⟨(List.range events.toNat).map matrixName,
        (List.range ops.toNat).map fun i => i :: (List.range events.toNat).map (cell i)⟩ := by
  have rows : ((List.range ops.toNat).map fun i => i :: (List.range events.toNat).map fun j =>
        (mem (matrix + (i * events.toNat + j))).toNat) =
      (List.range ops.toNat).map fun i => i :: (List.range events.toNat).map (cell i) := by
    refine List.map_congr_left fun i hi => congrArg (i :: ·) (List.map_congr_left fun j hj => ?_)
    exact cells i (List.mem_range.mp hi) j (List.mem_range.mp hj)
  rw [matrixTexts_bytes, decodeMatrix_lines few, if_pos ⟨live, buffer⟩, rows]

/-- Printing a matrix appends to the console and changes nothing else, and what it prints is read
back whole: the names of the columns, and the number and the cells of each row when the handle is
live and the matrix is not NULL. -/
theorem print_matrix_lossless (B : AccBuild) (accs : ℕ → Acc) (h : BitVec 8) (matrix : ℕ)
    (ops events : BitVec 16) (w : World H) (few : events.toNat ≤ pmuMapSize) :
    ∃ texts, accmPrintMatrix B accs h matrix ops events w =
        { w with pmu := { w.pmu with console := w.pmu.console ++ texts } } ∧
      decodeMatrix (textBytes texts) = some ⟨(List.range events.toNat).map matrixName,
        if (handleToAcc B accs h).isSome ∧ matrix ≠ 0 then
          (List.range ops.toNat).map fun i => i :: (List.range events.toNat).map fun j =>
            (w.mem (matrix + (i * events.toNat + j))).toNat
        else []⟩ := by
  refine ⟨_, accmPrintMatrix_eq B accs h matrix ops events w, ?_⟩
  rw [matrixTexts_bytes, decodeMatrix_lines few]

theorem print_matrix_lossless_ref :
    ∃ texts, accmPrintMatrix .default (fun _ => { Acc.zero with inUse := true }) 0 4096 1 2
          { RefPmu.start.world with mem := fun a => if a = 4096 then 7 else 9 } =
        { pmu := { RefPmu.start.world.pmu with console := texts },
          mem := fun a => if a = 4096 then 7 else 9 } ∧
      decodeMatrix (textBytes texts) =
        some ⟨[ascii "ARM_PMU_SW_INCR", ascii "ARM_PMU_L1I_CACHE_REFILL"], [[0, 7, 9]]⟩ :=
  print_matrix_lossless .default (fun _ => { Acc.zero with inUse := true }) 0 4096 1 2
    { RefPmu.start.world with mem := fun a => if a = 4096 then 7 else 9 } (by decide)

end NsxPmu
