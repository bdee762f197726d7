import NsxPmu.CsvLossless
import NsxPmu.EventNames
import NsxPmu.LogSink

set_option autoImplicit false

/-!
# Printing a chunk

`nsx_pmu_capture_serialize_csv` with the transport that prints: no text of a
chunk contains a NUL, so every chunk comes out whole.
-/
namespace NsxPmu
open SeparatedText

variable {N : ℕ} {s : LogSink}

def countsLine (op : ℕ) (counts : List ℕ) : Bytes :=
  joined comma (formatUnsigned op) (counts.map formatUnsigned)

theorem csvRowLine_counts (c : Capture) (mem : ℕ → Word) (row : ℕ) :
    csvRowLine c mem row = countsLine (c.currentChunkStart + row)
      ((List.range c.totalEventCount).map (csvValue c mem row)) := by
  rw [countsLine, List.map_map]
  rfl

end NsxPmu
