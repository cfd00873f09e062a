import PackedRatings.File.FileHeader

/-!
# The rows of a rating file

A `RowSection` is the part of a file that holds its rows, exactly as many bytes as the rows
take, so every row position below their number can be decoded.
-/
namespace PackedRatings

structure RowSection where
  layout : RowLayout
  count : Nat
  bytes : ByteArray
  complete : bytes.size = count * layout.rowWidth

namespace RowSection

/-- The rows that `header` declares, if the file is long enough for them. -/
def ofFile (header : FileHeader) (file : ByteArray) (fits : header.indexOffset ≤ file.size) :
    RowSection where
  layout := header.layout
  count := header.ratingCount
  bytes := file.extract FileHeader.byteLength header.indexOffset
  complete := by
    simp only [ByteArray.size_extract, FileHeader.indexOffset, FileHeader.sectionLength] at *
    omega

def row (s : RowSection) (i : Fin s.count) : Rating :=
  let width := s.layout.rowWidth
  s.layout.decode (s.bytes.extract (i * width) ((i + 1) * width)).data.toList

/-- Whether a timestamp does not come after another. A missing one comes before all others. -/
def notAfter : Option Int64 → Option Int64 → Bool
  | none, _ => true
  | some _, none => false
  | some s, some t => decide (s ≤ t)

/-- The row positions from the oldest to the newest rating. Rows of equal timestamp keep
their order. -/
def timeOrder (s : RowSection) : List (Fin s.count) :=
  (List.finRange s.count).mergeSort fun i j => notAfter (s.row i).timestamp (s.row j).timestamp

end RowSection

end PackedRatings
