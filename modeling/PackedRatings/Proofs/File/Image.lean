import PackedRatings.File.FileHeader

/-!
# The documented form of a rating file

A `FileImage` is a rating file taken apart: its header fields, the bytes of its rows, the two
index tables and whatever follows them. `FileImage.bytes` puts the parts together as the format
prescribes, and `FileImage.WellFormed` says which parts the format allows.
-/
namespace PackedRatings

/-- An index table as it is written down: each key with its row positions. -/
abbrev TableImage := List (Int64 × List Nat)

namespace TableImage

def keys (t : TableImage) : List Int64 :=
  t.map Prod.fst

def positions (t : TableImage) : List Nat :=
  t.flatMap Prod.snd

def runBytes (rows : List Nat) : List UInt8 :=
  BigEndian.encode 4 rows.length ++ rows.flatMap (BigEndian.encode 4)

def bytes (t : TableImage) : List UInt8 :=
  t.keys.flatMap BigEndian.encodeInt64 ++ t.flatMap fun entry => runBytes entry.2

/-- Keys ascend, and the runs together have `rowCount` positions below `rowCount`. -/
structure WellFormed (t : TableImage) (rowCount : Nat) : Prop where
  ascending : t.keys.Pairwise (· < ·)
  inRange : ∀ row ∈ t.positions, row < rowCount
  complete : t.positions.length = rowCount

/-- Keys ascend, and each run is short enough for its length field, with positions below
`rowCount` that are small enough for theirs. -/
structure Readable (t : TableImage) (rowCount : Nat) : Prop where
  ascending : t.keys.Pairwise (· < ·)
  runs : ∀ entry ∈ t, entry.2.length ≤ FileHeader.maxCount ∧
    ∀ row ∈ entry.2, row < rowCount ∧ row ≤ FileHeader.maxCount

theorem length_flatMap_encode (width : Nat) (rows : List Nat) :
    (rows.flatMap (BigEndian.encode width)).length = width * rows.length := by
  induction rows with
  | nil => rfl
  | cons row rows ih =>
    rw [List.flatMap_cons, List.length_append, ih, BigEndian.length_encode, List.length_cons,
      Nat.mul_add, Nat.mul_one, Nat.add_comm]

theorem length_runBytes (rows : List Nat) : (runBytes rows).length = 4 + 4 * rows.length := by
  rw [runBytes, List.length_append, BigEndian.length_encode, length_flatMap_encode]

/-- Each key takes twelve bytes, for itself and the length of its run, and each position four. -/
theorem length_bytes (t : TableImage) :
    t.bytes.length = 12 * t.length + 4 * t.positions.length := by
  induction t with
  | nil => rfl
  | cons entry t ih =>
    simp only [bytes, keys, positions, List.map_cons, List.flatMap_cons, List.length_append,
      List.length_cons, length_runBytes] at *
    have hkey : (BigEndian.encodeInt64 entry.1).length = 8 := BigEndian.length_encode 8 _
    omega

/-- No run is longer than the rows are in number. -/
theorem WellFormed.length_run_le {t : TableImage} {rowCount : Nat} (h : t.WellFormed rowCount)
    {entry : Int64 × List Nat} (hentry : entry ∈ t) : entry.2.length ≤ rowCount := by
  have hcomplete := h.complete
  obtain ⟨before, after, rfl⟩ := List.append_of_mem hentry
  simp only [positions, List.flatMap_append, List.flatMap_cons, List.length_append] at hcomplete
  omega

theorem WellFormed.readable {t : TableImage} {rowCount : Nat} (h : t.WellFormed rowCount)
    (hrowCount : rowCount ≤ FileHeader.maxCount) : t.Readable rowCount where
  ascending := h.ascending
  runs := by
    intro entry hentry
    refine ⟨Nat.le_trans (h.length_run_le hentry) hrowCount, fun row hrow => ?_⟩
    have hlt := h.inRange row (List.mem_flatMap.2 ⟨entry, hentry, hrow⟩)
    exact ⟨hlt, Nat.le_trans (Nat.le_of_lt hlt) hrowCount⟩

end TableImage

/-- The bytes of a header. The word of flags has the timestamp flag in its lowest bit. -/
def FileHeader.bytes (h : FileHeader) : List UInt8 :=
  magic ++ BigEndian.encode 2 (if h.layout.timestamps then 1 else 0) ++
    BigEndian.encode 4 h.ratingCount ++ BigEndian.encode 4 h.userCount ++
    BigEndian.encode 4 h.itemCount ++ BigEndian.encode 8 (h.ratingCount * h.layout.rowWidth)

structure FileHeader.Fits (h : FileHeader) : Prop where
  ratingCount_le : h.ratingCount ≤ maxCount
  userCount_le : h.userCount ≤ maxCount
  itemCount_le : h.itemCount ≤ maxCount

structure FileImage where
  layout : RowLayout
  ratingCount : Nat
  rows : List UInt8
  users : TableImage
  items : TableImage
  trailing : List UInt8

namespace FileImage

/-- The header declares as many keys as the tables have. -/
def header (image : FileImage) : FileHeader where
  layout := image.layout
  ratingCount := image.ratingCount
  userCount := image.users.length
  itemCount := image.items.length

def body (image : FileImage) : List UInt8 :=
  image.header.bytes ++ image.rows ++ image.users.bytes ++ image.items.bytes

def bytes (image : FileImage) : List UInt8 :=
  image.body ++ image.trailing

theorem bytes_of_trailing_eq_nil {image : FileImage} (h : image.trailing = []) :
    image.bytes = image.body := by
  rw [bytes, h, List.append_nil]

structure WellFormed (image : FileImage) : Prop where
  header : image.header.Fits
  rows : image.rows.length = image.ratingCount * image.layout.rowWidth
  users : image.users.WellFormed image.ratingCount
  items : image.items.WellFormed image.ratingCount

/-- Each of the two tables lists every row exactly once. -/
structure ListsEachRowOnce (image : FileImage) : Prop where
  users : image.users.positions.Perm (List.range image.ratingCount)
  items : image.items.positions.Perm (List.range image.ratingCount)

end FileImage

end PackedRatings
