import PackedRatings.File.RowSection
import PackedRatings.Proofs.File.Fields

/-!
# Writing and reading rows

A row is read back as what its layout keeps of the rating, and rows written behind each other
are read back one by one.
-/
namespace PackedRatings

namespace RowLayout

variable {layout : RowLayout} {rating : Rating}

/-- What a file of this layout keeps of a rating. -/
def stored (layout : RowLayout) (rating : Rating) : Rating :=
  { rating with timestamp := if layout.timestamps then rating.timestamp else none }

/-- A layout with timestamps takes no rating without one. -/
def Takes (layout : RowLayout) (rating : Rating) : Prop :=
  rating.timestamp.isSome ∨ ¬ layout.timestamps

@[simp] theorem length_encodeTriple (rating : Rating) : (encodeTriple rating).length = 24 := by
  simp [encodeTriple]

/-- A row that the layout takes is written whole. -/
theorem write_eq (h : layout.Takes rating) :
    layout.write rating = ⟨encodeTriple rating ++
      (layout.stored rating).timestamp.toList.flatMap BigEndian.encodeInt64, none⟩ := by
  obtain ⟨timestamps⟩ := layout
  cases timestamps with
  | false => simp [write, stored]
  | true =>
    rcases Option.isSome_iff_exists.1 (h.resolve_right (by simp)) with ⟨timestamp, htimestamp⟩
    simp [write, stored, htimestamp]

theorem length_write (h : layout.Takes rating) :
    (layout.write rating).bytes.length = layout.rowWidth := by
  rw [write_eq h]
  obtain ⟨timestamps⟩ := layout
  cases timestamps with
  | false => simp [stored, rowWidth]
  | true =>
    rcases Option.isSome_iff_exists.1 (h.resolve_right (by simp)) with ⟨timestamp, htimestamp⟩
    simp [stored, rowWidth, htimestamp]

theorem decode_encodeTriple_append (layout : RowLayout) (rating : Rating) (rest : List UInt8) :
    layout.decode (encodeTriple rating ++ rest) =
      { rating with
        timestamp := if layout.timestamps then some (BigEndian.decodeInt64 (rest.take 8))
          else none } := by
  have hbits : rating.value.bits.toNat < BigEndian.capacity 8 := rating.value.bits.toNat_lt
  have hvalue : UInt64.ofNat (BigEndian.decode (BigEndian.encode 8 rating.value.bits.toNat)) =
      rating.value.bits := by
    rw [BigEndian.decode_encode, Nat.mod_eq_of_lt hbits, UInt64.ofNat_toNat]
  have huser : (encodeTriple rating ++ rest).take 8 = BigEndian.encodeInt64 rating.user := by
    simp [encodeTriple]
  have hitem : ((encodeTriple rating ++ rest).drop 8).take 8 =
      BigEndian.encodeInt64 rating.item := by
    simp [encodeTriple]
  have hbytes : ((encodeTriple rating ++ rest).drop 16).take 8 =
      BigEndian.encode 8 rating.value.bits.toNat := by
    simp [encodeTriple, List.drop_append, List.drop_of_length_le]
  have hrest : (encodeTriple rating ++ rest).drop 24 = rest := by
    rw [← length_encodeTriple rating, List.drop_left]
  rw [decode, huser, hitem, hbytes, hrest, hvalue, BigEndian.decodeInt64_encodeInt64,
    BigEndian.decodeInt64_encodeInt64]

theorem decode_write (h : layout.Takes rating) :
    layout.decode (layout.write rating).bytes = layout.stored rating := by
  rw [write_eq h, decode_encodeTriple_append]
  obtain ⟨timestamps⟩ := layout
  cases timestamps with
  | false => rfl
  | true =>
    rcases Option.isSome_iff_exists.1 (h.resolve_right (by simp)) with ⟨timestamp, htimestamp⟩
    have htake : (BigEndian.encodeInt64 timestamp).take 8 = BigEndian.encodeInt64 timestamp :=
      List.take_of_length_le (by simp)
    simp [stored, htimestamp, htake]

end RowLayout

theorem length_flatMap_of_width {α : Type u} {β : Type v} {f : α → List β} {width : Nat}
    {l : List α} (hwidth : ∀ a ∈ l, (f a).length = width) :
    (l.flatMap f).length = l.length * width := by
  induction l with
  | nil => rw [List.flatMap_nil, List.length_nil, List.length_nil, Nat.zero_mul]
  | cons a l ih =>
    rw [List.flatMap_cons, List.length_append, hwidth a List.mem_cons_self,
      ih fun b hb => hwidth b (List.mem_cons_of_mem a hb), List.length_cons, Nat.succ_mul,
      Nat.add_comm]

/-- Rows of equal width behind each other are found at the multiples of the width. -/
theorem take_drop_flatMap {α : Type u} {β : Type v} {f : α → List β} {width : Nat} {l : List α}
    (hwidth : ∀ a ∈ l, (f a).length = width) {i : Nat} (hi : i < l.length) :
    ((l.flatMap f).drop (i * width)).take width = f l[i] := by
  induction l generalizing i with
  | nil => simp at hi
  | cons a l ih =>
    have ha := hwidth a List.mem_cons_self
    rw [List.flatMap_cons]
    cases i with
    | zero =>
      rw [Nat.zero_mul, List.drop_zero, ← ha, List.take_left]
      rfl
    | succ i =>
      have hi : i < l.length := Nat.lt_of_succ_lt_succ hi
      have hdrop : (f a ++ l.flatMap f).drop width = l.flatMap f := by
        rw [← ha, List.drop_left]
      rw [Nat.succ_mul, Nat.add_comm, ← List.drop_drop, hdrop,
        ih (fun b hb => hwidth b (List.mem_cons_of_mem a hb)) hi]
      rfl

namespace RowSection

/-- The end of a row is not behind the end of the rows. -/
theorem stop_le (s : RowSection) (i : Fin s.count) :
    i * s.layout.rowWidth + s.layout.rowWidth ≤ s.count * s.layout.rowWidth := by
  rw [← Nat.succ_mul]
  exact Nat.mul_le_mul_right _ i.isLt

def rowBytes (s : RowSection) (i : Fin s.count) : List UInt8 :=
  (s.bytes.extract (i * s.layout.rowWidth) ((i + 1) * s.layout.rowWidth)).data.toList

theorem rowBytes_eq (s : RowSection) (i : Fin s.count) :
    s.rowBytes i = (s.bytes.data.toList.drop (i * s.layout.rowWidth)).take s.layout.rowWidth := by
  rw [rowBytes, data_toList_extract, Nat.succ_mul, Nat.add_sub_cancel_left]

/-- The section holds the rows of `ratings` and nothing else. -/
structure Holds (s : RowSection) (ratings : List Rating) : Prop where
  count : s.count = ratings.length
  bytes : s.bytes.data.toList = ratings.flatMap fun r => (s.layout.write r).bytes
  takes : ∀ r ∈ ratings, s.layout.Takes r

namespace Holds

variable {s : RowSection} {ratings : List Rating}

/-- Each row is read back as what the layout keeps of its rating. -/
theorem row_eq (h : s.Holds ratings) {i : Fin s.count} (hi : i < ratings.length) :
    s.row i = s.layout.stored ratings[i.val] := by
  have hwidth : ∀ r ∈ ratings, (s.layout.write r).bytes.length = s.layout.rowWidth :=
    fun r hr => RowLayout.length_write (h.takes r hr)
  have hrow : (s.bytes.extract (i * s.layout.rowWidth)
      ((i + 1) * s.layout.rowWidth)).data.toList = (s.layout.write ratings[i.val]).bytes := by
    rw [data_toList_extract, h.bytes, Nat.succ_mul, Nat.add_sub_cancel_left]
    exact take_drop_flatMap hwidth hi
  change s.layout.decode _ = _
  rw [hrow, RowLayout.decode_write (h.takes _ (List.getElem_mem hi))]

/-- Rows are read back as the ratings at their positions. -/
theorem map_row_eq (h : s.Holds ratings) (rows : List (Fin s.count)) :
    rows.map s.row =
      ((rows.map Fin.val).filterMap (ratings[·]?)).map s.layout.stored := by
  induction rows with
  | nil => rfl
  | cons i rows ih =>
    have hi : i.val < ratings.length := h.count ▸ i.isLt
    rw [List.map_cons, ih, h.row_eq hi, List.map_cons,
      List.filterMap_cons_some (List.getElem?_eq_getElem hi), List.map_cons]

theorem map_row_finRange (h : s.Holds ratings) :
    (List.finRange s.count).map s.row = ratings.map s.layout.stored := by
  apply List.ext_getElem
  · simp [h.count]
  · intro i hi hi'
    rw [List.length_map] at hi'
    rw [List.getElem_map, List.getElem_map, List.getElem_finRange]
    exact h.row_eq hi'

end Holds

end RowSection

end PackedRatings
