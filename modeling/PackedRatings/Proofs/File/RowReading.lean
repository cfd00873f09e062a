import PackedRatings.Proofs.File.Rows
import PackedRatings.Proofs.File.WordArithmetic

/-!
# Reading rows with words of 64 bits

A row is cut out of the file where it stands, its fields are cut out of the row, and a run is
cut out of the array of all runs. Each cut names both its ends, and it faults if they are not
in order or not inside of what is cut. None of these operations faults in a file whose rows
stand behind its header, and no byte but those of the rows decides what is read.
-/
namespace PackedRatings

namespace Guarded

variable {α β : Type}

def slice (l : List α) (start stop : Nat) : Guarded (List α) :=
  if start ≤ stop ∧ stop ≤ l.length then pure ((l.drop start).take (stop - start))
  else fault .outOfRange

theorem slice_eq_pure {l : List α} {start stop : Nat} (h : start ≤ stop)
    (hstop : stop ≤ l.length) : slice l start stop = pure ((l.drop start).take (stop - start)) :=
  if_pos ⟨h, hstop⟩

theorem slice_all (l : List α) : slice l 0 l.length = pure l := by
  rw [slice_eq_pure (Nat.zero_le _) (Nat.le_refl _), List.drop_zero, Nat.sub_zero,
    List.take_length]

theorem found_some (a : α) : found (some a) = pure a :=
  rfl

theorem mapM_eq_pure {l : List α} {f : α → Guarded β} {g : α → β}
    (h : ∀ a ∈ l, f a = pure (g a)) : l.mapM f = pure (l.map g) := by
  induction l with
  | nil => rfl
  | cons a l ih =>
    rw [List.mapM_cons, h a List.mem_cons_self, ih fun b hb => h b (List.mem_cons_of_mem a hb)]
    rfl

/-- At most `n` steps of a pass over `count` things, from the one at `passed` on. Before each
step the number of those still to come is computed. -/
def walk (count : Nat) (item : Nat → Guarded (Option β)) : (n passed : Nat) → Guarded (List β)
  | 0, _ => pure []
  | n + 1, passed => do
    let _ ← sub count passed
    match ← item passed with
    | none => pure []
    | some b =>
      let next ← word (passed + 1)
      return b :: (← walk count item n next)

theorem walk_eq_pure {l : List β} {item : Nat → Guarded (Option β)}
    (hsize : l.length < UInt64.size) (hitem : ∀ i, item i = pure l[i]?) (n : Nat) {passed : Nat}
    (hpassed : passed ≤ l.length) :
    walk l.length item n passed = pure ((l.drop passed).take n) := by
  induction n generalizing passed with
  | zero => rfl
  | succ n ih =>
    rw [walk, sub_eq_pure hpassed, pure_bind, hitem, pure_bind]
    by_cases hlt : passed < l.length
    · have hword : passed + 1 < UInt64.size := by omega
      rw [List.getElem?_eq_getElem hlt, List.drop_eq_getElem_cons hlt]
      dsimp only
      rw [word_eq_pure hword, pure_bind, ih hlt]
      rfl
    · have hle : l.length ≤ passed := Nat.le_of_not_lt hlt
      rw [List.getElem?_eq_none hle, List.drop_of_length_le hle]
      rfl

end Guarded

open Guarded

namespace RowLayout

/-- The rating in the bytes of one row, each field of which is cut out. -/
def guardedDecode (layout : RowLayout) (row : List UInt8) : Guarded Rating := do
  let user ← slice row 0 8
  let item ← slice row 8 16
  let value ← slice row 16 24
  let timestamp ← if layout.timestamps then some <$> slice row 24 32 else pure none
  return ⟨BigEndian.decodeInt64 user, BigEndian.decodeInt64 item,
    ⟨UInt64.ofNat (BigEndian.decode value)⟩, timestamp.map BigEndian.decodeInt64⟩

/-- Every row holds at least user, item and value. -/
theorem le_rowWidth (layout : RowLayout) : 24 ≤ layout.rowWidth := by
  rw [rowWidth]
  split
  · decide
  · decide

theorem guardedDecode_eq_pure {layout : RowLayout} {row : List UInt8}
    (h : row.length = layout.rowWidth) : layout.guardedDecode row = pure (layout.decode row) := by
  have htriple : 24 ≤ row.length := h ▸ layout.le_rowWidth
  rw [guardedDecode, slice_eq_pure (by decide) (by omega), pure_bind,
    slice_eq_pure (by decide) (by omega), pure_bind, slice_eq_pure (by decide) (by omega),
    pure_bind, decode]
  cases htimestamps : layout.timestamps with
  | false => rfl
  | true =>
    have hwidth : layout.rowWidth = 32 := if_pos htimestamps
    have hwhole : 32 ≤ row.length := Nat.le_of_eq (h.trans hwidth).symm
    rw [if_pos rfl, slice_eq_pure (by decide) hwhole]
    rfl

def guardedRow (layout : RowLayout) (file : ByteArray) (row : Nat) : Guarded Rating := do
  let offset ← Guarded.word (row * layout.rowWidth)
  let start ← Guarded.word (FileHeader.byteLength + offset)
  let stop ← Guarded.word (start + layout.rowWidth)
  layout.guardedDecode (← slice file.data.toList start stop)

end RowLayout

namespace RowSection

/-- The rows of `s` stand behind the header of `file`. -/
structure StandsIn (s : RowSection) (file : ByteArray) : Prop where
  count_le : s.count ≤ FileHeader.maxCount
  bytes : file.extract FileHeader.byteLength
    (FileHeader.byteLength + s.count * s.layout.rowWidth) = s.bytes

variable {s : RowSection} {file : ByteArray}

theorem StandsIn.stop_le_size (h : s.StandsIn file) (i : Fin s.count) :
    FileHeader.byteLength + s.count * s.layout.rowWidth ≤ file.size := by
  -- The bytes of the section are as many as its rows take, so the file does not end before them.
  have hcomplete := s.complete
  have hstop := s.stop_le i
  have hwidth := s.layout.le_rowWidth
  rw [← h.bytes, ByteArray.size_extract] at hcomplete
  omega

theorem StandsIn.take_drop (h : s.StandsIn file) (i : Fin s.count) :
    (file.data.toList.drop (FileHeader.byteLength + i * s.layout.rowWidth)).take
      s.layout.rowWidth = s.rowBytes i := by
  have hstop := s.stop_le i
  rw [rowBytes, ← h.bytes, data_toList_extract, data_toList_extract, List.drop_take, List.take_take,
    List.drop_drop, Nat.succ_mul]
  congr 1
  omega

/-- A row is read where it stands. -/
theorem StandsIn.guardedRow_eq_pure (h : s.StandsIn file) (i : Fin s.count) :
    s.layout.guardedRow file i = pure (s.row i) := by
  have hstop := s.stop_le i
  have hsize := h.stop_le_size i
  have hsection : s.count * s.layout.rowWidth ≤ FileHeader.maxCount * 32 :=
    Nat.mul_le_mul h.count_le s.layout.rowWidth_le
  have hwords : FileHeader.byteLength + FileHeader.maxCount * 32 < UInt64.size := by decide
  have hlength := length_data_toList file
  have hrow : ((file.data.toList.drop (FileHeader.byteLength + i * s.layout.rowWidth)).take
      s.layout.rowWidth).length = s.layout.rowWidth := by
    rw [List.length_take, List.length_drop]
    omega
  rw [RowLayout.guardedRow, word_eq_pure (by omega), pure_bind, word_eq_pure (by omega),
    pure_bind, word_eq_pure (by omega), pure_bind, slice_eq_pure (by omega) (by omega),
    pure_bind, Nat.add_sub_cancel_left, RowLayout.guardedDecode_eq_pure hrow, h.take_drop]
  rfl

theorem StandsIn.mapM_guardedRow (h : s.StandsIn file) (rows : List (Fin s.count)) :
    (rows.map Fin.val).mapM (s.layout.guardedRow file) = pure (rows.map s.row) := by
  rw [List.mapM_map]
  exact mapM_eq_pure fun i _ => h.guardedRow_eq_pure i

def guardedPositions (count : Nat) : List (Fin count) :=
  (List.finRange count).take (UInt32.ofNat count).toNat

theorem guardedPositions_eq {count : Nat} (h : count ≤ FileHeader.maxCount) :
    guardedPositions count = List.finRange count := by
  have hlt : count < UInt32.size := Nat.lt_of_le_of_lt h (by decide)
  rw [guardedPositions, UInt32.toNat_ofNat_of_lt' hlt]
  exact List.take_of_length_le (Nat.le_of_eq List.length_finRange)

def guardedTimeOrder (s : RowSection) (file : ByteArray) : Guarded (List (Fin s.count)) := do
  let stamped ← (guardedPositions s.count).mapM fun i : Fin s.count => do
    return (i, (← s.layout.guardedRow file i).timestamp)
  return (stamped.mergeSort fun a b => notAfter a.2 b.2).map Prod.fst

theorem StandsIn.guardedTimeOrder_eq_pure (h : s.StandsIn file) :
    s.guardedTimeOrder file = pure s.timeOrder := by
  let stamp : Fin s.count → Fin s.count × Option Int64 := fun i => (i, (s.row i).timestamp)
  have hstamped : (guardedPositions s.count).mapM (fun i : Fin s.count => do
      return (i, (← s.layout.guardedRow file i).timestamp)) =
        (pure ((List.finRange s.count).map stamp) : Guarded _) := by
    rw [guardedPositions_eq h.count_le]
    apply mapM_eq_pure
    intro i _
    rw [h.guardedRow_eq_pure, pure_bind]
  have hsorted : ((List.finRange s.count).map stamp).mergeSort (fun a b => notAfter a.2 b.2) =
      s.timeOrder.map stamp :=
    (List.map_mergeSort (f := stamp) fun _ _ _ _ => rfl).symm
  rw [guardedTimeOrder, hstamped, pure_bind, hsorted, List.map_map]
  exact congrArg pure (List.map_id _)

end RowSection

namespace RunTable

variable {rowCount : Nat}

def guardedRun (t : RunTable rowCount) (i : Nat) : Guarded (List (Fin rowCount)) := do
  let start ← found t.runs.offsets[i]?
  let next ← word (i + 1)
  let stop ← found t.runs.offsets[next]?
  slice t.runs.rows.toList start stop

theorem guardedRun_eq_pure {t : RunTable rowCount} (hcount : t.keys.length < UInt64.size)
    (i : Fin t.keys.length) : t.guardedRun i = pure (t.runs.run i) := by
  have hascending := t.runs.ascending i i.isLt
  have hstop := t.runs.offset_le_size (Nat.succ_lt_succ i.isLt)
  have hstart : t.runs.offsets[i.val]? = some t.runs.offsets[i.val] :=
    Vector.getElem?_eq_getElem (by omega)
  have hnext : t.runs.offsets[i.val + 1]? = some t.runs.offsets[i.val + 1] :=
    Vector.getElem?_eq_getElem (by omega)
  rw [guardedRun, hstart, found_some, pure_bind, word_eq_pure (by omega), pure_bind, hnext,
    found_some, pure_bind, slice_eq_pure hascending hstop, FlatRuns.run, Array.toList_extract,
    List.extract_eq_take_drop]

def guardedRowsOf? (t : RunTable rowCount) (key : Int64) :
    Guarded (Option (List (Fin rowCount))) :=
  match t.keys.position? key with
  | some i => some <$> t.guardedRun i
  | none => pure none

theorem guardedRowsOf?_eq_pure {t : RunTable rowCount} (hcount : t.keys.length < UInt64.size)
    (key : Int64) : t.guardedRowsOf? key = pure (t.rowsOf? key) := by
  rw [guardedRowsOf?, rowsOf?]
  cases t.keys.position? key with
  | none => rfl
  | some i =>
    dsimp only
    rw [guardedRun_eq_pure hcount]
    rfl

end RunTable

end PackedRatings
