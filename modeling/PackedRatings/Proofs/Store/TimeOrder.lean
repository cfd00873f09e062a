import PackedRatings.Proofs.Store.ReadingInRange
import PackedRatings.Proofs.Store.Sessions
import PackedRatings.Proofs.Store.Traversals

/-!
# The order of time

Reading by time is reading the rows sorted by their timestamps, rows of one timestamp in the order
of the file. Only the rows decide this order: the index tables may list them in any order, or some
of them twice and others not at all.
-/
namespace PackedRatings

namespace RowSection

attribute [ext] RowSection

variable {s : RowSection}

/-- The timestamp of a row, 0 if rows have none. -/
def time (s : RowSection) (i : Fin s.count) : Int64 :=
  (s.row i).timestamp.getD 0

theorem timestamp_row (h : s.layout.timestamps = true) (i : Fin s.count) :
    (s.row i).timestamp = some (s.time i) := by
  have hrow : ∃ t, (s.row i).timestamp = some t := ⟨_, if_pos h⟩
  obtain ⟨t, ht⟩ := hrow
  rw [time, ht]
  rfl

theorem timeOrder_eq_sortOn (h : s.layout.timestamps = true) :
    s.timeOrder = sortOn s.time (List.finRange s.count) := by
  rw [timeOrder, sortOn]
  congr 1
  funext i j
  rw [timestamp_row h, timestamp_row h]
  rfl

/-- The ratings in the order of time are the ratings of the file, sorted. -/
theorem map_row_timeOrder (h : s.layout.timestamps = true) :
    s.timeOrder.map s.row =
      sortOn (fun r => r.timestamp.getD 0) ((List.finRange s.count).map s.row) := by
  rw [timeOrder_eq_sortOn h]
  exact List.map_mergeSort fun _ _ _ _ => rfl

/-- Every row once, from the lowest timestamp to the highest, and rows of one timestamp as they
stand in the file. -/
structure InTimeOrder (s : RowSection) (rows : List (Fin s.count)) : Prop where
  once : rows.Perm (List.finRange s.count)
  timestamp : ∀ i, (s.row i).timestamp = some (s.time i)
  sorted : rows.Pairwise fun i j => s.time i < s.time j ∨ s.time i = s.time j ∧ i < j

theorem inTimeOrder_timeOrder (h : s.layout.timestamps = true) : s.InTimeOrder s.timeOrder where
  once := List.mergeSort_perm _ _
  timestamp := timestamp_row h
  sorted := by
    rw [timeOrder_eq_sortOn h]
    exact sortOn_pairwise_of_pairwise s.time (List.pairwise_lt_finRange s.count)

end RowSection

namespace RatingStore

variable {s s' : RatingStore} {path : String} {file file' : ByteArray} {verify : Bool}
  {rows : RowSection}

def rowBytes (s : RatingStore) (file : ByteArray) : ByteArray :=
  file.extract FileHeader.byteLength s.header.indexOffset

/-- The store reads these rows, which are those of the file. -/
structure HasRows (s : RatingStore) (file : ByteArray) (rows : RowSection) : Prop where
  file? : ∃ f, s.file? = some f ∧ f.rows = rows
  layout : rows.layout = s.header.layout
  count : rows.count = s.header.ratingCount
  bytes : rows.bytes = s.rowBytes file

theorem exists_hasRows (h : load path (some file) verify = .ok s) :
    ∃ rows, s.HasRows file rows := by
  obtain ⟨header, f, hparse, rfl⟩ := load_eq_ok_iff.1 h
  obtain ⟨image, himage, -, hbytes, rfl, hshows⟩ := RatingFile.parse_eq_ok hparse
  have hstands := (hshows.standsIn himage hbytes).rows.bytes
  rw [hshows.count, hshows.layout] at hstands
  exact ⟨f.rows, ⟨f, rfl, rfl⟩, hshows.layout, hshows.count, hstands.symm⟩

theorem HasRows.eq {rows' : RowSection} (h : s.HasRows file rows) (h' : s'.HasRows file' rows')
    (hlayout : s'.header.layout = s.header.layout)
    (hcount : s'.header.ratingCount = s.header.ratingCount)
    (hbytes : s'.rowBytes file' = s.rowBytes file) : rows' = rows := by
  ext1
  · rw [h.layout, h'.layout, hlayout]
  · rw [h.count, h'.count, hcount]
  · rw [h.bytes, h'.bytes, hbytes]

def byTime (rows : RowSection) : RatingCursor where
  source := rows
  upcoming := if rows.layout.timestamps then rows.timeOrder else List.finRange rows.count

theorem HasRows.cursor_stored (h : s.HasRows file rows) :
    s.cursor .stored = .ok ⟨rows, List.finRange rows.count⟩ := by
  obtain ⟨f, hfile, rfl⟩ := h.file?
  rw [cursor, RatingStore.file, hfile]
  rfl

theorem HasRows.cursor_timestamp (h : s.HasRows file rows) :
    s.cursor .timestamp = .ok (byTime rows) := by
  obtain ⟨f, hfile, rfl⟩ := h.file?
  rw [cursor, RatingStore.file, hfile, byTime, h.layout]
  cases htimestamps : s.header.layout.timestamps with
  | false => rfl
  | true => rfl

/-- The pass in the order of time over the rows of a file. -/
structure ReadsByTime (s : RatingStore) (file : ByteArray) (c : RatingCursor) : Prop where
  cursor : s.cursor .timestamp = .ok c
  rows : s.HasRows file c.source
  sorted : s.header.layout.timestamps = true → c.source.InTimeOrder c.upcoming
  unsorted : s.header.layout.timestamps = false → s.cursor .stored = .ok c
  repeats : Session.Repeats s .timestamp c

theorem HasRows.readsByTime (h : s.HasRows file rows) : s.ReadsByTime file (byTime rows) where
  cursor := h.cursor_timestamp
  rows := h
  sorted := by
    intro htimestamps
    rw [← h.layout] at htimestamps
    rw [byTime, if_pos htimestamps]
    exact RowSection.inTimeOrder_timeOrder htimestamps
  unsorted := by
    intro htimestamps
    rw [h.cursor_stored, byTime, h.layout, htimestamps]
    rfl
  repeats := Session.repeats_of_cursor h.cursor_timestamp

/-- Whatever the index tables of a loaded file are, reading by time is one pass over its rows,
sorted if they have timestamps and as they stand in the file if not. A file with the same rows and
other tables is read by time in the same way. -/
theorem load_reads_by_time (h : load path (some file) verify = .ok s) :
    ∃ c, s.ReadsByTime file c ∧
      ∀ path' file' verify' s', load path' (some file') verify' = .ok s' →
        s'.header.layout = s.header.layout → s'.header.ratingCount = s.header.ratingCount →
        s'.rowBytes file' = s.rowBytes file → s'.cursor .timestamp = .ok c := by
  obtain ⟨rows, hrows⟩ := exists_hasRows h
  refine ⟨byTime rows, hrows.readsByTime, ?_⟩
  intro path' file' verify' s' h' hlayout hcount hbytes
  obtain ⟨rows', hrows'⟩ := exists_hasRows h'
  rw [hrows'.cursor_timestamp, hrows.eq hrows' hlayout hcount hbytes]

/-- The rating with a negative timestamp is read first. -/
theorem load_reads_by_time_threeRatings :
    ∃ path file s c, load path (some file) true = .ok s ∧ s.ReadsByTime file c ∧
      c.rest = [⟨5, 3, ⟨0x7ff8000000000001⟩, some (-20)⟩,
        ⟨7, 4, ⟨0x8000000000000000⟩, some 10⟩, ⟨7, 3, ⟨0x4010000000000000⟩, some 30⟩] := by
  obtain ⟨p, hp⟩ := addAll_threeRatings
  obtain ⟨hholds, -, hlayout⟩ := (Packing.holds_start "ratings.bin" ⟨true⟩).addAll hp
  obtain ⟨file, f, -, -, hload, -, hshows⟩ := hholds.exists_load true
  obtain ⟨c, hreads, -⟩ := load_reads_by_time hload
  have hrows : f.rows.layout = ⟨true⟩ := hshows.layout.trans hlayout
  have hstored : (List.finRange f.rows.count).map f.rows.row = threeRatings := by
    rw [(hholds.rows hshows).map_row_finRange, hrows]
    rfl
  have hc : c = byTime f.rows := by
    obtain ⟨_, ⟨rfl⟩, hsource⟩ := hreads.rows.file?
    rw [hsource]
    exact Except.ok.inj (hreads.cursor.symm.trans hreads.rows.cursor_timestamp)
  have htimestamps : f.rows.layout.timestamps = true := by rw [hrows]
  have hascending : [(-20 : Int64), 10, 30].Pairwise (· < ·) := by decide
  refine ⟨_, _, _, c, hload, hreads, ?_⟩
  rw [hc, RatingCursor.rest, byTime, if_pos htimestamps, RowSection.map_row_timeOrder htimestamps,
    hstored, ← flatMap_withKey hascending (by decide)]
  rfl

end RatingStore

end PackedRatings
