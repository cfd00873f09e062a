import PackedRatings.Proofs.File.RowReading
import PackedRatings.Proofs.Store.Acceptance
import PackedRatings.Proofs.Store.Views
import PackedRatings.Proofs.Vector.Pairs

/-!
# No question reads outside of the rows

A loaded file answers every question with words of 64 bits as it does without them. Each row is
read where it stands, in the middle of the bytes of all rows, and gives the rating that comes
at its place when all ratings are read in the order of the file.
-/
namespace PackedRatings

open Guarded

namespace Selection

def guardedGet (s : Selection) (file : ByteArray) (i : Nat) : Guarded Rating :=
  if i < s.length then do
    let row ← found s.rows[i]?
    s.source.layout.guardedRow file row
  else lift (.error (.indexOutOfBounds i s.length))

def guardedRatings (s : Selection) (file : ByteArray) : Guarded (List Rating) :=
  (s.rows.map Fin.val).mapM (s.source.layout.guardedRow file)

def guardedLatest (key : Rating → Int64) (s : Selection) (file : ByteArray) :
    Guarded KeyedVector := do
  lift (latestValues key (← s.guardedRatings file))

/-- The latest values always make a vector. -/
theorem exists_latestValues_eq_ok (key : Rating → Int64) (ratings : List Rating) :
    ∃ v, latestValues key ratings = .ok v := by
  apply KeyedVector.exists_ofPairs_eq_ok
  rw [List.map_map]
  exact List.pairwise_map.2 ((latest key ratings).ordered_keys_toList.imp fun h =>
    Int64.ne_of_lt (Std.compare_eq_lt.1 h))

/-- Each rating of `s` is read from its row in `file`, and positions behind the last are
refused. -/
structure ReadsEach (s : Selection) (file : ByteArray) : Prop where
  get : ∀ i, s.guardedGet file i = lift (s.get i)
  get_lt : ∀ i (h : i < s.rows.length), ∃ rating, s.get i = .ok rating ∧
    s.ratings[i]? = some rating ∧ s.source.layout.guardedRow file s.rows[i] = pure rating
  get_ge : ∀ i, s.length ≤ i → s.get i = .error (.indexOutOfBounds i s.length)
  ratings : s.guardedRatings file = pure s.ratings
  latestByItem : ∃ v, s.latestByItem = .ok v ∧ s.guardedLatest Rating.item file = pure v
  latestByUser : ∃ v, s.latestByUser = .ok v ∧ s.guardedLatest Rating.user file = pure v

theorem guardedRatings_eq_pure {s : Selection} {file : ByteArray} (h : s.source.StandsIn file) :
    s.guardedRatings file = pure s.ratings :=
  h.mapM_guardedRow s.rows

theorem guardedLatest_eq_pure {s : Selection} {file : ByteArray} (h : s.source.StandsIn file)
    (key : Rating → Int64) :
    ∃ v, latestValues key s.ratings = .ok v ∧ s.guardedLatest key file = pure v := by
  obtain ⟨v, hv⟩ := exists_latestValues_eq_ok key s.ratings
  refine ⟨v, hv, ?_⟩
  rw [guardedLatest, guardedRatings_eq_pure h, pure_bind, hv]
  rfl

theorem readsEach {s : Selection} {file : ByteArray} (h : s.source.StandsIn file) :
    s.ReadsEach file where
  get := by
    intro i
    rw [guardedGet, Selection.get, length]
    by_cases hi : i < s.rows.length
    · rw [if_pos hi, dif_pos hi, List.getElem?_eq_getElem hi, found_some, pure_bind,
        h.guardedRow_eq_pure]
      rfl
    · rw [if_neg hi, dif_neg hi]
  get_lt := by
    intro i hi
    refine ⟨s.source.row s.rows[i], dif_pos hi, ?_, h.guardedRow_eq_pure _⟩
    rw [Selection.ratings, List.getElem?_map, List.getElem?_eq_getElem hi, Option.map_some]
  get_ge := fun i hi => dif_neg (Nat.not_lt.2 hi)
  ratings := guardedRatings_eq_pure h
  latestByItem := guardedLatest_eq_pure h Rating.item
  latestByUser := guardedLatest_eq_pure h Rating.user

end Selection

theorem RunTable.getElem?_entries {n : Nat} (t : RunTable n) (i : Fin t.keys.length) :
    t.entries[i.val]? = some (t.keys.keyAt i, t.runs.run i) := by
  have hlength : i.val < t.entries.length := by simp [entries]
  rw [List.getElem?_eq_getElem hlength]
  simp [entries]

namespace RatingFile

/-- The rows of `f` stand in `file`, and the tables have as many rows and few enough keys. -/
structure StandsIn (f : RatingFile) (file : ByteArray) : Prop where
  rows : f.rows.StandsIn file
  userKeys : f.users.keys.length < UInt64.size
  itemKeys : f.items.keys.length < UInt64.size
  userRows : f.users.allRows.length = f.rows.count
  itemRows : f.items.allRows.length = f.rows.count

def guardedSelect? (f : RatingFile) (table : RunTable f.rows.count) (key : Int64) :
    Guarded (Option Selection) := do
  return (← table.guardedRowsOf? key).map fun rows => ⟨f.rows, rows⟩

theorem guardedSelect?_eq_lift {f : RatingFile} {table : RunTable f.rows.count}
    (h : table.keys.length < UInt64.size) (key : Int64) :
    f.guardedSelect? table key = lift (pure (f.select? table key)) := by
  rw [guardedSelect?, RunTable.guardedRowsOf?_eq_pure h]
  rfl

end RatingFile

namespace RatingStore

def guardedCursor (s : RatingStore) (file : ByteArray) (order : RatingOrder) :
    Guarded RatingCursor := do
  let f ← lift s.file
  match order with
  | .stored => return ⟨f.rows, RowSection.guardedPositions f.rows.count⟩
  | .timestamp =>
    if s.header.layout.timestamps then return ⟨f.rows, ← f.rows.guardedTimeOrder file⟩
    else return ⟨f.rows, RowSection.guardedPositions f.rows.count⟩
  | .user => return ⟨f.rows, ← slice f.users.allRows 0 f.users.allRows.length⟩
  | .item => return ⟨f.rows, ← slice f.items.allRows 0 f.items.allRows.length⟩

def guardedPass (s : RatingStore) (file : ByteArray) (order : RatingOrder) (n : Nat) :
    Guarded (List Rating) := do
  let c ← s.guardedCursor file order
  let item (i : Nat) : Guarded (Option Rating) :=
    match c.upcoming[i]? with
    | some row => some <$> c.source.layout.guardedRow file row
    | none => pure none
  walk c.upcoming.length item n 0

def guardedGroups (s : RatingStore) (n : Nat) : Guarded (List (Int64 × Selection)) := do
  let f ← lift s.file
  let item (i : Nat) : Guarded (Option (Int64 × Selection)) :=
    match f.users.keys.get i with
    | .ok user => do
      let rows ← f.users.guardedRun i
      return some (user, ⟨f.rows, rows⟩)
    | .error _ => pure none
  walk f.users.keyCount item n 0

def guardedRatingsByUser? (s : RatingStore) (user : Int64) : Guarded (Option Selection) := do
  let f ← lift s.file
  f.guardedSelect? f.users user

def guardedRatingsOfItem? (s : RatingStore) (item : Int64) : Guarded (Option Selection) := do
  let f ← lift s.file
  f.guardedSelect? f.items item

def guardedEventsByUser? (s : RatingStore) (user : Int64) (kind : Interaction) :
    Guarded (Option Selection) := do
  return (← s.guardedRatingsByUser? user).map (ofKind kind)

def guardedEventsOfItem? (s : RatingStore) (item : Int64) (kind : Interaction) :
    Guarded (Option Selection) := do
  return (← s.guardedRatingsOfItem? item).map (ofKind kind)

def guardedKeys? (file : ByteArray) (key : Rating → Int64) :
    Option Selection → Guarded (Option KeyWindow)
  | some selection => do
    return some (.ofRepeating ((← selection.guardedRatings file).map key))
  | none => pure none

def guardedUsersOfItem? (s : RatingStore) (file : ByteArray) (item : Int64) :
    Guarded (Option KeyWindow) := do
  guardedKeys? file Rating.user (← s.guardedRatingsOfItem? item)

def guardedItemsByUser? (s : RatingStore) (file : ByteArray) (user : Int64) :
    Guarded (Option KeyWindow) := do
  guardedKeys? file Rating.item (← s.guardedRatingsByUser? user)

/-- Every question that reads rows or runs is answered without a fault. -/
structure AnswersWithoutFault (s : RatingStore) (file : ByteArray) : Prop where
  cursor : ∀ order, s.guardedCursor file order = lift (s.cursor order)
  pass : ∀ order n, s.guardedPass file order n =
    lift (s.cursor order >>= fun c => pure (c.rest.take n))
  groups : ∀ n, s.guardedGroups n = lift (s.userGroups >>= fun g => pure (g.rest.take n))
  ratingsByUser? : ∀ user, s.guardedRatingsByUser? user = lift (s.ratingsByUser? user)
  ratingsOfItem? : ∀ item, s.guardedRatingsOfItem? item = lift (s.ratingsOfItem? item)
  eventsByUser? : ∀ user kind, s.guardedEventsByUser? user kind = lift (s.eventsByUser? user kind)
  eventsOfItem? : ∀ item kind, s.guardedEventsOfItem? item kind = lift (s.eventsOfItem? item kind)
  usersOfItem? : ∀ item, s.guardedUsersOfItem? file item = lift (s.usersOfItem? item)
  itemsByUser? : ∀ user, s.guardedItemsByUser? file user = lift (s.itemsByUser? user)

variable {s : RatingStore} {file : ByteArray} (h : ∀ f, s.file? = some f → f.StandsIn file)

theorem guardedKeys?_eq_lift {file : ByteArray} (key : Rating → Int64)
    {selection? : Option Selection}
    (hsource : ∀ selection, selection? = some selection → selection.source.StandsIn file) :
    guardedKeys? file key selection? = lift (pure (selection?.map fun selection =>
      KeyWindow.ofRepeating (selection.ratings.map key))) := by
  cases hselection : selection? with
  | none => rfl
  | some selection =>
    rw [guardedKeys?, Selection.guardedRatings_eq_pure (hsource selection hselection)]
    rfl

include h

/-- A question about an open store has no faults if it has none about a file that stands in
the bytes. -/
theorem guardedFile_bind {α : Type} {ask : RatingFile → Except Failure α}
    {guardedAsk : RatingFile → Guarded α}
    (hask : ∀ f, f.StandsIn file → guardedAsk f = lift (ask f)) :
    (lift s.file >>= guardedAsk) = lift (s.file >>= ask) :=
  lift_bind fun f hf => hask f (h f (file_eq_ok_iff.1 hf))

theorem guardedCursor_eq_lift (order : RatingOrder) :
    s.guardedCursor file order = lift (s.cursor order) := by
  apply guardedFile_bind h
  intro f hf
  have hpositions := RowSection.guardedPositions_eq hf.rows.count_le
  cases order with
  | stored =>
    dsimp only
    rw [hpositions]
    rfl
  | timestamp =>
    dsimp only
    rw [hpositions, hf.rows.guardedTimeOrder_eq_pure]
    split
    · rfl
    · rfl
  | user =>
    dsimp only
    rw [slice_all]
    rfl
  | item =>
    dsimp only
    rw [slice_all]
    rfl

theorem guardedRatingsByUser?_eq_lift (user : Int64) :
    s.guardedRatingsByUser? user = lift (s.ratingsByUser? user) :=
  guardedFile_bind h fun _ hf => RatingFile.guardedSelect?_eq_lift hf.userKeys user

theorem guardedRatingsOfItem?_eq_lift (item : Int64) :
    s.guardedRatingsOfItem? item = lift (s.ratingsOfItem? item) :=
  guardedFile_bind h fun _ hf => RatingFile.guardedSelect?_eq_lift hf.itemKeys item

theorem standsIn_of_takenFrom {v : View} (hv : v.TakenFrom s) : v.source.StandsIn file := by
  obtain ⟨f, hf, hsource⟩ := hv.exists_file
  rw [hsource]
  exact (h f hf).rows

/-- A cursor reads as many rows as there are. -/
theorem length_of_cursor {order : RatingOrder} {c : RatingCursor}
    (hc : s.cursor order = .ok c) : c.upcoming.length = c.source.count := by
  obtain ⟨f, rows, hf, rfl, rfl | rfl | rfl | rfl⟩ := exists_file_of_cursor hc
  · exact List.length_finRange
  · exact (List.length_mergeSort _).trans List.length_finRange
  · exact (h f hf).userRows
  · exact (h f hf).itemRows

theorem guardedPass_eq_lift (order : RatingOrder) (n : Nat) :
    s.guardedPass file order n = lift (s.cursor order >>= fun c => pure (c.rest.take n)) := by
  rw [guardedPass, guardedCursor_eq_lift h]
  apply lift_bind
  intro c hc
  have hsource : c.source.StandsIn file := standsIn_of_takenFrom h (.cursor hc)
  have hrest : c.upcoming.length = c.rest.length := (List.length_map _).symm
  have hsize : c.rest.length < UInt64.size := by
    rw [← hrest, length_of_cursor h hc]
    exact Nat.lt_of_le_of_lt hsource.count_le (by decide)
  dsimp only
  rw [hrest, walk_eq_pure hsize ?_ n (Nat.zero_le _)]
  · rfl
  · intro i
    rw [RatingCursor.rest, List.getElem?_map]
    cases c.upcoming[i]? with
    | none => rfl
    | some row =>
      dsimp only
      rw [hsource.guardedRow_eq_pure]
      rfl

theorem guardedGroups_eq_lift (n : Nat) :
    s.guardedGroups n = lift (s.userGroups >>= fun g => pure (g.rest.take n)) := by
  rw [userGroups, bind_assoc]
  apply guardedFile_bind h
  intro f hf
  let g : UserGroups := ⟨f.rows, f.users.entries⟩
  have hrest : f.users.keyCount = g.rest.length := by
    simp [g, UserGroups.rest, RunTable.entries, RunTable.keyCount]
  dsimp only
  rw [hrest, walk_eq_pure ?_ ?_ n (Nat.zero_le _)]
  · rfl
  · rw [← hrest]
    exact hf.userKeys
  · intro i
    by_cases hi : i < f.users.keys.length
    · have hget : f.users.keys.get i = .ok (f.users.keys.keyAt ⟨i, hi⟩) := dif_pos hi
      have hentry := f.users.getElem?_entries ⟨i, hi⟩
      rw [hget, UserGroups.rest, List.getElem?_map, hentry]
      dsimp only
      rw [RunTable.guardedRun_eq_pure hf.userKeys ⟨i, hi⟩]
      rfl
    · have hget : f.users.keys.get i = .error (.indexOutOfBounds i f.users.keys.length) :=
        dif_neg hi
      rw [hget, List.getElem?_eq_none (by rw [← hrest]; exact Nat.le_of_not_lt hi)]

theorem guardedUsersOfItem?_eq_lift (item : Int64) :
    s.guardedUsersOfItem? file item = lift (s.usersOfItem? item) := by
  rw [guardedUsersOfItem?, guardedRatingsOfItem?_eq_lift h]
  apply lift_bind
  intro selection? hask
  apply guardedKeys?_eq_lift
  rintro selection rfl
  exact standsIn_of_takenFrom h (.ofItem hask)

theorem guardedItemsByUser?_eq_lift (user : Int64) :
    s.guardedItemsByUser? file user = lift (s.itemsByUser? user) := by
  rw [guardedItemsByUser?, guardedRatingsByUser?_eq_lift h]
  apply lift_bind
  intro selection? hask
  apply guardedKeys?_eq_lift
  rintro selection rfl
  exact standsIn_of_takenFrom h (.byUser hask)

theorem answersWithoutFault : s.AnswersWithoutFault file where
  cursor := guardedCursor_eq_lift h
  pass := guardedPass_eq_lift h
  groups := guardedGroups_eq_lift h
  ratingsByUser? := guardedRatingsByUser?_eq_lift h
  ratingsOfItem? := guardedRatingsOfItem?_eq_lift h
  eventsByUser? := by
    intro user kind
    rw [guardedEventsByUser?, guardedRatingsByUser?_eq_lift h]
    exact lift_bind fun _ _ => rfl
  eventsOfItem? := by
    intro item kind
    rw [guardedEventsOfItem?, guardedRatingsOfItem?_eq_lift h]
    exact lift_bind fun _ _ => rfl
  usersOfItem? := guardedUsersOfItem?_eq_lift h
  itemsByUser? := guardedItemsByUser?_eq_lift h

end RatingStore

/-- The row positions of a view are below the number of rows, and each row gives the rating at
its place among `ratings`. No byte of a file but those of the rows decides what is read. -/
structure View.Reads (v : View) (file : ByteArray) (header : FileHeader)
    (ratings : List Rating) : Prop where
  below : ∀ row ∈ v.positions, row < header.ratingCount
  row : ∀ row ∈ v.positions, ∃ rating, ratings[row]? = some rating ∧
    ∀ other : ByteArray, other.extract FileHeader.byteLength header.indexOffset =
      file.extract FileHeader.byteLength header.indexOffset →
      header.layout.guardedRow other row = pure rating
  all : v.positions.mapM (header.layout.guardedRow file) = pure v.ratings

theorem RowSection.map_row_finRange_getElem? (s : RowSection) (i : Fin s.count) :
    ((List.finRange s.count).map s.row)[i.val]? = some (s.row i) := by
  rw [List.getElem?_map, List.getElem?_eq_getElem (by simp), List.getElem_finRange]
  rfl

theorem View.reads {v : View} {file : ByteArray} {header : FileHeader}
    (h : v.source.StandsIn file) (hlayout : v.source.layout = header.layout)
    (hcount : v.source.count = header.ratingCount) :
    v.Reads file header ((List.finRange v.source.count).map v.source.row) := by
  have hoffset : header.indexOffset =
      FileHeader.byteLength + v.source.count * v.source.layout.rowWidth := by
    rw [hlayout, hcount]
    rfl
  constructor
  · intro row hrow
    obtain ⟨i, -, rfl⟩ := List.mem_map.1 hrow
    rw [← hcount]
    exact i.isLt
  · intro row hrow
    obtain ⟨i, -, rfl⟩ := List.mem_map.1 hrow
    refine ⟨v.source.row i, v.source.map_row_finRange_getElem? i, fun other hother => ?_⟩
    rw [hoffset, h.bytes] at hother
    rw [← hlayout]
    exact RowSection.StandsIn.guardedRow_eq_pure ⟨h.count_le, hother⟩ i
  · rw [← hlayout, v.ratings_eq]
    exact h.mapM_guardedRow v.rows

theorem RatingFile.Shows.standsIn {f : RatingFile} {image : FileImage} {file : ByteArray}
    (h : f.Shows image) (himage : image.WellFormed) (hbytes : image.bytes = file.data.toList) :
    f.StandsIn file where
  rows := {
    count_le := by
      rw [h.count]
      exact himage.header.ratingCount_le
    bytes := by
      have hlength : f.rows.count * f.rows.layout.rowWidth = image.rows.length := by
        rw [h.count, h.layout, himage.rows]
      apply ByteArray.ext
      rw [← Array.toList_inj, data_toList_extract, h.rows, ← hbytes, Nat.add_sub_cancel_left,
        hlength, FileImage.bytes, FileImage.body, ← FileHeader.length_bytes image.header,
        List.append_assoc, List.append_assoc, List.append_assoc, List.drop_left, List.take_left] }
  userKeys := by
    rw [← RunTable.length_image, h.users]
    exact Nat.lt_of_le_of_lt himage.header.userCount_le (by decide)
  itemKeys := by
    rw [← RunTable.length_image, h.items]
    exact Nat.lt_of_le_of_lt himage.header.itemCount_le (by decide)
  userRows := by
    rw [← List.length_map (f := Fin.val), ← RunTable.positions_image, h.users, h.count,
      himage.users.complete]
  itemRows := by
    rw [← List.length_map (f := Fin.val), ← RunTable.positions_image, h.items, h.count,
      himage.items.complete]

namespace RatingStore

/-- Nothing that is taken from a loaded file, and no question to it, reads outside of its rows
or faults on the way to them. -/
theorem load_reads_in_range {path : String} {file : ByteArray} {verify : Bool} {s : RatingStore}
    (h : load path (some file) verify = .ok s) :
    ∃ stored, s.cursor .stored = .ok stored ∧ stored.rest.length = s.header.ratingCount ∧
      (∀ v : View, v.TakenFrom s → v.Reads file s.header stored.rest) ∧
      (∀ selection, View.TakenFrom s (.selection selection) → selection.ReadsEach file) ∧
      s.AnswersWithoutFault file ∧ s.close.AnswersWithoutFault file := by
  obtain ⟨header, f, hparse, rfl⟩ := load_eq_ok_iff.1 h
  obtain ⟨image, himage, -, hbytes, rfl, hshows⟩ := RatingFile.parse_eq_ok hparse
  have hstands : ∀ f', some f = some f' → f'.StandsIn file := by
    rintro f' ⟨rfl⟩
    exact hshows.standsIn himage hbytes
  refine ⟨⟨f.rows, List.finRange f.rows.count⟩, rfl, ?_, ?_, ?_, ?_, ?_⟩
  · rw [RatingCursor.rest, List.length_map, List.length_finRange, hshows.count]
    rfl
  · intro v hv
    obtain ⟨_, ⟨rfl⟩, hsource⟩ := hv.exists_file
    change v.Reads file image.header ((List.finRange f.rows.count).map f.rows.row)
    rw [← hsource]
    apply View.reads (standsIn_of_takenFrom hstands hv)
    · rw [hsource, hshows.layout]
      rfl
    · rw [hsource, hshows.count]
      rfl
  · intro selection hselection
    exact Selection.readsEach (standsIn_of_takenFrom hstands hselection)
  · exact answersWithoutFault hstands
  · exact answersWithoutFault nofun

theorem load_reads_in_range_singleRating : ∃ s selection,
    load "ratings.bin" (some singleRating.bytes.toByteArray) true = .ok s ∧
      s.ratingsByUser? 5 = .ok (some selection) ∧
      s.guardedRatingsByUser? 5 = lift (.ok (some selection)) ∧
      selection.guardedGet singleRating.bytes.toByteArray 0 = pure ⟨0, 0, 0, none⟩ ∧
      selection.guardedGet singleRating.bytes.toByteArray 1 =
        lift (.error (.indexOutOfBounds 1 1)) := by
  have hread : (do
      let s ← load "ratings.bin" (some singleRating.bytes.toByteArray) true
      return (← s.ratingsByUser? 5).map Selection.ratings).toOption =
        some (some [⟨0, 0, 0, none⟩]) := by
    decide +kernel
  simp only [toOption_eq_some_iff, bind_eq_ok_iff, pure_eq_ok_iff, Option.map_eq_some_iff] at hread
  obtain ⟨s, hload, _, hask, selection, rfl, hratings⟩ := hread
  obtain ⟨-, -, -, -, hselections, hanswers, -⟩ := load_reads_in_range hload
  have hreads := hselections selection (.byUser hask)
  have hlength : selection.length = 1 := by
    rw [Selection.length, ← List.length_map (f := selection.source.row)]
    exact congrArg List.length hratings
  have hguarded := hanswers.ratingsByUser? 5
  rw [hask] at hguarded
  refine ⟨s, selection, hload, hask, hguarded, ?_, ?_⟩
  · obtain ⟨rating, hget, hrating, -⟩ :=
      hreads.get_lt 0 (by rw [← Selection.length, hlength]; decide)
    rw [hratings] at hrating
    cases hrating
    rw [hreads.get, hget]
    rfl
  · rw [hreads.get, hreads.get_ge 1 (Nat.le_of_eq hlength), hlength]

end RatingStore

end PackedRatings
