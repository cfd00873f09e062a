import PackedRatings.Proofs.File.Reencoding
import PackedRatings.Proofs.Store.Acceptance

/-!
# A loaded file is written as it was

What a store has read is enough to write its file again, byte for byte, up to the end of the
index tables. So no two files that are loaded alike differ in front of that end.
-/
namespace PackedRatings.RatingStore

/-- Writes the header, all ratings in the order of the file and the entries of both tables. -/
def reencode (s : RatingStore) : Except Failure (List UInt8) := do
  let file ← s.file
  let stored ← s.cursor .stored
  let header ← s.header.encode
  let rows ← s.header.layout.writeAll stored.rest
  let users ← RunTable.encodeRuns file.users.rowsByKey.runs
  let items ← RunTable.encodeRuns file.items.rowsByKey.runs
  return header ++ rows ++ users ++ items

/-- Writing what was loaded gives the bytes in front of the end of the tables. -/
theorem reencode_load {path : String} {file : ByteArray} {verify : Bool} {s : RatingStore}
    (h : load path (some file) verify = .ok s) :
    ∃ f, s.file? = some f ∧ f.indexEnd ≤ file.size ∧
      s.reencode = .ok (file.data.toList.take f.indexEnd) := by
  obtain ⟨header, f, hparse, rfl⟩ := load_eq_ok_iff.1 h
  obtain ⟨image, himage, -, hbytes, rfl, hshows⟩ := RatingFile.parse_eq_ok hparse
  have hheader : image.header.encode = .ok image.header.bytes :=
    FileHeader.encode_eq_ok_iff.2 ⟨himage.header, rfl⟩
  have hrows : image.header.layout.writeAll ((List.finRange f.rows.count).map f.rows.row) =
      .ok image.rows := by
    rw [← hshows.rows, ← f.rows.writeAll_rows, hshows.layout]
    rfl
  have hcount : f.rows.count ≤ FileHeader.maxCount := by
    rw [hshows.count]
    exact himage.header.ratingCount_le
  have husers : RunTable.encodeRuns f.users.rowsByKey.runs = .ok image.users.bytes := by
    rw [RunTable.encodeRuns_rowsByKey _ hcount, hshows.users]
    rw [hshows.users, hshows.count]
    exact himage.users
  have hitems : RunTable.encodeRuns f.items.rowsByKey.runs = .ok image.items.bytes := by
    rw [RunTable.encodeRuns_rowsByKey _ hcount, hshows.items]
    rw [hshows.items, hshows.count]
    exact himage.items
  refine ⟨f, rfl, ?_, ?_⟩
  · rw [hshows.indexEnd, ← length_data_toList, ← hbytes, FileImage.bytes,
      List.length_append]
    exact Nat.le_add_right _ _
  · rw [← hbytes, FileImage.bytes, hshows.indexEnd, List.take_left, FileImage.body]
    simp only [reencode, bind_eq_ok_iff, pure_eq_ok_iff]
    exact ⟨f, rfl, ⟨f.rows, List.finRange f.rows.count⟩, rfl, _, hheader, _, hrows, _, husers,
      _, hitems, rfl⟩

/-- Only the byte behind the tables is lost. -/
theorem reencode_singleRating :
    ∃ s, load "ratings.bin" (some singleRating.bytes.toByteArray) true = .ok s ∧
      s.reencode = .ok singleRating.body := by
  have hend : (do
      let s ← load "ratings.bin" (some singleRating.bytes.toByteArray) true
      return (← s.file).indexEnd).toOption = some singleRating.body.length := by
    decide +kernel
  simp only [toOption_eq_some_iff, bind_eq_ok_iff, pure_eq_ok_iff] at hend
  obtain ⟨s, hload, f, hfile, hend⟩ := hend
  obtain ⟨f', hf', -, hreencode⟩ := reencode_load hload
  obtain rfl : f' = f := by
    rw [RatingStore.file, hf'] at hfile
    exact Except.ok.inj hfile
  refine ⟨s, hload, ?_⟩
  rw [hreencode, hend]
  rfl

end PackedRatings.RatingStore
