import PackedRatings.Proofs.File.PackingCalls
import PackedRatings.Proofs.Store.Sessions

/-!
# Where a file ends

A file says how long it is: loading reads the header, the rows and the two index tables, and what
stands behind them changes nothing but the length of the file. If a shorter front of a loaded file
could be loaded, its own end would be the end of the whole file, so the front reaches that end.
-/
namespace PackedRatings

namespace RatingFile

variable {file : ByteArray} {verify : Bool} {header : FileHeader} {f : RatingFile}

theorem indexEnd_le (h : parse file verify = .ok (header, f)) : f.indexEnd ≤ file.size := by
  obtain ⟨p, trailing, -, hfile, -, rfl⟩ := exists_parts_of_parse h
  rw [← length_data_toList, hfile, List.length_append]
  exact Nat.le_add_right _ _

/-- The end is that of the second table. -/
theorem indexEnd_eq (h : parse file verify = .ok (header, f)) :
    f.indexEnd = header.indexOffset + f.users.image.bytes.length + f.items.image.bytes.length := by
  obtain ⟨p, trailing, -, -, rfl, rfl⟩ := exists_parts_of_parse h
  exact p.length_body

/-- Other bytes behind the tables are read as if they were not there. -/
theorem parse_of_take_append (h : parse file verify = .ok (header, f)) {file' : ByteArray}
    {rest : List UInt8} (hfile' : file'.data.toList = file.data.toList.take f.indexEnd ++ rest) :
    parse file' verify = .ok (header, { f with byteLength := file'.size }) := by
  obtain ⟨p, trailing, hp, hfile, rfl, rfl⟩ := exists_parts_of_parse h
  have htake : file.data.toList.take p.body.length = p.body := by
    rw [hfile, List.take_left]
  exact hp.parse_eq_ok (hfile'.trans (congrArg (· ++ rest) htake))

theorem parse_false (h : parse file verify = .ok (header, f)) :
    parse file false = .ok (header, f) := by
  cases verify with
  | false => exact h
  | true => exact parse_eq_ok_of_verified h

/-- A front of the file that can be read contains both tables. -/
theorem indexEnd_le_of_parse_extract (h : parse file verify = .ok (header, f)) {m : Nat}
    {verify' : Bool} {header' : FileHeader} {g : RatingFile}
    (hfront : parse (file.extract 0 m) verify' = .ok (header', g)) : f.indexEnd ≤ m := by
  have hend : g.indexEnd ≤ m := by
    apply Nat.le_trans (indexEnd_le hfront)
    rw [ByteArray.size_extract]
    omega
  -- The rest of the file follows the tables of the front.
  have hfile : file.data.toList = (file.extract 0 m).data.toList.take g.indexEnd ++
      file.data.toList.drop g.indexEnd := by
    rw [data_toList_extract, List.drop_zero, List.take_take, Nat.sub_zero, Nat.min_eq_left hend,
      List.take_append_drop]
  have hwhole := parse_false (parse_of_take_append hfront hfile)
  rw [parse_false h] at hwhole
  obtain ⟨-, rfl⟩ := Prod.mk.inj (Except.ok.inj hwhole)
  exact hend

end RatingFile

namespace RatingStore

/-- Loading the bytes complains about them, also with words of 64 bits. -/
def Unreadable (file : ByteArray) : Prop :=
  ∀ path verify, ∃ element message,
    load path (some file) verify = .error (.invalidFormat element message) ∧
      (file.size < UInt64.size →
        guardedLoad path file verify = Guarded.lift (.error (.invalidFormat element message)))

theorem unreadable_of_ne_ok {file : ByteArray}
    (h : ∀ path verify s, load path (some file) verify ≠ .ok s) : Unreadable file := by
  intro path verify
  cases hload : load path (some file) verify with
  | ok s => exact absurd hload (h path verify s)
  | error failure =>
    obtain ⟨element, message, rfl⟩ := load_refuses path file verify failure hload
    refine ⟨element, message, rfl, fun hsize => ?_⟩
    rw [guardedLoad_eq_lift path hsize, hload]

def ofLength (s : RatingStore) (byteLength : Nat) : RatingStore :=
  { s with file? := s.file?.map fun f => { f with byteLength } }

/-- No question about ratings tells the stores apart. -/
structure AnswersAlike (s t : RatingStore) : Prop where
  header : s.header = t.header
  reply : ∀ question, question ≠ Question.byteLength → question.reply s = question.reply t
  cursor : ∀ order, s.cursor order = t.cursor order

theorem ofLength_answersAlike (s : RatingStore) (byteLength : Nat) :
    (s.ofLength byteLength).AnswersAlike s := by
  obtain ⟨path, header, file?⟩ := s
  refine ⟨rfl, fun question hquestion => ?_, fun order => ?_⟩
  · cases question with
    | byteLength => exact absurd rfl hquestion
    | _ => cases file? <;> rfl
  · cases order <;> cases file? <;> rfl

/-- The tables of `f`, which the file is loaded with as `s`, end the file as far as loading goes:
no shorter front of the file is loaded, and bytes behind the tables are ignored. -/
structure EndsFile (f : RatingFile) (path : String) (file : ByteArray) (verify : Bool)
    (s : RatingStore) : Prop where
  stored : s.file? = some f
  indexEnd : f.indexEnd =
    s.header.indexOffset + f.users.image.bytes.length + f.items.image.bytes.length
  indexEnd_le : f.indexEnd ≤ file.size
  front : ∀ m < f.indexEnd, Unreadable (file.extract 0 m)
  behind : ∀ rest : ByteArray,
    load path (some (file.extract 0 f.indexEnd ++ rest)) verify =
      .ok (s.ofLength (f.indexEnd + rest.size)) ∧
    (f.indexEnd + rest.size < UInt64.size →
      guardedLoad path (file.extract 0 f.indexEnd ++ rest) verify =
        pure (s.ofLength (f.indexEnd + rest.size))) ∧
    (s.ofLength (f.indexEnd + rest.size)).AnswersAlike s

theorem exists_endsFile {path : String} {file : ByteArray} {verify : Bool} {s : RatingStore}
    (h : load path (some file) verify = .ok s) :
    ∃ f : RatingFile, EndsFile f path file verify s := by
  obtain ⟨header, f, hparse, rfl⟩ := load_eq_ok_iff.1 h
  have hle := RatingFile.indexEnd_le hparse
  refine ⟨f, rfl, RatingFile.indexEnd_eq hparse, hle, fun m hm => ?_, fun rest => ?_⟩
  · apply unreadable_of_ne_ok
    intro path' verify' s' hload
    obtain ⟨header', g, hfront, -⟩ := load_eq_ok_iff.1 hload
    exact Nat.not_le_of_lt hm (RatingFile.indexEnd_le_of_parse_extract hparse hfront)
  · have hsize : (file.extract 0 f.indexEnd ++ rest).size = f.indexEnd + rest.size := by
      rw [ByteArray.size_append, ByteArray.size_extract, Nat.min_eq_left hle, Nat.sub_zero]
    have hcut : (file.extract 0 f.indexEnd ++ rest).data.toList =
        file.data.toList.take f.indexEnd ++ rest.data.toList := by
      rw [ByteArray.data_append, Array.toList_append, data_toList_extract, List.drop_zero,
        Nat.sub_zero]
    have hparse' := RatingFile.parse_of_take_append hparse hcut
    rw [hsize] at hparse'
    have hload : load path (some (file.extract 0 f.indexEnd ++ rest)) verify =
        .ok (ofLength ⟨path, header, some f⟩ (f.indexEnd + rest.size)) :=
      load_eq_ok_iff.2 ⟨header, _, hparse', rfl⟩
    refine ⟨hload, fun hword => ?_, ofLength_answersAlike _ _⟩
    rw [guardedLoad_eq_lift path (hsize ▸ hword), hload]
    rfl

/-- Every loaded file ends with its tables, and every packed file ends there, so no proper prefix
of it is loaded. -/
theorem load_ends_with_tables :
    (∀ path file verify s, load path (some file) verify = .ok s →
      ∃ f : RatingFile, EndsFile f path file verify s) ∧
    ∀ path layout calls, ∃ file, ((Packing.start path layout).run calls).finish = .ok file ∧
      ∀ m < file.bytes.size, Unreadable (file.bytes.extract 0 m) := by
  refine ⟨fun path file verify s h => exists_endsFile h, fun path layout calls => ?_⟩
  obtain ⟨hholds, -⟩ := (Packing.holds_start path layout).run calls
  obtain ⟨file, f, hfinish, -, hload, hsize, hshows⟩ := hholds.exists_load true
  refine ⟨file, hfinish, fun m hm => ?_⟩
  obtain ⟨g, hends⟩ := exists_endsFile hload
  obtain rfl : f = g := Option.some.inj hends.stored
  apply hends.front
  rw [hshows.indexEnd, ← FileImage.bytes_of_trailing_eq_nil rfl, ← hsize]
  exact hm

/-- The file with one rating ends after 84 bytes, and one more stands behind it. -/
theorem load_ends_with_tables_singleRating :
    ∃ s f, load "ratings.bin" (some singleRating.bytes.toByteArray) true = .ok s ∧
      EndsFile f "ratings.bin" singleRating.bytes.toByteArray true s ∧ f.indexEnd = 84 ∧
      Unreadable (singleRating.bytes.toByteArray.extract 0 83) := by
  have hend : (do
      let s ← load "ratings.bin" (some singleRating.bytes.toByteArray) true
      return (← s.file).indexEnd).toOption = some 84 := by
    decide +kernel
  simp only [toOption_eq_some_iff, bind_eq_ok_iff, pure_eq_ok_iff] at hend
  obtain ⟨s, hload, f, hfile, hend⟩ := hend
  obtain ⟨g, hends⟩ := load_ends_with_tables.1 _ _ _ s hload
  obtain rfl : g = f := by
    rw [RatingStore.file, hends.stored] at hfile
    exact Except.ok.inj hfile
  exact ⟨s, g, hload, hends, hend, hends.front 83 (by omega)⟩

end RatingStore

end PackedRatings
