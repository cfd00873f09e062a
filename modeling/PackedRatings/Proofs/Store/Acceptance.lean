import PackedRatings.Proofs.File.WordArithmetic

/-!
# Loading accepts the documented format and nothing else

For any bytes that a machine with words of 64 bits can hold, loading succeeds exactly on the
bytes of well-formed images and complains about the contents of every other file. It never
faults, and verification only narrows what is accepted.
-/
namespace PackedRatings

namespace RatingStore

def guardedLoad (path : String) (file : ByteArray) (verifyRows : Bool) : Guarded RatingStore := do
  let (header, file) ← RatingFile.guardedParse file verifyRows
  return ⟨path, header, some file⟩

theorem guardedLoad_eq_lift (path : String) {file : ByteArray} (hfile : file.size < UInt64.size)
    (verify : Bool) :
    guardedLoad path file verify = Guarded.lift (load path (some file) verify) := by
  rw [guardedLoad, RatingFile.guardedParse_eq_lift hfile]
  apply Guarded.lift_bind
  intro _ _
  rfl

theorem load_eq_ok_iff {path : String} {file : ByteArray} {verify : Bool} {s : RatingStore} :
    load path (some file) verify = .ok s ↔
      ∃ header f, RatingFile.parse file verify = .ok (header, f) ∧ s = ⟨path, header, some f⟩ := by
  simp only [load, bind_eq_ok_iff, pure_eq_ok_iff, Prod.exists]
  exact exists_congr fun _ => exists_congr fun _ => and_congr_right fun _ => eq_comm

theorem exists_load_eq_ok_iff {path : String} {file : ByteArray} {verify : Bool} :
    (∃ s, load path (some file) verify = .ok s) ↔
      ∃ image : FileImage, image.WellFormed ∧ (verify = true → image.ListsEachRowOnce) ∧
        image.bytes = file.data.toList := by
  simp only [load_eq_ok_iff]
  constructor
  · rintro ⟨s, header, f, hparse, rfl⟩
    obtain ⟨image, himage, honce, hbytes, -, -⟩ := RatingFile.parse_eq_ok hparse
    exact ⟨image, himage, honce, hbytes⟩
  · rintro ⟨image, himage, honce, hbytes⟩
    rcases RatingFile.exists_parse_eq_ok himage verify honce hbytes with ⟨f, hparse, -⟩
    exact ⟨_, _, f, hparse, rfl⟩

theorem load_refuses (path : String) (file : ByteArray) (verify : Bool) :
    RefusesFormatOnly (load path (some file) verify) :=
  .bind (RatingFile.parse_refuses _ _) fun _ _ => .ok _

/-- Loading accepts exactly the bytes of well-formed images, without a fault on any bytes. -/
theorem load_accepts_exactly_wellFormed (path : String) (file : ByteArray)
    (hfile : file.size < UInt64.size) (verify : Bool) :
    (guardedLoad path file verify).run = .ok (load path (some file) verify) ∧
      ((∃ s, load path (some file) verify = .ok s) ↔
        ∃ image : FileImage, image.WellFormed ∧ (verify = true → image.ListsEachRowOnce) ∧
          image.bytes = file.data.toList) ∧
      (∀ failure, load path (some file) verify = .error failure →
        ∃ element message, failure = .invalidFormat element message) ∧
      ∀ s, load path (some file) true = .ok s → load path (some file) false = .ok s := by
  refine ⟨?_, exists_load_eq_ok_iff, load_refuses path file verify, ?_⟩
  · rw [guardedLoad_eq_lift path hfile]
    rfl
  · intro s hs
    obtain ⟨header, f, hparse, rfl⟩ := load_eq_ok_iff.1 hs
    exact load_eq_ok_iff.2 ⟨header, f, RatingFile.parse_eq_ok_of_verified hparse, rfl⟩

def singleRating : FileImage where
  layout := ⟨false⟩
  ratingCount := 1
  rows := List.replicate 24 0
  users := [(5, [0])]
  items := [(7, [0])]
  trailing := [0xab]

theorem load_singleRating :
    singleRating.bytes.toByteArray.size < UInt64.size ∧
      ∃ s, load "ratings.bin" (some singleRating.bytes.toByteArray) true = .ok s := by
  have hsize : singleRating.bytes.toByteArray.size < UInt64.size := by decide
  have husers : singleRating.users.WellFormed 1 := ⟨by decide, by decide, rfl⟩
  have hitems : singleRating.items.WellFormed 1 := ⟨by decide, by decide, rfl⟩
  have himage : singleRating.WellFormed :=
    ⟨⟨by decide, by decide, by decide⟩, rfl, husers, hitems⟩
  have honce : singleRating.ListsEachRowOnce := ⟨by decide, by decide⟩
  rcases load_accepts_exactly_wellFormed "ratings.bin" _ hsize true with ⟨-, haccepts, -⟩
  exact ⟨hsize, haccepts.2 ⟨singleRating, himage, fun _ => honce, by simp⟩⟩

end RatingStore

end PackedRatings
