import PackedRatings.Proofs.File.CutHeader
import PackedRatings.Proofs.Store.FileEnd

/-!
# Files with an unfinished header

Finishing writes the header over the room that was left for it, after everything else. A file of
which only a front of the header is written is loaded as a store without ratings, as long as all
that it says of their number is zero, and is refused after that. So it never shows some of the
ratings without the others.
-/
namespace PackedRatings

namespace RatingStore

/-- The store knows no rating, no user and no item. -/
structure Blank (s : RatingStore) (layout : RowLayout) : Prop where
  header : s.header = .ofLayout layout
  cursor : ∀ order, ∃ c, s.cursor order = .ok c ∧ c.rest = []
  userIds : ∃ users, s.userIds = .ok users ∧ users.toList = []
  itemIds : ∃ items, s.itemIds = .ok items ∧ items.toList = []
  ratingsByUser? : ∀ user, s.ratingsByUser? user = .ok none
  ratingsOfItem? : ∀ item, s.ratingsOfItem? item = .ok none

end RatingStore

theorem RunTable.rowsOf?_eq_none {n : Nat} {t : RunTable n} (h : t.image = []) (key : Int64) :
    t.rowsOf? key = none := by
  cases hrows : t.rowsOf? key with
  | none => rfl
  | some rows =>
    have hentry := rowsOf?_eq_some_iff.1 hrows
    rw [image, List.map_eq_nil_iff] at h
    rw [h] at hentry
    cases hentry

theorem RunTable.toList_keys_eq_nil {n : Nat} {t : RunTable n} (h : t.image = []) :
    t.keys.toList = [] := by
  rw [← keys_image, h]
  rfl

theorem RatingFile.select?_eq_none (f : RatingFile) {table : RunTable f.rows.count}
    (h : table.image = []) (key : Int64) : f.select? table key = none := by
  rw [select?, RunTable.rowsOf?_eq_none h]
  rfl

theorem RatingCursor.rest_eq_nil {c : RatingCursor} (h : c.source.count = 0) : c.rest = [] := by
  obtain ⟨source, upcoming⟩ := c
  cases upcoming with
  | nil => rfl
  | cons row rows => exact absurd h (Nat.ne_of_gt row.pos)

/-- The file of a layout without ratings, with other bytes behind it. -/
def FileImage.withoutRatings (layout : RowLayout) (trailing : List UInt8) : FileImage where
  layout
  ratingCount := 0
  rows := []
  users := []
  items := []
  trailing

theorem RatingFile.Shows.blank {f : RatingFile} {layout : RowLayout} {trailing : List UInt8}
    (h : f.Shows (.withoutRatings layout trailing)) (path : String) :
    RatingStore.Blank ⟨path, .ofLayout layout, some f⟩ layout where
  header := rfl
  cursor := by
    intro order
    cases order with
    | timestamp =>
      by_cases htimestamps : layout.timestamps
      · refine ⟨_, if_pos htimestamps, RatingCursor.rest_eq_nil h.count⟩
      · refine ⟨_, if_neg htimestamps, RatingCursor.rest_eq_nil h.count⟩
    | _ => exact ⟨_, rfl, RatingCursor.rest_eq_nil h.count⟩
  userIds := ⟨_, rfl, RunTable.toList_keys_eq_nil h.users⟩
  itemIds := ⟨_, rfl, RunTable.toList_keys_eq_nil h.items⟩
  ratingsByUser? := fun user => congrArg Except.ok (f.select?_eq_none h.users user)
  ratingsOfItem? := fun item => congrArg Except.ok (f.select?_eq_none h.items item)

namespace RatingStore

/-- A file that starts with a header without ratings is loaded, whatever stands behind it. -/
theorem exists_blank {file : ByteArray} {layout : RowLayout} {rest : List UInt8}
    (hfile : file.data.toList = (FileHeader.ofLayout layout).bytes ++ rest) (path : String)
    (verify : Bool) : ∃ s, load path (some file) verify = .ok s ∧ s.Blank layout := by
  have hempty : TableImage.WellFormed [] 0 := ⟨.nil, nofun, rfl⟩
  have himage : (FileImage.withoutRatings layout rest).WellFormed := by
    refine ⟨FileHeader.fits_ofLayout layout, ?_, hempty, hempty⟩
    exact (Nat.zero_mul _).symm
  have hbytes : (FileImage.withoutRatings layout rest).bytes = file.data.toList := by
    simp [hfile, FileImage.bytes, FileImage.body, FileImage.withoutRatings, FileImage.header,
      TableImage.bytes, TableImage.keys, FileHeader.ofLayout]
  obtain ⟨f, hparse, hshows⟩ :=
    RatingFile.exists_parse_eq_ok himage verify (fun _ => ⟨.nil, .nil⟩) hbytes
  exact ⟨_, load_eq_ok_iff.2 ⟨_, f, hparse, rfl⟩, hshows.blank path⟩

/-- What is loaded starts with the bytes of a header. -/
theorem exists_header_of_load {path : String} {file : ByteArray} {verify : Bool} {s : RatingStore}
    (h : load path (some file) verify = .ok s) :
    ∃ header : FileHeader, header.Fits ∧ ∃ rest, file.data.toList = header.bytes ++ rest := by
  obtain ⟨header, f, hparse, -⟩ := load_eq_ok_iff.1 h
  obtain ⟨p, trailing, hp, hfile, -⟩ := RatingFile.exists_parts_of_parse hparse
  rw [RatingFile.Parts.body, List.append_assoc] at hfile
  exact ⟨p.header, hp.header, _, hfile⟩

/-- What becomes of a file of which the first `k` bytes of the header are written: it is loaded as a
store without ratings if all that is known of their number is zero, and otherwise it is refused,
unless nothing is missing. -/
structure Interrupted (p : Packing) (k : Nat) (finished unfinished : ByteArray) : Prop where
  bytes : unfinished.data.toList = finished.data.toList.take k ++ List.replicate (28 - k) 0 ++
    finished.data.toList.drop 28
  blank : 6 ≤ k → p.count < BigEndian.capacity (12 - k) → unfinished ≠ finished ∧
    ∀ path verify, ∃ s, load path (some unfinished) verify = .ok s ∧
      s.Blank ⟨p.layout.timestamps && decide (8 ≤ k)⟩
  refused : k < 6 ∨ BigEndian.capacity (12 - k) ≤ p.count → unfinished ≠ finished →
    Unreadable unfinished

/-- No store shows some of the ratings without the others. -/
theorem Interrupted.all_or_none {p : Packing} {k : Nat} {finished unfinished : ByteArray}
    (h : Interrupted p k finished unfinished) {path : String} {verify : Bool} {s : RatingStore}
    (hload : load path (some unfinished) verify = .ok s) :
    unfinished = finished ∨ s.Blank ⟨p.layout.timestamps && decide (8 ≤ k)⟩ := by
  by_cases hlacks : 6 ≤ k ∧ p.count < BigEndian.capacity (12 - k)
  · obtain ⟨t, ht, hblank⟩ := (h.blank hlacks.1 hlacks.2).2 path verify
    rw [hload] at ht
    cases ht
    exact .inr hblank
  · left
    apply Decidable.byContradiction
    intro hne
    obtain ⟨element, message, hrefused, -⟩ := h.refused (by omega) hne path verify
    rw [hload] at hrefused
    cases hrefused

theorem interrupted_of_bytes {p : Packing} {k : Nat} {finished unfinished : ByteArray}
    {rest : List UInt8} (hfits : p.header.Fits) (hpos : 0 < p.count) (hk : k ≤ 28)
    (hfinished : finished.data.toList = p.header.bytes ++ rest)
    (hunfinished : unfinished.data.toList = p.header.cut k ++ rest) :
    Interrupted p k finished unfinished where
  bytes := by
    have hlength : k ≤ p.header.bytes.length := hk
    have hbehind : (p.header.bytes ++ rest).drop 28 = rest := List.drop_left' p.header.length_bytes
    rw [hunfinished, hfinished, List.take_append_of_le_length hlength, hbehind, FileHeader.cut]
    rfl
  blank := by
    intro h6 hlt
    have hcut := FileHeader.cut_eq_of_lacksCount hfits hpos ⟨h6, hlt⟩
    rw [hcut] at hunfinished
    refine ⟨?_, exists_blank hunfinished⟩
    rintro rfl
    rw [hunfinished] at hfinished
    exact FileHeader.bytes_ofLayout_ne hfits hpos _ (List.append_cancel_right hfinished)
  refused := by
    intro hshown hne
    apply unreadable_of_ne_ok
    intro path verify s hload
    obtain ⟨header, hheader, rest', hrest⟩ := exists_header_of_load hload
    rw [hunfinished] at hrest
    have hlength : (p.header.cut k).length = header.bytes.length := by
      rw [FileHeader.length_cut hk, FileHeader.length_bytes]
    obtain ⟨hcut, rfl⟩ := List.append_inj hrest hlength
    rcases FileHeader.lacksCount_or_eq_of_cut_eq hfits hheader hk hcut with ⟨h6, hlt⟩ | rfl
    · change p.count < _ at hlt
      omega
    · apply hne
      apply ByteArray.ext
      apply Array.toList_inj.1
      rw [hunfinished, hfinished, hcut]

theorem unfinished_refused_or_blank (path : String) (layout : RowLayout)
    (calls : List Packing.Call) (hpos : 0 < ((Packing.start path layout).run calls).count) {k : Nat}
    (hk : k < 28) : ∃ file unfinished, ((Packing.start path layout).run calls).finish = .ok file ∧
      ((Packing.start path layout).run calls).finishUpTo k = .ok unfinished ∧
      Interrupted ((Packing.start path layout).run calls) k file.bytes unfinished ∧
      ∀ path' verify s, load path' (some unfinished) verify = .ok s → unfinished = file.bytes ∨
        s.Blank ⟨layout.timestamps && decide (8 ≤ k)⟩ := by
  obtain ⟨hholds, hlayout⟩ := (Packing.holds_start path layout).run calls
  obtain ⟨file, rest, hfinish, hfile, hup⟩ := hholds.exists_finishUpTo
  obtain ⟨unfinished, hunfinished, hbytes⟩ := hup k (Nat.le_of_lt hk)
  have hfits : ((Packing.start path layout).run calls).header.Fits :=
    hholds.header_eq ▸ hholds.wellFormed_image.header
  have hinterrupted := interrupted_of_bytes hfits hpos (Nat.le_of_lt hk) hfile hbytes
  refine ⟨file, unfinished, hfinish, hunfinished, hinterrupted, fun path' verify s hload => ?_⟩
  have hlayout : ((Packing.start path layout).run calls).layout = layout := hlayout
  rw [← hlayout]
  exact hinterrupted.all_or_none hload

def oneRating : Packing :=
  (Packing.start "ratings.bin" ⟨false⟩).run [.add ⟨1, 1, ⟨0x3ff0000000000000⟩, none⟩]

/-- Without the length of the rows the file is refused. -/
theorem unfinished_refused_or_blank_oneRating : ∃ file unfinished, oneRating.finish = .ok file ∧
    oneRating.finishUpTo 20 = .ok unfinished ∧ unfinished ≠ file.bytes ∧ Unreadable unfinished := by
  obtain ⟨file, unfinished, hfinish, hunfinished, hinterrupted, -⟩ :=
    unfinished_refused_or_blank "ratings.bin" ⟨false⟩ [.add ⟨1, 1, ⟨0x3ff0000000000000⟩, none⟩]
      (by decide) (show 20 < 28 by decide)
  have hdata : (do
      let file ← oneRating.finish
      let unfinished ← oneRating.finishUpTo 20
      return decide (unfinished.data = file.bytes.data)).toOption = some false := by
    decide +kernel
  rw [oneRating, hfinish, hunfinished] at hdata
  have hne : unfinished ≠ file.bytes := by
    rintro rfl
    simp [Except.toOption, bind, Except.bind, pure, Except.pure] at hdata
  exact ⟨file, unfinished, hfinish, hunfinished, hne,
    hinterrupted.refused (.inr (by decide)) hne⟩

/-- With nothing but the magic word in its header the file is loaded and shows nothing. -/
theorem oneRating_loaded_as_empty : ∃ file unfinished s, oneRating.finish = .ok file ∧
    oneRating.finishUpTo 6 = .ok unfinished ∧ unfinished ≠ file.bytes ∧
    load "ratings.bin" (some unfinished) true = .ok s ∧ file.header.ratingCount = 1 ∧
    s.header.ratingCount = 0 := by
  have hrun : (do
      let file ← oneRating.finish
      let unfinished ← oneRating.finishUpTo 6
      let s ← load "ratings.bin" (some unfinished) true
      return (decide (unfinished.data = file.bytes.data), file.header.ratingCount,
        s.header.ratingCount)).toOption = some (false, 1, 0) := by
    decide +kernel
  simp only [toOption_eq_some_iff, bind_eq_ok_iff, pure_eq_ok_iff, Prod.mk.injEq,
    decide_eq_false_iff_not] at hrun
  obtain ⟨file, hfinish, unfinished, hunfinished, s, hload, hdata, hcount, hempty⟩ := hrun
  exact ⟨file, unfinished, s, hfinish, hunfinished, fun h => hdata (congrArg ByteArray.data h),
    hload, hcount, hempty⟩

end RatingStore

end PackedRatings
