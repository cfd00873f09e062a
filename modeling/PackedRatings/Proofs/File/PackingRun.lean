import PackedRatings.Proofs.File.HeaderFields
import PackedRatings.Proofs.File.RowPlaces
import PackedRatings.Proofs.File.Rows

/-!
# Runs of a packing

`Packing.Holds p ratings` says what a packing has written and noted after it took `ratings`.
Taking one more rating keeps it true, so it is true of every run, and a packing that holds
ratings finishes as the bytes of a well-formed image.
-/
namespace PackedRatings

namespace Packing

/-- The blank header and the rows of `ratings` are written, and both indexes are those of
`ratings`. -/
structure Holds (p : Packing) (ratings : List Rating) : Prop where
  intact : p.failed = false
  count : p.count = ratings.length
  count_le : ratings.length ≤ FileHeader.maxCount
  takes : ∀ r ∈ ratings, p.layout.Takes r
  file : p.file.data.toList = List.replicate FileHeader.byteLength 0 ++
    ratings.flatMap fun r => (p.layout.write r).bytes
  users : p.users.Indexes (ratings.map Rating.user)
  items : p.items.Indexes (ratings.map Rating.item)

theorem holds_start (path : String) (layout : RowLayout) : (start path layout).Holds [] where
  intact := rfl
  count := rfl
  count_le := Nat.zero_le _
  takes := nofun
  file := by simp [start]
  users := RowsByKey.indexes_empty
  items := RowsByKey.indexes_empty

theorem checkIntact_eq_ok_iff {p : Packing} {call : String} {u : Unit} :
    p.checkIntact call = .ok u ↔ p.failed = false := by
  rw [checkIntact]
  cases p.failed with
  | true => simp
  | false => simp

theorem checkRating_eq_ok_iff {p : Packing} {rating : Rating} {u : Unit} :
    p.checkRating rating = .ok u ↔
      p.failed = false ∧ p.layout.Takes rating ∧ p.count < FileHeader.maxCount := by
  simp only [checkRating, bind_eq_ok_iff, checkIntact_eq_ok_iff, Requirement.check_eq_ok_iff,
    exists_const]
  rfl

/-- A rating that passes the checks has a timestamp if its row needs one, so the row is written to
its end. -/
theorem add_of_check_eq_ok {p : Packing} {rating : Rating} (h : p.checkRating rating = .ok ()) :
    p.add rating = ({ p with
      file := p.file ++ (p.layout.write rating).bytes.toByteArray
      users := p.users.note rating.user p.count
      items := p.items.note rating.item p.count
      count := p.count + 1 }, none) := by
  have hwritten : (p.layout.write rating).failure = none :=
    congrArg Emission.failure (RowLayout.write_eq (checkRating_eq_ok_iff.1 h).2.1)
  simp only [add, h, hwritten]

theorem add_of_check_eq_error {p : Packing} {rating : Rating} {failure : Failure}
    (h : p.checkRating rating = .error failure) : p.add rating = (p, some failure) := by
  simp only [add, h]

/-- Exactly the ratings that fit the layout and the count are taken. -/
theorem add_eq_none_iff {p p' : Packing} {rating : Rating} :
    p.add rating = (p', none) ↔
      (p.failed = false ∧ p.layout.Takes rating ∧ p.count < FileHeader.maxCount) ∧
        p' = { p with
          file := p.file ++ (p.layout.write rating).bytes.toByteArray
          users := p.users.note rating.user p.count
          items := p.items.note rating.item p.count
          count := p.count + 1 } := by
  rw [← checkRating_eq_ok_iff (u := ())]
  cases hcheck : p.checkRating rating with
  | ok u => simp [add_of_check_eq_ok hcheck, eq_comm]
  | error failure => simp [add_of_check_eq_error hcheck]

/-- Whatever is refused is refused by the checks, before anything is written. -/
theorem add_eq_some_iff {p p' : Packing} {rating : Rating} {failure : Failure} :
    p.add rating = (p', some failure) ↔ p' = p ∧ p.checkRating rating = .error failure := by
  cases hcheck : p.checkRating rating with
  | ok u => simp [add_of_check_eq_ok hcheck]
  | error failure' => simp [add_of_check_eq_error hcheck, eq_comm]

theorem addAll_cons_eq_none_iff {p p' : Packing} {rating : Rating} {ratings : List Rating} :
    p.addAll (rating :: ratings) = (p', none) ↔
      ∃ q, p.add rating = (q, none) ∧ q.addAll ratings = (p', none) := by
  rcases hadd : p.add rating with ⟨q, _ | failure⟩
  · simp [addAll, hadd]
  · simp [addAll, hadd]

theorem Holds.add {p p' : Packing} {ratings : List Rating} {rating : Rating}
    (h : p.Holds ratings) (hadd : p.add rating = (p', none)) :
    p'.Holds (ratings ++ [rating]) := by
  obtain ⟨⟨hintact, htakes, hroom⟩, rfl⟩ := add_eq_none_iff.1 hadd
  constructor
  · exact hintact
  · simp [h.count]
  · rw [h.count] at hroom
    rw [List.length_append]
    exact hroom
  · intro r hr
    rcases List.mem_append.1 hr with hr | hr
    · exact h.takes r hr
    · rw [List.mem_singleton.1 hr]
      exact htakes
  · simp [h.file]
  · have husers := h.users.note rating.user
    rw [List.length_map, ← h.count] at husers
    simpa using husers
  · have hitems := h.items.note rating.item
    rw [List.length_map, ← h.count] at hitems
    simpa using hitems

/-- A run that takes all of its ratings ends with a packing that holds them. -/
theorem Holds.addAll {p p' : Packing} {before ratings : List Rating} (h : p.Holds before)
    (hrun : p.addAll ratings = (p', none)) :
    p'.Holds (before ++ ratings) ∧ p'.path = p.path ∧ p'.layout = p.layout := by
  induction ratings generalizing p before with
  | nil =>
    cases hrun
    rw [List.append_nil]
    exact ⟨h, rfl, rfl⟩
  | cons rating ratings ih =>
    obtain ⟨q, hadd, hrest⟩ := addAll_cons_eq_none_iff.1 hrun
    obtain ⟨hholds, hpath, hlayout⟩ := ih (h.add hadd) hrest
    obtain ⟨-, rfl⟩ := add_eq_none_iff.1 hadd
    rw [List.append_assoc, List.singleton_append] at hholds
    exact ⟨hholds, hpath, hlayout⟩

end Packing

namespace RunTable

theorem mapM_encodeRun_eq_ok {entries : TableImage}
    (h : ∀ entry ∈ entries, entry.2.length ≤ FileHeader.maxCount) :
    entries.mapM (fun (_, rows) => encodeRun rows) =
      .ok (entries.map fun entry => TableImage.runBytes entry.2) := by
  induction entries with
  | nil => rfl
  | cons entry entries ih =>
    rcases entry with ⟨key, rows⟩
    have hrun : encodeRun rows = .ok (TableImage.runBytes rows) :=
      if_pos (h (key, rows) List.mem_cons_self)
    simp only [List.mapM_cons, ih fun e he => h e (List.mem_cons_of_mem _ he), hrun]
    rfl

/-- Runs that are not too long are written as the bytes of their table. -/
theorem encodeRuns_eq_ok {entries : TableImage}
    (h : ∀ entry ∈ entries, entry.2.length ≤ FileHeader.maxCount) :
    encodeRuns entries = .ok entries.bytes := by
  rw [encodeRuns, mapM_encodeRun_eq_ok h, TableImage.bytes, TableImage.keys, List.flatMap_map]
  rfl

end RunTable

namespace Packing

def image (p : Packing) (ratings : List Rating) : FileImage where
  layout := p.layout
  ratingCount := ratings.length
  rows := ratings.flatMap fun r => (p.layout.write r).bytes
  users := p.users.runs
  items := p.items.runs
  trailing := []

variable {p : Packing} {ratings : List Rating}

theorem Holds.header_eq (h : p.Holds ratings) : p.header = (p.image ratings).header := by
  rw [header, FileImage.header, h.count]
  simp only [image, RowsByKey.length_runs]

theorem Holds.users_wellFormed (h : p.Holds ratings) :
    TableImage.WellFormed p.users.runs ratings.length := by
  have := h.users.wellFormed_runs
  rwa [List.length_map] at this

theorem Holds.items_wellFormed (h : p.Holds ratings) :
    TableImage.WellFormed p.items.runs ratings.length := by
  have := h.items.wellFormed_runs
  rwa [List.length_map] at this

theorem Holds.wellFormed_image (h : p.Holds ratings) : (p.image ratings).WellFormed where
  header := by
    have husers := h.users.length_runs_le
    have hitems := h.items.length_runs_le
    rw [List.length_map] at husers hitems
    exact ⟨h.count_le, Nat.le_trans husers h.count_le, Nat.le_trans hitems h.count_le⟩
  rows := length_flatMap_of_width fun r hr => RowLayout.length_write (h.takes r hr)
  users := h.users_wellFormed
  items := h.items_wellFormed

theorem Holds.listsEachRowOnce_image (h : p.Holds ratings) :
    (p.image ratings).ListsEachRowOnce where
  users := by
    have := h.users.positions_perm
    rwa [List.length_map] at this
  items := by
    have := h.items.positions_perm
    rwa [List.length_map] at this

theorem toList_overwriteStart (file : ByteArray) (bytes : List UInt8) :
    (overwriteStart file bytes).data.toList = bytes ++ file.data.toList.drop bytes.length := by
  rw [overwriteStart, ByteArray.data_append, Array.toList_append, data_toList_extract,
    List.take_of_length_le]
  · simp
  · apply Nat.le_of_eq
    rw [List.length_drop, length_data_toList]

/-- Whatever front of the header is written, it stands over the blank header, and behind it are
the rows and the tables. -/
theorem Holds.finishUpTo (h : p.Holds ratings) {k : Nat} (hk : k ≤ FileHeader.byteLength) :
    ∃ bytes, p.finishUpTo k = .ok bytes ∧
      bytes.data.toList = p.header.bytes.take k ++
        (List.replicate (FileHeader.byteLength - k) 0 ++ ((p.image ratings).rows ++
          (p.image ratings).users.bytes ++ (p.image ratings).items.bytes)) := by
  have husers := RunTable.encodeRuns_eq_ok fun entry hentry =>
    Nat.le_trans (h.users_wellFormed.length_run_le hentry) h.count_le
  have hitems := RunTable.encodeRuns_eq_ok fun entry hentry =>
    Nat.le_trans (h.items_wellFormed.length_run_le hentry) h.count_le
  have hheader : p.header.encode = .ok p.header.bytes := by
    rw [h.header_eq]
    exact FileHeader.encode_eq_ok_iff.2 ⟨h.wellFormed_image.header, rfl⟩
  let tables := TableImage.bytes p.users.runs ++ TableImage.bytes p.items.runs
  refine ⟨overwriteStart (p.file ++ tables.toByteArray) (p.header.bytes.take k), ?_, ?_⟩
  · rw [Packing.finishUpTo, checkIntact_eq_ok_iff (u := ()).2 h.intact, husers, hitems, hheader]
    rfl
  · have hfront : (p.header.bytes.take k).length = k := by
      rw [List.length_take, FileHeader.length_bytes, Nat.min_eq_left hk]
    rw [toList_overwriteStart, hfront, ByteArray.data_append, Array.toList_append, h.file,
      List.append_assoc, List.drop_append_of_le_length, List.drop_replicate]
    · simp [image, tables]
    · rwa [List.length_replicate]

/-- Finishing never fails, and the file is the bytes of the image. -/
theorem Holds.finish (h : p.Holds ratings) :
    ∃ file, p.finish = .ok file ∧ file.path = p.path ∧
      file.header = (p.image ratings).header ∧
      file.bytes.data.toList = (p.image ratings).bytes := by
  obtain ⟨bytes, hbytes, hlist⟩ := h.finishUpTo (Nat.le_refl FileHeader.byteLength)
  refine ⟨_, bind_eq_ok_iff.2 ⟨bytes, hbytes, rfl⟩, rfl, h.header_eq, ?_⟩
  have hheader : p.header.bytes.take FileHeader.byteLength = p.header.bytes :=
    List.take_of_length_le (Nat.le_of_eq p.header.length_bytes)
  rw [hlist, hheader, h.header_eq, FileImage.bytes_of_trailing_eq_nil rfl, FileImage.body,
    Nat.sub_self]
  simp

end Packing

end PackedRatings
