import PackedRatings.Proofs.File.EachRowOnce
import PackedRatings.Proofs.File.HeaderFields
import PackedRatings.Store.RatingStore

/-!
# Which files are loaded

A file is read exactly if it starts with the bytes of what is read: a header, the rows and two
index tables, each of which is read in the same way whatever follows it. So the files that are
read are the bytes of well-formed images, and what is read shows the image. Verification asks in
addition that each table lists every row once.
-/
namespace PackedRatings

namespace RunTable

variable {n : Nat}

/-- The table has as many positions as there are rows and, if this is verified, lists every row
once. -/
def Listed (t : RunTable n) (verify : Bool) : Prop :=
  t.image.positions.length = n ∧ (verify = true → t.image.positions.Perm (List.range n))

end RunTable

theorem FileImage.WellFormed.length_body {image : FileImage} (h : image.WellFormed) :
    image.body.length =
      image.header.indexOffset + image.users.bytes.length + image.items.bytes.length := by
  rw [FileImage.body, List.length_append, List.length_append, List.length_append,
    FileHeader.length_bytes, h.rows]
  rfl

namespace RatingFile

theorem checkTable_eq_ok_iff {name : String} {n : Nat} {table : RunTable n} {verify : Bool}
    {u : Unit} : checkTable name table verify = .ok u ↔ table.Listed verify := by
  obtain ⟨once, hlists, honce⟩ := table.exists_listsEachOnce?_eq
  rw [checkTable, hlists, RunTable.Listed, table.length_positions_image, ← honce]
  by_cases hcount : table.allRows.length = n
  · cases verify <;> cases once <;> simp [hcount]
  · simp [hcount]

theorem checkTable_refuses (name : String) {n : Nat} (table : RunTable n) (verify : Bool) :
    RefusesFormatOnly (checkTable name table verify) := by
  rw [checkTable]
  split
  · exact .error _ _
  · split
    · exact .error _ _
    · exact .ok _

structure Shows (f : RatingFile) (image : FileImage) : Prop where
  layout : f.rows.layout = image.layout
  count : f.rows.count = image.ratingCount
  rows : f.rows.bytes.data.toList = image.rows
  users : f.users.image = image.users
  items : f.items.image = image.items
  indexEnd : f.indexEnd = image.body.length
  byteLength : f.byteLength = image.bytes.length

section Sections

variable {file : ByteArray} {header : FileHeader} {rest : List UInt8}
  (hfile : file.data.toList = header.bytes ++ rest)
include hfile

theorem size_eq_add : file.size = FileHeader.byteLength + rest.length := by
  rw [← length_data_toList, hfile, List.length_append, FileHeader.length_bytes]

theorem rows_toList (fits : header.indexOffset ≤ file.size) :
    (RowSection.ofFile header file fits).bytes.data.toList = rest.take header.sectionLength := by
  rw [RowSection.ofFile, data_toList_extract, hfile, ← FileHeader.length_bytes header,
    List.drop_left, FileHeader.indexOffset, FileHeader.length_bytes, Nat.add_sub_cancel_left]

theorem index_toList : (file.extract header.indexOffset file.size).data.toList =
    rest.drop header.sectionLength := by
  rw [data_toList_extract, hfile, FileHeader.indexOffset, ← FileHeader.length_bytes header,
    ← List.drop_drop, List.drop_left, size_eq_add hfile, FileHeader.length_bytes]
  exact List.take_of_length_le (by rw [List.length_drop]; omega)

end Sections

theorem wellFormed_image {n : Nat} {t : RunTable n} (h : t.image.positions.length = n) :
    t.image.WellFormed n where
  ascending := by
    rw [RunTable.keys_image]
    exact t.keys.toList_pairwise
  inRange := by
    intro row hrow
    rw [RunTable.positions_image] at hrow
    rcases List.mem_map.1 hrow with ⟨i, -, rfl⟩
    exact i.isLt
  complete := h

/-- What is read from a file: its header, the bytes of its rows and the two index tables. -/
structure Parts where
  header : FileHeader
  rows : ByteArray
  complete : rows.size = header.ratingCount * header.layout.rowWidth
  users : RunTable header.ratingCount
  items : RunTable header.ratingCount

namespace Parts

def body (p : Parts) : List UInt8 :=
  p.header.bytes ++ (p.rows.data.toList ++ (p.users.image.bytes ++ p.items.image.bytes))

def toFile (p : Parts) (byteLength : Nat) : RatingFile where
  rows := ⟨p.header.layout, p.header.ratingCount, p.rows, p.complete⟩
  users := p.users
  items := p.items
  indexEnd := p.body.length
  byteLength

/-- The parts are those that are read from their bytes, whatever follows them. -/
structure Readable (p : Parts) (verify : Bool) : Prop where
  header : p.header.Fits
  users : ∀ rest, RunTable.parse p.header.userCount (p.users.image.bytes ++ rest)
    p.header.ratingCount = .ok (p.users, rest)
  items : ∀ rest, RunTable.parse p.header.itemCount (p.items.image.bytes ++ rest)
    p.header.ratingCount = .ok (p.items, rest)
  usersListed : p.users.Listed verify
  itemsListed : p.items.Listed verify

theorem length_rows (p : Parts) : p.rows.data.toList.length = p.header.sectionLength := by
  rw [length_data_toList]
  exact p.complete

theorem length_body (p : Parts) : p.body.length =
    p.header.indexOffset + p.users.image.bytes.length + p.items.image.bytes.length := by
  rw [body, List.length_append, List.length_append, List.length_append, FileHeader.length_bytes,
    length_rows, FileHeader.indexOffset]
  omega

def image (p : Parts) (trailing : List UInt8) : FileImage where
  layout := p.header.layout
  ratingCount := p.header.ratingCount
  rows := p.rows.data.toList
  users := p.users.image
  items := p.items.image
  trailing

section Readable

variable {p : Parts} {verify : Bool} (hp : p.Readable verify) (trailing : List UInt8)
include hp

theorem Readable.header_image : (p.image trailing).header = p.header := by
  have husers := (RunTable.parse_eq_ok (hp.users [])).1
  have hitems := (RunTable.parse_eq_ok (hp.items [])).1
  rw [FileImage.header]
  simp only [image, RunTable.length_image, husers, hitems]

theorem Readable.body_image : (p.image trailing).body = p.body := by
  rw [FileImage.body, hp.header_image, body]
  simp only [image, List.append_assoc]

theorem Readable.wellFormed_image : (p.image trailing).WellFormed where
  header := by
    rw [hp.header_image]
    exact hp.header
  rows := p.length_rows
  users := RatingFile.wellFormed_image hp.usersListed.1
  items := RatingFile.wellFormed_image hp.itemsListed.1

theorem Readable.shows_image {byteLength : Nat}
    (hlength : byteLength = (p.image trailing).bytes.length) :
    (p.toFile byteLength).Shows (p.image trailing) where
  layout := rfl
  count := rfl
  rows := rfl
  users := rfl
  items := rfl
  indexEnd := by
    rw [hp.body_image]
    rfl
  byteLength := hlength

end Readable

end Parts

/-- A file that is read starts with the bytes of what is read. -/
theorem exists_parts_of_parse {file : ByteArray} {verify : Bool} {header : FileHeader}
    {f : RatingFile} (h : parse file verify = .ok (header, f)) :
    ∃ (p : Parts) (trailing : List UInt8), p.Readable verify ∧
      file.data.toList = p.body ++ trailing ∧ header = p.header ∧ f = p.toFile file.size := by
  simp only [parse, bind_eq_ok_iff] at h
  obtain ⟨header', hheader, h⟩ := h
  rcases FileHeader.parse_eq_ok_iff.1 hheader with ⟨hfits, rest, hfile⟩
  split at h
  · rename_i hoffset
    simp only [bind_eq_ok_iff, pure_eq_ok_iff, Prod.exists, Prod.mk.injEq,
      Requirement.check_eq_ok_iff, checkTable_eq_ok_iff, exists_const] at h
    obtain ⟨users, afterUsers, husers, items, trailing, hitems, -, husersListed, hitemsListed,
      rfl, rfl⟩ := h
    obtain ⟨-, hindex⟩ := RunTable.parse_eq_ok husers
    rcases RunTable.parse_eq_ok hitems with ⟨-, rfl⟩
    rw [index_toList hfile] at hindex
    let p : Parts := {
      header := header'
      rows := (RowSection.ofFile header' file hoffset).bytes
      complete := (RowSection.ofFile header' file hoffset).complete
      users
      items }
    have hp : p.Readable verify := {
      header := hfits
      users := RunTable.parse_append husers
      items := RunTable.parse_append hitems
      usersListed := husersListed
      itemsListed := hitemsListed }
    have hrest : rest = rest.take header'.sectionLength ++
        (users.image.bytes ++ (items.image.bytes ++ trailing)) := by
      rw [← hindex, List.take_append_drop]
    have hbody : file.data.toList = p.body ++ trailing := by
      rw [hfile, Parts.body, rows_toList hfile hoffset]
      refine Eq.trans (congrArg (header'.bytes ++ ·) hrest) ?_
      simp only [List.append_assoc, p]
      rfl
    have hend : header'.indexOffset +
        ((file.extract header'.indexOffset file.size).data.toList.length -
          (items.image.bytes ++ trailing).length) +
        ((items.image.bytes ++ trailing).length - trailing.length) = p.body.length := by
      rw [p.length_body, index_toList hfile, hindex]
      simp only [List.length_append, Nat.add_sub_cancel_right, p]
      rfl
    refine ⟨p, trailing, hp, hbody, rfl, ?_⟩
    rw [hend]
    rfl
  · cases h

/-- A file that starts with the bytes of readable parts is read as these parts. -/
theorem Parts.Readable.parse_eq_ok {p : Parts} {verify : Bool} (hp : p.Readable verify)
    {file : ByteArray} {trailing : List UInt8} (hfile : file.data.toList = p.body ++ trailing) :
    parse file verify = .ok (p.header, p.toFile file.size) := by
  obtain ⟨header, rows, complete, users, items⟩ := p
  have hlength := Parts.length_body ⟨header, rows, complete, users, items⟩
  have hsection := Parts.length_rows ⟨header, rows, complete, users, items⟩
  dsimp only at hlength hsection
  have hsize : file.size = header.indexOffset + users.image.bytes.length +
      items.image.bytes.length + trailing.length := by
    rw [← length_data_toList, hfile, List.length_append, hlength]
  have hoffset : header.indexOffset ≤ file.size := by omega
  have hfile : file.data.toList = header.bytes ++
      (rows.data.toList ++ (users.image.bytes ++ (items.image.bytes ++ trailing))) := by
    rw [hfile, Parts.body]
    simp only [List.append_assoc]
  have hindex := index_toList hfile
  rw [← hsection, List.drop_left] at hindex
  -- The rows that are cut out of the file are those of the parts.
  obtain rfl : (RowSection.ofFile header file hoffset).bytes = rows := by
    apply ByteArray.ext
    apply Array.toList_inj.1
    rw [rows_toList hfile, ← hsection, List.take_left]
  simp only [parse, bind_eq_ok_iff]
  refine ⟨header, FileHeader.parse_eq_ok_iff.2 ⟨hp.header, _, hfile⟩, ?_⟩
  rw [dif_pos hoffset]
  simp only [bind_eq_ok_iff, pure_eq_ok_iff, Prod.exists, Requirement.check_eq_ok_iff,
    checkTable_eq_ok_iff, exists_const]
  refine ⟨users, items.image.bytes ++ trailing, ?_, items, trailing, hp.items trailing, ?_,
    hp.usersListed, hp.itemsListed, ?_⟩
  · rw [hindex]
    exact hp.users _
  · rw [hindex]
    simp only [List.length_append, Nat.add_sub_cancel_right]
    omega
  · rw [hindex]
    simp only [List.length_append, Nat.add_sub_cancel_right, Parts.toFile, hlength]
    rfl

/-- A file that is read is the bytes of an image, and what is read shows it. -/
theorem parse_eq_ok {file : ByteArray} {verify : Bool} {header : FileHeader} {f : RatingFile}
    (h : parse file verify = .ok (header, f)) :
    ∃ image : FileImage, image.WellFormed ∧ (verify = true → image.ListsEachRowOnce) ∧
      image.bytes = file.data.toList ∧ image.header = header ∧ f.Shows image := by
  obtain ⟨p, trailing, hp, hfile, rfl, rfl⟩ := exists_parts_of_parse h
  have hbytes : (p.image trailing).bytes = file.data.toList := by
    rw [hfile, FileImage.bytes, hp.body_image]
    rfl
  refine ⟨p.image trailing, hp.wellFormed_image trailing,
    fun hverify => ⟨hp.usersListed.2 hverify, hp.itemsListed.2 hverify⟩, hbytes,
    hp.header_image trailing, hp.shows_image trailing ?_⟩
  rw [hbytes, length_data_toList]

/-- What a well-formed image describes can be read. -/
theorem exists_parts {image : FileImage} (himage : image.WellFormed) (verify : Bool)
    (honce : verify = true → image.ListsEachRowOnce) :
    ∃ p : Parts, p.Readable verify ∧ p.image image.trailing = image := by
  have husers := himage.users.readable himage.header.ratingCount_le
  have hitems := himage.items.readable himage.header.ratingCount_le
  obtain ⟨users, hreadUsers, huserImage⟩ := RunTable.exists_parse_eq_ok husers []
  obtain ⟨items, hreadItems, hitemImage⟩ := RunTable.exists_parse_eq_ok hitems []
  have husersListed : users.Listed verify := by
    rw [RunTable.Listed, huserImage]
    exact ⟨himage.users.complete, fun hverify => (honce hverify).users⟩
  have hitemsListed : items.Listed verify := by
    rw [RunTable.Listed, hitemImage]
    exact ⟨himage.items.complete, fun hverify => (honce hverify).items⟩
  have hcomplete : image.rows.toByteArray.size =
      image.header.ratingCount * image.header.layout.rowWidth := by
    rw [List.size_toByteArray]
    exact himage.rows
  refine ⟨⟨image.header, image.rows.toByteArray, hcomplete, users, items⟩,
    ⟨himage.header, RunTable.parse_append hreadUsers, RunTable.parse_append hreadItems,
      husersListed, hitemsListed⟩, ?_⟩
  change (⟨image.layout, image.ratingCount, image.rows.toByteArray.data.toList, users.image,
    items.image, image.trailing⟩ : FileImage) = image
  rw [huserImage, hitemImage]
  simp

/-- The bytes of a well-formed image are read, and what is read shows the image. -/
theorem exists_parse_eq_ok {image : FileImage} (himage : image.WellFormed) (verify : Bool)
    (honce : verify = true → image.ListsEachRowOnce) {file : ByteArray}
    (hbytes : image.bytes = file.data.toList) :
    ∃ f, parse file verify = .ok (image.header, f) ∧ f.Shows image := by
  obtain ⟨p, hp, hparts⟩ := exists_parts himage verify honce
  have hheader := hp.header_image image.trailing
  have hbody := hp.body_image image.trailing
  rw [hparts] at hheader hbody
  have hfile : file.data.toList = p.body ++ image.trailing := by
    rw [← hbytes, FileImage.bytes, hbody]
  refine ⟨p.toFile file.size, hheader ▸ hp.parse_eq_ok hfile,
    hparts ▸ hp.shows_image image.trailing ?_⟩
  rw [hparts, hbytes, length_data_toList]

theorem parse_refuses (file : ByteArray) (verify : Bool) :
    RefusesFormatOnly (parse file verify) := by
  refine .bind (FileHeader.parse_refuses _) fun header _ => ?_
  split
  · exact .bind (RunTable.parse_refuses _ _) fun _ _ => .bind (RunTable.parse_refuses _ _)
      fun _ _ => .bind (.check rfl) fun _ _ => .bind (checkTable_refuses _ _ _) fun _ _ =>
      .bind (checkTable_refuses _ _ _) fun _ _ => .ok _
  · exact .failure rfl

/-- Verification refuses files but changes nothing about what is read. -/
theorem parse_eq_ok_of_verified {file : ByteArray} {result : FileHeader × RatingFile}
    (h : parse file true = .ok result) : parse file false = .ok result := by
  obtain ⟨header, f⟩ := result
  obtain ⟨p, trailing, hp, hfile, rfl, rfl⟩ := exists_parts_of_parse h
  have hunverified : p.Readable false := { hp with
    usersListed := ⟨hp.usersListed.1, nofun⟩
    itemsListed := ⟨hp.itemsListed.1, nofun⟩ }
  exact hunverified.parse_eq_ok hfile

end RatingFile

end PackedRatings
