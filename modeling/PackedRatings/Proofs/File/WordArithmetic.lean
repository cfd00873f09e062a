import PackedRatings.Proofs.File.Loading

/-!
# Loading with words of 64 bits

On a machine, lengths and offsets are words, and a sum that does not fit a word, a difference
below zero, a slice that starts behind the end of its bytes, an index that is out of bounds or
an assertion that does not hold stops the program. `Guarded` computations have such faults
beside failures, and the guarded loader performs each of these operations where a machine
does. It never faults and gives what the plain loader gives.
-/
namespace PackedRatings

/-- What stops a program without a failure. -/
inductive Fault where
  | overflow
  | outOfRange
  | assertion
  deriving DecidableEq

/-- A computation that may fail, and may fault before that. -/
abbrev Guarded (α : Type) := ExceptT Failure (Except Fault) α

namespace Guarded

variable {α β : Type}

def fault (f : Fault) : Guarded α :=
  ExceptT.mk (.error f)

def lift (x : Except Failure α) : Guarded α :=
  ExceptT.mk (.ok x)

def word (n : Nat) : Guarded Nat :=
  if n < UInt64.size then pure n else fault .overflow

def sub (m n : Nat) : Guarded Nat :=
  if n ≤ m then pure (m - n) else fault .overflow

def suffix (file : ByteArray) (start : Nat) : Guarded (List UInt8) :=
  if start ≤ file.size then pure (file.extract start file.size).data.toList
  else fault .outOfRange

def ensure (p : Prop) [Decidable p] : Guarded Unit :=
  if p then pure () else fault .assertion

def found (x : Option α) : Guarded α :=
  match x with
  | some a => pure a
  | none => fault .outOfRange

theorem word_eq_pure {n : Nat} (h : n < UInt64.size) : word n = pure n :=
  if_pos h

theorem sub_eq_pure {m n : Nat} (h : n ≤ m) : sub m n = pure (m - n) :=
  if_pos h

theorem suffix_eq_pure {file : ByteArray} {start : Nat} (h : start ≤ file.size) :
    suffix file start = pure (file.extract start file.size).data.toList :=
  if_pos h

theorem ensure_eq_pure {p : Prop} [Decidable p] (h : p) : ensure p = pure () :=
  if_pos h

/-- A plain step followed by a step without faults has no faults. -/
theorem lift_bind {x : Except Failure α} {f : α → Except Failure β} {g : α → Guarded β}
    (h : ∀ a, x = .ok a → g a = lift (f a)) : (lift x >>= g) = lift (x >>= f) := by
  cases x with
  | ok a => exact h a rfl
  | error failure => rfl

end Guarded

open Guarded

namespace RunTable

variable {rowCount : Nat}

/-- Reads runs one after the other. The offset behind each run is a word. -/
def guardedRuns (rowCount : Nat) : (count : Nat) → List UInt8 →
    Guarded (FlatRuns rowCount count × List UInt8)
  | 0, bytes => pure (.empty, bytes)
  | count + 1, bytes => do
    let (runs, bytes) ← guardedRuns rowCount count bytes
    let (run, bytes) ← lift (readRun rowCount bytes)
    let _ ← word (runs.rows.size + run.length)
    return (runs.push run, bytes)

/-- Reads a table from the start of `bytes` and returns it with its length in bytes. -/
def guardedParse (keyCount : Nat) (bytes : List UInt8) (rowCount : Nat) :
    Guarded (RunTable rowCount × Nat) := do
  lift (Requirement.keyCountFits.check (keyCount ≤ bytes.length / 12))
  let (keys, rest) ← lift (readKeys none keyCount bytes)
  let keys ← lift ((KeyWindow.ofAscending keys).mapError fun failure =>
    .invalidFormat "index_keys" failure.message)
  let _ ← word (keyCount + 1)
  let (runs, rest) ← guardedRuns rowCount keys.length rest
  let consumed ← sub bytes.length rest.length
  return (⟨keys, runs⟩, consumed)

theorem length_runsBytes (runs : List (List (Fin rowCount))) :
    (runsBytes runs).length = 4 * runs.length + 4 * runs.flatten.length := by
  induction runs with
  | nil => rfl
  | cons run runs ih =>
    rw [runsBytes] at *
    rw [List.map_cons, List.flatMap_cons, List.length_append, ih, TableImage.length_runBytes,
      List.length_map, List.length_cons, List.flatten_cons, List.length_append]
    omega

theorem guardedRuns_eq_lift {bytes : List UInt8} (hbytes : bytes.length < UInt64.size)
    (count : Nat) :
    guardedRuns rowCount count bytes = lift (readRuns rowCount count bytes) := by
  induction count with
  | zero => rfl
  | succ count ih =>
    rw [guardedRuns, ih]
    apply lift_bind
    rintro ⟨runs, rest⟩ hruns
    apply lift_bind
    rintro ⟨run, rest'⟩ hrun
    -- All rows read so far lie in the bytes, four bytes each.
    obtain rfl := readRuns_eq_ok hruns
    obtain ⟨-, -, rfl⟩ := readRun_eq_ok_iff.1 hrun
    rw [List.length_append, List.length_append, length_runsBytes, FlatRuns.flatten_toList,
      TableImage.length_runBytes, List.length_map] at hbytes
    have hword : runs.rows.size + run.length < UInt64.size := by
      rw [← Array.length_toList]
      omega
    change (word (runs.rows.size + run.length) >>= _) = _
    rw [word_eq_pure hword]
    rfl

/-- The plain reading of a table, with the length of the table in place of the rest. -/
theorem guardedParse_eq_lift {bytes : List UInt8} (hbytes : bytes.length < UInt64.size)
    (keyCount : Nat) :
    guardedParse keyCount bytes rowCount =
      lift (parse keyCount bytes rowCount >>= fun (t, rest) =>
        pure (t, bytes.length - rest.length)) := by
  rw [guardedParse, parse]
  simp only [bind_assoc]
  apply lift_bind
  intro _ hfits
  apply lift_bind
  rintro ⟨keys, rest⟩ hkeys
  apply lift_bind
  intro w _
  rw [Requirement.check_eq_ok_iff] at hfits
  rcases readKeys_eq_ok_iff.1 hkeys with ⟨-, -, rfl⟩
  have hword : keyCount + 1 < UInt64.size := by
    have : 1 < UInt64.size := by decide
    omega
  have hrest : rest.length < UInt64.size := by
    rw [List.length_append] at hbytes
    omega
  rw [word_eq_pure hword, pure_bind, guardedRuns_eq_lift hrest]
  apply lift_bind
  rintro ⟨runs, rest'⟩ hruns
  obtain rfl := readRuns_eq_ok hruns
  have hle : rest'.length ≤
      (keys.flatMap BigEndian.encodeInt64 ++ (runsBytes runs.toList ++ rest')).length := by
    rw [List.length_append, List.length_append]
    omega
  change (sub _ _ >>= _) = _
  rw [sub_eq_pure hle]
  rfl

theorem guardedParse_bind {bytes : List UInt8} (hbytes : bytes.length < UInt64.size)
    {keyCount : Nat} {β : Type} {f : RunTable rowCount × List UInt8 → Except Failure β}
    {g : RunTable rowCount × Nat → Guarded β}
    (h : ∀ t rest, parse keyCount bytes rowCount = .ok (t, rest) →
      g (t, bytes.length - rest.length) = lift (f (t, rest))) :
    (guardedParse keyCount bytes rowCount >>= g) = lift (parse keyCount bytes rowCount >>= f) := by
  rw [guardedParse_eq_lift hbytes]
  cases hparse : parse keyCount bytes rowCount with
  | ok result => exact h result.1 result.2 hparse
  | error failure => rfl

end RunTable

namespace RatingFile

/-- The check of an index table. Looking up whether a row was seen must succeed. -/
def guardedCheck (name : String) {n : Nat} (table : RunTable n) (verifyRows : Bool) :
    Guarded Unit := do
  if table.allRows.length = n ∧ verifyRows then
    let _ ← found (table.listsEachOnce? n)
  lift (checkTable name table verifyRows)

/-- Reads the fields of a header. The magic word is cut off after the length is checked. -/
def guardedFields (file : ByteArray) : Guarded (FileHeader × Int) := do
  lift (Requirement.headerComplete.check (FileHeader.byteLength ≤ file.size))
  let _ ← suffix file FileHeader.magic.length
  lift (FileHeader.readFields file.data.toList)

/-- Reads a file with words of 64 bits. -/
def guardedParse (file : ByteArray) (verifyRows : Bool) :
    Guarded (FileHeader × RatingFile) := do
  let (header, stated) ← guardedFields file
  let sectionLength ← word (header.ratingCount * header.layout.rowWidth)
  lift (Requirement.sectionLengthMatches.check (stated = sectionLength))
  let indexOffset ← word (FileHeader.byteLength + sectionLength)
  if fits : header.indexOffset ≤ file.size then
    let rows := RowSection.ofFile header file fits
    let index ← suffix file indexOffset
    let (users, userLength) ← RunTable.guardedParse header.userCount index rows.count
    let itemOffset ← word (indexOffset + userLength)
    let index ← suffix file itemOffset
    let (items, itemLength) ← RunTable.guardedParse header.itemCount index rows.count
    let indexEnd ← word (itemOffset + itemLength)
    lift (Requirement.indexSectionFits.check (indexEnd ≤ file.size))
    guardedCheck "user_index" users verifyRows
    guardedCheck "item_index" items verifyRows
    ensure (header.indexOffset ≤ file.size)
    return (header, { rows, users, items, indexEnd, byteLength := file.size })
  else lift (.error Requirement.ratingSectionFits.failure)

theorem guardedFields_eq_lift (file : ByteArray) :
    guardedFields file = lift (FileHeader.readFields file.data.toList) := by
  rw [guardedFields, Requirement.check]
  by_cases hcomplete : FileHeader.byteLength ≤ file.size
  · have hmagic : FileHeader.magic.length ≤ file.size := Nat.le_trans (by decide) hcomplete
    rw [if_pos hcomplete, suffix_eq_pure hmagic]
    rfl
  · have hshort : ¬ FileHeader.byteLength ≤ file.data.toList.length := by
      rwa [length_data_toList]
    rw [if_neg hcomplete, FileHeader.readFields, Requirement.check, if_neg hshort]
    rfl

theorem guardedCheck_eq_lift (name : String) {n : Nat} (table : RunTable n) (verify : Bool) :
    guardedCheck name table verify = lift (checkTable name table verify) := by
  obtain ⟨once, honce, -⟩ := table.exists_listsEachOnce?_eq
  rw [guardedCheck]
  split
  · rw [honce]
    rfl
  · rfl

theorem toList_extract_add (file : ByteArray) (start length : Nat) :
    (file.extract (start + length) file.size).data.toList =
      (file.extract start file.size).data.toList.drop length := by
  rw [data_toList_extract, data_toList_extract, List.drop_take, List.drop_drop, Nat.sub_sub]

/-- No operation of the guarded reading faults. -/
theorem guardedParse_eq_lift {file : ByteArray} (hfile : file.size < UInt64.size)
    (verify : Bool) : guardedParse file verify = lift (parse file verify) := by
  rw [guardedParse, parse, FileHeader.parse, guardedFields_eq_lift]
  simp only [bind_assoc]
  apply lift_bind
  rintro ⟨header, stated⟩ hread
  have hlt := FileHeader.sectionLength_lt (FileHeader.readFields_eq_ok hread).1
  have hword : (0x8000000000000000 : Nat) + 28 < UInt64.size := by decide
  have hsection : word (header.ratingCount * header.layout.rowWidth) =
      pure header.sectionLength :=
    word_eq_pure (Nat.lt_trans hlt (by decide))
  have hoffset : word (FileHeader.byteLength + header.sectionLength) =
      pure header.indexOffset := by
    apply word_eq_pure
    rw [FileHeader.byteLength]
    omega
  dsimp only
  rw [hsection, pure_bind]
  apply lift_bind
  intro _ _
  rw [hoffset, pure_bind]
  change dite _ _ _ = lift (dite _ _ _)
  split
  · rename_i fits
    have hindex : (file.extract header.indexOffset file.size).data.toList.length =
        file.size - header.indexOffset := by
      rw [length_data_toList, ByteArray.size_extract, Nat.min_self]
    rw [suffix_eq_pure fits, pure_bind]
    apply RunTable.guardedParse_bind (by omega)
    intro users afterUsers husers
    rcases RunTable.parse_eq_ok husers with ⟨-, husers⟩
    rw [husers, List.length_append] at hindex
    have hlength : (file.extract header.indexOffset file.size).data.toList.length -
        afterUsers.length = users.image.bytes.length := by
      rw [husers, List.length_append, Nat.add_sub_cancel_right]
    have hrest : (file.extract (header.indexOffset + users.image.bytes.length)
        file.size).data.toList = afterUsers := by
      rw [toList_extract_add, husers, List.drop_left]
    have hitemOffset : header.indexOffset + users.image.bytes.length ≤ file.size := by omega
    dsimp only
    rw [hlength, word_eq_pure (by omega), pure_bind, suffix_eq_pure hitemOffset, pure_bind, hrest]
    apply RunTable.guardedParse_bind (by omega)
    intro items afterItems hitems
    dsimp only
    rw [word_eq_pure (by omega), pure_bind, guardedCheck_eq_lift, guardedCheck_eq_lift]
    apply lift_bind
    intro _ _
    apply lift_bind
    intro _ _
    apply lift_bind
    intro _ _
    rw [ensure_eq_pure fits]
    rfl
  · rfl

end RatingFile

end PackedRatings
