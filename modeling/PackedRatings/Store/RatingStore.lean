import PackedRatings.File.RunTable
import PackedRatings.Store.Cursor
import PackedRatings.Store.EventNames

/-!
# Rating stores

A store is loaded from the bytes of a rating file. Loading checks the header and both index
tables, so that no later question can meet a bad row. A closed store remembers its header
and refuses everything else; what was taken from it before stays readable.
-/
namespace PackedRatings

/-- The parts of a rating file that questions are answered from. -/
structure RatingFile where
  rows : RowSection
  users : RunTable rows.count
  items : RunTable rows.count
  /-- Where the index tables end. -/
  indexEnd : Nat
  byteLength : Nat

namespace RatingFile

/-- Checks that an index table has as many rows as the file and, if `verifyRows` is set, that
it lists every row exactly once. -/
def checkTable (name : String) {n : Nat} (table : RunTable n) (verifyRows : Bool) :
    Except Failure Unit :=
  let listed := table.allRows.length
  if listed ≠ n then
    .error (.invalidFormat name s!"table addresses {listed} rows, header declares {n}")
  else if verifyRows ∧ table.listsEachOnce? n ≠ some true then
    .error (.invalidFormat name "table does not list every row exactly once")
  else .ok ()

/-- Reads a file. Bytes behind the tables are left alone. -/
def parse (file : ByteArray) (verifyRows : Bool) : Except Failure (FileHeader × RatingFile) := do
  let header ← FileHeader.parse file.data.toList
  if fits : header.indexOffset ≤ file.size then
    let rows := RowSection.ofFile header file fits
    let index := (file.extract header.indexOffset file.size).data.toList
    let (users, afterUsers) ← RunTable.parse header.userCount index rows.count
    let itemOffset := header.indexOffset + (index.length - afterUsers.length)
    let (items, afterItems) ← RunTable.parse header.itemCount afterUsers rows.count
    let indexEnd := itemOffset + (afterUsers.length - afterItems.length)
    Requirement.indexSectionFits.check (indexEnd ≤ file.size)
    checkTable "user_index" users verifyRows
    checkTable "item_index" items verifyRows
    return (header, { rows, users, items, indexEnd, byteLength := file.size })
  else throw Requirement.ratingSectionFits.failure

def select? (f : RatingFile) (table : RunTable f.rows.count) (key : Int64) : Option Selection :=
  (table.rowsOf? key).map fun rows => ⟨f.rows, rows⟩

end RatingFile

inductive RatingOrder where
  | stored
  | timestamp
  | user
  | item
  deriving DecidableEq

structure RatingStore where
  path : String
  header : FileHeader
  /-- Absent once the store is closed. -/
  file? : Option RatingFile

namespace RatingStore

def load (path : String) (contents : Option ByteArray) (verifyRows : Bool) :
    Except Failure RatingStore :=
  match contents with
  | none => .error (.fileNotFound path)
  | some bytes => do
    let (header, file) ← RatingFile.parse bytes verifyRows
    return ⟨path, header, some file⟩

def close (s : RatingStore) : RatingStore :=
  { s with file? := none }

def isClosed (s : RatingStore) : Bool :=
  s.file?.isNone

def file (s : RatingStore) : Except Failure RatingFile :=
  match s.file? with
  | some file => .ok file
  | none => .error .closed

def byteLength (s : RatingStore) : Except Failure Nat := do
  return (← s.file).byteLength

/-- Reads all ratings in some order. Without timestamps the order of time is that of the
file. -/
def cursor (s : RatingStore) (order : RatingOrder) : Except Failure RatingCursor := do
  let file ← s.file
  match order with
  | .stored => return ⟨file.rows, List.finRange file.rows.count⟩
  | .timestamp =>
    if s.header.layout.timestamps then return ⟨file.rows, file.rows.timeOrder⟩
    else return ⟨file.rows, List.finRange file.rows.count⟩
  | .user => return ⟨file.rows, file.users.allRows⟩
  | .item => return ⟨file.rows, file.items.allRows⟩

/-- Reads the ratings of one user after the other, in ascending order of users. -/
def userGroups (s : RatingStore) : Except Failure UserGroups := do
  let file ← s.file
  return ⟨file.rows, file.users.entries⟩

def ratingsByUser? (s : RatingStore) (user : Int64) : Except Failure (Option Selection) := do
  let file ← s.file
  return file.select? file.users user

def ratingsOfItem? (s : RatingStore) (item : Int64) : Except Failure (Option Selection) := do
  let file ← s.file
  return file.select? file.items item

/-- The part of a selection of ratings that is of the given kind. -/
def ofKind (kind : Interaction) (selection : Selection) : Selection :=
  match kind with
  | .rating => selection
  | .like | .likeBatch => selection.emptied

def eventsByUser? (s : RatingStore) (user : Int64) (kind : Interaction) :
    Except Failure (Option Selection) := do
  return (← s.ratingsByUser? user).map (ofKind kind)

def eventsOfItem? (s : RatingStore) (item : Int64) (kind : Interaction) :
    Except Failure (Option Selection) := do
  return (← s.ratingsOfItem? item).map (ofKind kind)

def usersOfItem? (s : RatingStore) (item : Int64) : Except Failure (Option KeyWindow) := do
  return (← s.ratingsOfItem? item).map fun selection =>
    KeyWindow.ofRepeating (selection.ratings.map Rating.user)

def itemsByUser? (s : RatingStore) (user : Int64) : Except Failure (Option KeyWindow) := do
  return (← s.ratingsByUser? user).map fun selection =>
    KeyWindow.ofRepeating (selection.ratings.map Rating.item)

def userIds (s : RatingStore) : Except Failure KeyWindow := do
  return (← s.file).users.keys

def itemIds (s : RatingStore) : Except Failure KeyWindow := do
  return (← s.file).items.keys

end RatingStore

end PackedRatings
