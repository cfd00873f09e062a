import Std.Data.TreeMap
import PackedRatings.File.FileHeader
import PackedRatings.File.RunTable

/-!
# Packing ratings into a file

A `Packing` takes ratings one by one. It leaves room for a header, writes the rows as they come
and notes under each user and each item the positions of their rows. Finishing puts the two
index tables behind the rows and the header over the room left for it. After a row that was left
unfinished a packing takes no more ratings and does not finish.
-/
namespace PackedRatings

/-- The row positions of each key, in the order in which they came. -/
abbrev RowsByKey := Std.TreeMap Int64 (Array Nat)

namespace RowsByKey

def note (rows : RowsByKey) (key : Int64) (row : Nat) : RowsByKey :=
  rows.alter key fun run => some ((run.getD #[]).push row)

def runs (rows : RowsByKey) : List (Int64 × List Nat) :=
  rows.toList.map fun (key, run) => (key, run.toList)

end RowsByKey

/-- A finished file with the header that stands at its start. -/
structure PackedFile where
  path : String
  header : FileHeader
  bytes : ByteArray

structure Packing where
  path : String
  layout : RowLayout
  /-- The file so far, with a blank header. -/
  file : ByteArray
  users : RowsByKey
  items : RowsByKey
  count : Nat
  /-- Whether a row of the file was left unfinished. -/
  failed : Bool

namespace Packing

def start (path : String) (layout : RowLayout) : Packing where
  path
  layout
  file := (List.replicate FileHeader.byteLength 0).toByteArray
  users := ∅
  items := ∅
  count := 0
  failed := false

def checkIntact (p : Packing) (call : String) : Except Failure Unit :=
  if p.failed then .error (.invalidOperation s!"{call} after a failed write") else .ok ()

def checkRating (p : Packing) (rating : Rating) : Except Failure Unit := do
  p.checkIntact "add"
  Requirement.timestampGiven.check (rating.timestamp.isSome ∨ ¬ p.layout.timestamps)
  Requirement.roomForRating.check (p.count < FileHeader.maxCount)

/-- Takes one more rating. A row that cannot be written to its end stays in the file, which is then
out of step with the tables. -/
def add (p : Packing) (rating : Rating) : Packing × Option Failure :=
  match p.checkRating rating with
  | .error failure => (p, some failure)
  | .ok () =>
    let written := p.layout.write rating
    let p := { p with file := p.file ++ written.bytes.toByteArray }
    match written.failure with
    | some failure => ({ p with failed := true }, some failure)
    | none =>
      ({ p with
          users := p.users.note rating.user p.count
          items := p.items.note rating.item p.count
          count := p.count + 1 }, none)

/-- Takes ratings up to the first one that is refused. -/
def addAll (p : Packing) : List Rating → Packing × Option Failure
  | [] => (p, none)
  | rating :: ratings =>
    match p.add rating with
    | (p, none) => p.addAll ratings
    | (p, some failure) => (p, some failure)

def header (p : Packing) : FileHeader where
  layout := p.layout
  ratingCount := p.count
  userCount := p.users.size
  itemCount := p.items.size

def overwriteStart (file : ByteArray) (bytes : List UInt8) : ByteArray :=
  bytes.toByteArray ++ file.extract bytes.length file.size

/-- What is in the file when both tables and the first `k` bytes of the header are written. -/
def finishUpTo (p : Packing) (k : Nat) : Except Failure ByteArray := do
  p.checkIntact "finish"
  let users ← RunTable.encodeRuns p.users.runs
  let items ← RunTable.encodeRuns p.items.runs
  let header ← p.header.encode
  return overwriteStart (p.file ++ (users ++ items).toByteArray) (header.take k)

def finish (p : Packing) : Except Failure PackedFile := do
  let bytes ← p.finishUpTo FileHeader.byteLength
  return ⟨p.path, p.header, bytes⟩

end Packing

end PackedRatings
