import PackedRatings.File.FileHeader
import PackedRatings.File.FlatRuns
import PackedRatings.Keys.Search
import PackedRatings.Vector.SlotSet

/-!
# Tables of row runs

An index table lists ascending keys and gives each a run of row positions. In a file all
keys come first, then for each key the length of its run and the rows of the run. All
positions of a `RunTable n` are below `n`, and its runs are stored back to back.
-/
namespace PackedRatings

structure RunTable (rowCount : Nat) where
  keys : KeyWindow
  runs : FlatRuns rowCount keys.length

namespace RunTable

variable {rowCount : Nat}

/-- Cuts a field off, or says which element the bytes were too short for. -/
def readField (element : String) (width : Nat) (bytes : List UInt8) :
    Except Failure (List UInt8 × List UInt8) :=
  match BigEndian.split? width bytes with
  | some result => .ok result
  | none => .error (.invalidFormat element "failed to fill whole buffer")

/-- Reads keys, each of which must be above the one before it. -/
def readKeys (previous : Option Int64) : Nat → List UInt8 →
    Except Failure (List Int64 × List UInt8)
  | 0, bytes => .ok ([], bytes)
  | count + 1, bytes => do
    let (field, bytes) ← readField "index_keys" 8 bytes
    let key := BigEndian.decodeInt64 field
    Requirement.tableKeysAscend.check (previous.all (· < key))
    let (keys, bytes) ← readKeys (some key) count bytes
    return (key :: keys, bytes)

/-- Reads row positions, which must be below the number of rows. -/
def readRows (rowCount : Nat) : Nat → List UInt8 →
    Except Failure (List (Fin rowCount) × List UInt8)
  | 0, bytes => .ok ([], bytes)
  | count + 1, bytes => do
    let (field, bytes) ← readField "index_row" 4 bytes
    let row := BigEndian.decodeInt32 field
    if h : 0 ≤ row ∧ row.toNat < rowCount then
      let (rows, bytes) ← readRows rowCount count bytes
      return (⟨row.toNat, h.2⟩ :: rows, bytes)
    else throw Requirement.rowInRange.failure

def readRun (rowCount : Nat) (bytes : List UInt8) :
    Except Failure (List (Fin rowCount) × List UInt8) := do
  let (field, bytes) ← readField "index_count" 4 bytes
  let count := BigEndian.decodeInt32 field
  Requirement.runLengthNonnegative.check (0 ≤ count)
  Requirement.runFits.check (count.toNat ≤ bytes.length / 4)
  readRows rowCount count.toNat bytes

def readRuns (rowCount : Nat) : (count : Nat) → List UInt8 →
    Except Failure (FlatRuns rowCount count × List UInt8)
  | 0, bytes => .ok (.empty, bytes)
  | count + 1, bytes => do
    let (runs, bytes) ← readRuns rowCount count bytes
    let (run, bytes) ← readRun rowCount bytes
    return (runs.push run, bytes)

/-- Reads a table of `keyCount` keys from the start of `bytes` and returns it with the bytes
behind it. Each key takes at least twelve bytes: its own eight and the length of its run. -/
def parse (keyCount : Nat) (bytes : List UInt8) (rowCount : Nat) :
    Except Failure (RunTable rowCount × List UInt8) := do
  Requirement.keyCountFits.check (keyCount ≤ bytes.length / 12)
  let (keys, bytes) ← readKeys none keyCount bytes
  let keys ← (KeyWindow.ofAscending keys).mapError fun failure =>
    .invalidFormat "index_keys" failure.message
  let (runs, bytes) ← readRuns rowCount keys.length bytes
  return (⟨keys, runs⟩, bytes)

def keyCount (t : RunTable rowCount) : Nat :=
  t.keys.length

def rowsOf? (t : RunTable rowCount) (key : Int64) : Option (List (Fin rowCount)) :=
  (t.keys.position? key).map t.runs.run

def entries (t : RunTable rowCount) : List (Int64 × List (Fin rowCount)) :=
  t.keys.toList.zip t.runs.toList

def allRows (t : RunTable rowCount) : List (Fin rowCount) :=
  t.runs.rows.toList

/-- Whether `rows` repeat none of their positions and none of `seen`. There is no answer if a
position from `n` on comes before any repetition. -/
def scanOnce {n : Nat} (seen : SlotSet n) : List Nat → Option Bool
  | [] => some true
  | row :: rows =>
    if h : row < n then
      if seen.contains ⟨row, h⟩ then some false else scanOnce (seen.insert ⟨row, h⟩) rows
    else none

/-- Whether the runs list every position below `n` exactly once. There is no answer if they
have `n` positions and one from `n` on comes before any repetition. -/
def listsEachOnce? (t : RunTable rowCount) (n : Nat) : Option Bool :=
  if t.allRows.length = n then scanOnce (.empty n) (t.allRows.map Fin.val) else some false

def encodeRun (rows : List Nat) : Except Failure (List UInt8) :=
  if rows.length ≤ FileHeader.maxCount then
    .ok (BigEndian.encode 4 rows.length ++ rows.flatMap (BigEndian.encode 4))
  else .error (.invalidArgument "rows" "run length exceeds i32::MAX")

/-- Writes the table of keys, which must ascend, and their runs. -/
def encodeRuns (entries : List (Int64 × List Nat)) : Except Failure (List UInt8) := do
  let runs ← entries.mapM fun (_, rows) => encodeRun rows
  return entries.flatMap (fun (key, _) => BigEndian.encodeInt64 key) ++ runs.flatten

end RunTable

end PackedRatings
