import PackedRatings.File.BigEndian
import PackedRatings.Number.Binary64
import PackedRatings.Requirement

/-!
# Ratings and their rows

A rating is stored as one row of fixed width: user, item and value, and a timestamp if the
layout of the file has them. The layout is written in the file as a word of flags.
-/
namespace PackedRatings

/-- One user's rating of one item. -/
structure Rating where
  user : Int64
  item : Int64
  value : Binary64
  timestamp : Option Int64
  deriving DecidableEq

inductive LayoutFlag where
  /-- Every row ends with a timestamp. -/
  | timestamps
  deriving DecidableEq

namespace LayoutFlag

/-- Every flag that is known, in the order of listing. -/
def all : List LayoutFlag := [timestamps]

def bit : LayoutFlag → UInt16
  | timestamps => 1

def name : LayoutFlag → String
  | timestamps => "timestamps"

end LayoutFlag

/-- Bytes that were written, and the failure that cut the writing short, if one did. -/
structure Emission where
  bytes : List UInt8
  failure : Option Failure
  deriving DecidableEq

/-- What the rows of a file hold. -/
structure RowLayout where
  timestamps : Bool
  deriving DecidableEq

namespace RowLayout

def has (layout : RowLayout) : LayoutFlag → Bool
  | .timestamps => layout.timestamps

def activeFlags (layout : RowLayout) : List LayoutFlag :=
  LayoutFlag.all.filter layout.has

def wordOf (flags : List LayoutFlag) : UInt16 :=
  flags.foldl (fun word flag => word ||| flag.bit) 0

def word (layout : RowLayout) : UInt16 :=
  wordOf layout.activeFlags

def hexWord (word : UInt16) : String :=
  let digits := Nat.toDigits 16 word.toNat
  "0x" ++ String.ofList (List.replicate (4 - digits.length) '0' ++ digits)

/-- The layout of a flag word. A bit that belongs to no known flag is refused. -/
def ofWord (word : UInt16) : Except Failure RowLayout :=
  let unknown := word &&& ~~~ wordOf LayoutFlag.all
  if unknown = 0 then .ok ⟨word &&& LayoutFlag.timestamps.bit != 0⟩
  else .error (.invalidFormat "flags" s!"unknown format flags {hexWord unknown}")

def rowWidth (layout : RowLayout) : Nat :=
  if layout.timestamps then 32 else 24

def encodeTriple (rating : Rating) : List UInt8 :=
  BigEndian.encodeInt64 rating.user ++ BigEndian.encodeInt64 rating.item ++
    BigEndian.encode 8 rating.value.bits.toNat

/-- Writes one row. A timestamp is left out if the layout has none, and a missing one stops
the writing after the value if the layout needs it. -/
def write (layout : RowLayout) (rating : Rating) : Emission :=
  if layout.timestamps then
    match rating.timestamp with
    | some timestamp => ⟨encodeTriple rating ++ BigEndian.encodeInt64 timestamp, none⟩
    | none =>
      ⟨encodeTriple rating,
        some (.invalidArgument "rating" "timestamp required by the file format")⟩
  else ⟨encodeTriple rating, none⟩

def decode (layout : RowLayout) (bytes : List UInt8) : Rating where
  user := BigEndian.decodeInt64 (bytes.take 8)
  item := BigEndian.decodeInt64 ((bytes.drop 8).take 8)
  value := ⟨UInt64.ofNat (BigEndian.decode ((bytes.drop 16).take 8))⟩
  timestamp :=
    if layout.timestamps then some (BigEndian.decodeInt64 ((bytes.drop 24).take 8)) else none

def read (layout : RowLayout) (bytes : List UInt8) : Except Failure Rating := do
  Requirement.rowComplete.check (layout.rowWidth ≤ bytes.length)
  return layout.decode bytes

end RowLayout

end PackedRatings
