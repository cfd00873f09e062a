import PackedRatings.File.RowLayout

/-!
# The header of a rating file

A file starts with 28 bytes: a magic word, the flag word of the layout, the numbers of
ratings, users and items, and the length of the rating rows in bytes, which must agree with
the layout and the number of ratings.
-/
namespace PackedRatings

structure FileHeader where
  layout : RowLayout
  ratingCount : Nat
  userCount : Nat
  itemCount : Nat
  deriving DecidableEq

namespace FileHeader

def byteLength : Nat := 28

/-- The greatest count that a field of four bytes can hold. -/
def maxCount : Nat := 0x7fffffff

def magic : List UInt8 := [0x4c, 0x4b, 0x52, 0x41, 0x54, 0x45]

/-- The header of a file without ratings. -/
def ofLayout (layout : RowLayout) : FileHeader where
  layout
  ratingCount := 0
  userCount := 0
  itemCount := 0

def sectionLength (h : FileHeader) : Nat :=
  h.ratingCount * h.layout.rowWidth

/-- Where the index tables start. -/
def indexOffset (h : FileHeader) : Nat :=
  byteLength + h.sectionLength

/-- Reads the fields of a header: what it declares, and the length of the rating rows that it
states. -/
def readFields (bytes : List UInt8) : Except Failure (FileHeader × Int) := do
  Requirement.headerComplete.check (byteLength ≤ bytes.length)
  Requirement.magicMatches.check (bytes.take 6 = magic)
  let layout ← RowLayout.ofWord (UInt16.ofNat (BigEndian.decode ((bytes.drop 6).take 2)))
  let ratingCount := BigEndian.decodeInt32 ((bytes.drop 8).take 4)
  let userCount := BigEndian.decodeInt32 ((bytes.drop 12).take 4)
  let itemCount := BigEndian.decodeInt32 ((bytes.drop 16).take 4)
  let sectionLength := (BigEndian.decodeInt64 ((bytes.drop 20).take 8)).toInt
  Requirement.ratingCountNonnegative.check (0 ≤ ratingCount)
  Requirement.userCountNonnegative.check (0 ≤ userCount)
  Requirement.itemCountNonnegative.check (0 ≤ itemCount)
  return (⟨layout, ratingCount.toNat, userCount.toNat, itemCount.toNat⟩, sectionLength)

def parse (bytes : List UInt8) : Except Failure FileHeader := do
  let (header, stated) ← readFields bytes
  Requirement.sectionLengthMatches.check (stated = header.sectionLength)
  return header

def encodeCount (name : String) (count : Nat) : Except Failure (List UInt8) :=
  if count ≤ maxCount then .ok (BigEndian.encode 4 count)
  else .error (.invalidArgument name "count exceeds i32::MAX")

def encode (h : FileHeader) : Except Failure (List UInt8) := do
  let ratingCount ← encodeCount "rating_count" h.ratingCount
  let userCount ← encodeCount "user_count" h.userCount
  let itemCount ← encodeCount "item_count" h.itemCount
  return magic ++ BigEndian.encode 2 h.layout.word.toNat ++ ratingCount ++ userCount ++
    itemCount ++ BigEndian.encode 8 h.sectionLength

end FileHeader

end PackedRatings
