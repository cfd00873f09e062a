import Std.Data.TreeMap
import PackedRatings.Vector.KeyedVector
import PackedRatings.File.RowSection

/-!
# Selected ratings

A `Selection` is a list of row positions of a file, seen as a list of ratings. It keeps the
rows that it reads from. Of several ratings with one key the latest counts.
-/
namespace PackedRatings

structure Selection where
  source : RowSection
  rows : List (Fin source.count)

namespace Selection

def length (s : Selection) : Nat :=
  s.rows.length

def ratings (s : Selection) : List Rating :=
  s.rows.map s.source.row

def emptied (s : Selection) : Selection where
  source := s.source
  rows := []

def get (s : Selection) (i : Nat) : Except Failure Rating :=
  if h : i < s.rows.length then .ok (s.source.row s.rows[i])
  else .error (.indexOutOfBounds i s.rows.length)

/-- The rating that stands for its key after `r` has been seen: of two, the one with the
later timestamp, and the one seen last if neither is later. -/
def laterOf (r : Rating) : Option Rating → Option Rating
  | none => some r
  | some kept => if RowSection.notAfter kept.timestamp r.timestamp then some r else some kept

def latest (key : Rating → Int64) (ratings : List Rating) : Std.TreeMap Int64 Rating :=
  ratings.foldl (fun kept r => kept.alter (key r) (laterOf r)) ∅

def latestValues (key : Rating → Int64) (ratings : List Rating) : Except Failure KeyedVector :=
  KeyedVector.ofPairs ((latest key ratings).toList.map fun (k, r) => (k, r.value))

def latestByItem (s : Selection) : Except Failure KeyedVector :=
  latestValues Rating.item s.ratings

def latestByUser (s : Selection) : Except Failure KeyedVector :=
  latestValues Rating.user s.ratings

end Selection

end PackedRatings
