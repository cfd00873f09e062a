import PackedRatings.Store.Selection

/-!
# Reading one after the other

A `RatingCursor` reads ratings one after the other, and `UserGroups` reads the selections of
one user after the other. Both hold what is still to come and the rows that they read from,
so reading with one of them changes no other.
-/
namespace PackedRatings

/-- A pass over rows, some of which are still to come. -/
structure RatingCursor where
  source : RowSection
  upcoming : List (Fin source.count)

namespace RatingCursor

def remaining (c : RatingCursor) : Nat :=
  c.upcoming.length

def next? (c : RatingCursor) : Option (Rating × RatingCursor) :=
  match c.upcoming with
  | [] => none
  | row :: rows => some (c.source.row row, { c with upcoming := rows })

def rest (c : RatingCursor) : List Rating :=
  c.upcoming.map c.source.row

def exhausted (c : RatingCursor) : RatingCursor :=
  { c with upcoming := [] }

end RatingCursor

/-- A pass over the users of a file, each with the rows of the user. -/
structure UserGroups where
  source : RowSection
  upcoming : List (Int64 × List (Fin source.count))

namespace UserGroups

def remaining (g : UserGroups) : Nat :=
  g.upcoming.length

def next? (g : UserGroups) : Option ((Int64 × Selection) × UserGroups) :=
  match g.upcoming with
  | [] => none
  | (user, rows) :: groups => some ((user, ⟨g.source, rows⟩), { g with upcoming := groups })

def rest (g : UserGroups) : List (Int64 × Selection) :=
  g.upcoming.map fun (user, rows) => (user, ⟨g.source, rows⟩)

end UserGroups

end PackedRatings
