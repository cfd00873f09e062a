import PackedRatings.Number.Decimal
import PackedRatings.Vector.DraftVector
import PackedRatings.File.Packing
import PackedRatings.Store.Cursor

/-!
# Listings

One-line texts of values for logs: sets and maps in braces, lists in brackets, records by
name with their fields.
-/
namespace PackedRatings.Listing

/-- Numbers are written out from a ten-thousandth up to sixteen digits before the point. -/
def numberStyle : Decimal.Style where
  leastPositional := -4
  greatestPositional := 15
  notANumber := "NaN"
  infinity := "inf"

def number (x : Binary64) : String :=
  numberStyle.text x

def key (k : Int64) : String :=
  toString k.toInt

def braces (items : List String) : String :=
  "\x7b" ++ String.intercalate ", " items ++ "\x7d"

def brackets (items : List String) : String :=
  "[" ++ String.intercalate ", " items ++ "]"

def mapping (entries : List (String × String)) : String :=
  braces (entries.map fun (name, value) => name ++ ": " ++ value)

def record (name : String) (fields : List (String × String)) : String :=
  let items := fields.map fun (field, value) => field ++ ": " ++ value
  name ++ " \x7b " ++ String.intercalate ", " items ++ " \x7d"

/-- A text in quotes, with a backslash before quotes and backslashes. -/
def quoted (s : String) : String :=
  let escaped := s.toList.flatMap fun c => if c == '"' || c == '\\' then ['\\', c] else [c]
  "\"" ++ String.ofList escaped ++ "\""

def optional (text : Option String) : String :=
  match text with
  | none => "None"
  | some text => "Some(" ++ text ++ ")"

def bool (b : Bool) : String :=
  if b then "true" else "false"

def keys (w : KeyWindow) : String :=
  braces (w.toList.map key)

def entries (pairs : List (Int64 × Binary64)) : String :=
  mapping (pairs.map fun (k, x) => (key k, number x))

def rows (positions : List Nat) : String :=
  brackets (positions.map toString)

def table {n : Nat} (t : RunTable n) : String :=
  mapping (t.entries.map fun (k, run) => (key k, rows (run.map Fin.val)))

def rating (r : Rating) : String :=
  record "Rating" [("user", key r.user), ("item", key r.item), ("value", number r.value),
    ("timestamp", optional (r.timestamp.map key))]

def selection (s : Selection) : String :=
  brackets (s.ratings.map rating)

def cursor (c : RatingCursor) : String :=
  record "RatingStream" [("remaining", toString c.remaining)]

def layout (l : RowLayout) : String :=
  record "BinaryFormat" [("timestamps", bool l.timestamps)]

def packing (p : Packing) : String :=
  record "BinaryRatingPacker" [("path", quoted p.path), ("format", layout p.layout),
    ("count", toString p.count), ("failed", bool p.failed)]

end PackedRatings.Listing
