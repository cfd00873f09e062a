/-!
# Products of common keys

Two ways to list the products that make up a dot product of two lists of keyed numbers: by
walking both lists at once, or by looking each key of one up in the other. They are stated
over any numbers with a product and a zero.
-/
namespace PackedRatings

variable {α : Type u}

/-- A key that a walk over two lists comes to, with what each of them has under it. -/
structure Visit (α : Type u) where
  key : Int64
  left? : Option α
  right? : Option α

/-- The keys that two cursors come to, one in each list. The cursor with the lower key moves on,
and both do from a common key. -/
def mergeWalk : List (Int64 × α) → List (Int64 × α) → List (Visit α)
  | [], ys => ys.map fun (l, y) => ⟨l, none, some y⟩
  | xs, [] => xs.map fun (k, x) => ⟨k, some x, none⟩
  | (k, x) :: xs, (l, y) :: ys =>
    if k < l then ⟨k, some x, none⟩ :: mergeWalk xs ((l, y) :: ys)
    else if l < k then ⟨l, none, some y⟩ :: mergeWalk ((k, x) :: xs) ys
    else ⟨k, some x, some y⟩ :: mergeWalk xs ys
termination_by xs ys => xs.length + ys.length

def Visit.product? [Mul α] (v : Visit α) : Option α :=
  match v.left?, v.right? with
  | some x, some y => some (x * y)
  | _, _ => none

/-- One term for each key of either list, zero for a key that only one of them has. -/
def mergeProducts [Mul α] [Zero α] (xs ys : List (Int64 × α)) : List α :=
  (mergeWalk xs ys).map fun v => v.product?.getD 0

/-- Each entry gives one term, its value times what is found under its key, or times zero
if nothing is found. -/
def lookupProducts [Mul α] [Zero α] (value? : Int64 → Option α) (xs : List (Int64 × α)) : List α :=
  xs.map fun (key, x) => x * (value? key).getD 0

end PackedRatings
