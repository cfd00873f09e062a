import Std.Data.TreeMap
import Std.Data.HashMap
import PackedRatings.Number.Arithmetic
import PackedRatings.Vector.Products

/-!
# Maps of values

A `ValueMap` gives read access to finitely many values under 64-bit keys, whatever holds
them. Sums, means and dot products are defined for all of them; a key that is missing from
a map counts as zero.
-/
namespace PackedRatings

class ValueMap (μ : Type u) where
  entries : μ → List (Int64 × Binary64)
  value? : μ → Int64 → Option Binary64
  count : μ → Nat
  /-- Whether `entries` ascend by key. -/
  keySorted : Bool

namespace ValueMap

variable {μ : Type u} {ν : Type v} [ValueMap μ] [ValueMap ν]

def sum (m : μ) : Binary64 :=
  Binary64.sum ((entries m).map fun (_, x) => x)

def sumOfSquares (m : μ) : Binary64 :=
  Binary64.sum ((entries m).map fun (_, x) => x * x)

def norm (m : μ) : Binary64 :=
  (sumOfSquares m).sqrt

/-- The sum divided by the number of entries, not a number if there are none. -/
def mean (m : μ) : Binary64 :=
  if count m = 0 then Binary64.nan else sum m / Binary64.ofNat (count m)

/-- The terms of the dot product: both maps are walked at once if both ascend by key, else
the entries of the first are looked up in the second. -/
def products (m : μ) (m₂ : ν) : List Binary64 :=
  if keySorted μ && keySorted ν then mergeProducts (entries m) (entries m₂)
  else lookupProducts (value? m₂) (entries m)

def dotProduct (m : μ) (m₂ : ν) : Binary64 :=
  Binary64.sum (products m m₂)

end ValueMap

instance : ValueMap (Std.TreeMap Int64 Binary64) where
  entries m := m.toList
  value? m key := m[key]?
  count m := m.size
  keySorted := true

instance : ValueMap (Std.HashMap Int64 Binary64) where
  entries m := m.toList
  value? m key := m[key]?
  count m := m.size
  keySorted := false

/-- A list of pairs in its own order. The first pair of a key gives its value, and repeated
keys count as entries of their own. -/
instance : ValueMap (List (Int64 × Binary64)) where
  entries pairs := pairs
  value? pairs key := pairs.lookup key
  count pairs := pairs.length
  keySorted := false

/-- Whether two lists of entries have the same keys and numerically equal values, place by
place. -/
def sameEntries (xs ys : List (Int64 × Binary64)) : Bool :=
  xs.isEqv ys fun x y => x.1 == y.1 && x.2.numEq y.2

end PackedRatings
