import PackedRatings.Vector.KeyedVector

/-!
# Scored keys

A key with its score, and what can be made of a list of them that is ranked from the
highest score down.
-/
namespace PackedRatings

structure Scored where
  key : Int64
  score : Binary64
  deriving DecidableEq, Inhabited

namespace Scored

/-- Each key with its highest score, the first of the key in `ranked`. -/
def toVector (ranked : List Scored) : Except Failure KeyedVector :=
  let pairs := ranked.map fun s => (s.key, s.score)
  KeyedVector.ofPairs (firstOfRuns Prod.fst (sortOn Prod.fst pairs))

def toKeys (ranked : List Scored) : KeyWindow :=
  .ofRepeating (ranked.map key)

/-- Sorts from the highest score down. Entries of equal rank keep their order. -/
def sortDescending (entries : List Scored) : List Scored :=
  entries.mergeSort fun s t => decide (t.score.rank ≤ s.score.rank)

end Scored

end PackedRatings
