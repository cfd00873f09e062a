import PackedRatings.Ranking.Scored

/-!
# Collecting all scores

A `FullCollector` keeps everything that is put into it and ranks it when it is finished.
-/
namespace PackedRatings

structure FullCollector where
  entries : Array Scored
  /-- Nothing has been put since the last finish. -/
  finished : Bool

namespace FullCollector

def empty : FullCollector where
  entries := #[]
  finished := false

def size (c : FullCollector) : Nat :=
  c.entries.size

def offer (c : FullCollector) (entry : Scored) : FullCollector where
  entries := c.entries.push entry
  finished := false

/-- All entries from the highest score down, entries of equal rank in the order in which
they were put. The collector starts anew. -/
def finish (c : FullCollector) : Except Failure (List Scored) × FullCollector :=
  if c.finished then (.error (.invalidOperation "finish"), c)
  else (.ok (Scored.sortDescending c.entries.toList), { entries := #[], finished := true })

def finishVector (c : FullCollector) : Except Failure KeyedVector × FullCollector :=
  let (ranked, c) := c.finish
  (ranked >>= Scored.toVector, c)

def finishKeys (c : FullCollector) : Except Failure KeyWindow × FullCollector :=
  let (ranked, c) := c.finish
  (ranked.map Scored.toKeys, c)

end FullCollector

end PackedRatings
