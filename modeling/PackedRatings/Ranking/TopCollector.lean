import PackedRatings.Ranking.Scored
import PackedRatings.Ranking.SlotHeap

/-!
# Collecting the highest scores

A `TopCollector` keeps the entries with the highest scores of all that are put into it, at
most `capacity` of them. They stand in numbered slots, the scores in one array and the keys
in another, and a heap holds the numbers of the slots in use, the lowest score at its root. A
new entry goes into the spare slot; beyond capacity the slot that leaves the heap becomes the
next spare one.
-/
namespace PackedRatings

structure TopCollector where
  capacity : Nat
  /-- One score for each slot; those of unused slots are left over. -/
  scores : Array Binary64
  keys : Array Int64
  spare : Nat
  size : Nat
  heap : SlotHeap
  /-- Nothing has been put since the last finish. -/
  finished : Bool

namespace TopCollector

def ofCapacity (capacity : Nat) : TopCollector where
  capacity
  scores := Array.replicate (capacity + 1) 0
  keys := #[]
  spare := 0
  size := 0
  heap := .empty
  finished := false

/-- Writes a key into a slot in use or into the first one beyond. -/
def writeKey (keys : Array Int64) (slot : Nat) (key : Int64) : Array Int64 :=
  if slot = keys.size then keys.push key else keys.setIfInBounds slot key

/-- Puts an entry into the spare slot, which joins the heap. -/
def enqueue (c : TopCollector) (entry : Scored) : TopCollector :=
  let scores := c.scores.setIfInBounds c.spare entry.score
  { c with
    keys := writeKey c.keys c.spare entry.key
    scores
    heap := c.heap.push (scoreRank scores) c.spare
    finished := false }

def offer (c : TopCollector) (entry : Scored) : TopCollector :=
  let c := c.enqueue entry
  if c.size = c.capacity then
    match c.heap.pop? (scoreRank c.scores) with
    | some (evicted, rest) => { c with heap := rest, spare := evicted }
    | none => c
  else { c with spare := c.spare + 1, size := c.size + 1 }

def entryAt (c : TopCollector) (slot : Nat) : Scored where
  key := c.keys.getD slot 0
  score := c.scores.getD slot 0

/-- The kept entries from the highest score down. The places that the heap leaves empty come
first. The collector starts anew. -/
def finish (c : TopCollector) : Except Failure (List Scored) × TopCollector :=
  if c.finished then (.error (.invalidOperation "finish"), c)
  else
    let (slots, heap) := c.heap.popMany (scoreRank c.scores) c.size
    let missing := List.replicate (c.size - slots.length) { key := 0, score := 0 : Scored }
    (.ok (missing ++ (slots.map c.entryAt).reverse),
      { c with keys := #[], spare := 0, size := 0, heap, finished := true })

def finishVector (c : TopCollector) : Except Failure KeyedVector × TopCollector :=
  let (ranked, c) := c.finish
  (ranked >>= Scored.toVector, c)

def finishKeys (c : TopCollector) : Except Failure KeyWindow × TopCollector :=
  let (ranked, c) := c.finish
  (ranked.map Scored.toKeys, c)

end TopCollector

end PackedRatings
