import PackedRatings.Number.Binary64

/-!
# Heaps of slots

A `SlotHeap` is a binary min-heap of slot numbers. What orders them, the rank of each slot,
lies outside the heap and is given with every operation that compares; it may change for a
slot that is not in the heap.
-/
namespace PackedRatings

def scoreRank (scores : Array Binary64) (slot : Nat) : Int :=
  (scores.getD slot 0).rank

/-- Moves the slot at `i` towards the root past every parent that ranks above it. -/
def siftUp (rank : Nat → Int) {n : Nat} (slots : Vector Nat n) (i : Nat) (hi : i < n) :
    Vector Nat n :=
  if h : i = 0 then slots
  else
    let parent := (i - 1) / 2
    if rank slots[i] < rank slots[parent] then
      siftUp rank (slots.swap i parent) parent (by omega)
    else slots
termination_by i
decreasing_by omega

/-- Moves the slot at `i` away from the root past its lower child while that ranks below it.
Of two children of equal rank the left one is the lower. -/
def siftDown (rank : Nat → Int) {n : Nat} (slots : Vector Nat n) (i : Nat) (hi : i < n) :
    Vector Nat n :=
  if left : 2 * i + 1 < n then
    if right : 2 * i + 2 < n then
      if rank slots[2 * i + 2] < rank slots[2 * i + 1] then
        if rank slots[2 * i + 2] < rank slots[i] then
          siftDown rank (slots.swap i (2 * i + 2)) (2 * i + 2) right
        else slots
      else if rank slots[2 * i + 1] < rank slots[i] then
        siftDown rank (slots.swap i (2 * i + 1)) (2 * i + 1) left
      else slots
    else if rank slots[2 * i + 1] < rank slots[i] then
      siftDown rank (slots.swap i (2 * i + 1)) (2 * i + 1) left
    else slots
  else slots
termination_by n - i

structure SlotHeap where
  slots : Array Nat
  deriving DecidableEq

namespace SlotHeap

def empty : SlotHeap := ⟨#[]⟩

def size (h : SlotHeap) : Nat :=
  h.slots.size

def peek? (h : SlotHeap) : Option Nat :=
  h.slots[0]?

def push (rank : Nat → Int) (h : SlotHeap) (slot : Nat) : SlotHeap :=
  let slots : Vector Nat (h.slots.size + 1) := ⟨h.slots.push slot, Array.size_push slot⟩
  ⟨(siftUp rank slots h.slots.size (Nat.lt_succ_self _)).toArray⟩

/-- Takes out the slot at the root. The last slot fills the gap and sinks to its place. -/
def pop? (rank : Nat → Int) (h : SlotHeap) : Option (Nat × SlotHeap) :=
  match h.slots.back? with
  | none => none
  | some last =>
    let rest := h.slots.pop
    if hr : 0 < rest.size then
      some (rest[0], ⟨(siftDown rank ⟨rest.set 0 last, Array.size_set hr⟩ 0 hr).toArray⟩)
    else some (last, ⟨rest⟩)

theorem size_pop? {rank : Nat → Int} {h rest : SlotHeap} {slot : Nat}
    (hp : h.pop? rank = some (slot, rest)) : rest.size + 1 = h.size := by
  unfold pop? at hp
  split at hp
  · cases hp
  · rename_i last hlast
    have hpos : 0 < h.slots.size := by
      rcases Nat.eq_zero_or_pos h.slots.size with h0 | hpos
      · simp [Array.back?, h0] at hlast
      · exact hpos
    dsimp only at hp
    split at hp <;> cases hp <;> simp [size] <;> omega

/-- At most `count` slots in the order in which they come out, and what stays in the heap. -/
def popMany (rank : Nat → Int) (h : SlotHeap) : Nat → List Nat × SlotHeap
  | 0 => ([], h)
  | count + 1 =>
    match h.pop? rank with
    | none => ([], h)
    | some (slot, rest) =>
      let (slots, left) := rest.popMany rank count
      (slot :: slots, left)

def drain (rank : Nat → Int) (h : SlotHeap) : List Nat :=
  match _hp : h.pop? rank with
  | none => []
  | some (slot, rest) => slot :: rest.drain rank
termination_by h.size
decreasing_by
  have := size_pop? _hp
  omega

end SlotHeap

end PackedRatings
