import PackedRatings.Vector.KeyedVector
import PackedRatings.Vector.SlotSet

/-!
# Draft vectors

A `DraftVector` is a map under construction over a fixed domain of keys. Each key of the
domain has a slot that is assigned, with a value, or not; only assigned slots are entries.
Freezing makes the draft final and gives a `KeyedVector` of its entries.

A call that writes returns its result, or a refusal, and beside it the draft as the call leaves it.
-/
namespace PackedRatings

structure DraftVector where
  domain : KeyWindow
  slots : Vector Binary64 domain.length
  assigned : SlotSet domain.length
  fallback : Binary64
  frozen : Bool
  /-- The domain has a backing array of its own. -/
  compact : domain.backing.size = domain.length

namespace DraftVector

def ofDomain (domain : KeyWindow) : DraftVector where
  domain := domain.compact
  slots := Vector.replicate _ 0
  assigned := .empty _
  fallback := 0
  frozen := false
  compact := by simp

def ofKeys (keys : List Int64) : Except Failure DraftVector := do
  return ofDomain (← KeyWindow.ofUnique keys)

/-- A draft whose domain and entries are those of `v`. -/
def ofVector (v : KeyedVector) : DraftVector where
  domain := v.keys.compact
  slots := Vector.ofFn fun i => v.valueAt (i.cast v.keys.length_compact)
  assigned := .full _
  fallback := v.fallback
  frozen := false
  compact := by simp

def withFallback (d : DraftVector) (fallback : Binary64) : DraftVector :=
  { d with fallback }

def length (d : DraftVector) : Nat :=
  d.assigned.size

def slotValue? (d : DraftVector) (i : Fin d.domain.length) : Option Binary64 :=
  if d.assigned.contains i then some d.slots[i] else none

def value? (d : DraftVector) (key : Int64) : Option Binary64 :=
  match d.domain.position? key with
  | some i => d.slotValue? i
  | none => none

def value (d : DraftVector) (key : Int64) : Binary64 :=
  (d.value? key).getD d.fallback

def contains (d : DraftVector) (key : Int64) : Bool :=
  (d.value? key).isSome

def entries (d : DraftVector) : List (Int64 × Binary64) :=
  d.assigned.toList.map fun i => (d.domain.keyAt i, d.slots[i])

theorem value?_eq_some_iff {d : DraftVector} {key : Int64} {x : Binary64} :
    d.value? key = some x ↔ (key, x) ∈ d.entries := by
  simp only [value?, slotValue?, entries, List.mem_map, SlotSet.mem_toList, Prod.mk.injEq]
  constructor
  · intro h
    split at h
    · rename_i i hi
      split at h
      · rename_i hset
        cases h
        exact ⟨i, hset, KeyWindow.position?_eq_some_iff.1 hi, rfl⟩
      · cases h
    · cases h
  · rintro ⟨i, hset, hkey, rfl⟩
    simp [KeyWindow.position?_eq_some_iff.2 hkey, hset]

def keys (d : DraftVector) : List Int64 :=
  d.entries.map Prod.fst

theorem keys_pairwise (d : DraftVector) : d.keys.Pairwise (· < ·) := by
  simp only [keys, entries, List.map_map, List.pairwise_map]
  exact d.assigned.toList_pairwise.imp fun h => d.domain.keyAt_lt_keyAt h

instance : ValueMap DraftVector where
  entries := entries
  value? := value?
  count := length
  keySorted := true

/-- The entries as a vector of their own. If every slot is assigned, they are the domain and the
slots as they stand. -/
def snapshot (d : DraftVector) : KeyedVector :=
  if d.length = d.domain.length then
    { keys := d.domain
      cells := d.slots.cast d.compact.symm
      fallback := d.fallback }
  else
    { keys := .whole d.keys d.keys_pairwise
      cells := ⟨(d.entries.map Prod.snd).toArray, by simp [KeyWindow.whole, keys]⟩
      fallback := d.fallback }

/-- Two drafts are equal if they have the same entries. Domains, slots that are not assigned,
fallbacks and freezing do not matter. -/
instance : BEq DraftVector where
  beq d e := d.length == e.length && sameEntries d.entries e.entries

def agreesWith (d : DraftVector) (v : KeyedVector) : Bool :=
  d.length == v.length && sameEntries d.entries v.entries

def sum (d : DraftVector) : Binary64 :=
  ValueMap.sum d

def sumOfSquares (d : DraftVector) : Binary64 :=
  ValueMap.sumOfSquares d

def norm (d : DraftVector) : Binary64 :=
  ValueMap.norm d

def mean (d : DraftVector) : Binary64 :=
  ValueMap.mean d

def checkOpen (d : DraftVector) : Except Failure Unit :=
  if d.frozen then .error .frozen else .ok ()

/-- The slot of `key` for writing. A frozen draft refuses before the key is looked at. -/
def slotOf (d : DraftVector) (key : Int64) : Except Failure (Fin d.domain.length) := do
  d.checkOpen
  match d.domain.position? key with
  | some i => .ok i
  | none => .error (.keyNotInDomain key)

def assign (d : DraftVector) (i : Fin d.domain.length) (x : Binary64) : DraftVector :=
  { d with slots := d.slots.set i x, assigned := d.assigned.insert i }

def overwrite (d : DraftVector) (i : Fin d.domain.length) (x : Binary64) : DraftVector :=
  { d with slots := d.slots.set i x }

/-- Gives `key` a value and returns the previous one. -/
def set (d : DraftVector) (key : Int64) (x : Binary64) :
    Except Failure (Option Binary64) × DraftVector :=
  match d.slotOf key with
  | .error failure => (.error failure, d)
  | .ok i => (.ok (d.slotValue? i), d.assign i x)

/-- Adds to the value of an assigned key and returns the previous value. -/
def add (d : DraftVector) (key : Int64) (x : Binary64) :
    Except Failure Binary64 × DraftVector :=
  match d.slotOf key with
  | .error failure => (.error failure, d)
  | .ok i =>
    if d.assigned.contains i then (.ok d.slots[i], d.overwrite i (d.slots[i] + x))
    else (.error (.keyUnset key), d)

/-- Takes the value of `key` away and returns it. -/
def unset (d : DraftVector) (key : Int64) : Except Failure (Option Binary64) × DraftVector :=
  match d.slotOf key with
  | .error failure => (.error failure, d)
  | .ok i => (.ok (d.slotValue? i), { d with assigned := d.assigned.erase i })

def clear (d : DraftVector) : Except Failure Unit × DraftVector :=
  match d.checkOpen with
  | .error failure => (.error failure, d)
  | .ok () => (.ok (), { d with assigned := d.assigned.clear })

def fill (d : DraftVector) (x : Binary64) : Except Failure Unit × DraftVector :=
  match d.checkOpen with
  | .error failure => (.error failure, d)
  | .ok () => (.ok (), { d with slots := Vector.replicate _ x, assigned := d.assigned.fill })

def scale (d : DraftVector) (factor : Binary64) : Except Failure Unit × DraftVector :=
  match d.checkOpen with
  | .error failure => (.error failure, d)
  | .ok () => (.ok (), { d with
      slots := Vector.ofFn fun i =>
        if d.assigned.contains i then d.slots[i] * factor else d.slots[i] })

def assignKey (d : DraftVector) (key : Int64) (x : Binary64) : DraftVector :=
  match d.domain.position? key with
  | some i => d.assign i x
  | none => d

def addKey (d : DraftVector) (key : Int64) (x : Binary64) : DraftVector :=
  match d.domain.position? key with
  | some i => if d.assigned.contains i then d.overwrite i (d.slots[i] + x) else d
  | none => d

/-- Takes over every entry of `m` whose key is in the domain, in order. -/
def setAll {μ : Type u} [ValueMap μ] (d : DraftVector) (m : μ) :
    Except Failure Unit × DraftVector :=
  match d.checkOpen with
  | .error failure => (.error failure, d)
  | .ok () => (.ok (), (ValueMap.entries m).foldl (fun d (key, x) => d.assignKey key x) d)

/-- Adds every entry of `m` whose key is assigned, in order. -/
def addAll {μ : Type u} [ValueMap μ] (d : DraftVector) (m : μ) :
    Except Failure Unit × DraftVector :=
  match d.checkOpen with
  | .error failure => (.error failure, d)
  | .ok () => (.ok (), (ValueMap.entries m).foldl (fun d (key, x) => d.addKey key x) d)

/-- Makes the draft final and returns its entries as a vector. -/
def freeze (d : DraftVector) : Except Failure KeyedVector × DraftVector :=
  match d.checkOpen with
  | .error failure => (.error failure, d)
  | .ok () =>
    let d := { d with frozen := true }
    (.ok d.snapshot, d)

end DraftVector

def KeyedVector.agreesWith (v : KeyedVector) (d : DraftVector) : Bool :=
  d.agreesWith v

end PackedRatings
