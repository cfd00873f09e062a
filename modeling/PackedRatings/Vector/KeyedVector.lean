import PackedRatings.Keys.Cut
import PackedRatings.Vector.ValueMap

/-!
# Keyed vectors

A `KeyedVector` is an immutable map from keys to numbers. Its values stand beside the
backing array of its key window, so a cut by key keeps both arrays. A key without a value
reads as the vector's fallback.
-/
namespace PackedRatings

structure KeyedVector where
  keys : KeyWindow
  cells : Vector Binary64 keys.backing.size
  fallback : Binary64

namespace KeyedVector

def empty : KeyedVector where
  keys := .empty
  cells := #v[]
  fallback := 0

def valueAt (v : KeyedVector) (i : Fin v.keys.length) : Binary64 :=
  have := v.keys.lower_add_lt_size i.isLt
  v.cells[v.keys.lower + i]

def values (v : KeyedVector) : List Binary64 :=
  (List.finRange v.keys.length).map v.valueAt

def entries (v : KeyedVector) : List (Int64 × Binary64) :=
  (List.finRange v.keys.length).map fun i => (v.keys.keyAt i, v.valueAt i)

theorem map_fst_entries (v : KeyedVector) : v.entries.map Prod.fst = v.keys.toList := by
  rw [KeyWindow.toList_eq_map, entries, List.map_map]
  rfl

theorem map_snd_entries (v : KeyedVector) : v.entries.map Prod.snd = v.values := by
  simp [entries, values, Function.comp_def]

def length (v : KeyedVector) : Nat :=
  v.keys.length

def value? (v : KeyedVector) (key : Int64) : Option Binary64 :=
  (v.keys.position? key).map v.valueAt

theorem value?_eq_some_iff {v : KeyedVector} {key : Int64} {x : Binary64} :
    v.value? key = some x ↔ (key, x) ∈ v.entries := by
  simp only [value?, Option.map_eq_some_iff, KeyWindow.position?_eq_some_iff, entries,
    List.mem_map, List.mem_finRange, true_and, Prod.mk.injEq]

def value (v : KeyedVector) (key : Int64) : Binary64 :=
  (v.value? key).getD v.fallback

def contains (v : KeyedVector) (key : Int64) : Bool :=
  v.keys.contains key

instance : ValueMap KeyedVector where
  entries := entries
  value? := value?
  count := length
  keySorted := true

/-- Pairs the keys of a window with as many values. -/
def wrap (keys : KeyWindow) (values : List Binary64) : Except Failure KeyedVector :=
  if h : values.length = keys.length then
    .ok {
      keys := keys.compact
      cells := ⟨values.toArray, by simp [h]⟩
      fallback := 0 }
  else .error Requirement.oneValuePerKey.failure

/-- Sorts pairs that must have distinct keys. -/
def ofPairs (pairs : List (Int64 × Binary64)) : Except Failure KeyedVector := do
  let sorted := sortOn Prod.fst pairs
  let keys ← KeyWindow.ofAscending (sorted.map Prod.fst)
  wrap keys (sorted.map Prod.snd)

/-- Pairs keys in any order with as many values. -/
def ofUnsorted (keys : List Int64) (values : List Binary64) : Except Failure KeyedVector := do
  Requirement.oneValuePerKey.check (values.length = keys.length)
  ofPairs (keys.zip values)

def ofMap {μ : Type u} [ValueMap μ] (m : μ) : Except Failure KeyedVector :=
  ofPairs (ValueMap.entries m)

def withFallback (v : KeyedVector) (fallback : Binary64) : KeyedVector :=
  { v with fallback }

def range (v : KeyedVector) (start stop : Int64) : KeyedVector where
  keys := v.keys.range start stop
  cells := v.cells
  fallback := v.fallback

def head (v : KeyedVector) (stop : Int64) : KeyedVector where
  keys := v.keys.head stop
  cells := v.cells
  fallback := v.fallback

def tail (v : KeyedVector) (start : Int64) : KeyedVector where
  keys := v.keys.tail start
  cells := v.cells
  fallback := v.fallback

def sum (v : KeyedVector) : Binary64 :=
  Binary64.sum v.values

def sumOfSquares (v : KeyedVector) : Binary64 :=
  Binary64.sum (v.values.map fun x => x * x)

def norm (v : KeyedVector) : Binary64 :=
  v.sumOfSquares.sqrt

def mean (v : KeyedVector) : Binary64 :=
  ValueMap.mean v

/-- Two vectors are equal if they have the same keys with numerically equal values. Backing
arrays and fallbacks do not matter. -/
instance : BEq KeyedVector where
  beq v w := v.keys == w.keys && v.values.isEqv w.values Binary64.numEq

end KeyedVector

end PackedRatings
