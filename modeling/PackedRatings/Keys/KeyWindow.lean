import PackedRatings.Keys.Ascending
import PackedRatings.Requirement

/-!
# Windows of ascending keys

A `KeyWindow` is a sorted set of keys seen as the positions `lower` to `upper` of a strictly
ascending backing array. Positions of keys are always relative to the window.
-/
namespace PackedRatings

structure KeyWindow where
  backing : Array Int64
  lower : Nat
  upper : Nat
  ascending : backing.toList.Pairwise (· < ·)
  lower_le_upper : lower ≤ upper
  upper_le_size : upper ≤ backing.size

namespace KeyWindow

def whole (keys : List Int64) (ascending : keys.Pairwise (· < ·)) : KeyWindow where
  backing := keys.toArray
  lower := 0
  upper := keys.length
  ascending := ascending
  lower_le_upper := Nat.zero_le _
  upper_le_size := by simp

def empty : KeyWindow :=
  whole [] List.Pairwise.nil

instance : Inhabited KeyWindow := ⟨empty⟩

/-- Wraps keys that are already ascending. The first two neighbours that do not ascend decide
the failure. -/
def ofAscending (keys : List Int64) : Except Failure KeyWindow :=
  match h : firstDefect keys with
  | none => .ok (whole keys (firstDefect_eq_none_iff.1 h))
  | some (.repeated key) => .error (.duplicateKey key)
  | some .descending => .error Requirement.keysAscend.failure

/-- Sorts keys none of which may repeat. -/
def ofUnique (keys : List Int64) : Except Failure KeyWindow :=
  ofAscending (sortOn id keys)

/-- Sorts keys that may repeat and keeps one of each. -/
def ofRepeating (keys : List Int64) : KeyWindow :=
  whole (firstOfRuns id (sortOn id keys)) (firstOfRuns_pairwise (sortOn_pairwise id keys))

def length (w : KeyWindow) : Nat :=
  w.upper - w.lower

theorem lower_add_length (w : KeyWindow) : w.lower + w.length = w.upper := by
  have := w.lower_le_upper
  simp only [length]
  omega

theorem lower_add_lt_size (w : KeyWindow) {i : Nat} (h : i < w.length) :
    w.lower + i < w.backing.size := by
  have := w.lower_add_length
  have := w.upper_le_size
  omega

def keyAt (w : KeyWindow) (i : Fin w.length) : Int64 :=
  have := w.lower_add_lt_size i.isLt
  w.backing[w.lower + i]

def toList (w : KeyWindow) : List Int64 :=
  (w.backing.extract w.lower w.upper).toList

@[simp] theorem length_toList (w : KeyWindow) : w.toList.length = w.length := by
  have := w.upper_le_size
  simp only [toList, Array.length_toList, Array.size_extract, length]
  omega

@[simp] theorem getElem_toList (w : KeyWindow) {i : Nat} (h : i < w.toList.length) :
    w.toList[i] = w.keyAt ⟨i, by simpa using h⟩ := by
  simp [toList, keyAt]

theorem toList_eq_map (w : KeyWindow) : w.toList = (List.finRange w.length).map w.keyAt := by
  apply List.ext_getElem
  · simp
  · simp

theorem toList_pairwise (w : KeyWindow) : w.toList.Pairwise (· < ·) := by
  rw [toList, Array.toList_extract, List.extract_eq_take_drop]
  exact (w.ascending.drop).take

theorem keyAt_lt_keyAt (w : KeyWindow) {i j : Fin w.length} (h : i < j) :
    w.keyAt i < w.keyAt j := by
  have := List.pairwise_iff_getElem.1 w.toList_pairwise i j (by simp) (by simp) h
  simpa using this

theorem keyAt_le_keyAt (w : KeyWindow) {i j : Fin w.length} (h : i ≤ j) :
    w.keyAt i ≤ w.keyAt j := by
  rcases Nat.lt_or_eq_of_le (Fin.le_def.1 h) with h | h
  · exact Int64.le_of_lt (w.keyAt_lt_keyAt (Fin.lt_def.2 h))
  · rw [Fin.ext h]
    exact Int64.le_refl _

theorem keyAt_injective (w : KeyWindow) {i j : Fin w.length} (h : w.keyAt i = w.keyAt j) :
    i = j := by
  rcases Nat.lt_trichotomy i j with hlt | heq | hgt
  · exact (Int64.lt_irrefl (h ▸ w.keyAt_lt_keyAt hlt)).elim
  · exact Fin.ext heq
  · exact (Int64.lt_irrefl (h ▸ w.keyAt_lt_keyAt hgt)).elim

theorem mem_toList {w : KeyWindow} {key : Int64} : key ∈ w.toList ↔ ∃ i, w.keyAt i = key := by
  rw [List.mem_iff_getElem]
  constructor
  · rintro ⟨i, hi, rfl⟩
    exact ⟨⟨i, by simpa using hi⟩, by simp⟩
  · rintro ⟨i, rfl⟩
    exact ⟨i, by simp, by simp⟩

@[simp] theorem toList_whole (keys : List Int64) (ascending : keys.Pairwise (· < ·)) :
    (whole keys ascending).toList = keys := by
  simp [toList, whole]

/-- Two windows are equal if they show the same keys, whatever backs them. -/
instance : BEq KeyWindow := ⟨fun v w => v.toList == w.toList⟩

def get (w : KeyWindow) (i : Nat) : Except Failure Int64 :=
  if h : i < w.length then .ok (w.keyAt ⟨i, h⟩) else .error (.indexOutOfBounds i w.length)

def first? (w : KeyWindow) : Option Int64 :=
  w.toList.head?

def last? (w : KeyWindow) : Option Int64 :=
  w.toList.getLast?

end KeyWindow

end PackedRatings
