import Mathlib.Data.List.Sort
import PackedRatings.Keys.Cut

/-!
# Cuts by key are filters

The two counts of a window split its positions at a key, so they are numbers of keys, and a cut
by key shows those keys of the window that lie inside of its bounds.
-/
namespace PackedRatings.KeyWindow

variable {w v : KeyWindow}

/-- A predicate that holds of the first `n` elements and of no others holds of `n` elements. -/
theorem countP_eq_of_getElem {α : Type u} {l : List α} {p : α → Bool} {n : Nat}
    (hn : n ≤ l.length) (h : ∀ i (hi : i < l.length), p l[i] = true ↔ i < n) :
    l.countP p = n := by
  have hbefore : (l.take n).countP p = (l.take n).length := by
    rw [List.countP_eq_length]
    intro a ha
    obtain ⟨i, hi, rfl⟩ := List.mem_take_iff_getElem.1 ha
    exact (h i (by omega)).2 (by omega)
  have hbehind : (l.drop n).countP p = 0 := by
    rw [List.countP_eq_zero]
    intro a ha hp
    obtain ⟨i, hi, rfl⟩ := List.mem_drop_iff_getElem.1 ha
    have hlt := (h (n + i) (by omega)).1 hp
    omega
  rw [← List.take_append_drop n l, List.countP_append, hbefore, hbehind, List.length_take_of_le hn]
  rfl

theorem countBelow_eq_countP (w : KeyWindow) (key : Int64) :
    w.countBelow key = w.toList.countP fun k => decide (k < key) := by
  symm
  apply countP_eq_of_getElem
  · rw [length_toList]
    exact w.countBelow_le key
  · intro i hi
    rw [decide_eq_true_eq, getElem_toList]
    exact w.lt_countBelow_iff.symm

theorem countUpTo_eq_countP (w : KeyWindow) (key : Int64) :
    w.countUpTo key = w.toList.countP fun k => decide (k ≤ key) := by
  symm
  apply countP_eq_of_getElem
  · rw [length_toList]
    exact w.countUpTo_le key
  · intro i hi
    rw [decide_eq_true_eq, getElem_toList]
    exact w.lt_countUpTo_iff.symm

section Slice

variable {lower upper : Nat} (ordered : lower ≤ upper) (bound : upper ≤ w.length)

def within (j : Fin (w.slice lower upper ordered bound).length) : Fin w.length where
  val := lower + j
  isLt := by
    have hj := Nat.lt_of_lt_of_eq j.isLt (w.length_slice ordered bound)
    omega

theorem keyAt_slice (j : Fin (w.slice lower upper ordered bound).length) :
    (w.slice lower upper ordered bound).keyAt j = w.keyAt (within ordered bound j) := by
  simp [keyAt, slice, within, Nat.add_assoc]

theorem exists_within_eq_iff {i : Fin w.length} :
    (∃ j, within ordered bound j = i) ↔ lower ≤ i ∧ i < upper := by
  have hlength := w.length_slice ordered bound
  constructor
  · rintro ⟨j, rfl⟩
    have hj := Nat.lt_of_lt_of_eq j.isLt hlength
    dsimp only [within]
    omega
  · rintro ⟨hlower, hupper⟩
    exact ⟨⟨i - lower, by omega⟩, Fin.ext (Nat.add_sub_cancel' hlower)⟩

end Slice

def Encloses (w : KeyWindow) (lower upper : Nat) (p : Int64 → Bool) : Prop :=
  ∀ i : Fin w.length, p (w.keyAt i) = true ↔ lower ≤ i ∧ i < upper

theorem encloses_range (w : KeyWindow) (start stop : Int64) :
    w.Encloses (w.countBelow start) (max (w.countBelow stop) (w.countBelow start))
      fun key => start ≤ key ∧ key < stop := by
  intro i
  have hstart : i < w.countBelow start ↔ w.keyAt i < start := w.lt_countBelow_iff
  have hstop : i < w.countBelow stop ↔ w.keyAt i < stop := w.lt_countBelow_iff
  rw [decide_eq_true_eq, ← hstop, ← Int64.not_lt, ← hstart]
  omega

theorem encloses_head (w : KeyWindow) (stop : Int64) :
    w.Encloses 0 (w.countBelow stop) fun key => key < stop := by
  intro i
  rw [decide_eq_true_eq, ← w.lt_countBelow_iff]
  omega

theorem encloses_tail (w : KeyWindow) (start : Int64) :
    w.Encloses (w.countBelow start) w.length fun key => start ≤ key := by
  intro i
  rw [decide_eq_true_eq, ← Int64.not_lt, ← w.lt_countBelow_iff]
  omega

/-- The positions in a cut with bounds that enclose the keys with `p` are those of these keys. -/
theorem map_within_finRange {lower upper : Nat} {p : Int64 → Bool} (h : w.Encloses lower upper p)
    (ordered : lower ≤ upper) (bound : upper ≤ w.length) :
    (List.finRange (w.slice lower upper ordered bound).length).map (within ordered bound) =
      (List.finRange w.length).filter fun i => p (w.keyAt i) := by
  have hascending : ((List.finRange (w.slice lower upper ordered bound).length).map
      (within ordered bound)).Pairwise (· < ·) :=
    (List.pairwise_lt_finRange _).map _ fun _ _ hlt => Nat.add_lt_add_left hlt lower
  apply hascending.eq_of_mem_iff ((List.pairwise_lt_finRange _).filter _)
  intro i
  rw [List.mem_map, List.mem_filter, and_iff_right (List.mem_finRange i), h i,
    ← exists_within_eq_iff ordered bound]
  simp only [List.mem_finRange, true_and]

theorem toList_slice_of_encloses {lower upper : Nat} {p : Int64 → Bool}
    (h : w.Encloses lower upper p) (ordered : lower ≤ upper) (bound : upper ≤ w.length) :
    (w.slice lower upper ordered bound).toList = w.toList.filter p := by
  have hkeys : (w.slice lower upper ordered bound).keyAt = w.keyAt ∘ within ordered bound :=
    funext (keyAt_slice ordered bound)
  rw [toList_eq_map, toList_eq_map, hkeys, ← List.map_map, map_within_finRange h, List.filter_map]
  rfl

theorem toList_range (w : KeyWindow) (start stop : Int64) :
    (w.range start stop).toList = w.toList.filter fun key => start ≤ key ∧ key < stop :=
  toList_slice_of_encloses (w.encloses_range start stop) _ _

theorem toList_head (w : KeyWindow) (stop : Int64) :
    (w.head stop).toList = w.toList.filter fun key => key < stop :=
  toList_slice_of_encloses (w.encloses_head stop) _ _

theorem toList_tail (w : KeyWindow) (start : Int64) :
    (w.tail start).toList = w.toList.filter fun key => start ≤ key :=
  toList_slice_of_encloses (w.encloses_tail start) _ _

theorem toList_of_sub {lower upper : Nat} (h : w.sub lower upper = .ok v) :
    v.toList = (w.toList.take upper).drop lower := by
  rw [sub] at h
  split at h
  · split at h
    · cases h
      exact w.toList_slice _ _
    · cases h
  · cases h

theorem toList_compact (w : KeyWindow) : w.compact.toList = w.toList :=
  toList_whole _ _

end PackedRatings.KeyWindow
