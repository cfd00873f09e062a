import PackedRatings.Proofs.Keys.Construction
import PackedRatings.Proofs.Keys.Cuts

/-!
# Ranks of keys

A window that is made of some keys and cut again and again shows a list of keys that the cuts
determine, whatever else stands in its backing array. Its positions number these keys in
ascending order, so looking a key up and reading a position undo each other, and the two counts
of a key enclose its position.
-/
namespace PackedRatings.KeyWindow

variable {w : KeyWindow} {keys : List Int64} {key : Int64}

/-- A window is made of keys and cut, and the keys that it should show then. -/
inductive Reaches : List Int64 → KeyWindow → Prop where
  | empty : Reaches [] .empty
  | ofUnique {keys : List Int64} {w : KeyWindow} (h : ofUnique keys = .ok w) :
    Reaches (sortOn id keys) w
  | ofRepeating (keys : List Int64) : Reaches (firstOfRuns id (sortOn id keys)) (ofRepeating keys)
  | ofAscending {keys : List Int64} {w : KeyWindow} (h : ofAscending keys = .ok w) :
    Reaches keys w
  | sub {keys : List Int64} {w v : KeyWindow} {lower upper : Nat} (hreach : Reaches keys w)
    (h : w.sub lower upper = .ok v) : Reaches ((keys.take upper).drop lower) v
  | range {keys : List Int64} {w : KeyWindow} (hreach : Reaches keys w) (start stop : Int64) :
    Reaches (keys.filter fun key => start ≤ key ∧ key < stop) (w.range start stop)
  | head {keys : List Int64} {w : KeyWindow} (hreach : Reaches keys w) (stop : Int64) :
    Reaches (keys.filter fun key => key < stop) (w.head stop)
  | tail {keys : List Int64} {w : KeyWindow} (hreach : Reaches keys w) (start : Int64) :
    Reaches (keys.filter fun key => start ≤ key) (w.tail start)
  | compact {keys : List Int64} {w : KeyWindow} (hreach : Reaches keys w) :
    Reaches keys w.compact

theorem Reaches.toList_eq (hreach : Reaches keys w) : w.toList = keys := by
  induction hreach with
  | empty => exact toList_whole [] _
  | ofUnique h =>
    obtain ⟨hascending, rfl⟩ := ofAscending_eq_ok_iff.1 h
    exact toList_whole _ hascending
  | ofRepeating keys => exact toList_whole _ _
  | ofAscending h =>
    obtain ⟨hascending, rfl⟩ := ofAscending_eq_ok_iff.1 h
    exact toList_whole _ hascending
  | sub hreach h ih => rw [toList_of_sub h, ih]
  | range hreach start stop ih => rw [toList_range, ih]
  | head hreach stop ih => rw [toList_head, ih]
  | tail hreach start ih => rw [toList_tail, ih]
  | compact hreach ih => rw [toList_compact, ih]

theorem index?_eq_some_iff {i : Nat} :
    w.index? key = some i ↔ ∃ h : i < w.length, w.keyAt ⟨i, h⟩ = key := by
  rw [index?, Option.map_eq_some_iff]
  constructor
  · rintro ⟨j, hj, rfl⟩
    exact ⟨j.isLt, position?_eq_some_iff.1 hj⟩
  · rintro ⟨h, hkey⟩
    exact ⟨⟨i, h⟩, position?_eq_some_iff.2 hkey, rfl⟩

theorem index?_eq_none_iff : w.index? key = none ↔ key ∉ w.toList := by
  rw [index?, Option.map_eq_none_iff, position?_eq_none_iff]

theorem countBelow_keyAt (w : KeyWindow) (i : Fin w.length) : w.countBelow (w.keyAt i) = i := by
  have hle : ¬ i < w.countBelow (w.keyAt i) := by
    rw [lt_countBelow_iff]
    exact Int64.lt_irrefl
  have hge : ¬ w.countBelow (w.keyAt i) < i := by
    intro hlt
    let j : Fin w.length := ⟨w.countBelow (w.keyAt i), Nat.lt_trans hlt i.isLt⟩
    have hkey : w.keyAt j < w.keyAt i := w.keyAt_lt_keyAt (Fin.lt_def.2 hlt)
    exact Nat.lt_irrefl _ (w.lt_countBelow_iff.2 hkey)
  omega

theorem countUpTo_keyAt (w : KeyWindow) (i : Fin w.length) :
    w.countUpTo (w.keyAt i) = i + 1 := by
  apply Nat.le_antisymm
  · by_contra hlt
    have hlt : i + 1 < w.countUpTo (w.keyAt i) := Nat.lt_of_not_le hlt
    have hle := w.countUpTo_le (w.keyAt i)
    let j : Fin w.length := ⟨i + 1, Nat.lt_of_lt_of_le hlt hle⟩
    have hkey : w.keyAt j ≤ w.keyAt i := w.lt_countUpTo_iff.1 hlt
    have habove : w.keyAt i < w.keyAt j := w.keyAt_lt_keyAt (Fin.lt_def.2 (Nat.lt_succ_self _))
    exact Int64.lt_irrefl (Int64.lt_of_lt_of_le habove hkey)
  · exact w.lt_countUpTo_iff.2 (Int64.le_refl _)

/-- A key has a position exactly if it is counted by one of its counts only. -/
theorem index?_eq_some_iff_count {i : Nat} :
    w.index? key = some i ↔ w.countBelow key = i ∧ i < w.countUpTo key := by
  rw [index?_eq_some_iff]
  constructor
  · rintro ⟨h, rfl⟩
    rw [countBelow_keyAt, countUpTo_keyAt]
    exact ⟨rfl, Nat.lt_succ_self i⟩
  · rintro ⟨rfl, hlt⟩
    have hlength : w.countBelow key < w.length := Nat.lt_of_lt_of_le hlt (w.countUpTo_le key)
    let j : Fin w.length := ⟨w.countBelow key, hlength⟩
    have hle : w.keyAt j ≤ key := w.lt_countUpTo_iff.1 hlt
    have hge : ¬ w.keyAt j < key := fun hkey =>
      Nat.lt_irrefl _ (w.lt_countBelow_iff.2 hkey)
    exact ⟨hlength, Int64.le_antisymm hle (Int64.not_lt.1 hge)⟩

/-- The window lies inside of its backing array and numbers `keys` in ascending order. -/
structure Numbers (w : KeyWindow) (keys : List Int64) : Prop where
  lower_le_upper : w.lower ≤ w.upper
  upper_le_size : w.upper ≤ w.backing.size
  backing : (w.backing.toList.take w.upper).drop w.lower = keys
  ascending : keys.Pairwise (· < ·)
  length : w.length = keys.length
  get_lt : ∀ i (h : i < keys.length), w.get i = .ok keys[i] ∧ w.index? keys[i] = some i
  get_eq_error_iff : ∀ i failure, w.get i = .error failure ↔
    w.length ≤ i ∧ failure = .indexOutOfBounds i w.length
  get_of_index? : ∀ key i, w.index? key = some i → w.get i = .ok key
  index?_eq_none_iff : ∀ key, w.index? key = none ↔ key ∉ keys
  countBelow : ∀ key, w.countBelow key = keys.countP fun k => k < key
  countUpTo : ∀ key, w.countUpTo key = keys.countP fun k => k ≤ key
  index?_eq_some_iff : ∀ key i,
    w.index? key = some i ↔ w.countBelow key = i ∧ i < w.countUpTo key
  countUpTo_of_index? : ∀ key i, w.index? key = some i → w.countUpTo key = i + 1

theorem get_eq_error_iff {i : Nat} {failure : Failure} :
    w.get i = .error failure ↔ w.length ≤ i ∧ failure = .indexOutOfBounds i w.length := by
  rw [get]
  split
  · rename_i h
    simp [h]
  · rename_i h
    simp [Nat.le_of_not_lt h, eq_comm]

theorem numbers_toList (w : KeyWindow) : w.Numbers w.toList where
  lower_le_upper := w.lower_le_upper
  upper_le_size := w.upper_le_size
  backing := by
    rw [toList, Array.toList_extract, List.extract_eq_take_drop, List.drop_take]
  ascending := w.toList_pairwise
  length := w.length_toList.symm
  get_lt := by
    intro i h
    have hi : i < w.length := w.length_toList ▸ h
    rw [getElem_toList]
    exact ⟨dif_pos hi, KeyWindow.index?_eq_some_iff.2 ⟨hi, rfl⟩⟩
  get_eq_error_iff := fun _ _ => KeyWindow.get_eq_error_iff
  get_of_index? := by
    intro key i h
    obtain ⟨hi, rfl⟩ := KeyWindow.index?_eq_some_iff.1 h
    exact dif_pos hi
  index?_eq_none_iff := fun _ => KeyWindow.index?_eq_none_iff
  countBelow := w.countBelow_eq_countP
  countUpTo := w.countUpTo_eq_countP
  index?_eq_some_iff := fun _ _ => index?_eq_some_iff_count
  countUpTo_of_index? := by
    intro key i h
    obtain ⟨hi, rfl⟩ := KeyWindow.index?_eq_some_iff.1 h
    exact w.countUpTo_keyAt ⟨i, hi⟩

/-- Every window numbers the keys that it should show. -/
theorem reaches_numbers (hreach : Reaches keys w) : w.Numbers keys := by
  rw [← hreach.toList_eq]
  exact w.numbers_toList

/-- The keys from 15 on and below 40 of four keys, with keys before and behind them. -/
theorem reaches_numbers_two_of_four :
    ∃ w, Reaches [20, 30] w ∧ w.lower = 1 ∧ w.backing = #[10, 20, 30, 40] ∧
      w.Numbers [20, 30] := by
  have hascending : [(10 : Int64), 20, 30, 40].Pairwise (· < ·) := by decide
  let all := whole [10, 20, 30, 40] hascending
  have hall : Reaches [10, 20, 30, 40] all := .ofAscending (ofAscending_eq_ok hascending)
  have hreach : Reaches [20, 30] (all.range 15 40) := hall.range 15 40
  have hlower : all.countBelow 15 = 1 := all.countBelow_eq_countP 15
  exact ⟨all.range 15 40, hreach, (Nat.zero_add _).trans hlower, rfl, reaches_numbers hreach⟩

end PackedRatings.KeyWindow
