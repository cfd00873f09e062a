import PackedRatings.Keys.Search

/-!
# Cutting a window of keys

A window is cut by position or by key. The cut keeps the backing array, and its keys are a
slice of those of the window.
-/
namespace PackedRatings.KeyWindow

/-- The window of the positions from `lower` to `upper` of this one. -/
def slice (w : KeyWindow) (lower upper : Nat) (ordered : lower ≤ upper)
    (bound : upper ≤ w.length) : KeyWindow where
  backing := w.backing
  lower := w.lower + lower
  upper := w.lower + upper
  ascending := w.ascending
  lower_le_upper := by omega
  upper_le_size := by
    have := w.lower_add_length
    have := w.upper_le_size
    omega

@[simp] theorem length_slice (w : KeyWindow) {lower upper : Nat} (ordered : lower ≤ upper)
    (bound : upper ≤ w.length) : (w.slice lower upper ordered bound).length = upper - lower := by
  simp only [slice, length]
  omega

theorem toList_slice (w : KeyWindow) {lower upper : Nat} (ordered : lower ≤ upper)
    (bound : upper ≤ w.length) :
    (w.slice lower upper ordered bound).toList = (w.toList.take upper).drop lower := by
  refine List.ext_getElem (by simp [Nat.min_eq_left bound]) fun i h _ => ?_
  simp [keyAt, slice, Nat.add_assoc]

def sub (w : KeyWindow) (lower upper : Nat) : Except Failure KeyWindow :=
  if ordered : lower ≤ upper then
    if bound : upper ≤ w.length then .ok (w.slice lower upper ordered bound)
    else .error Requirement.upperWithinLength.failure
  else .error Requirement.lowerWithinUpper.failure

/-- The keys from `start` up to but not including `stop`, none if `stop` comes first. -/
def range (w : KeyWindow) (start stop : Int64) : KeyWindow :=
  w.slice (w.countBelow start) (max (w.countBelow stop) (w.countBelow start))
    (Nat.le_max_right ..) (Nat.max_le.2 ⟨w.countBelow_le stop, w.countBelow_le start⟩)

def head (w : KeyWindow) (stop : Int64) : KeyWindow :=
  w.slice 0 (w.countBelow stop) (Nat.zero_le _) (w.countBelow_le stop)

def tail (w : KeyWindow) (start : Int64) : KeyWindow :=
  w.slice (w.countBelow start) w.length (w.countBelow_le start) (Nat.le_refl _)

/-- The same keys with nothing else behind them. -/
def compact (w : KeyWindow) : KeyWindow :=
  whole w.toList w.toList_pairwise

@[simp] theorem length_compact (w : KeyWindow) : w.compact.length = w.length := by
  simp [compact, whole, length_toList, length]

@[simp] theorem size_backing_compact (w : KeyWindow) :
    w.compact.backing.size = w.length := by
  simp [compact, whole]

end PackedRatings.KeyWindow
