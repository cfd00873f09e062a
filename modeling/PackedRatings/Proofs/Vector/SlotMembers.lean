import Mathlib.Data.List.FinRange
import Mathlib.Data.List.Sort
import PackedRatings.Vector.SlotSet

/-!
# The members of a set of slots

The list of members is the list of all slots without those that are not in the set, and the
size kept beside the words is its length.
-/
namespace PackedRatings.SlotSet

variable {n : Nat}

theorem toList_eq_filter (s : SlotSet n) : s.toList = (List.finRange n).filter s.contains := by
  apply s.toList_pairwise.eq_of_mem_iff ((List.pairwise_lt_finRange n).filter _)
  intro i
  rw [mem_toList, List.mem_filter, and_iff_right (List.mem_finRange i)]

theorem size_eq_length_toList (s : SlotSet n) : s.size = s.toList.length := by
  have hcontains : s.contains = bitAt s.words ∘ Fin.val := funext s.contains_eq_bitAt
  rw [s.size_eq, ← List.map_coe_finRange_eq_range, List.countP_map,
    List.countP_eq_length_filter, toList_eq_filter, hcontains]

/-- A set that is as large as it can be has all slots. -/
theorem toList_of_size_eq {s : SlotSet n} (h : s.size = n) : s.toList = List.finRange n := by
  rw [toList_eq_filter, List.filter_eq_self, ← List.length_filter_eq_length_iff,
    ← toList_eq_filter, ← size_eq_length_toList, List.length_finRange]
  exact h

end PackedRatings.SlotSet
