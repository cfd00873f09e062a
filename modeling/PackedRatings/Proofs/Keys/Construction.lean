import PackedRatings.Keys.KeyWindow
import PackedRatings.Proofs.Keys.StableSort

/-!
# Windows of given keys

A window is made of keys that ascend, and it then shows exactly these keys. Keys in any order
make a window exactly if none of them repeats: sorting distinct keys gives the one ascending
list that has them. If repetitions are dropped, then the window is determined by the set of keys.
-/
namespace PackedRatings

/-- Distinct keys that are sorted ascend. -/
theorem pairwise_lt_of_sorted {keys : List Int64} (hsorted : keys.Pairwise (· ≤ ·))
    (hnodup : keys.Nodup) : keys.Pairwise (· < ·) :=
  (hsorted.and hnodup).imp fun h => Int64.lt_of_le_of_ne h.1 h.2

theorem map_sortOn_pairwise {α : Type u} {key : α → Int64} {l : List α}
    (h : (l.map key).Nodup) : ((sortOn key l).map key).Pairwise (· < ·) := by
  have hdistinct : ((sortOn key l).map key).Nodup := ((sortOn_perm key l).map key).nodup_iff.2 h
  exact pairwise_lt_of_sorted (List.pairwise_map.2 (sortOn_pairwise key l)) hdistinct

/-- Ascending lists with the same elements are equal. -/
theorem eq_of_perm_of_ascending {α : Type u} {key : α → Int64} {l l' : List α} (h : l.Perm l')
    (hl : l.Pairwise fun a b => key a < key b) (hl' : l'.Pairwise fun a b => key a < key b) :
    l = l' := by
  apply h.eq_of_pairwise _ hl hl'
  intro a b _ _ hab hba
  exact (Int64.lt_irrefl (Int64.lt_trans hab hba)).elim

theorem eq_of_mem_iff_of_ascending {α : Type u} {key : α → Int64} {l l' : List α}
    (hl : l.Pairwise fun a b => key a < key b) (hl' : l'.Pairwise fun a b => key a < key b)
    (h : ∀ a, a ∈ l ↔ a ∈ l') : l = l' := by
  have hnodup : ∀ {l : List α}, (l.Pairwise fun a b => key a < key b) → l.Nodup := by
    intro l hl
    apply hl.imp
    rintro a b hlt rfl
    exact Int64.lt_irrefl hlt
  exact eq_of_perm_of_ascending ((List.perm_ext_iff_of_nodup (hnodup hl) (hnodup hl')).2 h) hl hl'

namespace KeyWindow

variable {keys : List Int64} {w : KeyWindow}

theorem ofAscending_eq_ok_iff :
    ofAscending keys = .ok w ↔ ∃ h : keys.Pairwise (· < ·), w = whole keys h := by
  rw [ofAscending]
  split
  · rename_i hnone
    simp [firstDefect_eq_none_iff.1 hnone, eq_comm]
  · rename_i hdefect
    simp [← firstDefect_eq_none_iff, hdefect]
  · rename_i hdefect
    simp [← firstDefect_eq_none_iff, hdefect]

theorem ofAscending_eq_ok (h : keys.Pairwise (· < ·)) : ofAscending keys = .ok (whole keys h) :=
  ofAscending_eq_ok_iff.2 ⟨h, rfl⟩

theorem ofAscending_of_repeated {key : Int64} (h : firstDefect keys = some (.repeated key)) :
    ofAscending keys = .error (.duplicateKey key) := by
  rw [ofAscending]
  split
  · rename_i hnone
    cases h.symm.trans hnone
  · rename_i hrepeated
    cases h.symm.trans hrepeated
    rfl
  · rename_i hdescending
    cases h.symm.trans hdescending

theorem ofAscending_of_descending (h : firstDefect keys = some .descending) :
    ofAscending keys = .error Requirement.keysAscend.failure := by
  rw [ofAscending]
  split
  · rename_i hnone
    cases h.symm.trans hnone
  · rename_i hrepeated
    cases h.symm.trans hrepeated
  · rfl

/-- A window of distinct keys shows exactly these keys. -/
theorem perm_of_ofUnique (h : ofUnique keys = .ok w) : w.toList.Perm keys := by
  obtain ⟨hascending, rfl⟩ := ofAscending_eq_ok_iff.1 h
  rw [toList_whole]
  exact sortOn_perm id keys

theorem exists_ofUnique_eq_ok_iff : (∃ w, ofUnique keys = .ok w) ↔ keys.Nodup := by
  constructor
  · rintro ⟨w, h⟩
    exact (perm_of_ofUnique h).nodup (w.toList_pairwise.imp Int64.ne_of_lt)
  · intro hnodup
    have hascending : ((sortOn id keys).map id).Pairwise (· < ·) :=
      map_sortOn_pairwise (by rwa [List.map_id])
    rw [List.map_id] at hascending
    exact ⟨whole (sortOn id keys) hascending, ofAscending_eq_ok hascending⟩

theorem mem_toList_ofRepeating {key : Int64} : key ∈ (ofRepeating keys).toList ↔ key ∈ keys := by
  rw [ofRepeating, toList_whole, mem_firstOfRuns_id_iff]

theorem ofRepeating_congr {keys' : List Int64} (h : ∀ key, key ∈ keys ↔ key ∈ keys') :
    ofRepeating keys = ofRepeating keys' := by
  have hkeys : firstOfRuns id (sortOn id keys) = firstOfRuns id (sortOn id keys') := by
    apply eq_of_mem_iff_of_ascending (firstOfRuns_pairwise (sortOn_pairwise id keys))
      (firstOfRuns_pairwise (sortOn_pairwise id keys'))
    intro key
    rw [mem_firstOfRuns_id_iff, mem_firstOfRuns_id_iff, h]
  simp only [ofRepeating, hkeys]

/-- Ascending keys are not changed by sorting them and dropping repetitions. -/
theorem ofRepeating_eq_whole (h : keys.Pairwise (· < ·)) : ofRepeating keys = whole keys h := by
  have hkeys : firstOfRuns id (sortOn id keys) = keys := by
    apply eq_of_mem_iff_of_ascending (firstOfRuns_pairwise (sortOn_pairwise id keys)) h
    intro key
    exact mem_firstOfRuns_id_iff
  simp only [ofRepeating, hkeys]

end KeyWindow

end PackedRatings
