import Mathlib.Data.List.Duplicate
import PackedRatings.Proofs.Keys.Construction

/-!
# Repeated keys

In sorted keys the equal ones are neighbours, so a scan of neighbours finds the least key that
is repeated, in whatever order the keys were before they were sorted. Sorted keys that pass the
scan ascend, and the window of them is not refused.
-/
namespace PackedRatings

variable {keys keys' : List Int64} {key : Int64}

/-- `key` is the least of the keys that occur more than once. -/
structure LeastRepeated (keys : List Int64) (key : Int64) : Prop where
  repeated : keys.Duplicate key
  le : ∀ k, keys.Duplicate k → key ≤ k

namespace LeastRepeated

theorem unique {key' : Int64} (h : LeastRepeated keys key) (h' : LeastRepeated keys key') :
    key = key' :=
  Int64.le_antisymm (h.le key' h'.repeated) (h'.le key h.repeated)

theorem congr (h : ∀ k, keys.Duplicate k ↔ keys'.Duplicate k) :
    LeastRepeated keys key ↔ LeastRepeated keys' key := by
  constructor
  · intro hleast
    exact ⟨(h key).1 hleast.repeated, fun k hk => hleast.le k ((h k).2 hk)⟩
  · intro hleast
    exact ⟨(h key).2 hleast.repeated, fun k hk => hleast.le k ((h k).1 hk)⟩

theorem perm_iff (h : keys.Perm keys') : LeastRepeated keys key ↔ LeastRepeated keys' key := by
  apply congr
  intro k
  rw [List.duplicate_iff_two_le_count, List.duplicate_iff_two_le_count, h.count_eq]

end LeastRepeated

def firstRepeat? : List Int64 → Option Int64
  | a :: b :: l => if a = b then some a else firstRepeat? (b :: l)
  | _ => none

theorem eq_nil_or_singleton (h : ∀ a b l, keys = a :: b :: l → False) :
    keys = [] ∨ ∃ a, keys = [a] := by
  rcases keys with _ | ⟨a, _ | ⟨b, l⟩⟩
  · exact .inl rfl
  · exact .inr ⟨a, rfl⟩
  · exact (h a b l rfl).elim

/-- A key in front of greater ones occurs once. -/
theorem duplicate_cons_iff_of_lt (h : ∀ k ∈ keys, key < k) (k : Int64) :
    (key :: keys).Duplicate k ↔ keys.Duplicate k := by
  have hnotMem : key ∉ keys := fun hmem => Int64.lt_irrefl (h key hmem)
  rw [List.duplicate_cons_iff]
  constructor
  · rintro (⟨rfl, hmem⟩ | hrest)
    · exact absurd hmem hnotMem
    · exact hrest
  · exact .inr

theorem lt_of_mem_of_sorted {a b : Int64} (h : (a :: b :: keys).Pairwise (· ≤ ·)) (hne : a ≠ b) :
    ∀ k ∈ b :: keys, a < k := by
  obtain ⟨ha, hb⟩ := List.pairwise_cons.1 h
  have hab : a < b := Int64.lt_of_le_of_ne (ha b List.mem_cons_self) hne
  intro k hk
  rcases List.mem_cons.1 hk with rfl | hk
  · exact hab
  · exact Int64.lt_of_lt_of_le hab ((List.pairwise_cons.1 hb).1 k hk)

/-- The scan of sorted keys finds the least key that is repeated. -/
theorem firstRepeat?_eq_some_iff (h : keys.Pairwise (· ≤ ·)) :
    firstRepeat? keys = some key ↔ LeastRepeated keys key := by
  fun_induction firstRepeat? keys with
  | case1 a l =>
    have hleast : LeastRepeated (a :: a :: l) a := by
      refine ⟨.cons_mem List.mem_cons_self, fun k hk => ?_⟩
      rcases List.mem_cons.1 hk.mem with rfl | hmem
      · exact Int64.le_refl k
      · exact (List.pairwise_cons.1 h).1 k hmem
    constructor
    · intro heq
      cases heq
      exact hleast
    · intro hkey
      rw [hleast.unique hkey]
  | case2 a b l hne ih =>
    rw [ih (List.pairwise_cons.1 h).2]
    exact (LeastRepeated.congr (duplicate_cons_iff_of_lt (lt_of_mem_of_sorted h hne))).symm
  | case3 l hshort =>
    constructor
    · intro heq
      cases heq
    · intro hkey
      rcases eq_nil_or_singleton hshort with rfl | ⟨a, rfl⟩
      · exact absurd hkey.repeated (List.not_duplicate_nil key)
      · exact absurd hkey.repeated (List.not_duplicate_singleton key a)

/-- The scan finds nothing in sorted keys exactly if they are distinct. -/
theorem firstRepeat?_eq_none_iff (h : keys.Pairwise (· ≤ ·)) :
    firstRepeat? keys = none ↔ keys.Nodup := by
  fun_induction firstRepeat? keys with
  | case1 a l => simp
  | case2 a b l hne ih =>
    have hnotMem : a ∉ b :: l := fun hmem => Int64.lt_irrefl (lt_of_mem_of_sorted h hne a hmem)
    rw [ih (List.pairwise_cons.1 h).2, List.nodup_cons (a := a)]
    simp [hnotMem]
  | case3 l hshort =>
    rcases eq_nil_or_singleton hshort with rfl | ⟨a, rfl⟩
    · simp
    · simp

/-- The only defects of sorted keys are repeated keys. -/
theorem firstDefect_of_sorted (h : keys.Pairwise (· ≤ ·)) :
    firstDefect keys = (firstRepeat? keys).map .repeated := by
  fun_induction firstDefect keys with
  | case1 b l => simp [firstRepeat?]
  | case2 a b l hne hlt ih => rw [ih (List.pairwise_cons.1 h).2, firstRepeat?, if_neg hne]
  | case3 a b l hne hlt =>
    exact absurd (lt_of_mem_of_sorted h hne b List.mem_cons_self) hlt
  | case4 l hshort =>
    rcases eq_nil_or_singleton hshort with rfl | ⟨a, rfl⟩
    · rfl
    · rfl

/-- Keys are distinct or one of them is the least that is repeated. -/
theorem nodup_or_leastRepeated (keys : List Int64) :
    keys.Nodup ∨ ∃ key, LeastRepeated keys key := by
  have hperm := sortOn_perm id keys
  have hsorted : (sortOn id keys).Pairwise (· ≤ ·) := sortOn_pairwise id keys
  cases hscan : firstRepeat? (sortOn id keys) with
  | none => exact .inl (hperm.nodup ((firstRepeat?_eq_none_iff hsorted).1 hscan))
  | some key =>
    exact .inr ⟨key, (LeastRepeated.perm_iff hperm).1 ((firstRepeat?_eq_some_iff hsorted).1 hscan)⟩

namespace KeyWindow

/-- Sorted keys are refused for the least one that is repeated. -/
theorem ofAscending_of_leastRepeated (h : keys.Pairwise (· ≤ ·))
    (hleast : LeastRepeated keys key) : ofAscending keys = .error (.duplicateKey key) := by
  apply ofAscending_of_repeated
  rw [firstDefect_of_sorted h, (firstRepeat?_eq_some_iff h).2 hleast]
  rfl

end KeyWindow

end PackedRatings
