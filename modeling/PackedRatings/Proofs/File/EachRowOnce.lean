import Mathlib.Data.List.Perm.Subperm
import PackedRatings.Proofs.File.TableReading

/-!
# Listing every row once

Verification counts the positions of a table and then marks one after the other. If there are `n`
positions, all below `n`, then they are all positions below `n` exactly if none repeats, so nothing
needs to be looked for among those that are missing. The positions of a table are below the number
of rows that it was read for, and it may be verified for another number. A position from that
number on has no mark: verification has no answer if it comes to one before it comes to a position
that repeats.
-/
namespace PackedRatings.RunTable

variable {n rowCount : Nat}

/-- All positions are below `n` and not marked yet, and none repeats. -/
structure Unmarked (seen : SlotSet n) (rows : List Nat) : Prop where
  nodup : rows.Nodup
  unseen : ∀ row ∈ rows, ∃ h : row < n, seen.contains ⟨row, h⟩ = false

theorem unmarked_nil (seen : SlotSet n) : Unmarked seen [] :=
  ⟨.nil, by simp⟩

/-- After the first position is marked the others must still be unmarked. -/
theorem unmarked_cons_iff {seen : SlotSet n} {row : Nat} {rows : List Nat} (h : row < n) :
    Unmarked seen (row :: rows) ↔
      seen.contains ⟨row, h⟩ = false ∧ Unmarked (seen.insert ⟨row, h⟩) rows := by
  have hinsert : ∀ r, ∀ hr : r < n, (seen.insert ⟨row, h⟩).contains ⟨r, hr⟩ = false ↔
      r ≠ row ∧ seen.contains ⟨r, hr⟩ = false := by
    intro r hr
    simp [SlotSet.contains_insert]
  constructor
  · rintro ⟨hnodup, hunseen⟩
    obtain ⟨hrow, hrest⟩ := List.nodup_cons.1 hnodup
    obtain ⟨_, hfirst⟩ := hunseen row List.mem_cons_self
    refine ⟨hfirst, hrest, fun r hr => ?_⟩
    obtain ⟨hlt, hr'⟩ := hunseen r (List.mem_cons_of_mem row hr)
    exact ⟨hlt, (hinsert r hlt).2 ⟨fun heq => hrow (heq ▸ hr), hr'⟩⟩
  · rintro ⟨hfirst, hnodup, hunseen⟩
    refine ⟨List.nodup_cons.2 ⟨fun hrow => ?_, hnodup⟩, fun r hr => ?_⟩
    · obtain ⟨hlt, hmarked⟩ := hunseen row hrow
      exact ((hinsert row hlt).1 hmarked).1 rfl
    · rcases List.mem_cons.1 hr with rfl | hr
      · exact ⟨h, hfirst⟩
      · obtain ⟨hlt, hmarked⟩ := hunseen r hr
        exact ⟨hlt, ((hinsert r hlt).1 hmarked).2⟩

theorem unmarked_empty_iff {rows : List Nat} :
    Unmarked (.empty n) rows ↔ rows.Nodup ∧ ∀ row ∈ rows, row < n := by
  constructor
  · rintro ⟨hnodup, hunseen⟩
    exact ⟨hnodup, fun row hrow => (hunseen row hrow).1⟩
  · rintro ⟨hnodup, hlt⟩
    exact ⟨hnodup, fun row hrow => ⟨hlt row hrow, by simp⟩⟩

theorem scanOnce_eq_some_true_iff {seen : SlotSet n} {rows : List Nat} :
    scanOnce seen rows = some true ↔ Unmarked seen rows := by
  fun_induction scanOnce seen rows with
  | case1 seen => simp [unmarked_nil]
  | case2 seen row rows h hseen => simp [unmarked_cons_iff h, hseen]
  | case3 seen row rows h hseen ih => simp [unmarked_cons_iff h, hseen, ih]
  | case4 seen row rows h =>
    simp only [reduceCtorEq, false_iff]
    rintro ⟨-, hunseen⟩
    exact h (hunseen row List.mem_cons_self).1

/-- Some position has no mark, and all positions in front of it can be marked. -/
def Stopped (seen : SlotSet n) (rows : List Nat) : Prop :=
  ∃ before row after, rows = before ++ row :: after ∧ n ≤ row ∧ Unmarked seen before

theorem not_stopped_nil (seen : SlotSet n) : ¬ Stopped seen [] := by
  rintro ⟨before, row, after, hrows, -⟩
  simp at hrows

theorem stopped_cons_of_le {seen : SlotSet n} {row : Nat} (h : n ≤ row) (rows : List Nat) :
    Stopped seen (row :: rows) :=
  ⟨[], row, rows, rfl, h, unmarked_nil seen⟩

theorem stopped_cons_iff {seen : SlotSet n} {row : Nat} {rows : List Nat} (h : row < n) :
    Stopped seen (row :: rows) ↔
      seen.contains ⟨row, h⟩ = false ∧ Stopped (seen.insert ⟨row, h⟩) rows := by
  constructor
  · rintro ⟨before, r, after, hrows, hr, hbefore⟩
    cases before with
    | nil =>
      obtain ⟨rfl, -⟩ := List.cons.inj hrows
      omega
    | cons first before =>
      obtain ⟨rfl, hrest⟩ := List.cons.inj hrows
      obtain ⟨hfirst, hbefore⟩ := (unmarked_cons_iff h).1 hbefore
      exact ⟨hfirst, before, r, after, hrest, hr, hbefore⟩
  · rintro ⟨hfirst, before, r, after, rfl, hr, hbefore⟩
    exact ⟨row :: before, r, after, rfl, hr, (unmarked_cons_iff h).2 ⟨hfirst, hbefore⟩⟩

theorem scanOnce_eq_none_iff {seen : SlotSet n} {rows : List Nat} :
    scanOnce seen rows = none ↔ Stopped seen rows := by
  fun_induction scanOnce seen rows with
  | case1 seen => simp [not_stopped_nil]
  | case2 seen row rows h hseen => simp [stopped_cons_iff h, hseen]
  | case3 seen row rows h hseen ih => simp [stopped_cons_iff h, hseen, ih]
  | case4 seen row rows h => simp [stopped_cons_of_le (Nat.le_of_not_lt h)]

/-- As many positions as there are rows are all of them, if each is a row and none repeats. -/
theorem perm_range_iff {rows : List Nat} (h : rows.length = n) :
    rows.Perm (List.range n) ↔ rows.Nodup ∧ ∀ row ∈ rows, row < n := by
  constructor
  · intro hperm
    exact ⟨hperm.nodup_iff.2 List.nodup_range, fun row hrow => List.mem_range.1 (hperm.subset hrow)⟩
  · rintro ⟨hnodup, hlt⟩
    have hsub : rows ⊆ List.range n := fun row hrow => List.mem_range.2 (hlt row hrow)
    apply (List.subperm_of_subset hnodup hsub).perm_of_length_le
    rw [List.length_range, h]

theorem perm_range_iff_count {rows : List Nat} :
    rows.Perm (List.range n) ↔ ∀ row, rows.count row = if row < n then 1 else 0 := by
  simp only [List.perm_iff_count, List.nodup_range.count, List.mem_range]

variable {t : RunTable rowCount}

theorem lt_of_mem_positions {row : Nat} (h : row ∈ t.image.positions) : row < rowCount := by
  rw [positions_image] at h
  obtain ⟨row, -, rfl⟩ := List.mem_map.1 h
  exact row.isLt

theorem listsEachOnce?_eq_some_true_iff :
    t.listsEachOnce? n = some true ↔ t.image.positions.Perm (List.range n) := by
  rw [listsEachOnce?, ← length_positions_image, ← positions_image]
  by_cases hlength : t.image.positions.length = n
  · rw [if_pos hlength, scanOnce_eq_some_true_iff, unmarked_empty_iff, perm_range_iff hlength]
  · rw [if_neg hlength]
    simp only [Option.some.injEq, Bool.false_eq_true, false_iff]
    intro hperm
    rw [hperm.length_eq, List.length_range] at hlength
    exact hlength rfl

theorem listsEachOnce?_eq_none_iff : t.listsEachOnce? n = none ↔
    t.image.positions.length = n ∧ Stopped (.empty n) t.image.positions := by
  rw [listsEachOnce?, ← length_positions_image, ← positions_image]
  by_cases hlength : t.image.positions.length = n
  · rw [if_pos hlength, scanOnce_eq_none_iff]
    simp only [hlength, true_and]
  · rw [if_neg hlength]
    simp only [hlength, false_and, reduceCtorEq]

/-- Verification has an answer if it is for no less than the rows that the table was read for. -/
theorem listsEachOnce?_ne_none (h : rowCount ≤ n) : t.listsEachOnce? n ≠ none := by
  rw [ne_eq, listsEachOnce?_eq_none_iff]
  rintro ⟨-, before, row, after, hrows, hrow, -⟩
  have hlt : row < rowCount := lt_of_mem_positions (t := t) (by rw [hrows]; simp)
  omega

theorem exists_listsEachOnce?_eq (t : RunTable n) :
    ∃ once, t.listsEachOnce? n = some once ∧
      (once = true ↔ t.image.positions.Perm (List.range n)) := by
  obtain ⟨once, honce⟩ := Option.ne_none_iff_exists'.1 (listsEachOnce?_ne_none (t := t) n.le_refl)
  refine ⟨once, honce, ?_⟩
  rw [← listsEachOnce?_eq_some_true_iff, honce, Option.some_inj]

/-- Verification for `n` rows says whether the runs are a permutation of the rows, so that each is
listed once and nothing else is. It has no answer exactly if there are `n` positions and one of
them is from `n` on, while those in front of it are rows that do not repeat. -/
structure Verifies (t : RunTable rowCount) (n : Nat) : Prop where
  true_iff : t.listsEachOnce? n = some true ↔ t.image.positions.Perm (List.range n)
  true_iff_count : t.listsEachOnce? n = some true ↔
    ∀ row, t.image.positions.count row = if row < n then 1 else 0
  none_iff : t.listsEachOnce? n = none ↔ t.image.positions.length = n ∧
    ∃ before row after, t.image.positions = before ++ row :: after ∧ n ≤ row ∧
      before.Nodup ∧ ∀ r ∈ before, r < n
  answers : rowCount ≤ n → t.listsEachOnce? n ≠ none

theorem verification_of_any_table (t : RunTable rowCount) (n : Nat) : t.Verifies n where
  true_iff := listsEachOnce?_eq_some_true_iff
  true_iff_count := by rw [listsEachOnce?_eq_some_true_iff, perm_range_iff_count]
  none_iff := by
    rw [listsEachOnce?_eq_none_iff]
    simp only [Stopped, unmarked_empty_iff]
  answers := listsEachOnce?_ne_none

/-- A table that was read for ten rows lists row 5 and no other row. Verification for one row
finds one position, which has no mark. -/
theorem verification_stopped_by_row_five :
    ∃ t : RunTable 10, parse 1 (TableImage.bytes [(1, [5])]) 10 = .ok (t, []) ∧
      t.image.positions = [5] ∧ t.listsEachOnce? 1 = none := by
  have hreadable : TableImage.Readable [(1, [5])] 10 := ⟨by decide, by decide⟩
  obtain ⟨t, hparse, himage⟩ := exists_parse_eq_ok hreadable []
  have hpositions : t.image.positions = [5] := by rw [himage]; rfl
  refine ⟨t, by rwa [List.append_nil] at hparse, hpositions, ?_⟩
  rw [listsEachOnce?_eq_none_iff, hpositions]
  exact ⟨rfl, stopped_cons_of_le (by decide) []⟩

end PackedRatings.RunTable
