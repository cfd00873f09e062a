/-!
# Runs stored back to back

`FlatRuns n count` holds `count` runs of positions below `n` in one array, with the offsets
between them. The main statements say that adding a run changes no other, and that the array
is the runs behind each other.
-/
namespace PackedRatings

structure FlatRuns (rowCount count : Nat) where
  rows : Array (Fin rowCount)
  /-- Run `i` starts at offset `i` and stops at offset `i + 1`. -/
  offsets : Vector Nat (count + 1)
  first_offset : offsets[0] = 0
  ascending : ∀ i (h : i < count), offsets[i] ≤ offsets[i + 1]
  last_offset : offsets[count] = rows.size

namespace FlatRuns

variable {rowCount count : Nat}

def empty : FlatRuns rowCount 0 where
  rows := #[]
  offsets := #v[0]
  first_offset := rfl
  ascending := fun _ h => absurd h (Nat.not_lt_zero _)
  last_offset := rfl

def push (s : FlatRuns rowCount count) (run : List (Fin rowCount)) :
    FlatRuns rowCount (count + 1) where
  rows := s.rows ++ run.toArray
  offsets := s.offsets.push (s.rows.size + run.length)
  first_offset := by simp [s.first_offset]
  ascending := fun i h => by
    rcases Nat.lt_or_eq_of_le (Nat.le_of_lt_succ h) with hlt | rfl
    · rw [Vector.getElem_push_lt (by omega), Vector.getElem_push_lt (by omega)]
      exact s.ascending i hlt
    · rw [Vector.getElem_push_lt (Nat.lt_succ_self _), Vector.getElem_push_last, s.last_offset]
      simp
  last_offset := by simp

/-- The run between two neighbouring offsets. -/
def run (s : FlatRuns rowCount count) (i : Fin count) : List (Fin rowCount) :=
  (s.rows.extract s.offsets[i.val] s.offsets[i.val + 1]).toList

def toList (s : FlatRuns rowCount count) : List (List (Fin rowCount)) :=
  List.ofFn s.run

@[simp] theorem length_toList (s : FlatRuns rowCount count) : s.toList.length = count := by
  simp [toList]

@[simp] theorem getElem_toList (s : FlatRuns rowCount count) {i : Nat}
    (h : i < s.toList.length) : s.toList[i] = s.run ⟨i, by simpa using h⟩ := by
  simp [toList]

@[simp] theorem toList_empty : (empty : FlatRuns rowCount 0).toList = [] := by
  simp [toList]

theorem offset_le_size (s : FlatRuns rowCount count) {i : Nat} (h : i < count + 1) :
    s.offsets[i] ≤ s.rows.size := by
  have hdown : ∀ d j (hj : j < count + 1), j + d = count → s.offsets[j] ≤ s.rows.size := by
    intro d
    induction d with
    | zero =>
      rintro j hj rfl
      exact Nat.le_of_eq s.last_offset
    | succ d ih =>
      intro j hj hd
      exact Nat.le_trans (s.ascending j (by omega)) (ih (j + 1) (by omega) (by omega))
  exact hdown (count - i) i h (by omega)

theorem run_push_castSucc (s : FlatRuns rowCount count) (run : List (Fin rowCount))
    (i : Fin count) : (s.push run).run i.castSucc = s.run i := by
  have hstop := s.offset_le_size (show i.val + 1 < count + 1 by omega)
  simp only [FlatRuns.run, push, Fin.val_castSucc]
  rw [Vector.getElem_push_lt (by omega), Vector.getElem_push_lt (by omega)]
  simp only [Array.toList_extract, Array.toList_append, List.extract_eq_take_drop]
  have hstart := s.ascending i i.isLt
  rw [List.drop_append_of_le_length (by simp; omega),
    List.take_append_of_le_length (by simp; omega)]

theorem run_push_last (s : FlatRuns rowCount count) (run : List (Fin rowCount)) :
    (s.push run).run (Fin.last count) = run := by
  simp only [FlatRuns.run, push, Fin.val_last]
  rw [Vector.getElem_push_lt (Nat.lt_succ_self _), Vector.getElem_push_last, s.last_offset]
  simp

@[simp] theorem toList_push (s : FlatRuns rowCount count) (run : List (Fin rowCount)) :
    (s.push run).toList = s.toList ++ [run] := by
  rw [toList, List.ofFn_succ_last, run_push_last]
  simp only [run_push_castSucc, toList]

/-- The runs behind each other are the whole array. -/
theorem flatten_toList (s : FlatRuns rowCount count) : s.toList.flatten = s.rows.toList := by
  have hupto : ∀ k (hk : k < count + 1),
      (s.toList.take k).flatten = s.rows.toList.take s.offsets[k] := by
    intro k
    induction k with
    | zero =>
      intro hk
      simp [s.first_offset]
    | succ k ih =>
      intro hk
      have hle := s.ascending k (by omega)
      rw [List.take_succ_eq_append_getElem (by simp; omega), List.flatten_append,
        ih (by omega), getElem_toList]
      simp only [FlatRuns.run, Array.toList_extract, List.extract_eq_take_drop,
        List.flatten_cons, List.flatten_nil, List.append_nil]
      rw [← List.take_add, Nat.add_sub_cancel' hle]
  have hall := hupto count (Nat.lt_succ_self _)
  rw [List.take_of_length_le (by simp), s.last_offset, ← Array.length_toList,
    List.take_length] at hall
  exact hall

end FlatRuns

end PackedRatings
