/-!
# Ascending lists

Sorting by key, keeping the first element of each run of equal keys, and finding the first
place where a list of keys fails to ascend. The main statements say that sorting and then
keeping firsts gives a strictly ascending list, and that a list has no defect exactly when
it ascends strictly.
-/
namespace PackedRatings

variable {α : Type u}

/-- Sorts by key. Elements with equal keys keep their order. -/
def sortOn (key : α → Int64) (l : List α) : List α :=
  l.mergeSort fun a b => decide (key a ≤ key b)

theorem sortOn_perm (key : α → Int64) (l : List α) : (sortOn key l).Perm l :=
  List.mergeSort_perm ..

theorem decide_key_le_trans (key : α → Int64) (a b c : α) (hab : decide (key a ≤ key b) = true)
    (hbc : decide (key b ≤ key c) = true) : decide (key a ≤ key c) = true := by
  simp only [decide_eq_true_eq] at *
  exact Int64.le_trans hab hbc

theorem decide_key_le_total (key : α → Int64) (a b : α) :
    (decide (key a ≤ key b) || decide (key b ≤ key a)) = true := by
  simp only [Bool.or_eq_true, decide_eq_true_eq]
  exact Int64.le_total _ _

theorem sortOn_pairwise (key : α → Int64) (l : List α) :
    (sortOn key l).Pairwise fun a b => key a ≤ key b := by
  have h := List.pairwise_mergeSort (decide_key_le_trans key) (decide_key_le_total key) l
  simpa [sortOn] using h

/-- The elements of `l` without those whose key is that of the element kept last,
`previous` at the start. -/
def dropRepeats (key : α → Int64) (previous : Int64) : List α → List α
  | [] => []
  | a :: l =>
    if key a = previous then dropRepeats key previous l
    else a :: dropRepeats key (key a) l

/-- Keeps the first element of each run of equal keys. -/
def firstOfRuns (key : α → Int64) : List α → List α
  | [] => []
  | a :: l => a :: dropRepeats key (key a) l

theorem dropRepeats_sublist (key : α → Int64) (previous : Int64) (l : List α) :
    (dropRepeats key previous l).Sublist l := by
  induction l generalizing previous with
  | nil => simp [dropRepeats]
  | cons a l ih =>
    rw [dropRepeats]
    split
    · exact (ih previous).cons a
    · exact (ih (key a)).cons_cons a

theorem lt_of_mem_dropRepeats {key : α → Int64} {previous : Int64} {l : List α}
    (sorted : l.Pairwise fun a b => key a ≤ key b) (above : ∀ a ∈ l, previous ≤ key a)
    {a : α} (ha : a ∈ dropRepeats key previous l) : previous < key a := by
  induction l with
  | nil => simp [dropRepeats] at ha
  | cons b l ih =>
    rw [List.pairwise_cons] at sorted
    rw [dropRepeats] at ha
    split at ha
    · exact ih sorted.2 (fun c hc => above c (List.mem_cons_of_mem b hc)) ha
    · rename_i hne
      have hb : previous < key b :=
        Int64.lt_of_le_of_ne (above b List.mem_cons_self) (Ne.symm hne)
      rcases List.mem_cons.1 ha with rfl | ha
      · exact hb
      · have := sorted.1 a ((dropRepeats_sublist _ _ _).subset ha)
        exact Int64.lt_of_lt_of_le hb this

theorem dropRepeats_pairwise {key : α → Int64} {previous : Int64} {l : List α}
    (sorted : l.Pairwise fun a b => key a ≤ key b) :
    (dropRepeats key previous l).Pairwise fun a b => key a < key b := by
  induction l generalizing previous with
  | nil => simp [dropRepeats]
  | cons b l ih =>
    rw [List.pairwise_cons] at sorted
    rw [dropRepeats]
    split
    · exact ih sorted.2
    · exact List.pairwise_cons.2
        ⟨fun a ha => lt_of_mem_dropRepeats sorted.2 sorted.1 ha, ih sorted.2⟩

theorem firstOfRuns_pairwise {key : α → Int64} {l : List α}
    (sorted : l.Pairwise fun a b => key a ≤ key b) :
    (firstOfRuns key l).Pairwise fun a b => key a < key b := by
  cases l with
  | nil => simp [firstOfRuns]
  | cons a l =>
    rw [List.pairwise_cons] at sorted
    exact List.pairwise_cons.2
      ⟨fun b hb => lt_of_mem_dropRepeats sorted.2 sorted.1 hb, dropRepeats_pairwise sorted.2⟩

/-- What is wrong with two neighbouring keys that do not ascend. -/
inductive Defect where
  | repeated (key : Int64)
  | descending
  deriving DecidableEq

def firstDefect : List Int64 → Option Defect
  | a :: b :: l =>
    if a = b then some (.repeated a)
    else if a < b then firstDefect (b :: l)
    else some .descending
  | _ => none

theorem firstDefect_eq_none_iff {l : List Int64} :
    firstDefect l = none ↔ l.Pairwise (· < ·) := by
  fun_induction firstDefect l with
  | case1 b l => simp [Int64.lt_irrefl]
  | case2 a b l hne hlt ih =>
    rw [ih, List.pairwise_cons (a := a), iff_and_self]
    intro hb c hc
    rcases List.mem_cons.1 hc with rfl | hc
    · exact hlt
    · exact Int64.lt_trans hlt ((List.pairwise_cons.1 hb).1 c hc)
  | case3 a b l hne hlt => simp [hlt]
  | case4 l h =>
    rcases l with _ | ⟨a, _ | ⟨b, l⟩⟩
    · simp
    · simp
    · exact absurd rfl (h a b l)

end PackedRatings
