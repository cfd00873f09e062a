import Mathlib.Data.List.Sort
import PackedRatings.Proofs.Store.Acceptance
import PackedRatings.Proofs.Store.Views

/-!
# Answers about one key

Verification makes sure that a table lists every row once, but it does not compare a row with
the key that it is listed under, nor the order of the rows of one key. So the answers about
single keys are true of the rows exactly if the table puts every row under its own key and
lists the rows of each key in ascending order, and there are files that are loaded without it.
-/
namespace PackedRatings

def RowSection.rowsWith (source : RowSection) (field : Rating → Int64) (key : Int64) :
    List (Fin source.count) :=
  (List.finRange source.count).filter fun i => field (source.row i) = key

theorem RowSection.mem_rowsWith {source : RowSection} {field : Rating → Int64} {key : Int64}
    {i : Fin source.count} : i ∈ source.rowsWith field key ↔ field (source.row i) = key := by
  rw [rowsWith, List.mem_filter, decide_eq_true_eq, and_iff_right (List.mem_finRange i)]

theorem RowSection.rowsWith_pairwise (source : RowSection) (field : Rating → Int64)
    (key : Int64) : (source.rowsWith field key).Pairwise (· < ·) :=
  (List.pairwise_lt_finRange _).filter _

namespace RunTable

variable {source : RowSection} {t : RunTable source.count} {field : Rating → Int64}

/-- Every run lists rows with the key of the run, in ascending order. -/
def Attributes (source : RowSection) (t : RunTable source.count) (field : Rating → Int64) : Prop :=
  ∀ entry ∈ t.entries, entry.2.Pairwise (· < ·) ∧
    ∀ i ∈ entry.2, field (source.row i) = entry.1

instance : Decidable (Attributes source t field) :=
  inferInstanceAs (Decidable (∀ entry ∈ t.entries, _))

/-- A table that lists all rows lists each of them under some key. -/
theorem exists_entry_of_perm {n : Nat} {t : RunTable n}
    (h : t.image.positions.Perm (List.range n)) (i : Fin n) : ∃ entry ∈ t.entries, i ∈ entry.2 := by
  have hi : i.val ∈ t.image.positions := h.mem_iff.2 (List.mem_range.2 i.isLt)
  rw [positions_image, ← flatMap_entries] at hi
  obtain ⟨j, hj, hval⟩ := List.mem_map.1 hi
  obtain ⟨entry, hentry, hmem⟩ := List.mem_flatMap.1 hj
  exact ⟨entry, hentry, Fin.ext hval ▸ hmem⟩

/-- In a table that lists all rows, the runs are the rows of their keys exactly if the table puts
every row under its own key. -/
theorem attributes_iff (h : t.image.positions.Perm (List.range source.count)) :
    Attributes source t field ↔
      (∀ key rows, t.rowsOf? key = some rows → rows = source.rowsWith field key) ∧
        ∀ key, t.rowsOf? key = none → ∀ i, field (source.row i) ≠ key := by
  constructor
  · intro hattributes
    have hlisted : ∀ i, ∃ rows, t.rowsOf? (field (source.row i)) = some rows ∧ i ∈ rows := by
      intro i
      obtain ⟨⟨key, rows⟩, hentry, hi⟩ := exists_entry_of_perm h i
      obtain rfl : field (source.row i) = key := (hattributes _ hentry).2 i hi
      exact ⟨rows, rowsOf?_eq_some_iff.2 hentry, hi⟩
    constructor
    · intro key rows hrows
      rcases hattributes _ (rowsOf?_eq_some_iff.1 hrows) with ⟨hascending, hkey⟩
      apply hascending.eq_of_mem_iff (source.rowsWith_pairwise field key)
      intro i
      rw [RowSection.mem_rowsWith]
      constructor
      · exact hkey i
      · rintro rfl
        obtain ⟨listed, hlist, hi⟩ := hlisted i
        rw [hrows] at hlist
        cases hlist
        exact hi
    · rintro _ hnone i rfl
      obtain ⟨rows, hrows, -⟩ := hlisted i
      rw [hnone] at hrows
      cases hrows
  · rintro ⟨hpresent, -⟩ ⟨key, rows⟩ hentry
    obtain rfl := hpresent key rows (rowsOf?_eq_some_iff.2 hentry)
    exact ⟨source.rowsWith_pairwise field key, fun i hi => RowSection.mem_rowsWith.1 hi⟩

end RunTable

namespace RatingStore

/-- What `ask` answers about a key are the rows of `source` whose `field` is the key, and there
is an answer if there is such a row. -/
structure TellsTruth (source : RowSection) (field : Rating → Int64)
    (ask : Int64 → Except Failure (Option Selection)) : Prop where
  present : ∀ key selection, ask key = .ok (some selection) →
    selection = ⟨source, source.rowsWith field key⟩
  absent : ∀ key, ask key = .ok none → ∀ i, field (source.row i) ≠ key

theorem tellsTruth_select?_iff {f : RatingFile} {table : RunTable f.rows.count}
    {field : Rating → Int64} (h : table.image.positions.Perm (List.range f.rows.count)) :
    TellsTruth f.rows field (fun key => .ok (f.select? table key)) ↔
      RunTable.Attributes f.rows table field := by
  rw [RunTable.attributes_iff h]
  constructor
  · rintro ⟨hpresent, habsent⟩
    constructor
    · intro key rows hrows
      have hanswer : f.select? table key = some ⟨f.rows, rows⟩ := by
        rw [RatingFile.select?, hrows, Option.map_some]
      cases hpresent key _ (congrArg Except.ok hanswer)
      rfl
    · intro key hnone
      apply habsent
      rw [RatingFile.select?, hnone, Option.map_none]
  · rintro ⟨hpresent, habsent⟩
    constructor
    · intro key selection hanswer
      obtain ⟨rows, hrows, rfl⟩ := Option.map_eq_some_iff.1 (Except.ok.inj hanswer)
      rw [hpresent key rows hrows]
    · intro key hnone
      exact habsent key (Option.map_eq_none_iff.1 (Except.ok.inj hnone))

/-- The answers of a loaded file about users and items are true exactly if its tables put every
row under its own user and item. -/
theorem load_tellsTruth_iff {path : String} {file : ByteArray} {s : RatingStore}
    (h : load path (some file) true = .ok s) :
    ∃ f, s.file? = some f ∧
      (TellsTruth f.rows Rating.user s.ratingsByUser? ↔
        RunTable.Attributes f.rows f.users Rating.user) ∧
      (TellsTruth f.rows Rating.item s.ratingsOfItem? ↔
        RunTable.Attributes f.rows f.items Rating.item) := by
  obtain ⟨header, f, hparse, rfl⟩ := load_eq_ok_iff.1 h
  obtain ⟨image, -, honce, -, rfl, hshows⟩ := RatingFile.parse_eq_ok hparse
  have husers : f.users.image.positions.Perm (List.range f.rows.count) := by
    rw [hshows.users, hshows.count]
    exact (honce rfl).users
  have hitems : f.items.image.positions.Perm (List.range f.rows.count) := by
    rw [hshows.items, hshows.count]
    exact (honce rfl).items
  exact ⟨f, rfl, tellsTruth_select?_iff husers, tellsTruth_select?_iff hitems⟩

def twoRatings (users items : TableImage) : FileImage where
  layout := ⟨false⟩
  ratingCount := 2
  rows := [⟨1, 1, ⟨0x3ff0000000000000⟩, none⟩, ⟨2, 1, ⟨0x4000000000000000⟩, none⟩].flatMap
    fun rating => (RowLayout.write ⟨false⟩ rating).bytes
  users
  items
  trailing := []

/-- With the tables that belong to the rows all answers are true. -/
theorem load_tellsTruth_iff_twoRatings : ∃ s f,
    load "ratings.bin"
      (some (twoRatings [(1, [0]), (2, [1])] [(1, [0, 1])]).bytes.toByteArray) true = .ok s ∧
      s.file? = some f ∧ TellsTruth f.rows Rating.user s.ratingsByUser? ∧
      TellsTruth f.rows Rating.item s.ratingsOfItem? := by
  have hread : (do
      let s ← load "ratings.bin"
        (some (twoRatings [(1, [0]), (2, [1])] [(1, [0, 1])]).bytes.toByteArray) true
      let f ← s.file
      return (decide (RunTable.Attributes f.rows f.users Rating.user),
        decide (RunTable.Attributes f.rows f.items Rating.item))).toOption =
          some (true, true) := by
    decide +kernel
  simp only [toOption_eq_some_iff, bind_eq_ok_iff, pure_eq_ok_iff, file_eq_ok_iff, Prod.mk.injEq,
    decide_eq_true_eq] at hread
  obtain ⟨s, hload, f, hfile, husers, hitems⟩ := hread
  obtain ⟨f', hfile', huserTruth, hitemTruth⟩ := load_tellsTruth_iff hload
  rw [hfile] at hfile'
  cases hfile'
  exact ⟨s, f, hload, hfile, huserTruth.2 husers, hitemTruth.2 hitems⟩

/-- With the rows of the users exchanged and those of the item turned around, the file is still
loaded: user 1 is answered with the rating of user 2, and the rows of the item descend. -/
theorem load_crossed_twoRatings : ∃ s byUser ofItem,
    load "ratings.bin"
      (some (twoRatings [(1, [1]), (2, [0])] [(1, [1, 0])]).bytes.toByteArray) true = .ok s ∧
      s.ratingsByUser? 1 = .ok (some byUser) ∧ byUser.ratings.map Rating.user = [2] ∧
      s.ratingsOfItem? 1 = .ok (some ofItem) ∧ ofItem.rows.map Fin.val = [1, 0] := by
  have hread : (do
      let s ← load "ratings.bin"
        (some (twoRatings [(1, [1]), (2, [0])] [(1, [1, 0])]).bytes.toByteArray) true
      return ((← s.ratingsByUser? 1).map fun byUser : Selection => byUser.ratings.map Rating.user,
        (← s.ratingsOfItem? 1).map fun ofItem : Selection =>
          ofItem.rows.map Fin.val)).toOption =
          some (some [2], some [1, 0]) := by
    decide +kernel
  simp only [toOption_eq_some_iff, bind_eq_ok_iff, pure_eq_ok_iff, Prod.mk.injEq,
    Option.map_eq_some_iff] at hread
  obtain ⟨s, hload, _, huser, _, hitem, ⟨byUser, rfl, hby⟩, ofItem, rfl, hof⟩ := hread
  exact ⟨s, byUser, ofItem, hload, huser, hby, hitem, hof⟩

end RatingStore

end PackedRatings
