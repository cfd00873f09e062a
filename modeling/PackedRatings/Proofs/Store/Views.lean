import PackedRatings.Proofs.File.RowReading
import PackedRatings.Proofs.Store.Acceptance
import PackedRatings.Proofs.Vector.Pairs

/-!
# What is taken from a loaded file is read inside of its rows

Tables, selections, cursors and groups keep row positions long after the file was checked. All
of them read the rows of the file, however the file was accepted and in whatever order they are
taken, so every position stands for a row, and no operation of a machine with words of 64 bits
faults on the way to it.
-/
namespace PackedRatings

open Guarded

inductive View where
  | table (source : RowSection) (table : RunTable source.count)
  | selection (selection : Selection)
  | cursor (cursor : RatingCursor)
  | groups (groups : UserGroups)

namespace View

def source : View → RowSection
  | table source _ => source
  | selection s => s.source
  | cursor c => c.source
  | groups g => g.source

def rows : (v : View) → List (Fin v.source.count)
  | table _ t => t.allRows
  | selection s => s.rows
  | cursor c => c.upcoming
  | groups g => g.upcoming.flatMap Prod.snd

def positions (v : View) : List Nat :=
  v.rows.map Fin.val

def ratings : View → List Rating
  | table source t => t.allRows.map source.row
  | selection s => s.ratings
  | cursor c => c.rest
  | groups g => g.rest.flatMap fun group => group.2.ratings

theorem ratings_eq (v : View) : v.ratings = v.rows.map v.source.row := by
  cases v with
  | table source t => rfl
  | selection s => rfl
  | cursor c => rfl
  | groups g =>
    change (g.upcoming.map _).flatMap _ = (g.upcoming.flatMap Prod.snd).map g.source.row
    rw [List.flatMap_map, List.map_flatMap]
    rfl

/-- What a program takes from a store, or from what it has taken before. -/
inductive TakenFrom (s : RatingStore) : View → Prop where
  | userTable {f : RatingFile} (h : s.file? = some f) : TakenFrom s (.table f.rows f.users)
  | itemTable {f : RatingFile} (h : s.file? = some f) : TakenFrom s (.table f.rows f.items)
  | cursor {order : RatingOrder} {c : RatingCursor} (h : s.cursor order = .ok c) :
    TakenFrom s (.cursor c)
  | afterRating {c c' : RatingCursor} {rating : Rating} (h : TakenFrom s (.cursor c))
    (hnext : c.next? = some (rating, c')) : TakenFrom s (.cursor c')
  | groups {g : UserGroups} (h : s.userGroups = .ok g) : TakenFrom s (.groups g)
  | afterGroup {g g' : UserGroups} {group : Int64 × Selection} (h : TakenFrom s (.groups g))
    (hnext : g.next? = some (group, g')) : TakenFrom s (.groups g')
  | group {g g' : UserGroups} {group : Int64 × Selection} (h : TakenFrom s (.groups g))
    (hnext : g.next? = some (group, g')) : TakenFrom s (.selection group.2)
  | byUser {user : Int64} {selection : Selection}
    (h : s.ratingsByUser? user = .ok (some selection)) : TakenFrom s (.selection selection)
  | ofItem {item : Int64} {selection : Selection}
    (h : s.ratingsOfItem? item = .ok (some selection)) : TakenFrom s (.selection selection)
  | eventsByUser {user : Int64} {kind : Interaction} {selection : Selection}
    (h : s.eventsByUser? user kind = .ok (some selection)) : TakenFrom s (.selection selection)
  | eventsOfItem {item : Int64} {kind : Interaction} {selection : Selection}
    (h : s.eventsOfItem? item kind = .ok (some selection)) : TakenFrom s (.selection selection)

end View

theorem RatingCursor.source_of_next? {c c' : RatingCursor} {rating : Rating}
    (h : c.next? = some (rating, c')) : c'.source = c.source := by
  rw [next?] at h
  split at h
  · cases h
  · cases h
    rfl

theorem UserGroups.source_of_next? {g g' : UserGroups} {group : Int64 × Selection}
    (h : g.next? = some (group, g')) : g'.source = g.source ∧ group.2.source = g.source := by
  rw [next?] at h
  split at h
  · cases h
  · cases h
    exact ⟨rfl, rfl⟩

namespace RatingStore

variable {s : RatingStore} {selection : Selection}

theorem file_eq_ok_iff {f : RatingFile} : s.file = .ok f ↔ s.file? = some f := by
  rw [file]
  cases s.file? with
  | none => simp
  | some f => simp

/-- The rows that a cursor reads are all rows, in one of four orders. -/
theorem exists_file_of_cursor {order : RatingOrder} {c : RatingCursor}
    (h : s.cursor order = .ok c) : ∃ f rows, s.file? = some f ∧ c = ⟨f.rows, rows⟩ ∧
      (rows = List.finRange f.rows.count ∨ rows = f.rows.timeOrder ∨
        rows = f.users.allRows ∨ rows = f.items.allRows) := by
  simp only [cursor, bind_eq_ok_iff, file_eq_ok_iff] at h
  obtain ⟨f, hf, h⟩ := h
  cases order with
  | stored => exact ⟨f, _, hf, (Except.ok.inj h).symm, .inl rfl⟩
  | timestamp =>
    dsimp only at h
    split at h
    · exact ⟨f, _, hf, (Except.ok.inj h).symm, .inr (.inl rfl)⟩
    · exact ⟨f, _, hf, (Except.ok.inj h).symm, .inl rfl⟩
  | user => exact ⟨f, _, hf, (Except.ok.inj h).symm, .inr (.inr (.inl rfl))⟩
  | item => exact ⟨f, _, hf, (Except.ok.inj h).symm, .inr (.inr (.inr rfl))⟩

theorem source_of_select? {f : RatingFile} {table : RunTable f.rows.count} {key : Int64}
    (h : f.select? table key = some selection) : selection.source = f.rows := by
  rw [RatingFile.select?, Option.map_eq_some_iff] at h
  obtain ⟨rows, -, rfl⟩ := h
  rfl

theorem exists_file_of_ratingsByUser? {user : Int64}
    (h : s.ratingsByUser? user = .ok (some selection)) :
    ∃ f, s.file? = some f ∧ selection.source = f.rows := by
  simp only [ratingsByUser?, bind_eq_ok_iff, file_eq_ok_iff, pure_eq_ok_iff] at h
  obtain ⟨f, hf, h⟩ := h
  exact ⟨f, hf, source_of_select? h⟩

theorem exists_file_of_ratingsOfItem? {item : Int64}
    (h : s.ratingsOfItem? item = .ok (some selection)) :
    ∃ f, s.file? = some f ∧ selection.source = f.rows := by
  simp only [ratingsOfItem?, bind_eq_ok_iff, file_eq_ok_iff, pure_eq_ok_iff] at h
  obtain ⟨f, hf, h⟩ := h
  exact ⟨f, hf, source_of_select? h⟩

/-- The events of a kind are selected from the rows that all events are selected from. -/
theorem exists_source_of_map_ofKind {ask : Except Failure (Option Selection)}
    {kind : Interaction} (h : (return (← ask).map (ofKind kind)) = .ok (some selection)) :
    ∃ all, ask = .ok (some all) ∧ selection.source = all.source := by
  simp only [bind_eq_ok_iff, pure_eq_ok_iff, Option.map_eq_some_iff] at h
  obtain ⟨_, hall, all, rfl, rfl⟩ := h
  refine ⟨all, hall, ?_⟩
  cases kind with
  | rating => rfl
  | like => rfl
  | likeBatch => rfl

end RatingStore

/-- Whatever is taken from a store reads the rows of its file. -/
theorem View.TakenFrom.exists_file {s : RatingStore} {v : View} (h : v.TakenFrom s) :
    ∃ f, s.file? = some f ∧ v.source = f.rows := by
  induction h with
  | userTable h => exact ⟨_, h, rfl⟩
  | itemTable h => exact ⟨_, h, rfl⟩
  | cursor h =>
    obtain ⟨f, rows, hf, rfl, -⟩ := RatingStore.exists_file_of_cursor h
    exact ⟨f, hf, rfl⟩
  | afterRating _ hnext ih => rwa [View.source, RatingCursor.source_of_next? hnext]
  | groups h =>
    simp only [RatingStore.userGroups, bind_eq_ok_iff, RatingStore.file_eq_ok_iff,
      pure_eq_ok_iff] at h
    obtain ⟨f, hf, rfl⟩ := h
    exact ⟨f, hf, rfl⟩
  | afterGroup _ hnext ih => rwa [View.source, (UserGroups.source_of_next? hnext).1]
  | group _ hnext ih => rwa [View.source, (UserGroups.source_of_next? hnext).2]
  | byUser h => exact RatingStore.exists_file_of_ratingsByUser? h
  | ofItem h => exact RatingStore.exists_file_of_ratingsOfItem? h
  | eventsByUser h =>
    obtain ⟨all, hall, hsource⟩ := RatingStore.exists_source_of_map_ofKind h
    rw [View.source, hsource]
    exact RatingStore.exists_file_of_ratingsByUser? hall
  | eventsOfItem h =>
    obtain ⟨all, hall, hsource⟩ := RatingStore.exists_source_of_map_ofKind h
    rw [View.source, hsource]
    exact RatingStore.exists_file_of_ratingsOfItem? hall

end PackedRatings
