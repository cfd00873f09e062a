import Mathlib.Data.List.Perm.Basic
import PackedRatings.Proofs.Keys.StableSort
import PackedRatings.Proofs.Store.PackedStore

/-!
# Ways through all ratings of a file

The ratings of a file are read by asking for one key after the other, by taking one group after
the other, or with a cursor over all of them. These ways look runs up by key, by place or not at
all, and they give the same ratings in every file that is loaded. A packed file has its tables
made from its rows, and there the order of users or items is the order of the file sorted by
user or item.
-/
namespace PackedRatings

inductive UserGroups.Yields : UserGroups → List (Int64 × Selection) → Prop where
  | done {g : UserGroups} (h : g.next? = none) : Yields g []
  | step {g g' : UserGroups} {group : Int64 × Selection} {groups : List (Int64 × Selection)}
      (h : g.next? = some (group, g')) (rest : Yields g' groups) : Yields g (group :: groups)

theorem UserGroups.yields_rest (g : UserGroups) : g.Yields g.rest := by
  obtain ⟨source, upcoming⟩ := g
  induction upcoming with
  | nil => exact .done rfl
  | cons group groups ih => exact .step rfl ih

namespace RatingFile

variable {f : RatingFile} {table : RunTable f.rows.count}

def selections (f : RatingFile) (table : RunTable f.rows.count) : List (Int64 × Selection) :=
  table.entries.map fun (key, rows) => (key, ⟨f.rows, rows⟩)

theorem map_fst_selections : (f.selections table).map Prod.fst = table.keys.toList := by
  rw [selections, List.map_map]
  exact table.map_fst_entries

theorem ratings_selections : ((f.selections table).flatMap fun group => group.2.ratings) =
    table.allRows.map f.rows.row := by
  rw [selections, List.flatMap_map, ← table.flatMap_entries, List.map_flatMap]
  rfl

/-- Asking for a key finds the selection that stands at the place of the key. -/
theorem map_select? :
    ((f.selections table).map Prod.fst).map (f.select? table) =
      (f.selections table).map fun group => some group.2 := by
  rw [selections, List.map_map, List.map_map, List.map_map]
  apply List.map_congr_left
  intro entry hentry
  have hrows : table.rowsOf? entry.1 = some entry.2 := RunTable.rowsOf?_eq_some_iff.2 hentry
  change f.select? table entry.1 = _
  rw [select?, hrows]
  rfl

end RatingFile

namespace RatingStore

variable {s : RatingStore}

def Streams (s : RatingStore) (order : RatingOrder) (ratings : List Rating) : Prop :=
  ∃ c, s.cursor order = .ok c ∧ c.Yields ratings

theorem streams_of_rest {order : RatingOrder} {c : RatingCursor} {ratings : List Rating}
    (hcursor : s.cursor order = .ok c) (hrest : c.rest = ratings) : s.Streams order ratings := by
  rw [← hrest]
  exact ⟨c, hcursor, c.yields_rest⟩

/-- Asking for one of the keys after the other gives the selections of `groups`, and the cursor in
this order reads their ratings, as many as the header says. -/
structure ReadsKeyByKey (s : RatingStore) (order : RatingOrder) (keys : Except Failure KeyWindow)
    (ask : Int64 → Except Failure (Option Selection)) (groups : List (Int64 × Selection)) :
    Prop where
  keys : ∃ w, keys = .ok w ∧ w.toList = groups.map Prod.fst
  ascending : (groups.map Prod.fst).Pairwise (· < ·)
  ask : (groups.map Prod.fst).mapM ask = .ok (groups.map fun group => some group.2)
  streams : s.Streams order (groups.flatMap fun group => group.2.ratings)
  length : (groups.flatMap fun group => group.2.ratings).length = s.header.ratingCount

theorem readsKeyByKey_selections {order : RatingOrder} {f : RatingFile}
    {table : RunTable f.rows.count} (hcursor : s.cursor order = .ok ⟨f.rows, table.allRows⟩)
    (hlength : table.allRows.length = s.header.ratingCount) :
    s.ReadsKeyByKey order (.ok table.keys) (fun key => .ok (f.select? table key))
      (f.selections table) where
  keys := ⟨table.keys, rfl, RatingFile.map_fst_selections.symm⟩
  ascending := by
    rw [RatingFile.map_fst_selections]
    exact table.keys.toList_pairwise
  ask := by
    rw [← RatingFile.map_select?]
    exact List.mapM_pure
  streams := streams_of_rest hcursor RatingFile.ratings_selections.symm
  length := by rw [RatingFile.ratings_selections, List.length_map, hlength]

/-- In every loaded file the ways through the ratings of all users agree, and so do those through
the ratings of all items. -/
theorem load_readsKeyByKey {path : String} {file : ByteArray} {verify : Bool}
    (h : load path (some file) verify = .ok s) :
    (∃ users, s.ReadsKeyByKey .user s.userIds s.ratingsByUser? users ∧
      ∃ g, s.userGroups = .ok g ∧ g.Yields users) ∧
    ∃ items, s.ReadsKeyByKey .item s.itemIds s.ratingsOfItem? items := by
  obtain ⟨header, f, hparse, rfl⟩ := load_eq_ok_iff.1 h
  obtain ⟨image, himage, -, -, rfl, hshows⟩ := RatingFile.parse_eq_ok hparse
  have husers : f.users.allRows.length = image.ratingCount := by
    rw [← himage.users.complete, ← hshows.users, RunTable.length_positions_image]
  have hitems : f.items.allRows.length = image.ratingCount := by
    rw [← himage.items.complete, ← hshows.items, RunTable.length_positions_image]
  exact ⟨⟨f.selections f.users, readsKeyByKey_selections rfl husers, _, rfl,
    UserGroups.yields_rest _⟩, f.selections f.items, readsKeyByKey_selections rfl hitems⟩

end RatingStore

theorem RunTable.allRows_perm {n : Nat} {t : RunTable n}
    (h : t.image.positions.Perm (List.range n)) : t.allRows.Perm (List.finRange n) := by
  rw [positions_image, ← List.map_coe_finRange_eq_range] at h
  exact (List.map_perm_map_iff Fin.val_injective).1 h

namespace RatingStore

variable {s : RatingStore}

/-- In each order the cursor reads every row of the file once. -/
def ReadsEachRowOnce (s : RatingStore) : Prop :=
  ∃ f, s.file? = some f ∧ f.rows.count = s.header.ratingCount ∧
    ∀ order, ∃ rows : List (Fin f.rows.count), s.cursor order = .ok ⟨f.rows, rows⟩ ∧
      rows.Perm (List.finRange f.rows.count) ∧ s.Streams order (rows.map f.rows.row)

theorem load_readsEachRowOnce {path : String} {file : ByteArray}
    (h : load path (some file) true = .ok s) : s.ReadsEachRowOnce := by
  obtain ⟨header, f, hparse, rfl⟩ := load_eq_ok_iff.1 h
  obtain ⟨image, -, honce, -, rfl, hshows⟩ := RatingFile.parse_eq_ok hparse
  have husers : f.users.image.positions.Perm (List.range f.rows.count) := by
    rw [hshows.users, hshows.count]
    exact (honce rfl).users
  have hitems : f.items.image.positions.Perm (List.range f.rows.count) := by
    rw [hshows.items, hshows.count]
    exact (honce rfl).items
  have hrows : ∀ order, ∃ rows, cursor ⟨path, image.header, some f⟩ order = .ok ⟨f.rows, rows⟩ ∧
      rows.Perm (List.finRange f.rows.count) := by
    intro order
    cases order with
    | stored => exact ⟨_, rfl, List.Perm.refl _⟩
    | timestamp =>
      by_cases htimestamps : image.header.layout.timestamps = true
      · exact ⟨f.rows.timeOrder, if_pos htimestamps, List.mergeSort_perm _ _⟩
      · exact ⟨_, if_neg htimestamps, List.Perm.refl _⟩
    | user => exact ⟨f.users.allRows, rfl, RunTable.allRows_perm husers⟩
    | item => exact ⟨f.items.allRows, rfl, RunTable.allRows_perm hitems⟩
  refine ⟨f, rfl, hshows.count, fun order => ?_⟩
  obtain ⟨rows, hcursor, hperm⟩ := hrows order
  exact ⟨rows, hcursor, hperm, streams_of_rest hcursor rfl⟩

end RatingStore

/-- A packing is started and is offered ratings, of which it takes some and refuses others. -/
inductive Packing.Reaches (path : String) (layout : RowLayout) : List Rating → Packing → Prop where
  | start : Reaches path layout [] (start path layout)
  | add {ratings : List Rating} {rating : Rating} {p p' : Packing}
      (hreach : Reaches path layout ratings p) (h : p.add rating = (p', none)) :
      Reaches path layout (ratings ++ [rating]) p'
  | refuse {ratings : List Rating} {rating : Rating} {p p' : Packing} {failure : Failure}
      (hreach : Reaches path layout ratings p) (h : p.add rating = (p', some failure)) :
      Reaches path layout ratings p'

theorem Packing.Reaches.addAll {path : String} {layout : RowLayout} {before ratings : List Rating}
    {p p' : Packing} (hreach : Reaches path layout before p)
    (hrun : p.addAll ratings = (p', none)) : Reaches path layout (before ++ ratings) p' := by
  induction ratings generalizing p before with
  | nil =>
    cases hrun
    rwa [List.append_nil]
  | cons rating ratings ih =>
    obtain ⟨q, hadd, hrest⟩ := addAll_cons_eq_none_iff.1 hrun
    have hall := ih (hreach.add hadd) hrest
    rwa [List.append_assoc, List.singleton_append] at hall

theorem Packing.Reaches.holds {path : String} {layout : RowLayout} {ratings : List Rating}
    {p : Packing} (hreach : Reaches path layout ratings p) :
    p.Holds ratings ∧ p.layout = layout := by
  induction hreach with
  | start => exact ⟨holds_start path layout, rfl⟩
  | add hreach h ih =>
    obtain ⟨hholds, rfl⟩ := ih
    refine ⟨hholds.add h, ?_⟩
    obtain ⟨-, rfl⟩ := add_eq_none_iff.1 h
    rfl
  | refuse hreach h ih =>
    obtain ⟨rfl, -⟩ := add_eq_some_iff.1 h
    exact ih

/-- A table whose runs are the places of the keys lists the rows sorted by key. -/
theorem map_row_allRows {f : RatingFile} {table : RunTable f.rows.count} {ratings : List Rating}
    {field : Rating → Int64} {rows : RowsByKey} (hrows : f.rows.Holds ratings)
    (himage : table.image = rows.runs) (hindex : rows.Indexes (ratings.map field))
    (hfield : ∀ r, field (f.rows.layout.stored r) = field r) :
    table.allRows.map f.rows.row = sortOn field (ratings.map f.rows.layout.stored) := by
  -- A run has the places of its key in ascending order, so it reads the ratings with that key.
  have hrun : ∀ entry ∈ table.entries, entry.2.map f.rows.row =
      withKey field (ratings.map f.rows.layout.stored) entry.1 := by
    intro entry hentry
    have hmem : (entry.1, entry.2.map Fin.val) ∈ rows.runs :=
      himage ▸ List.mem_map_of_mem hentry
    rw [hrows.map_row_eq, (hindex.mem_runs_iff.1 hmem).2, filterMap_places, withKey,
      List.filter_map]
    simp only [Function.comp_def, hfield]
  have hcomplete : ∀ r ∈ ratings.map f.rows.layout.stored, field r ∈ table.keys.toList := by
    intro r hr
    obtain ⟨rating, hrating, rfl⟩ := List.mem_map.1 hr
    rw [← RunTable.keys_image, himage, hindex.mem_keys_runs_iff, hfield]
    exact List.mem_map_of_mem hrating
  rw [← flatMap_withKey table.keys.toList_pairwise hcomplete, ← table.flatMap_entries,
    List.map_flatMap, List.flatMap_congr hrun, ← table.map_fst_entries, List.flatMap_map]

namespace RatingStore

/-- The orders of users and of items are the order of the file sorted by user and by item. -/
structure ReadsSorted (s : RatingStore) (ratings : List Rating) : Prop where
  stored : s.Streams .stored ratings
  user : s.Streams .user (sortOn Rating.user ratings)
  item : s.Streams .item (sortOn Rating.item ratings)

theorem load_readsSorted {path : String} {layout : RowLayout} {ratings : List Rating}
    {p : Packing} (hreach : Packing.Reaches path layout ratings p) (verify : Bool) :
    ∃ file s, p.finish = .ok file ∧ load file.path (some file.bytes) verify = .ok s ∧
      s.ReadsSorted (ratings.map layout.stored) := by
  obtain ⟨hholds, rfl⟩ := hreach.holds
  obtain ⟨file, f, hfinish, -, hload, -, hshows⟩ := hholds.exists_load verify
  have hrows := hholds.rows hshows
  have hstored := hrows.map_row_finRange
  have huser := map_row_allRows hrows hshows.users hholds.users fun _ => rfl
  have hitem := map_row_allRows hrows hshows.items hholds.items fun _ => rfl
  rw [hshows.layout] at hstored huser hitem
  exact ⟨file, _, hfinish, hload, streams_of_rest rfl hstored, streams_of_rest rfl huser,
    streams_of_rest rfl hitem⟩

/-- All ways through the ratings of a loaded file agree. If the file was verified, each order has
every row once, and if it was packed, the orders of users and items are sorted. -/
theorem load_traversals_agree :
    (∀ path file verify s, load path (some file) verify = .ok s →
      (∃ users, s.ReadsKeyByKey .user s.userIds s.ratingsByUser? users ∧
        ∃ g, s.userGroups = .ok g ∧ g.Yields users) ∧
      (∃ items, s.ReadsKeyByKey .item s.itemIds s.ratingsOfItem? items) ∧
      (verify = true → s.ReadsEachRowOnce)) ∧
    ∀ path layout ratings p, Packing.Reaches path layout ratings p → ∀ verify, ∃ file s,
      p.finish = .ok file ∧ load file.path (some file.bytes) verify = .ok s ∧
        s.ReadsSorted (ratings.map layout.stored) := by
  constructor
  · intro path file verify s h
    obtain ⟨husers, hitems⟩ := load_readsKeyByKey h
    refine ⟨husers, hitems, ?_⟩
    rintro rfl
    exact load_readsEachRowOnce h
  · intro path layout ratings p hreach verify
    exact load_readsSorted hreach verify

/-- User 5 comes first among three ratings, then the two ratings by user 7 as they were packed. -/
theorem load_traversals_agree_threeRatings : ∃ p file s,
    Packing.Reaches "ratings.bin" ⟨true⟩ threeRatings p ∧ p.finish = .ok file ∧
      load file.path (some file.bytes) true = .ok s ∧ s.ReadsEachRowOnce ∧
      (∃ users, s.ReadsKeyByKey .user s.userIds s.ratingsByUser? users) ∧
      s.Streams .user [⟨5, 3, ⟨0x7ff8000000000001⟩, some (-20)⟩,
        ⟨7, 3, ⟨0x4010000000000000⟩, some 30⟩, ⟨7, 4, ⟨0x8000000000000000⟩, some 10⟩] := by
  obtain ⟨p, hp⟩ := addAll_threeRatings
  have hreach := Packing.Reaches.start.addAll hp
  obtain ⟨file, s, hfinish, hload, hsorted⟩ := load_traversals_agree.2 _ _ _ p hreach true
  obtain ⟨⟨users, husers, -⟩, -, honce⟩ := load_traversals_agree.1 _ _ true s hload
  have hascending : [(5 : Int64), 7].Pairwise (· < ·) := by decide
  have huser := hsorted.user
  rw [← flatMap_withKey hascending (by decide)] at huser
  exact ⟨p, file, s, hreach, hfinish, hload, honce rfl, ⟨users, husers⟩, huser⟩

end RatingStore

end PackedRatings
