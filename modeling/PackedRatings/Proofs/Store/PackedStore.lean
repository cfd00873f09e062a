import PackedRatings.Proofs.File.TableRoundTrip
import PackedRatings.Proofs.Store.Acceptance

/-!
# Loading a packed file

A file packed from ratings is loaded, shows the same header, and gives the ratings back in
their order. What it answers about one key are the ratings with that key and their places in
that order.
-/
namespace PackedRatings

namespace Packing

variable {p : Packing} {ratings : List Rating}

/-- A packing that holds ratings finishes a file, and the file is loaded. -/
theorem Holds.exists_load (h : p.Holds ratings) (verify : Bool) :
    ∃ file f, p.finish = .ok file ∧ file.header = (p.image ratings).header ∧
      RatingStore.load file.path (some file.bytes) verify =
        .ok ⟨file.path, file.header, some f⟩ ∧
      file.bytes.size = (p.image ratings).bytes.length ∧ f.Shows (p.image ratings) := by
  obtain ⟨file, hfinish, -, hheader, hbytes⟩ := h.finish
  obtain ⟨f, hparse, hshows⟩ := RatingFile.exists_parse_eq_ok h.wellFormed_image verify
    (fun _ => h.listsEachRowOnce_image) hbytes.symm
  refine ⟨file, f, hfinish, hheader, ?_, ?_, hshows⟩
  · rw [hheader]
    exact RatingStore.load_eq_ok_iff.2 ⟨_, f, hparse, rfl⟩
  · rw [← hbytes, length_data_toList]

theorem Holds.rows (h : p.Holds ratings) {f : RatingFile} (hf : f.Shows (p.image ratings)) :
    f.rows.Holds ratings where
  count := hf.count
  bytes := by
    rw [hf.rows, hf.layout]
    rfl
  takes := by
    rw [hf.layout]
    exact h.takes

end Packing

/-- Reading one after the other gives `ratings` and then nothing. -/
inductive RatingCursor.Yields : RatingCursor → List Rating → Prop where
  | done {c : RatingCursor} (h : c.next? = none) : Yields c []
  | step {c c' : RatingCursor} {rating : Rating} {ratings : List Rating}
      (h : c.next? = some (rating, c')) (rest : Yields c' ratings) : Yields c (rating :: ratings)

theorem RatingCursor.yields_rest (c : RatingCursor) : c.Yields c.rest := by
  obtain ⟨source, upcoming⟩ := c
  induction upcoming with
  | nil => exact .done rfl
  | cons row rows ih => exact .step rfl ih

/-- What is packed is loaded unchanged. -/
theorem load_packed (path : String) (layout : RowLayout) (ratings : List Rating) (p : Packing)
    (h : (Packing.start path layout).addAll ratings = (p, none)) (verify : Bool) :
    ∃ file s, p.finish = .ok file ∧ RatingStore.load file.path (some file.bytes) verify = .ok s ∧
      s.header = file.header ∧ s.header.layout = layout ∧
      s.header.ratingCount = ratings.length ∧
      s.header.userCount = (ratings.map Rating.user).eraseDups.length ∧
      s.header.itemCount = (ratings.map Rating.item).eraseDups.length ∧
      (∃ f, s.file? = some f ∧ f.indexEnd = file.bytes.size ∧ f.byteLength = file.bytes.size) ∧
      ∃ c, s.cursor .stored = .ok c ∧ c.Yields (ratings.map layout.stored) := by
  rcases (Packing.holds_start path layout).addAll h with ⟨hholds, -, rfl⟩
  obtain ⟨file, f, hfinish, hheader, hload, hsize, hshows⟩ := hholds.exists_load verify
  have hend : f.indexEnd = file.bytes.size := by
    rw [hshows.indexEnd, hsize, FileImage.bytes_of_trailing_eq_nil rfl]
  have hlength : f.byteLength = file.bytes.size := by
    rw [hshows.byteLength, hsize]
  have husers := hholds.users.length_runs_eq
  have hitems := hholds.items.length_runs_eq
  have hrest : (⟨f.rows, List.finRange f.rows.count⟩ : RatingCursor).rest =
      ratings.map p.layout.stored := by
    rw [RatingCursor.rest, (hholds.rows hshows).map_row_finRange, hshows.layout]
    rfl
  refine ⟨file, _, hfinish, hload, rfl, ?_, ?_, ?_, ?_, ⟨f, rfl, hend, hlength⟩,
    ⟨f.rows, List.finRange f.rows.count⟩, rfl, ?_⟩
  · rw [hheader]
    rfl
  · rw [hheader]
    rfl
  · rw [hheader]
    exact husers
  · rw [hheader]
    exact hitems
  · rw [← hrest]
    exact RatingCursor.yields_rest _

def threeRatings : List Rating :=
  [⟨7, 3, ⟨0x4010000000000000⟩, some 30⟩, ⟨5, 3, ⟨0x7ff8000000000001⟩, some (-20)⟩,
    ⟨7, 4, ⟨0x8000000000000000⟩, some 10⟩]

theorem addAll_threeRatings :
    ∃ p, (Packing.start "ratings.bin" ⟨true⟩).addAll threeRatings = (p, none) :=
  ⟨_, rfl⟩

theorem load_packed_threeRatings :
    ∃ p file s, (Packing.start "ratings.bin" ⟨true⟩).addAll threeRatings = (p, none) ∧
      p.finish = .ok file ∧ RatingStore.load file.path (some file.bytes) true = .ok s ∧
      s.header = ⟨⟨true⟩, 3, 2, 2⟩ ∧
      ∃ c, s.cursor .stored = .ok c ∧ c.Yields threeRatings := by
  rcases addAll_threeRatings with ⟨p, h⟩
  obtain ⟨file, ⟨_, ⟨_, _, _, _⟩, _⟩, hfinish, hload, -, rfl, rfl, rfl, rfl, -, c, hc, hyields⟩ :=
    load_packed _ _ _ p h true
  exact ⟨p, file, _, h, hfinish, hload, rfl, c, hc, hyields⟩

/-- The ratings with a key are those at the places of the key. -/
theorem filterMap_places (ratings : List Rating) (field : Rating → Int64) (key : Int64) :
    (places (ratings.map field) key).filterMap (ratings[·]?) =
      ratings.filter fun r => field r = key := by
  have hupto : ∀ n, n ≤ ratings.length →
      ((List.range n).filter fun i => (ratings.map field)[i]? = some key).filterMap
        (ratings[·]?) = (ratings.take n).filter fun r => field r = key := by
    intro n
    induction n with
    | zero =>
      intro _
      rfl
    | succ n ih =>
      intro hn
      have hlt : n < ratings.length := hn
      rw [List.range_succ, List.filter_append, List.filterMap_append, ih (by omega),
        List.take_succ_eq_append_getElem hlt, List.filter_append]
      by_cases hkey : field ratings[n] = key
      · simp [hkey, hlt]
      · simp [hkey, hlt]
  have hall := hupto ratings.length (Nat.le_refl _)
  rw [List.take_length] at hall
  rw [places, List.length_map]
  exact hall

/-- What `ask` and `keys` tell about `field` is true of `ratings`, in a file of this layout. -/
structure AnswersBy (field : Rating → Int64) (layout : RowLayout) (ratings : List Rating)
    (ask : Int64 → Except Failure (Option Selection)) (keys : Except Failure KeyWindow) : Prop where
  absent : ∀ key, ask key = .ok none ↔ key ∉ ratings.map field
  present : ∀ key ∈ ratings.map field, ∃ selection, ask key = .ok (some selection) ∧
    selection.ratings = (ratings.filter fun r => field r = key).map layout.stored ∧
    selection.rows.map Fin.val = places (ratings.map field) key ∧
    selection.rows.Pairwise (· < ·)
  keys : ∃ w, keys = .ok w ∧ w.toList.Pairwise (· < ·) ∧
    ∀ key, key ∈ w.toList ↔ key ∈ ratings.map field

theorem answersBy_of_image {f : RatingFile} {table : RunTable f.rows.count}
    {ratings : List Rating} {field : Rating → Int64} {rows : RowsByKey}
    (hrows : f.rows.Holds ratings) (himage : table.image = rows.runs)
    (hindex : rows.Indexes (ratings.map field)) :
    AnswersBy field f.rows.layout ratings (fun key => .ok (f.select? table key))
      (.ok table.keys) := by
  constructor
  · intro key
    have hnone : (table.rowsOf? key).map (List.map Fin.val) = none ↔
        key ∉ ratings.map field := by
      rw [RunTable.map_rowsOf? himage, RowsByKey.run?, hindex key, ite_eq_right_iff]
      simp
    rw [← hnone, Option.map_eq_none_iff, Except.ok.injEq, RatingFile.select?,
      Option.map_eq_none_iff]
  · intro key hkey
    have hrun := RunTable.map_rowsOf? himage key
    rw [RowsByKey.run?, hindex key, if_pos hkey, Option.map_eq_some_iff] at hrun
    obtain ⟨run, hrun, hplaces⟩ := hrun
    refine ⟨⟨f.rows, run⟩, ?_, ?_, hplaces, ?_⟩
    · rw [RatingFile.select?, hrun, Option.map_some]
    · rw [Selection.ratings, hrows.map_row_eq, hplaces, filterMap_places]
    · have hascending := places_pairwise (ratings.map field) key
      rw [← hplaces, List.pairwise_map] at hascending
      exact hascending
  · refine ⟨table.keys, rfl, table.keys.toList_pairwise, fun key => ?_⟩
    rw [← RunTable.keys_image, himage, hindex.mem_keys_runs_iff]

/-- Each question about one user or one item is answered with the ratings of the packing. -/
theorem ratings_of_key_packed (path : String) (layout : RowLayout) (ratings : List Rating)
    (p : Packing) (h : (Packing.start path layout).addAll ratings = (p, none)) (verify : Bool) :
    ∃ file s, p.finish = .ok file ∧ RatingStore.load file.path (some file.bytes) verify = .ok s ∧
      AnswersBy Rating.user layout ratings s.ratingsByUser? s.userIds ∧
      AnswersBy Rating.item layout ratings s.ratingsOfItem? s.itemIds := by
  rcases (Packing.holds_start path layout).addAll h with ⟨hholds, -, rfl⟩
  obtain ⟨file, f, hfinish, -, hload, -, hshows⟩ := hholds.exists_load verify
  have hrows := hholds.rows hshows
  have husers := answersBy_of_image hrows hshows.users hholds.users
  have hitems := answersBy_of_image hrows hshows.items hholds.items
  rw [hshows.layout] at husers hitems
  exact ⟨file, _, hfinish, hload, husers, hitems⟩

theorem ratings_of_key_threeRatings :
    ∃ p file s, (Packing.start "ratings.bin" ⟨true⟩).addAll threeRatings = (p, none) ∧
      p.finish = .ok file ∧ RatingStore.load file.path (some file.bytes) true = .ok s ∧
      (∃ selection, s.ratingsByUser? 7 = .ok (some selection) ∧
        selection.rows.map Fin.val = [0, 2]) ∧
      s.ratingsOfItem? 7 = .ok none := by
  rcases addAll_threeRatings with ⟨p, h⟩
  obtain ⟨file, s, hfinish, hload, husers, hitems⟩ := ratings_of_key_packed _ _ _ p h true
  rcases husers.present 7 (by decide) with ⟨selection, hselection, -, hplaces, -⟩
  exact ⟨p, file, s, h, hfinish, hload, ⟨selection, hselection, hplaces⟩,
    (hitems.absent 7).2 (by decide)⟩

end PackedRatings
