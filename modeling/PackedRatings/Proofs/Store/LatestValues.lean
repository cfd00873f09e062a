import Mathlib.Data.List.Induction
import Std.Data.HashMap
import PackedRatings.Proofs.Keys.StableSort
import PackedRatings.Proofs.Store.TimeOrder
import PackedRatings.Proofs.Vector.Restrictions

/-!
# The latest rating wins

A pass over a list of ratings keeps one rating for each key and replaces it by each one that is not
earlier. What it keeps in the end is the last of the ratings that come latest, so it is what stays
when the values are assigned one after the other in the order of time. The ratings may be kept in a
table without an order: sorting its entries by key in any way gives one vector.
-/
namespace PackedRatings

/-- The time of a rating. Ratings without a timestamp all come at the same time. -/
def Rating.time (r : Rating) : Int64 :=
  r.timestamp.getD 0

theorem notAfter_eq_decide {r r' : Rating} (h : r.timestamp.isSome = r'.timestamp.isSome) :
    RowSection.notAfter r.timestamp r'.timestamp = decide (r.time ≤ r'.time) := by
  rw [Rating.time, Rating.time]
  cases hr : r.timestamp with
  | none =>
    have hr' : r'.timestamp = none := by simpa [hr] using h
    simp [RowSection.notAfter, hr']
  | some t =>
    obtain ⟨t', ht'⟩ : ∃ t', r'.timestamp = some t' :=
      Option.isSome_iff_exists.1 (by simp [← h, hr])
    simp [RowSection.notAfter, ht']

namespace Selection

variable {key : Rating → Int64} {ratings : List Rating} {k : Int64} {r r' : Rating}

/-- Of the ratings with the key `k`, those in front of `r` are not later, and those behind it are
earlier. -/
structure IsLatest (key : Rating → Int64) (ratings : List Rating) (k : Int64) (r : Rating) :
    Prop where
  key_eq : key r = k
  place : ∃ before after, ratings = before ++ r :: after ∧
    (∀ r' ∈ before, key r' = k → r'.time ≤ r.time) ∧
    ∀ r' ∈ after, key r' = k → r'.time < r.time

theorem IsLatest.mem (h : IsLatest key ratings k r) : r ∈ ratings := by
  obtain ⟨before, after, rfl, -, -⟩ := h.place
  exact List.mem_append_right before List.mem_cons_self

theorem IsLatest.le (h : IsLatest key ratings k r) (hr' : r' ∈ ratings) (hk : key r' = k) :
    r'.time ≤ r.time := by
  obtain ⟨before, after, rfl, hbefore, hafter⟩ := h.place
  rcases List.mem_append.1 hr' with hr' | hr'
  · exact hbefore r' hr' hk
  · rcases List.mem_cons.1 hr' with rfl | hr'
    · exact Int64.le_refl _
    · exact Int64.le_of_lt (hafter r' hr' hk)

/-- An earlier rating, or one with another key, changes nothing. -/
theorem IsLatest.concat (h : IsLatest key ratings k r) (hr' : key r' = k → r'.time < r.time) :
    IsLatest key (ratings ++ [r']) k r where
  key_eq := h.key_eq
  place := by
    obtain ⟨before, after, rfl, hbefore, hafter⟩ := h.place
    refine ⟨before, after ++ [r'], by simp, hbefore, ?_⟩
    intro r₂ hr₂ hk
    rcases List.mem_append.1 hr₂ with hr₂ | hr₂
    · exact hafter r₂ hr₂ hk
    · rw [List.mem_singleton.1 hr₂] at hk ⊢
      exact hr' hk

theorem isLatest_concat (hk : key r = k) (hle : ∀ r' ∈ ratings, key r' = k → r'.time ≤ r.time) :
    IsLatest key (ratings ++ [r]) k r where
  key_eq := hk
  place := ⟨ratings, [], rfl, hle, nofun⟩

/-- Among the ratings of its own time and key, the last of the latest is the last. -/
theorem IsLatest.getLast?_sameTime (h : IsLatest key ratings k r) :
    (withKey key (withKey Rating.time ratings r.time) k).getLast? = some r := by
  obtain ⟨before, after, rfl, -, hafter⟩ := h.place
  have hnone : withKey key (withKey Rating.time after r.time) k = [] := by
    rw [List.eq_nil_iff_forall_not_mem]
    intro r' hr'
    obtain ⟨hr', hk⟩ := mem_withKey.1 hr'
    obtain ⟨hr', htime⟩ := mem_withKey.1 hr'
    exact Int64.lt_irrefl (htime ▸ hafter r' hr' hk)
  have hsplit : withKey key (withKey Rating.time (before ++ r :: after) r.time) k =
      withKey key (withKey Rating.time before r.time) k ++
        r :: withKey key (withKey Rating.time after r.time) k := by
    simp [withKey, h.key_eq]
  rw [hsplit, hnone, List.getLast?_concat]

/-- The last of the latest is the last rating of its key when all are sorted by time. -/
theorem IsLatest.getLast?_withKey (h : IsLatest key ratings k r) :
    (withKey key (sortOn Rating.time ratings) k).getLast? = some r := by
  have hmem : r ∈ withKey key (sortOn Rating.time ratings) k :=
    mem_withKey.2 ⟨(sortOn_perm _ _).mem_iff.2 h.mem, h.key_eq⟩
  obtain ⟨front, last, hlast⟩ : ∃ front last,
      withKey key (sortOn Rating.time ratings) k = front ++ [last] :=
    ⟨_, _, (List.dropLast_concat_getLast (List.ne_nil_of_mem hmem)).symm⟩
  -- Nothing comes after the last one, and it does not come after `r`.
  have htime : last.time = r.time := by
    have hsorted : (front ++ [last]).Pairwise fun a b => a.time ≤ b.time := by
      rw [← hlast]
      exact (sortOn_pairwise Rating.time ratings).filter _
    have hin : last ∈ withKey key (sortOn Rating.time ratings) k := by simp [hlast]
    have hle : last.time ≤ r.time :=
      h.le ((sortOn_perm _ _).mem_iff.1 (mem_withKey.1 hin).1) (mem_withKey.1 hin).2
    rw [hlast] at hmem
    rcases List.mem_append.1 hmem with hr | hr
    · exact Int64.le_antisymm hle ((List.pairwise_append.1 hsorted).2.2 r hr last (by simp))
    · rw [List.mem_singleton.1 hr]
  -- Sorting does not move the ratings of one time, and `r` is the last of them.
  have hsame : withKey Rating.time (front ++ [last]) r.time =
      withKey key (withKey Rating.time ratings r.time) k := by
    rw [← hlast, ← withKey_sortOn Rating.time ratings]
    exact List.filter_comm _ _ _
  have hend := h.getLast?_sameTime
  rw [← hsame, withKey, List.filter_append, List.filter_singleton, htime, decide_eq_true rfl,
    cond_true, List.getLast?_concat] at hend
  rw [hlast, List.getLast?_concat, hend]

def Stamped (timestamps : Bool) (ratings : List Rating) : Prop :=
  ∀ r ∈ ratings, r.timestamp.isSome = timestamps

theorem latest_concat (key : Rating → Int64) (ratings : List Rating) (r : Rating) :
    latest key (ratings ++ [r]) = (latest key ratings).alter (key r) (laterOf r) :=
  List.foldl_append

theorem laterOf_some (h : r.timestamp.isSome = r'.timestamp.isSome) :
    laterOf r' (some r) = some (if r.time ≤ r'.time then r' else r) := by
  rw [laterOf, notAfter_eq_decide h]
  simp only [decide_eq_true_eq]
  split
  · rfl
  · rfl

/-- The rating kept for a key is the last of its latest, and none is kept if there is none. -/
theorem latest_cases {timestamps : Bool} (h : Stamped timestamps ratings) (k : Int64) :
    (∃ r, (latest key ratings)[k]? = some r ∧ IsLatest key ratings k r) ∨
      (latest key ratings)[k]? = none ∧ k ∉ ratings.map key := by
  induction ratings using List.reverseRecOn with
  | nil =>
    right
    exact ⟨Std.TreeMap.getElem?_emptyc, List.not_mem_nil⟩
  | append_singleton ratings r ih =>
    have hall : Stamped timestamps ratings := fun r' hr' => h r' (List.mem_append_left _ hr')
    have hr : r.timestamp.isSome = timestamps := h r (by simp)
    rw [latest_concat, Std.TreeMap.getElem?_alter]
    by_cases hk : key r = k
    · left
      subst hk
      rw [if_pos Std.compare_self]
      rcases ih hall with ⟨kept, hkept, hlatest⟩ | ⟨hnone, habsent⟩
      · rw [hkept, laterOf_some ((hall kept hlatest.mem).trans hr.symm)]
        refine ⟨_, rfl, ?_⟩
        split
        · rename_i hle
          exact isLatest_concat rfl fun r' hr' hk => Int64.le_trans (hlatest.le hr' hk) hle
        · rename_i hlt
          exact hlatest.concat fun _ => Int64.not_le.1 hlt
      · rw [hnone]
        refine ⟨r, rfl, isLatest_concat rfl fun r' hr' hk => ?_⟩
        exact absurd (List.mem_map.2 ⟨r', hr', hk⟩) habsent
    · have hne : compare (key r) k ≠ .eq := by simpa using hk
      rw [if_neg hne]
      rcases ih hall with ⟨kept, hkept, hlatest⟩ | ⟨hnone, habsent⟩
      · exact .inl ⟨kept, hkept, hlatest.concat fun h => absurd h hk⟩
      · right
        refine ⟨hnone, ?_⟩
        rw [List.map_append, List.mem_append]
        rintro (hmem | hmem)
        · exact habsent hmem
        · exact hk (List.mem_singleton.1 hmem).symm

/-- The values that stay when they are assigned to their keys one after the other. -/
def assigned (key : Rating → Int64) (ratings : List Rating) : Std.TreeMap Int64 Binary64 :=
  ratings.foldl (fun values r => values.insert (key r) r.value) ∅

/-- The last assignment to a key counts. -/
theorem getElem?_assigned (key : Rating → Int64) (ratings : List Rating) (k : Int64) :
    (assigned key ratings)[k]? = (withKey key ratings k).getLast?.map Rating.value := by
  induction ratings using List.reverseRecOn with
  | nil => exact Std.TreeMap.getElem?_emptyc
  | append_singleton ratings r ih =>
    have hconcat : assigned key (ratings ++ [r]) = (assigned key ratings).insert (key r) r.value :=
      List.foldl_append
    rw [hconcat, Std.TreeMap.getElem?_insert, withKey, List.filter_append]
    by_cases hk : key r = k
    · subst hk
      simp
    · have hne : compare (key r) k ≠ .eq := by simpa using hk
      rw [if_neg hne, ih]
      simp [withKey, hk]

/-- The pass keeps for each key what is assigned to it last in the order of time. -/
theorem getElem?_latest_eq_assigned {timestamps : Bool} (h : Stamped timestamps ratings)
    (key : Rating → Int64) (k : Int64) :
    (latest key ratings)[k]?.map Rating.value =
      (assigned key (sortOn Rating.time ratings))[k]? := by
  rw [getElem?_assigned]
  rcases latest_cases h k with ⟨r, hr, hlatest⟩ | ⟨hnone, habsent⟩
  · rw [hr, hlatest.getLast?_withKey]
  · have hnil : withKey key (sortOn Rating.time ratings) k = [] := by
      rw [List.eq_nil_iff_forall_not_mem]
      intro r hr
      obtain ⟨hr, hk⟩ := mem_withKey.1 hr
      exact habsent (List.mem_map.2 ⟨r, (sortOn_perm _ _).mem_iff.1 hr, hk⟩)
    rw [hnone, hnil]
    rfl

def latestEntries (key : Rating → Int64) (ratings : List Rating) : List (Int64 × Binary64) :=
  (latest key ratings).toList.map fun (k, r) => (k, r.value)

theorem latestEntries_ascending (key : Rating → Int64) (ratings : List Rating) :
    (latestEntries key ratings).Pairwise fun a b => a.1 < b.1 :=
  List.pairwise_map.2 ((latest key ratings).ordered_keys_toList.imp Std.compare_eq_lt.1)

theorem mem_latestEntries_iff {x : Binary64} :
    (k, x) ∈ latestEntries key ratings ↔ (latest key ratings)[k]?.map Rating.value = some x := by
  rw [latestEntries, List.mem_map, Option.map_eq_some_iff]
  constructor
  · rintro ⟨⟨k, r⟩, hmem, heq⟩
    cases heq
    exact ⟨r, Std.TreeMap.mem_toList_iff_getElem?_eq_some.1 hmem, rfl⟩
  · rintro ⟨r, hr, rfl⟩
    exact ⟨(k, r), Std.TreeMap.mem_toList_iff_getElem?_eq_some.2 hr, rfl⟩

/-- The timestamp and the value of the latest rating of each key, in a table without an order. -/
def hashedLatest (key : Rating → Int64) (ratings : List Rating) :
    Std.HashMap Int64 (Option Int64 × Binary64) :=
  ratings.foldl (fun kept r => kept.alter (key r) fun
    | none => some (r.timestamp, r.value)
    | some entry =>
      if RowSection.notAfter entry.1 r.timestamp then some (r.timestamp, r.value)
      else some entry) ∅

theorem getElem?_hashedLatest (key : Rating → Int64) (ratings : List Rating) (k : Int64) :
    (hashedLatest key ratings)[k]? =
      (latest key ratings)[k]?.map fun r => (r.timestamp, r.value) := by
  induction ratings using List.reverseRecOn with
  | nil => simp [hashedLatest, latest]
  | append_singleton ratings r ih =>
    rw [hashedLatest, List.foldl_append, latest_concat, Std.TreeMap.getElem?_alter]
    change (Std.HashMap.alter (hashedLatest key ratings) _ _)[k]? = _
    rw [Std.HashMap.getElem?_alter]
    by_cases hk : key r = k
    · subst hk
      rw [if_pos BEq.rfl, if_pos Std.compare_self, ih]
      cases (latest key ratings)[key r]? with
      | none => rfl
      | some kept =>
        simp only [Option.map_some, laterOf]
        split
        · rfl
        · rfl
    · have hne : compare (key r) k ≠ .eq := by simpa using hk
      rw [if_neg (by simpa using hk), if_neg hne, ih]

/-- However the entries of the table are listed and sorted by key, the same list results. -/
theorem eq_latestEntries {pairs sorted : List (Int64 × Binary64)}
    (hpairs : pairs.Perm ((hashedLatest key ratings).toList.map fun (k, entry) => (k, entry.2)))
    (hperm : sorted.Perm pairs) (hsorted : sorted.Pairwise fun a b => a.1 ≤ b.1) :
    sorted = latestEntries key ratings := by
  have hnodup : (sorted.map Prod.fst).Nodup := by
    have hkeys : (pairs.map Prod.fst).Perm (hashedLatest key ratings).keys := by
      rw [← Std.HashMap.map_fst_toList_eq_keys]
      have hmap := hpairs.map Prod.fst
      rw [List.map_map] at hmap
      exact hmap
    exact ((hperm.map Prod.fst).trans hkeys).nodup_iff.2 Std.HashMap.nodup_keys
  have hascending : sorted.Pairwise fun a b => a.1 < b.1 :=
    List.pairwise_map.1 (pairwise_lt_of_sorted (List.pairwise_map.2 hsorted) hnodup)
  apply eq_of_mem_iff_of_ascending hascending (latestEntries_ascending key ratings)
  rintro ⟨k, x⟩
  rw [(hperm.trans hpairs).mem_iff, mem_latestEntries_iff, List.mem_map]
  constructor
  · rintro ⟨⟨k, entry⟩, hmem, heq⟩
    cases heq
    rw [Std.HashMap.mem_toList_iff_getElem?_eq_some, getElem?_hashedLatest,
      Option.map_eq_some_iff] at hmem
    obtain ⟨r, hr, rfl⟩ := hmem
    rw [hr]
    rfl
  · intro hkept
    obtain ⟨r, hr, rfl⟩ := Option.map_eq_some_iff.1 hkept
    refine ⟨(k, (r.timestamp, r.value)), ?_, rfl⟩
    rw [Std.HashMap.mem_toList_iff_getElem?_eq_some, getElem?_hashedLatest, hr]
    rfl

end Selection

def KeyedVector.ofSorted (pairs : List (Int64 × Binary64)) : Except Failure KeyedVector := do
  let keys ← KeyWindow.ofAscending (pairs.map Prod.fst)
  wrap keys (pairs.map Prod.snd)

namespace Selection

variable {key : Rating → Int64} {ratings : List Rating}

theorem sortOn_latestEntries (key : Rating → Int64) (ratings : List Rating) :
    sortOn Prod.fst (latestEntries key ratings) = latestEntries key ratings :=
  List.mergeSort_of_pairwise ((latestEntries_ascending key ratings).imp fun h =>
    decide_eq_true (Int64.le_of_lt h))

/-- The vector has each key of the ratings once, with the value of its latest rating. -/
structure LatestWins (key : Rating → Int64) (ratings : List Rating) (v : KeyedVector) : Prop where
  ascending : v.keys.toList.Pairwise (· < ·)
  mem_keys_iff : ∀ k, k ∈ v.keys.toList ↔ k ∈ ratings.map key
  value? : ∀ k ∈ ratings.map key, ∃ r, IsLatest key ratings k r ∧ v.value? k = some r.value
  entries : v.entries = (assigned key (sortOn Rating.time ratings)).toList
  anyOrder : ∀ pairs sorted : List (Int64 × Binary64),
    pairs.Perm ((hashedLatest key ratings).toList.map fun (k, entry) => (k, entry.2)) →
    sorted.Perm pairs → (sorted.Pairwise fun a b => a.1 ≤ b.1) → KeyedVector.ofSorted sorted = .ok v

theorem exists_latestWins {timestamps : Bool} (h : Stamped timestamps ratings)
    (key : Rating → Int64) :
    ∃ v, latestValues key ratings = .ok v ∧ LatestWins key ratings v := by
  have hdistinct : ((latestEntries key ratings).map Prod.fst).Nodup :=
    List.pairwise_map.2 ((latestEntries_ascending key ratings).imp Int64.ne_of_lt)
  obtain ⟨v, hv⟩ := KeyedVector.exists_ofPairs_eq_ok hdistinct
  have hentries : v.entries = latestEntries key ratings := by
    rw [(KeyedVector.entries_of_ofPairs hv).1, sortOn_latestEntries]
  have hvalue : ∀ k, v.value? k = (latest key ratings)[k]?.map Rating.value := by
    intro k
    ext x
    rw [KeyedVector.value?_eq_some_iff, hentries, mem_latestEntries_iff]
  refine ⟨v, hv, v.keys.toList_pairwise, ?_, ?_, ?_, ?_⟩
  · intro k
    have hmem : k ∈ v.keys.toList ↔ ∃ r, (latest key ratings)[k]? = some r := by
      rw [← v.map_fst_entries, List.mem_map]
      constructor
      · rintro ⟨⟨k, x⟩, hmem, rfl⟩
        rw [hentries, mem_latestEntries_iff, Option.map_eq_some_iff] at hmem
        obtain ⟨r, hr, -⟩ := hmem
        exact ⟨r, hr⟩
      · rintro ⟨r, hr⟩
        refine ⟨(k, r.value), ?_, rfl⟩
        rw [hentries, mem_latestEntries_iff, hr]
        rfl
    rw [hmem]
    rcases latest_cases h k with ⟨r, hr, hlatest⟩ | ⟨hnone, habsent⟩
    · exact iff_of_true ⟨r, hr⟩ (List.mem_map.2 ⟨r, hlatest.mem, hlatest.key_eq⟩)
    · exact iff_of_false (by simp [hnone]) habsent
  · intro k hk
    rcases latest_cases h k with ⟨r, hr, hlatest⟩ | ⟨-, habsent⟩
    · exact ⟨r, hlatest, by rw [hvalue, hr]; rfl⟩
    · exact absurd hk habsent
  · have hascending : (assigned key (sortOn Rating.time ratings)).toList.Pairwise
        fun a b => a.1 < b.1 :=
      Std.TreeMap.ordered_keys_toList.imp Std.compare_eq_lt.1
    rw [hentries]
    apply eq_of_mem_iff_of_ascending (latestEntries_ascending key ratings) hascending
    rintro ⟨k, x⟩
    rw [mem_latestEntries_iff, getElem?_latest_eq_assigned h,
      Std.TreeMap.mem_toList_iff_getElem?_eq_some]
  · intro pairs sorted hpairs hperm hsorted
    rw [eq_latestEntries hpairs hperm hsorted, ← hv]
    change _ = KeyedVector.ofSorted (sortOn Prod.fst (latestEntries key ratings))
    rw [sortOn_latestEntries]

/-- The rows of a file have timestamps exactly if its layout has them. -/
theorem timestamp_of_mem_ratings {selection : Selection} {r : Rating}
    (hr : r ∈ selection.ratings) :
    r.timestamp = if selection.source.layout.timestamps then some r.time else none := by
  obtain ⟨i, -, rfl⟩ := List.mem_map.1 hr
  cases htimestamps : selection.source.layout.timestamps with
  | false => exact if_neg (by simp [htimestamps])
  | true => exact RowSection.timestamp_row htimestamps i

theorem stamped_ratings (selection : Selection) :
    Stamped selection.source.layout.timestamps selection.ratings := by
  intro r hr
  rw [timestamp_of_mem_ratings hr]
  cases selection.source.layout.timestamps with
  | false => rfl
  | true => rfl

end Selection

namespace RatingStore

/-- The vectors of a list of ratings from a loaded file always exist, and the latest ratings win in
them. -/
theorem load_latest_wins {path : String} {file : ByteArray} {verify : Bool} {s : RatingStore}
    {selection : Selection} (h : load path (some file) verify = .ok s)
    (hselection : View.TakenFrom s (.selection selection)) :
    (∀ r ∈ selection.ratings,
      r.timestamp = if s.header.layout.timestamps then some r.time else none) ∧
    (∃ v, selection.latestByItem = .ok v ∧
      Selection.LatestWins Rating.item selection.ratings v) ∧
    ∃ v, selection.latestByUser = .ok v ∧
      Selection.LatestWins Rating.user selection.ratings v := by
  obtain ⟨rows, hrows⟩ := exists_hasRows h
  obtain ⟨f, hfile, hsource⟩ := hselection.exists_file
  have hlayout : selection.source.layout = s.header.layout := by
    obtain ⟨f', hfile', rfl⟩ := hrows.file?
    rw [hfile] at hfile'
    cases hfile'
    rw [← hrows.layout, ← hsource]
    rfl
  refine ⟨fun r hr => ?_, ?_, ?_⟩
  · rw [← hlayout]
    exact Selection.timestamp_of_mem_ratings hr
  · exact Selection.exists_latestWins selection.stamped_ratings Rating.item
  · exact Selection.exists_latestWins selection.stamped_ratings Rating.user

/-- User 7 rates item 3 at time 30, and the rating of user 5, which is added later, is older. -/
theorem load_latest_wins_threeRatings : ∃ path file s selection v,
    load path (some file) true = .ok s ∧
      s.ratingsOfItem? 3 = .ok (some selection) ∧ selection.latestByItem = .ok v ∧
      v.entries = [(3, ⟨0x4010000000000000⟩)] := by
  obtain ⟨p, hp⟩ := addAll_threeRatings
  obtain ⟨hholds, -, hlayout⟩ := (Packing.holds_start "ratings.bin" ⟨true⟩).addAll hp
  obtain ⟨file, f, -, -, hload, -, hshows⟩ := hholds.exists_load true
  have hitems := answersBy_of_image (hholds.rows hshows) hshows.items hholds.items
  obtain ⟨selection, hask, hratings, -⟩ := hitems.present 3 (by decide)
  have hstored : selection.ratings = threeRatings.take 2 := by
    rw [hratings, hshows.layout.trans hlayout]
    rfl
  obtain ⟨-, ⟨v, hv, hwins⟩, -⟩ := load_latest_wins hload (.ofItem hask)
  have hascending : [(-20 : Int64), 30].Pairwise (· < ·) := by decide
  refine ⟨file.path, file.bytes, _, selection, v, hload, hask, hv, ?_⟩
  rw [hwins.entries, hstored, ← flatMap_withKey hascending (by decide)]
  decide +kernel

end RatingStore

end PackedRatings
