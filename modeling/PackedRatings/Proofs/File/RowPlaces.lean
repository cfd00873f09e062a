import PackedRatings.File.Packing
import PackedRatings.Proofs.File.Image

/-!
# The row positions of each key

`RowsByKey.Indexes rows keys` says that `rows` lists, under each key of the sequence `keys` and
under no other, the places where the key stands. Noting one key after the other keeps this
true, and then the table of all runs lists every place exactly once.
-/
namespace PackedRatings

def places (keys : List Int64) (key : Int64) : List Nat :=
  (List.range keys.length).filter fun i => keys[i]? = some key

theorem mem_places {keys : List Int64} {key : Int64} {i : Nat} :
    i ∈ places keys key ↔ keys[i]? = some key := by
  rw [places, List.mem_filter, List.mem_range, decide_eq_true_eq, and_iff_right_iff_imp]
  intro h
  exact (List.getElem?_eq_some_iff.1 h).1

theorem places_pairwise (keys : List Int64) (key : Int64) :
    (places keys key).Pairwise (· < ·) :=
  List.pairwise_lt_range.filter _

theorem length_places_le (keys : List Int64) (key : Int64) :
    (places keys key).length ≤ keys.length := by
  rw [places]
  apply Nat.le_trans (List.length_filter_le _ _)
  exact Nat.le_of_eq List.length_range

theorem places_concat (keys : List Int64) (k key : Int64) :
    places (keys ++ [k]) key = places keys key ++ if k = key then [keys.length] else [] := by
  have hbefore : (List.range keys.length).filter (fun i => (keys ++ [k])[i]? = some key) =
      places keys key := by
    apply List.filter_congr
    intro i hi
    rw [List.getElem?_append_left (List.mem_range.1 hi)]
  rw [places, List.length_append, List.length_singleton, List.range_succ, List.filter_append,
    hbefore]
  by_cases hk : k = key
  · simp [hk]
  · simp [hk]

theorem places_eq_nil {keys : List Int64} {key : Int64} (h : key ∉ keys) :
    places keys key = [] := by
  rw [List.eq_nil_iff_forall_not_mem]
  intro i hi
  exact h (List.mem_of_getElem? (mem_places.1 hi))

theorem nodup_eraseDups (keys : List Int64) : keys.eraseDups.Nodup := by
  -- Each step erases the repeats of one key from the rest, which may shorten it by more than one.
  induction hn : keys.length using Nat.strongRecOn generalizing keys with
  | _ n ih =>
    cases keys with
    | nil => simp
    | cons key keys =>
      have hlt : (keys.filter fun k => !k == key).length < n := by
        rw [← hn, List.length_cons]
        exact Nat.lt_succ_of_le (List.length_filter_le _ _)
      rw [List.eraseDups_cons, List.nodup_cons, List.mem_eraseDups]
      exact ⟨by simp, ih _ hlt _ rfl⟩

namespace RowsByKey

def Indexes (rows : RowsByKey) (keys : List Int64) : Prop :=
  ∀ key, rows[key]?.map Array.toList = if key ∈ keys then some (places keys key) else none

theorem indexes_empty : Indexes ∅ [] := by
  intro key
  simp

theorem Indexes.note {rows : RowsByKey} {keys : List Int64} (h : rows.Indexes keys)
    (key : Int64) : (rows.note key keys.length).Indexes (keys ++ [key]) := by
  intro k
  rw [RowsByKey.note, Std.TreeMap.getElem?_alter, places_concat]
  by_cases hk : key = k
  · subst hk
    have hrun := h key
    by_cases hmem : key ∈ keys
    · rw [if_pos hmem, Option.map_eq_some_iff] at hrun
      obtain ⟨run, hrow, hrun⟩ := hrun
      simp [hrow, hrun]
    · rw [if_neg hmem, Option.map_eq_none_iff] at hrun
      simp [hrun, places_eq_nil hmem]
  · have hne : compare key k ≠ .eq := by simpa using hk
    have hmem : k ∈ keys ++ [key] ↔ k ∈ keys := by simp [Ne.symm hk]
    rw [if_neg hne, if_neg hk, List.append_nil, h k]
    simp only [hmem]

variable {rows : RowsByKey} {keys : List Int64}

theorem mem_runs_iff {rows : RowsByKey} {key : Int64} {run : List Nat} :
    (key, run) ∈ rows.runs ↔ rows[key]?.map Array.toList = some run := by
  simp only [runs, List.mem_map, Prod.exists, Prod.mk.injEq, Option.map_eq_some_iff,
    Std.TreeMap.mem_toList_iff_getElem?_eq_some]
  constructor
  · rintro ⟨_, stored, hstored, rfl, rfl⟩
    exact ⟨stored, hstored, rfl⟩
  · rintro ⟨stored, hstored, rfl⟩
    exact ⟨key, stored, hstored, rfl, rfl⟩

theorem Indexes.mem_runs_iff (h : rows.Indexes keys) {key : Int64} {run : List Nat} :
    (key, run) ∈ rows.runs ↔ key ∈ keys ∧ run = places keys key := by
  rw [RowsByKey.mem_runs_iff, h key]
  by_cases hkey : key ∈ keys
  · simp [hkey, eq_comm]
  · simp [hkey]

theorem keys_runs (rows : RowsByKey) : TableImage.keys rows.runs = rows.keys := by
  rw [TableImage.keys, runs, List.map_map, ← Std.TreeMap.map_fst_toList_eq_keys]
  rfl

theorem keys_runs_pairwise (rows : RowsByKey) :
    (TableImage.keys rows.runs).Pairwise (· < ·) := by
  rw [keys_runs]
  exact Std.TreeMap.ordered_keys.imp fun h => Std.compare_eq_lt.1 h

theorem length_runs (rows : RowsByKey) : rows.runs.length = rows.size := by
  rw [runs, List.length_map, Std.TreeMap.length_toList]

theorem Indexes.mem_keys_runs_iff (h : rows.Indexes keys) {key : Int64} :
    key ∈ TableImage.keys rows.runs ↔ key ∈ keys := by
  rw [TableImage.keys, List.mem_map]
  constructor
  · rintro ⟨⟨k, run⟩, hmem, rfl⟩
    exact (h.mem_runs_iff.1 hmem).1
  · intro hkey
    exact ⟨(key, places keys key), h.mem_runs_iff.2 ⟨hkey, rfl⟩, rfl⟩

/-- Every place is listed exactly once. -/
theorem Indexes.positions_perm (h : rows.Indexes keys) :
    (TableImage.positions rows.runs).Perm (List.range keys.length) := by
  have hnodup : (TableImage.positions rows.runs).Nodup := by
    refine List.pairwise_flatMap.2 ⟨?_, ?_⟩
    · rintro ⟨key, run⟩ hmem
      rw [(h.mem_runs_iff.1 hmem).2]
      exact (places_pairwise keys key).imp Nat.ne_of_lt
    · -- A place in two runs would hold two keys.
      have hkeys : rows.runs.Pairwise fun a b => a.1 ≠ b.1 :=
        (List.pairwise_map.1 rows.keys_runs_pairwise).imp Int64.ne_of_lt
      apply hkeys.imp_of_mem
      rintro ⟨key, run⟩ ⟨key', run'⟩ hmem hmem' hne i hi j hj rfl
      rw [(h.mem_runs_iff.1 hmem).2, mem_places] at hi
      rw [(h.mem_runs_iff.1 hmem').2, mem_places, hi] at hj
      exact hne (Option.some.inj hj)
  refine (List.perm_ext_iff_of_nodup hnodup List.nodup_range).2 fun i => ?_
  rw [TableImage.positions, List.mem_flatMap, List.mem_range]
  constructor
  · rintro ⟨⟨key, run⟩, hmem, hi⟩
    rw [(h.mem_runs_iff.1 hmem).2, mem_places] at hi
    exact (List.getElem?_eq_some_iff.1 hi).1
  · intro hi
    have hkey := List.getElem?_eq_getElem hi
    exact ⟨(keys[i], places keys keys[i]),
      h.mem_runs_iff.2 ⟨List.getElem_mem hi, rfl⟩, mem_places.2 hkey⟩

/-- The table of all runs is one that the format allows. -/
theorem Indexes.wellFormed_runs (h : rows.Indexes keys) :
    TableImage.WellFormed rows.runs keys.length where
  ascending := rows.keys_runs_pairwise
  inRange := fun _ hrow => List.mem_range.1 (h.positions_perm.subset hrow)
  complete := by rw [h.positions_perm.length_eq, List.length_range]

theorem Indexes.length_runs_le (h : rows.Indexes keys) : rows.runs.length ≤ keys.length := by
  have hnodup : (TableImage.keys rows.runs).Nodup := rows.keys_runs_pairwise.imp Int64.ne_of_lt
  have hle := hnodup.length_le_of_subset fun key hkey => h.mem_keys_runs_iff.1 hkey
  rwa [TableImage.keys, List.length_map] at hle

theorem Indexes.length_runs_eq (h : rows.Indexes keys) :
    rows.runs.length = keys.eraseDups.length := by
  have hnodup : (TableImage.keys rows.runs).Nodup := rows.keys_runs_pairwise.imp Int64.ne_of_lt
  have hperm : (TableImage.keys rows.runs).Perm keys.eraseDups :=
    (List.perm_ext_iff_of_nodup hnodup (nodup_eraseDups keys)).2 fun key => by
      rw [h.mem_keys_runs_iff, List.mem_eraseDups]
  rw [← hperm.length_eq, TableImage.keys, List.length_map]

end RowsByKey

end PackedRatings
