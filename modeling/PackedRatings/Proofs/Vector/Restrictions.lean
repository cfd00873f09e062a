import PackedRatings.Proofs.Keys.Cuts
import PackedRatings.Proofs.Outcome
import PackedRatings.Proofs.Vector.DraftRuns

/-!
# Views of vectors are restrictions

The values of a vector stand beside the backing array of its keys, and a view has the same
arrays under bounds of its own. A vector that is made in any way, and cut again and again, has
the entries that the pairs, the draft and the cuts say, and everything that is read from it is
read from these entries.
-/
namespace PackedRatings.KeyedVector

variable {v : KeyedVector} {pairs : List (Int64 × Binary64)} {fallback : Binary64}

/-- The values are the part of the array of values that the bounds of the keys cut out. -/
theorem values_eq_slice (v : KeyedVector) :
    v.values = (v.cells.toList.take v.keys.upper).drop v.keys.lower := by
  have hlower := v.keys.lower_add_length
  have hupper := v.keys.upper_le_size
  apply List.ext_getElem
  · simp [values]
    omega
  · intro i _ _
    simp [values, valueAt]

theorem zip_entries (v : KeyedVector) : v.keys.toList.zip v.values = v.entries := by
  rw [← map_fst_entries, ← map_snd_entries]
  exact (List.zip_of_prod rfl rfl).symm

/-- If the keys are all of their backing array, then the values are all of theirs. -/
theorem entries_of_compact (v : KeyedVector) (h : v.keys.backing.size = v.keys.length) :
    v.entries = v.keys.toList.zip v.cells.toList := by
  have hlower := v.keys.lower_add_length
  have hupper := v.keys.upper_le_size
  have hall : v.keys.lower = 0 ∧ v.keys.upper = v.cells.toList.length := by
    rw [Vector.length_toList]
    omega
  rw [← zip_entries, values_eq_slice, hall.1, hall.2, List.take_length, List.drop_zero]

theorem value?_eq_lookup (v : KeyedVector) (key : Int64) :
    v.value? key = v.entries.lookup key := by
  ext x
  rw [value?_eq_some_iff, PartialMap.lookup_eq_some_iff_mem (DraftVector.entries_ascending v)]

theorem entries_of_wrap {keys : KeyWindow} {values : List Binary64}
    (h : wrap keys values = .ok v) : v.entries = keys.toList.zip values ∧ v.fallback = 0 := by
  rw [wrap] at h
  split at h
  · cases h
    rw [← keys.toList_compact]
    exact ⟨entries_of_compact _ (by simp), rfl⟩
  · cases h

theorem entries_of_ofPairs {pairs : List (Int64 × Binary64)} (h : ofPairs pairs = .ok v) :
    v.entries = sortOn Prod.fst pairs ∧ v.fallback = 0 := by
  simp only [ofPairs, bind_eq_ok_iff] at h
  obtain ⟨keys, hkeys, hwrap⟩ := h
  obtain ⟨hascending, rfl⟩ := KeyWindow.ofAscending_eq_ok_iff.1 hkeys
  rw [(entries_of_wrap hwrap).1, KeyWindow.toList_whole]
  exact ⟨(List.zip_of_prod rfl rfl).symm, (entries_of_wrap hwrap).2⟩

theorem ofPairs_of_ofUnsorted {keys : List Int64} {values : List Binary64}
    (h : ofUnsorted keys values = .ok v) : ofPairs (keys.zip values) = .ok v := by
  simp only [ofUnsorted, bind_eq_ok_iff] at h
  obtain ⟨-, -, hpairs⟩ := h
  exact hpairs

/-- The entries of a snapshot are those of the draft, whether it takes over all slots or copies
those that are assigned. -/
theorem entries_snapshot (d : DraftVector) : d.snapshot.entries = d.entries := by
  rw [DraftVector.snapshot]
  split
  · rename_i hall
    -- The slots stand by the keys of the domain, and these are its whole backing array.
    rw [entries_of_compact _ d.compact, DraftVector.entries, SlotSet.toList_of_size_eq hall]
    apply List.ext_getElem
    · simp [d.compact]
    · intro i _ _
      simp
  · rw [entries_of_compact _ (by simp [KeyWindow.whole, KeyWindow.length]), KeyWindow.toList_whole]
    exact (List.zip_of_prod rfl rfl).symm

/-- A vector shows the entries of another one with keys that satisfy `p`, under its fallback. -/
structure Restricts (view v : KeyedVector) (p : Int64 → Bool) : Prop where
  entries : view.entries = v.entries.filter fun pair => p pair.1
  fallback : view.fallback = v.fallback
  value? : ∀ key, view.value? key = if p key then v.value? key else none
  value : ∀ key, view.value key = if p key then v.value key else v.fallback

theorem restricts_of_entries {view : KeyedVector} {p : Int64 → Bool}
    (hentries : view.entries = v.entries.filter fun pair => p pair.1)
    (hfallback : view.fallback = v.fallback) : view.Restricts v p := by
  have hvalue? : ∀ key, view.value? key = if p key then v.value? key else none := by
    intro key
    ext x
    rw [value?_eq_some_iff, hentries, List.mem_filter]
    by_cases hp : p key
    · simp [hp, value?_eq_some_iff]
    · simp [hp]
  refine ⟨hentries, hfallback, hvalue?, ?_⟩
  intro key
  rw [value, hvalue?, hfallback, value]
  split
  · rfl
  · rfl

theorem valueAt_slice {lower upper : Nat} (ordered : lower ≤ upper)
    (bound : upper ≤ v.keys.length) (j : Fin (v.keys.slice lower upper ordered bound).length) :
    valueAt ⟨v.keys.slice lower upper ordered bound, v.cells, fallback⟩ j =
      v.valueAt (KeyWindow.within ordered bound j) := by
  simp [valueAt, KeyWindow.slice, KeyWindow.within, Nat.add_assoc]

/-- A cut with bounds that enclose the keys with `p` takes the values of these keys with it. -/
theorem entries_slice_of_encloses {lower upper : Nat} {p : Int64 → Bool}
    (h : v.keys.Encloses lower upper p) (ordered : lower ≤ upper)
    (bound : upper ≤ v.keys.length) :
    KeyedVector.entries ⟨v.keys.slice lower upper ordered bound, v.cells, fallback⟩ =
      v.entries.filter fun pair => p pair.1 := by
  have hentry : (fun j => ((v.keys.slice lower upper ordered bound).keyAt j,
      valueAt ⟨v.keys.slice lower upper ordered bound, v.cells, fallback⟩ j)) =
      (fun i => (v.keys.keyAt i, v.valueAt i)) ∘ KeyWindow.within ordered bound := by
    funext j
    exact Prod.ext (KeyWindow.keyAt_slice ordered bound j) (valueAt_slice ordered bound j)
  change List.map _ _ = List.filter _ (List.map _ _)
  rw [hentry, ← List.map_map, KeyWindow.map_within_finRange h, List.filter_map]
  rfl

theorem range_restricts (v : KeyedVector) (start stop : Int64) :
    (v.range start stop).Restricts v fun key => start ≤ key ∧ key < stop :=
  restricts_of_entries (entries_slice_of_encloses (v.keys.encloses_range start stop) _ _) rfl

theorem head_restricts (v : KeyedVector) (stop : Int64) :
    (v.head stop).Restricts v fun key => key < stop :=
  restricts_of_entries (entries_slice_of_encloses (v.keys.encloses_head stop) _ _) rfl

theorem tail_restricts (v : KeyedVector) (start : Int64) :
    (v.tail start).Restricts v fun key => start ≤ key :=
  restricts_of_entries (entries_slice_of_encloses (v.keys.encloses_tail start) _ _) rfl

/-- A vector is made and cut, and the entries and the fallback that it should have then. -/
inductive Reaches : List (Int64 × Binary64) → Binary64 → KeyedVector → Prop where
  | empty : Reaches [] 0 .empty
  | wrap {keys : KeyWindow} {values : List Binary64} {v : KeyedVector}
    (h : wrap keys values = .ok v) : Reaches (keys.toList.zip values) 0 v
  | ofPairs {pairs : List (Int64 × Binary64)} {v : KeyedVector} (h : ofPairs pairs = .ok v) :
    Reaches (sortOn Prod.fst pairs) 0 v
  | ofUnsorted {keys : List Int64} {values : List Binary64} {v : KeyedVector}
    (h : ofUnsorted keys values = .ok v) : Reaches (sortOn Prod.fst (keys.zip values)) 0 v
  | ofMap {μ : Type} [ValueMap μ] {m : μ} {v : KeyedVector} (h : ofMap m = .ok v) :
    Reaches (sortOn Prod.fst (ValueMap.entries m)) 0 v
  | snapshot (d : DraftVector) : Reaches d.entries d.fallback d.snapshot
  | freeze {d frozen : DraftVector} {v : KeyedVector} (h : d.freeze = (.ok v, frozen)) :
    Reaches d.entries d.fallback v
  | withFallback {pairs : List (Int64 × Binary64)} {fallback : Binary64} {v : KeyedVector}
    (hreach : Reaches pairs fallback v) (x : Binary64) : Reaches pairs x (v.withFallback x)
  | range {pairs : List (Int64 × Binary64)} {fallback : Binary64} {v : KeyedVector}
    (hreach : Reaches pairs fallback v) (start stop : Int64) :
    Reaches (pairs.filter fun pair => start ≤ pair.1 ∧ pair.1 < stop) fallback
      (v.range start stop)
  | head {pairs : List (Int64 × Binary64)} {fallback : Binary64} {v : KeyedVector}
    (hreach : Reaches pairs fallback v) (stop : Int64) :
    Reaches (pairs.filter fun pair => pair.1 < stop) fallback (v.head stop)
  | tail {pairs : List (Int64 × Binary64)} {fallback : Binary64} {v : KeyedVector}
    (hreach : Reaches pairs fallback v) (start : Int64) :
    Reaches (pairs.filter fun pair => start ≤ pair.1) fallback (v.tail start)

theorem snapshot_fallback (d : DraftVector) : d.snapshot.fallback = d.fallback := by
  rw [DraftVector.snapshot]
  split
  · rfl
  · rfl

theorem Reaches.entries_eq (hreach : Reaches pairs fallback v) :
    v.entries = pairs ∧ v.fallback = fallback := by
  induction hreach with
  | empty => exact ⟨rfl, rfl⟩
  | wrap h => exact entries_of_wrap h
  | ofPairs h => exact entries_of_ofPairs h
  | ofUnsorted h => exact entries_of_ofPairs (ofPairs_of_ofUnsorted h)
  | ofMap h => exact entries_of_ofPairs h
  | snapshot d => exact ⟨entries_snapshot d, snapshot_fallback d⟩
  | @freeze d frozen v h =>
    obtain ⟨-, rfl, -⟩ := DraftVector.freeze_eq_ok_iff.1 h
    exact ⟨entries_snapshot d, snapshot_fallback d⟩
  | withFallback hreach x ih => exact ⟨ih.1, rfl⟩
  | @range pairs fallback v hreach start stop ih =>
    rw [(v.range_restricts start stop).entries, ih.1]
    exact ⟨rfl, ih.2⟩
  | @head pairs fallback v hreach stop ih =>
    rw [(v.head_restricts stop).entries, ih.1]
    exact ⟨rfl, ih.2⟩
  | @tail pairs fallback v hreach start ih =>
    rw [(v.tail_restricts start).entries, ih.1]
    exact ⟨rfl, ih.2⟩

/-- Everything that is read from the vector is read from `pairs`, in ascending order of keys, and
no look-up reads behind the array of values. -/
structure ReadsAs (v : KeyedVector) (pairs : List (Int64 × Binary64)) (fallback : Binary64) :
    Prop where
  size_cells : v.cells.toArray.size = v.keys.backing.size
  getElem?_cells : ∀ key i, v.keys.position? key = some i →
    ∃ x, v.cells.toArray[v.keys.lower + i]? = some x ∧ v.value? key = some x
  ascending : (pairs.map Prod.fst).Pairwise (· < ·)
  entries : v.entries = pairs
  keys : v.keys.toList = pairs.map Prod.fst
  values : v.values = pairs.map Prod.snd
  slice : (v.cells.toList.take v.keys.upper).drop v.keys.lower = pairs.map Prod.snd
  length : v.length = pairs.length
  first? : v.keys.first? = pairs.head?.map Prod.fst
  last? : v.keys.last? = pairs.getLast?.map Prod.fst
  value? : ∀ key, v.value? key = pairs.lookup key
  value : ∀ key, v.value key = (pairs.lookup key).getD fallback
  contains : ∀ key, v.contains key = true ↔ key ∈ pairs.map Prod.fst

theorem readsAs_entries (v : KeyedVector) : v.ReadsAs v.entries v.fallback where
  size_cells := v.cells.size_toArray
  getElem?_cells := by
    intro key i hposition
    have hsize := v.keys.lower_add_lt_size i.isLt
    refine ⟨v.valueAt i, ?_, by rw [KeyedVector.value?, hposition]; rfl⟩
    rw [Array.getElem?_eq_getElem (by simpa using hsize)]
    rfl
  ascending := DraftVector.entries_ascending v
  entries := rfl
  keys := v.map_fst_entries.symm
  values := v.map_snd_entries.symm
  slice := by rw [map_snd_entries, values_eq_slice]
  length := by simp [KeyedVector.entries, KeyedVector.length]
  first? := by rw [← List.head?_map, map_fst_entries, KeyWindow.first?]
  last? := by rw [← List.getLast?_map, map_fst_entries, KeyWindow.last?]
  value? := v.value?_eq_lookup
  value := by
    intro key
    rw [KeyedVector.value, value?_eq_lookup]
  contains := by
    intro key
    rw [map_fst_entries, KeyedVector.contains, KeyWindow.contains_iff]

/-- Every vector reads as the pairs that it should have, and its views restrict it to a range of
keys, which is empty if its end comes first. -/
theorem reaches_reads (hreach : Reaches pairs fallback v) :
    v.ReadsAs pairs fallback ∧
      (∀ start stop, (v.range start stop).Restricts v fun key => start ≤ key ∧ key < stop) ∧
      (∀ stop, (v.head stop).Restricts v fun key => key < stop) ∧
      (∀ start, (v.tail start).Restricts v fun key => start ≤ key) ∧
      ∀ start stop, stop ≤ start → (v.range start stop).entries = [] := by
  refine ⟨?_, v.range_restricts, v.head_restricts, v.tail_restricts, fun start stop h => ?_⟩
  · rw [← hreach.entries_eq.1, ← hreach.entries_eq.2]
    exact v.readsAs_entries
  · rw [(v.range_restricts start stop).entries, List.filter_eq_nil_iff]
    intro pair _ hpair
    obtain ⟨hstart, hstop⟩ := of_decide_eq_true hpair
    exact Int64.lt_irrefl (Int64.lt_of_lt_of_le hstop (Int64.le_trans h hstart))

/-- A vector over three of four keys of an array, with a fallback, seen from 20 on and below 40
and then from 25 on. -/
theorem reaches_reads_nested_views :
    ∃ keys v, keys.backing = #[10, 20, 30, 40] ∧ keys.lower = 1 ∧
      wrap keys [.nan, 0, .nan] = .ok v ∧
      (((v.withFallback .nan).range 20 40).tail 25).ReadsAs [(30, 0)] .nan := by
  have hascending : [(10 : Int64), 20, 30, 40].Pairwise (· < ·) := by decide
  let keys := (KeyWindow.whole [10, 20, 30, 40] hascending).slice 1 4 (by decide) (Nat.le_refl 4)
  obtain ⟨v, hwrap⟩ : ∃ v, wrap keys [.nan, 0, .nan] = .ok v := ⟨_, dif_pos rfl⟩
  have hreach := (((Reaches.wrap hwrap).withFallback .nan).range 20 40).tail 25
  exact ⟨keys, v, rfl, rfl, hwrap, (reaches_reads hreach).1⟩

end PackedRatings.KeyedVector
