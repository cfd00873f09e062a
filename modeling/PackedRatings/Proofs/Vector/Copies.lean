import PackedRatings.Proofs.Vector.OrderedMaps

/-!
# Copies between drafts and vectors

A snapshot takes over the slots of a draft as they stand if all of them are assigned, and
otherwise collects those that are. It makes no difference: the keys are those that sorting the
assigned keys gives, alone in their backing array, and the values stand beside them. In the other
direction a draft is made of the part of a vector that its bounds show. So nothing is lost on the
way, and every key reads the same before and after.
-/
namespace PackedRatings

/-- A window over all of its backing array is determined by its keys. -/
theorem KeyWindow.eq_compact {w : KeyWindow} (h : w.backing.size = w.length) : w = w.compact := by
  obtain ⟨backing, lower, upper, ascending, lower_le_upper, upper_le_size⟩ := w
  simp only [length] at h
  obtain rfl : lower = 0 := by omega
  obtain rfl : upper = backing.size := by omega
  simp [compact, whole, toList]

/-- If the keys are all of their backing array, then the values of the entries are all values. -/
theorem KeyedVector.cells_eq_of_compact {v : KeyedVector}
    (h : v.keys.backing.size = v.keys.length) : v.cells.toList = v.entries.map Prod.snd := by
  rw [entries_of_compact v h, List.map_snd_zip]
  rw [Vector.length_toList, h, KeyWindow.length_toList]

namespace DraftVector

variable {d : DraftVector} {v : KeyedVector}

/-- Nothing that is asked about entries tells the draft and the vector apart. -/
structure ReadsAlike (d : DraftVector) (v : KeyedVector) : Prop where
  entries : v.entries = d.entries
  length : v.length = d.length
  value? : ∀ key, v.value? key = d.value? key
  value : ∀ key, v.value key = d.value key
  contains : ∀ key, v.contains key = d.contains key

theorem readsAlike_of_entries_eq (hentries : v.entries = d.entries)
    (hfallback : v.fallback = d.fallback) : d.ReadsAlike v := by
  have hmaps : ValueMap.entries v = ValueMap.entries d := hentries
  have hvalue? : ∀ key, v.value? key = d.value? key :=
    congrFun (OrderedValueMap.value?_congr hmaps)
  refine ⟨hentries, OrderedValueMap.count_congr hmaps, hvalue?, ?_, ?_⟩
  · intro key
    rw [KeyedVector.value, hvalue?, hfallback]
    rfl
  · intro key
    rw [DraftVector.contains, ← hvalue?, KeyedVector.value?, Option.isSome_map]
    rfl

/-- The vector has the entries and the fallback of the draft and nothing else. -/
structure Copied (d : DraftVector) (v : KeyedVector) : Prop where
  reads : d.ReadsAlike v
  fallback : v.fallback = d.fallback
  keys : v.keys = .ofRepeating d.keys
  lower : v.keys.lower = 0
  backing : v.keys.backing.toList = d.keys
  size : v.keys.backing.size = d.entries.length
  cells : v.cells.toList = d.entries.map Prod.snd

theorem toList_domain_of_length_eq (h : d.length = d.domain.length) :
    d.domain.toList = d.keys := by
  rw [keys, entries, SlotSet.toList_of_size_eq h, List.map_map, KeyWindow.toList_eq_map]
  rfl

theorem keys_snapshot (d : DraftVector) : d.snapshot.keys = .whole d.keys d.keys_pairwise := by
  rw [snapshot]
  split
  · rename_i hall
    refine (KeyWindow.eq_compact d.compact).trans ?_
    simp only [KeyWindow.compact, toList_domain_of_length_eq hall]
  · rfl

theorem size_backing_snapshot (d : DraftVector) :
    d.snapshot.keys.backing.size = d.snapshot.keys.length := by
  rw [keys_snapshot]
  rfl

theorem copied_snapshot (d : DraftVector) : d.Copied d.snapshot := by
  have hkeys := d.keys_snapshot
  have hfallback := KeyedVector.snapshot_fallback d
  refine ⟨readsAlike_of_entries_eq (KeyedVector.entries_snapshot d) hfallback, hfallback, ?_, ?_,
    ?_, ?_, ?_⟩
  · rw [hkeys, KeyWindow.ofRepeating_eq_whole]
  · rw [hkeys]
    rfl
  · rw [hkeys]
    rfl
  · rw [hkeys]
    exact List.length_map _
  · rw [KeyedVector.cells_eq_of_compact d.size_backing_snapshot, KeyedVector.entries_snapshot]

theorem freeze_eq_ok (h : d.frozen = false) :
    d.freeze = (.ok d.snapshot, { d with frozen := true }) :=
  freeze_eq_ok_iff.2 ⟨h, rfl, rfl⟩

/-- The draft has the keys of the vector for its domain, and each of them has its value. -/
structure CopiedBack (d : DraftVector) (v : KeyedVector) : Prop where
  reads : d.ReadsAlike v
  fallback : d.fallback = v.fallback
  domain : d.domain.toList = v.keys.toList
  slots : d.slots.toList = v.values
  assigned : ∀ key ∈ v.keys.toList, d.contains key = true
  frozen : d.frozen = false

theorem copiedBack_ofVector (v : KeyedVector) : (ofVector v).CopiedBack v := by
  have hreads : (ofVector v).ReadsAlike v := readsAlike_of_entries_eq (entries_ofVector v).symm rfl
  refine ⟨hreads, rfl, v.keys.toList_compact, ?_, ?_, rfl⟩
  · apply List.ext_getElem
    · simp [ofVector, KeyedVector.values]
    · intro i _ _
      simp [ofVector, KeyedVector.values]
  · intro key hkey
    rw [← hreads.contains]
    exact KeyWindow.contains_iff.2 hkey

/-- The drafts have the same entries, and every key reads the same. -/
structure ReadsAs (d e : DraftVector) : Prop where
  entries : d.entries = e.entries
  length : d.length = e.length
  value? : ∀ key, d.value? key = e.value? key
  value : ∀ key, d.value key = e.value key
  contains : ∀ key, d.contains key = e.contains key

theorem ofVector_snapshot_readsAs (d : DraftVector) : (ofVector d.snapshot).ReadsAs d := by
  have hthere := d.copied_snapshot.reads
  have hback := (copiedBack_ofVector d.snapshot).reads
  constructor
  · rw [← hback.entries, hthere.entries]
  · rw [← hback.length, hthere.length]
  · intro key
    rw [← hback.value?, hthere.value?]
  · intro key
    rw [← hback.value, hthere.value]
  · intro key
    rw [← hback.contains, hthere.contains]

theorem copies_lose_nothing :
    (∀ d : DraftVector, d.Copied d.snapshot ∧ (ofVector d.snapshot).ReadsAs d ∧
      (d.frozen = false → d.freeze = (.ok d.snapshot, { d with frozen := true }))) ∧
    ∀ v : KeyedVector, (ofVector v).CopiedBack v ∧
      (ofVector v).snapshot.entries = v.entries ∧ (ofVector v).snapshot.fallback = v.fallback := by
  constructor
  · intro d
    exact ⟨d.copied_snapshot, d.ofVector_snapshot_readsAs, freeze_eq_ok⟩
  · intro v
    have hcopied := (ofVector v).copied_snapshot
    exact ⟨copiedBack_ofVector v, hcopied.reads.entries.trans (entries_ofVector v),
      hcopied.fallback⟩

/-- A draft over three of four keys of an array, with a value in the middle slot. -/
theorem copies_lose_nothing_middleSlot : ∃ d : DraftVector, d.domain.toList = [20, 30, 40] ∧
    d.entries = [(30, .nan)] ∧ d.freeze = (.ok d.snapshot, { d with frozen := true }) ∧
    d.snapshot.entries = [(30, .nan)] ∧ (ofVector d.snapshot).domain.toList = [30] := by
  let w := (KeyWindow.whole [10, 20, 30, 40] (by decide)).slice 1 4 (by decide) (Nat.le_refl 4)
  let d := (ofDomain w).assign ⟨1, by decide⟩ .nan
  have hentries : d.entries = [(30, .nan)] := by decide +kernel
  obtain ⟨hcopied, -, hfreeze⟩ := copies_lose_nothing.1 d
  obtain ⟨hback, -⟩ := copies_lose_nothing.2 d.snapshot
  refine ⟨d, by decide +kernel, hentries, hfreeze rfl, hcopied.reads.entries.trans hentries, ?_⟩
  rw [hback.domain, ← KeyedVector.map_fst_entries, hcopied.reads.entries, hentries]
  rfl

end DraftVector

end PackedRatings
