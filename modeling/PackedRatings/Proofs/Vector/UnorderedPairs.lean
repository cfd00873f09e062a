import PackedRatings.Proofs.Keys.Repeats
import PackedRatings.Proofs.Vector.OrderedMaps
import PackedRatings.Proofs.Vector.Pairs

/-!
# Vectors of pairs in any order

Pairs with distinct keys make one vector, whatever their order and however they are sorted, and
each key keeps its own value in it. If keys repeat, then the least of them is reported, again
whatever the order. Every map that yields its keys once is copied entry by entry.
-/
namespace PackedRatings.KeyedVector

variable {pairs pairs' : List (Int64 × Binary64)} {v : KeyedVector} {failure : Failure}

theorem ofPairs_of_leastRepeated {key : Int64} (h : LeastRepeated (pairs.map Prod.fst) key) :
    ofPairs pairs = .error (.duplicateKey key) := by
  have hsorted : ((sortOn Prod.fst pairs).map Prod.fst).Pairwise (· ≤ ·) :=
    List.pairwise_map.2 (sortOn_pairwise Prod.fst pairs)
  have hleast := (LeastRepeated.perm_iff ((sortOn_perm Prod.fst pairs).map Prod.fst)).2 h
  rw [ofPairs, KeyWindow.ofAscending_of_leastRepeated hsorted hleast]
  rfl

theorem exists_ofPairs_eq_ok_iff :
    (∃ v, ofPairs pairs = .ok v) ↔ (pairs.map Prod.fst).Nodup := by
  constructor
  · rintro ⟨v, hv⟩
    rcases nodup_or_leastRepeated (pairs.map Prod.fst) with hnodup | ⟨key, hkey⟩
    · exact hnodup
    · cases hv.symm.trans (ofPairs_of_leastRepeated hkey)
  · exact exists_ofPairs_eq_ok

/-- Nothing but a repeated key is refused. -/
theorem ofPairs_eq_error_iff : ofPairs pairs = .error failure ↔
    ∃ key, LeastRepeated (pairs.map Prod.fst) key ∧ failure = .duplicateKey key := by
  constructor
  · intro h
    rcases nodup_or_leastRepeated (pairs.map Prod.fst) with hnodup | ⟨key, hkey⟩
    · obtain ⟨v, hv⟩ := exists_ofPairs_eq_ok hnodup
      cases h.symm.trans hv
    · cases h.symm.trans (ofPairs_of_leastRepeated hkey)
      exact ⟨key, hkey, rfl⟩
  · rintro ⟨key, hkey, rfl⟩
    exact ofPairs_of_leastRepeated hkey

/-- Distinct keys are sorted in one way only. -/
theorem eq_sortOn_of_nodup {sorted : List (Int64 × Binary64)} (hperm : sorted.Perm pairs)
    (hsorted : (sorted.map Prod.fst).Pairwise (· ≤ ·)) (hnodup : (pairs.map Prod.fst).Nodup) :
    sorted = sortOn Prod.fst pairs := by
  have hnodup' : (sorted.map Prod.fst).Nodup := (hperm.map Prod.fst).nodup_iff.2 hnodup
  exact eq_of_perm_of_ascending (hperm.trans (sortOn_perm Prod.fst pairs).symm)
    (List.pairwise_map.1 (pairwise_lt_of_sorted hsorted hnodup'))
    (List.pairwise_map.1 (map_sortOn_pairwise hnodup))

theorem ofPairs_perm (h : pairs'.Perm pairs) : ofPairs pairs' = ofPairs pairs := by
  have hkeys := h.map Prod.fst
  rcases nodup_or_leastRepeated (pairs.map Prod.fst) with hnodup | ⟨key, hkey⟩
  · have hsorted : ((sortOn Prod.fst pairs').map Prod.fst).Pairwise (· ≤ ·) :=
      List.pairwise_map.2 (sortOn_pairwise Prod.fst pairs')
    have hsame := eq_sortOn_of_nodup ((sortOn_perm Prod.fst pairs').trans h) hsorted hnodup
    rw [ofPairs, ofPairs, hsame]
  · rw [ofPairs_of_leastRepeated hkey,
      ofPairs_of_leastRepeated ((LeastRepeated.perm_iff hkeys).2 hkey)]

/-- Scans sorted pairs for a key that is repeated before it makes a vector of them. -/
def ofScanned (sorted : List (Int64 × Binary64)) : Except Failure KeyedVector :=
  match firstRepeat? (sorted.map Prod.fst) with
  | some key => .error (.duplicateKey key)
  | none => do
    let keys ← KeyWindow.ofAscending (sorted.map Prod.fst)
    wrap keys (sorted.map Prod.snd)

/-- A sort that is not stable makes the same vector, and only the scan refuses it. -/
theorem ofScanned_of_perm {sorted : List (Int64 × Binary64)} (hperm : sorted.Perm pairs)
    (hsorted : (sorted.map Prod.fst).Pairwise (· ≤ ·)) : ofScanned sorted = ofPairs pairs := by
  have hkeys := hperm.map Prod.fst
  rcases nodup_or_leastRepeated (pairs.map Prod.fst) with hnodup | ⟨key, hkey⟩
  · have hscan := (firstRepeat?_eq_none_iff hsorted).2 (hkeys.nodup_iff.2 hnodup)
    rw [ofScanned, hscan, ofPairs, eq_sortOn_of_nodup hperm hsorted hnodup]
  · have hscan := (firstRepeat?_eq_some_iff hsorted).2 ((LeastRepeated.perm_iff hkeys).2 hkey)
    rw [ofScanned, hscan, ofPairs_of_leastRepeated hkey]

/-- The pairs make a vector of themselves, or the least repeated key is reported, and neither
depends on their order or on how they are sorted. -/
structure CollectsPairs (pairs : List (Int64 × Binary64)) : Prop where
  exists_ok_iff : (∃ v, ofPairs pairs = .ok v) ↔ (pairs.map Prod.fst).Nodup
  entries : ∀ v, ofPairs pairs = .ok v →
    v.entries.Perm pairs ∧ (v.entries.map Prod.fst).Pairwise (· < ·)
  error_iff : ∀ failure, ofPairs pairs = .error failure ↔
    ∃ key, LeastRepeated (pairs.map Prod.fst) key ∧ failure = .duplicateKey key
  anyOrder : ∀ pairs', pairs'.Perm pairs → ofPairs pairs' = ofPairs pairs
  anySort : ∀ sorted, sorted.Perm pairs → (sorted.map Prod.fst).Pairwise (· ≤ ·) →
    ofScanned sorted = ofPairs pairs

theorem collectsPairs (pairs : List (Int64 × Binary64)) : CollectsPairs pairs where
  exists_ok_iff := exists_ofPairs_eq_ok_iff
  entries := by
    intro v hv
    refine ⟨?_, DraftVector.entries_ascending v⟩
    rw [(entries_of_ofPairs hv).1]
    exact sortOn_perm Prod.fst pairs
  error_iff := fun _ => ofPairs_eq_error_iff
  anyOrder := fun _ => ofPairs_perm
  anySort := fun _ => ofScanned_of_perm

/-- The keys and the values are paired, and refused exactly if they are not as many. -/
structure CollectsLists (keys : List Int64) (values : List Binary64) : Prop where
  invalidArgument_iff : (∃ name message,
    ofUnsorted keys values = .error (.invalidArgument name message)) ↔ keys.length ≠ values.length
  refused : keys.length ≠ values.length → ofUnsorted keys values =
    .error (.invalidArgument "values" "expected values.len() == keys.len()")
  paired : keys.length = values.length → ofUnsorted keys values = ofPairs (keys.zip values)

theorem ofUnsorted_of_length_eq {keys : List Int64} {values : List Binary64}
    (h : keys.length = values.length) : ofUnsorted keys values = ofPairs (keys.zip values) := by
  rw [ofUnsorted, Requirement.check, if_pos h.symm]
  rfl

theorem ofUnsorted_of_length_ne {keys : List Int64} {values : List Binary64}
    (h : keys.length ≠ values.length) : ofUnsorted keys values =
      .error (.invalidArgument "values" "expected values.len() == keys.len()") := by
  have hfailure : Requirement.oneValuePerKey.failure =
      .invalidArgument "values" "expected values.len() == keys.len()" := by decide +kernel
  rw [ofUnsorted, Requirement.check, if_neg (Ne.symm h), hfailure]
  rfl

theorem collectsLists (keys : List Int64) (values : List Binary64) :
    CollectsLists keys values where
  invalidArgument_iff := by
    constructor
    · rintro ⟨name, message, hrefused⟩ hlength
      rw [ofUnsorted_of_length_eq hlength, ofPairs_eq_error_iff] at hrefused
      obtain ⟨key, -, hfailure⟩ := hrefused
      cases hfailure
    · intro hlength
      exact ⟨_, _, ofUnsorted_of_length_ne hlength⟩
  refused := ofUnsorted_of_length_ne
  paired := ofUnsorted_of_length_eq

/-- The map is copied, and the copy has the entries `copied`, in whatever order the map yields
its own. -/
structure CopiedAs {μ : Type} [ValueMap μ] (m : μ) (copied : List (Int64 × Binary64)) : Prop where
  perm : copied.Perm (ValueMap.entries m)
  copy : ∃ v, ofMap m = .ok v ∧ v.entries = copied ∧ ∀ key, v.value? key = ValueMap.value? m key
  anyOrder : ∀ pairs, pairs.Perm (ValueMap.entries m) → ofPairs pairs = ofMap m

/-- A map that yields every key once is copied. -/
theorem copiedAs_sorted {μ : Type} [ValueMap μ] {m : μ}
    (hnodup : ((ValueMap.entries m).map Prod.fst).Nodup)
    (hvalue : ∀ key x, ValueMap.value? m key = some x ↔ (key, x) ∈ ValueMap.entries m) :
    CopiedAs m (sortOn Prod.fst (ValueMap.entries m)) where
  perm := sortOn_perm Prod.fst _
  copy := by
    obtain ⟨v, hv⟩ := exists_ofPairs_eq_ok hnodup
    have hentries := (entries_of_ofPairs hv).1
    refine ⟨v, hv, hentries, fun key => ?_⟩
    ext x
    rw [value?_eq_some_iff, hentries, (sortOn_perm Prod.fst _).mem_iff, hvalue]
  anyOrder := fun _ => ofPairs_perm

theorem copiedAs_entries {μ : Type} [ValueMap μ] [OrderedValueMap μ] (m : μ) :
    CopiedAs m (ValueMap.entries m) := by
  have hascending := OrderedValueMap.ascending m
  have hsorted : ValueMap.entries m = sortOn Prod.fst (ValueMap.entries m) :=
    eq_sortOn_of_nodup (.refl _) (hascending.imp Int64.le_of_lt) (hascending.imp Int64.ne_of_lt)
  rw [hsorted]
  exact copiedAs_sorted (hascending.imp Int64.ne_of_lt) (OrderedValueMap.value?_eq_some_iff m)

theorem copiedAs_hashMap (m : Std.HashMap Int64 Binary64) :
    CopiedAs m (sortOn Prod.fst m.toList) := by
  apply copiedAs_sorted (nodup_keys_hashMap m)
  intro key x
  exact Std.HashMap.mem_toList_iff_getElem?_eq_some.symm

/-- Pairs in any order make a vector of all of them or none, lists are paired first, and vectors,
drafts, trees and hash maps are copied. -/
theorem pairs_collected :
    (∀ pairs, CollectsPairs pairs) ∧ (∀ keys values, CollectsLists keys values) ∧
      (∀ v : KeyedVector, CopiedAs v v.entries) ∧ (∀ d : DraftVector, CopiedAs d d.entries) ∧
      (∀ t : Std.TreeMap Int64 Binary64, CopiedAs t t.toList) ∧
      ∀ m : Std.HashMap Int64 Binary64, CopiedAs m (sortOn Prod.fst m.toList) :=
  ⟨collectsPairs, collectsLists, copiedAs_entries, copiedAs_entries, copiedAs_entries,
    copiedAs_hashMap⟩

/-- Two keys repeat, and the greater one comes first. -/
theorem pairs_collected_two_repeats :
    ofPairs [(7, 0), (3, .nan), (7, .nan), (1, 0), (3, 0)] = .error (.duplicateKey 3) := by
  have hleast : LeastRepeated [7, 3, 7, 1, 3] 3 := by
    refine ⟨by decide, fun k hk => ?_⟩
    have hmem := hk.mem
    simp only [List.mem_cons, List.not_mem_nil, or_false] at hmem
    rcases hmem with rfl | rfl | rfl | rfl | rfl
    all_goals
      revert hk
      decide
  exact ((pairs_collected.1 _).error_iff _).2 ⟨3, hleast, rfl⟩

end PackedRatings.KeyedVector
