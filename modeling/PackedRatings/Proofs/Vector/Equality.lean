import PackedRatings.Proofs.Vector.Copies

/-!
# Equality of drafts and vectors

A draft is compared with a draft or a vector by count and then entry by entry, and two vectors by
their keys and then their values. All these comparisons ask the same: whether the same keys have
a value, and numerically equal ones. A not-a-number equals nothing, not even itself, and the two
zeros are equal. Whatever else drafts and vectors hold has no part in it.
-/
namespace PackedRatings

open ValueMap

/-- The same keys have a value, and each key numerically equal ones. -/
structure EqualByKey (f g : Int64 → Option Binary64) : Prop where
  keys : ∀ key, (f key).isSome = (g key).isSome
  values : ∀ key x y, f key = some x → g key = some y → x.numEq y = true

theorem sameEntries_eq_and (xs ys : List (Int64 × Binary64)) :
    sameEntries xs ys = (xs.map Prod.fst == ys.map Prod.fst &&
      (xs.map Prod.snd).isEqv (ys.map Prod.snd) Binary64.numEq) := by
  induction xs generalizing ys with
  | nil => cases ys <;> rfl
  | cons x xs ih =>
    cases ys with
    | nil => rfl
    | cons y ys =>
      have hrest := ih ys
      rw [sameEntries] at hrest ⊢
      simp only [List.isEqv, List.map_cons, List.cons_beq_cons, hrest]
      ac_rfl

theorem sameEntries_eq_true_iff {xs ys : List (Int64 × Binary64)} :
    sameEntries xs ys = true ↔ xs.map Prod.fst = ys.map Prod.fst ∧
      ∀ i (h : i < xs.length) (h' : i < ys.length), xs[i].2.numEq ys[i].2 = true := by
  rw [sameEntries_eq_and, Bool.and_eq_true, beq_iff_eq]
  apply and_congr_right
  intro hkeys
  have hlength : xs.length = ys.length := by simpa using congrArg List.length hkeys
  rw [List.isEqv_eq_decide, dif_pos (by simpa using hlength)]
  simp [hlength]

theorem fst_getElem_eq {xs ys : List (Int64 × Binary64)} (h : xs.map Prod.fst = ys.map Prod.fst)
    {i : Nat} (hi : i < xs.length) (hi' : i < ys.length) : xs[i].1 = ys[i].1 := by
  simpa [hi, hi'] using congrArg (·[i]?) h

namespace OrderedValueMap

variable {μ : Type u} {ν : Type v} [ValueMap μ] [ValueMap ν] [OrderedValueMap μ]
  [OrderedValueMap ν] {m : μ} {m' : ν}

theorem isSome_value?_iff {key : Int64} :
    (value? m key).isSome = true ↔ key ∈ (entries m).map Prod.fst := by
  simp [Option.isSome_iff_exists, value?_eq_some_iff]

theorem value?_getElem {i : Nat} (h : i < (entries m).length) :
    value? m (entries m)[i].1 = some (entries m)[i].2 :=
  (value?_eq_some_iff m _ _).2 (List.getElem_mem h)

theorem keys_eq_iff : (entries m).map Prod.fst = (entries m').map Prod.fst ↔
    ∀ key, (value? m key).isSome = (value? m' key).isSome := by
  constructor
  · intro hkeys key
    rw [Bool.eq_iff_iff, isSome_value?_iff, isSome_value?_iff, hkeys]
  · intro hsome
    apply eq_of_mem_iff_of_ascending (ascending m) (ascending m')
    intro key
    rw [← isSome_value?_iff, ← isSome_value?_iff, hsome]

/-- The entries of two ordered maps are the same, place by place, exactly if the maps are equal
by key. -/
theorem sameEntries_iff_equalByKey (m : μ) (m' : ν) :
    sameEntries (entries m) (entries m') = true ↔ EqualByKey (value? m) (value? m') := by
  rw [sameEntries_eq_true_iff]
  constructor
  · rintro ⟨hkeys, hvalues⟩
    refine ⟨keys_eq_iff.1 hkeys, fun key x y hx hy => ?_⟩
    obtain ⟨i, hi, hentry⟩ := List.mem_iff_getElem.1 ((value?_eq_some_iff m key x).1 hx)
    have hlength : (entries m).length = (entries m').length := by
      simpa using congrArg List.length hkeys
    have hi' : i < (entries m').length := hlength ▸ hi
    have hkey : (entries m')[i].1 = key := by
      rw [← fst_getElem_eq hkeys hi hi', hentry]
    have hvalue := value?_getElem hi'
    rw [hkey, hy, Option.some_inj] at hvalue
    have heq := hvalues i hi hi'
    rwa [hentry, ← hvalue] at heq
  · rintro ⟨hsome, hvalues⟩
    have hkeys := keys_eq_iff.2 hsome
    refine ⟨hkeys, fun i hi hi' => ?_⟩
    have hvalue := value?_getElem hi'
    rw [← fst_getElem_eq hkeys hi hi'] at hvalue
    exact hvalues _ _ _ (value?_getElem hi) hvalue

/-- Maps with the same entries have the same count, so comparing it first changes nothing. -/
theorem count_beq_and_sameEntries (m : μ) (m' : ν) :
    (count m == count m' && sameEntries (entries m) (entries m')) =
      sameEntries (entries m) (entries m') := by
  rw [Bool.and_eq_right_iff_imp, beq_iff_eq, ← length_entries, ← length_entries]
  intro hsame
  simpa using congrArg List.length (sameEntries_eq_true_iff.1 hsame).1

end OrderedValueMap

section Comparisons

variable {d e : DraftVector} {v w : KeyedVector}

theorem DraftVector.beq_eq_sameEntries (d e : DraftVector) :
    (d == e) = sameEntries d.entries e.entries :=
  OrderedValueMap.count_beq_and_sameEntries d e

theorem DraftVector.agreesWith_eq_sameEntries (d : DraftVector) (v : KeyedVector) :
    d.agreesWith v = sameEntries d.entries v.entries :=
  OrderedValueMap.count_beq_and_sameEntries d v

theorem KeyedVector.beq_eq_sameEntries (v w : KeyedVector) :
    (v == w) = sameEntries v.entries w.entries := by
  rw [sameEntries_eq_and, map_fst_entries, map_fst_entries, map_snd_entries, map_snd_entries]
  rfl

theorem DraftVector.beq_iff : (d == e) = true ↔ EqualByKey d.value? e.value? := by
  rw [beq_eq_sameEntries]
  exact OrderedValueMap.sameEntries_iff_equalByKey d e

theorem DraftVector.agreesWith_iff :
    d.agreesWith v = true ↔ EqualByKey d.value? v.value? := by
  rw [agreesWith_eq_sameEntries]
  exact OrderedValueMap.sameEntries_iff_equalByKey d v

theorem KeyedVector.beq_iff : (v == w) = true ↔ EqualByKey v.value? w.value? := by
  rw [beq_eq_sameEntries]
  exact OrderedValueMap.sameEntries_iff_equalByKey v w

/-- However drafts and vectors are compared, they are equal exactly if they are by key. It makes
no difference which of the two comes first, whether a draft or its snapshot is compared, or which
of the drafts and vectors it is that read the same. -/
structure OneEquality (d e : DraftVector) (v w : KeyedVector) : Prop where
  drafts : (d == e) = true ↔ EqualByKey d.value? e.value?
  draft_vector : d.agreesWith v = true ↔ EqualByKey d.value? v.value?
  vectors : (v == w) = true ↔ EqualByKey v.value? w.value?
  snapshots : (d.snapshot == e.snapshot) = (d == e)
  vector_draft : v.agreesWith d = d.agreesWith v
  snapshot_vector : (d.snapshot == v) = d.agreesWith v
  drafts_congr : ∀ d' e' : DraftVector, d'.value? = d.value? → e'.value? = e.value? →
    (d' == e') = (d == e)
  draft_vector_congr : ∀ (d' : DraftVector) (v' : KeyedVector), d'.value? = d.value? →
    v'.value? = v.value? → d'.agreesWith v' = d.agreesWith v
  vectors_congr : ∀ v' w' : KeyedVector, v'.value? = v.value? → w'.value? = w.value? →
    (v' == w') = (v == w)

theorem equality_is_one_relation (d e : DraftVector) (v w : KeyedVector) :
    OneEquality d e v w where
  drafts := DraftVector.beq_iff
  draft_vector := DraftVector.agreesWith_iff
  vectors := KeyedVector.beq_iff
  snapshots := by
    rw [KeyedVector.beq_eq_sameEntries, DraftVector.beq_eq_sameEntries,
      KeyedVector.entries_snapshot, KeyedVector.entries_snapshot]
  vector_draft := rfl
  snapshot_vector := by
    rw [KeyedVector.beq_eq_sameEntries, DraftVector.agreesWith_eq_sameEntries,
      KeyedVector.entries_snapshot]
  drafts_congr := by
    intro d' e' hd he
    rw [Bool.eq_iff_iff, DraftVector.beq_iff, DraftVector.beq_iff, hd, he]
  draft_vector_congr := by
    intro d' v' hd hv
    rw [Bool.eq_iff_iff, DraftVector.agreesWith_iff, DraftVector.agreesWith_iff, hd, hv]
  vectors_congr := by
    intro v' w' hv hw
    rw [Bool.eq_iff_iff, KeyedVector.beq_iff, KeyedVector.beq_iff, hv, hw]

/-- A draft over three keys with a not-a-number left behind in a slot that is not assigned, a
frozen draft over one key with the other zero, and a view of a vector with three keys. -/
theorem equality_is_one_relation_oneKey : ∃ (d e : DraftVector) (v : KeyedVector),
    d.domain.toList = [10, 20, 30] ∧ e.domain.toList = [20] ∧ e.frozen = true ∧
      v.keys.backing = #[10, 20, 30] ∧ d.entries = [(20, .posZero)] ∧
      e.entries = [(20, .negZero)] ∧ (d == e) = true ∧ (d.snapshot == e.snapshot) = true ∧
      d.agreesWith v = true ∧ (d.snapshot == v) = true := by
  let d := { (((DraftVector.ofDomain (.whole [10, 20, 30] (by decide))).overwrite ⟨0, by decide⟩
    .nan).assign ⟨1, by decide⟩ .posZero) with fallback := .nan }
  let e := { (DraftVector.ofDomain (.whole [20] (by decide))).assign ⟨0, by decide⟩ .negZero with
    frozen := true }
  let v := (KeyedVector.mk (.whole [10, 20, 30] (by decide)) #v[.nan, .posZero, .nan]
    .posZero).range 20 30
  have hequal := equality_is_one_relation d e v v
  have hdrafts : (d == e) = true := by decide +kernel
  have hvector : d.agreesWith v = true := by decide +kernel
  exact ⟨d, e, v, by decide +kernel, by decide +kernel, rfl, rfl, by decide +kernel,
    by decide +kernel, hdrafts, hequal.snapshots.trans hdrafts, hvector,
    hequal.snapshot_vector.trans hvector⟩

end Comparisons

end PackedRatings
