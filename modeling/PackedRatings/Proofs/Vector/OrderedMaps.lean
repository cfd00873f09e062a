import PackedRatings.Proofs.Vector.Restrictions

/-!
# Maps with the same entries cannot be told apart

The entries of a vector, of a draft and of a tree ascend by key, are as many as the map counts,
and are what its look-ups find. A sum, a mean or a dot product sees nothing else of such a map,
so two of them with the same entries give the same numbers, bit by bit.
-/
namespace PackedRatings

open ValueMap

/-- Maps whose entries ascend by key, are as many as they count, and are what a look-up finds. -/
class OrderedValueMap (μ : Type u) [ValueMap μ] : Prop where
  keySorted : ValueMap.keySorted μ = true
  length_entries : ∀ m : μ, (entries m).length = count m
  ascending : ∀ m : μ, ((entries m).map Prod.fst).Pairwise (· < ·)
  value?_eq_some_iff : ∀ (m : μ) (key : Int64) (x : Binary64),
    value? m key = some x ↔ (key, x) ∈ entries m

instance : OrderedValueMap KeyedVector where
  keySorted := rfl
  length_entries := fun v => by simp [entries, count, KeyedVector.entries, KeyedVector.length]
  ascending := DraftVector.entries_ascending
  value?_eq_some_iff := fun _ _ _ => KeyedVector.value?_eq_some_iff

instance : OrderedValueMap DraftVector where
  keySorted := rfl
  length_entries := fun d => by
    change d.entries.length = d.assigned.size
    rw [DraftVector.entries, List.length_map, SlotSet.size_eq_length_toList]
  ascending := DraftVector.keys_pairwise
  value?_eq_some_iff := fun _ _ _ => DraftVector.value?_eq_some_iff

instance : OrderedValueMap (Std.TreeMap Int64 Binary64) where
  keySorted := rfl
  length_entries := fun _ => Std.TreeMap.length_toList
  ascending := fun t => by
    change (t.toList.map Prod.fst).Pairwise (· < ·)
    rw [Std.TreeMap.map_fst_toList_eq_keys]
    exact Std.TreeMap.ordered_keys.imp fun h => Std.compare_eq_lt.1 h
  value?_eq_some_iff := fun _ _ _ => Std.TreeMap.mem_toList_iff_getElem?_eq_some.symm

/-- A hashed map has its keys once, in an order of its own. -/
theorem nodup_keys_hashMap (m : Std.HashMap Int64 Binary64) : (m.toList.map Prod.fst).Nodup := by
  rw [Std.HashMap.map_fst_toList_eq_keys]
  exact Std.HashMap.nodup_keys

namespace OrderedValueMap

variable {μ : Type u} {ν : Type v} [ValueMap μ] [ValueMap ν] [OrderedValueMap μ]
  [OrderedValueMap ν] {m : μ} {m' : ν}

theorem count_congr (h : entries m = entries m') : count m = count m' := by
  rw [← length_entries, ← length_entries, h]

theorem value?_congr (h : entries m = entries m') : value? m = value? m' := by
  funext key
  ext x
  rw [value?_eq_some_iff, value?_eq_some_iff, h]

/-- Nothing that is computed from the maps tells them apart. The third operand of a dot product
may be any map, its entries in any order. -/
structure Indistinct (m : μ) (m' : ν) : Prop where
  sum : ValueMap.sum m = ValueMap.sum m'
  sumOfSquares : ValueMap.sumOfSquares m = ValueMap.sumOfSquares m'
  norm : ValueMap.norm m = ValueMap.norm m'
  mean : ValueMap.mean m = ValueMap.mean m'
  dotProduct_left : ∀ {κ : Type} [ValueMap κ] (k : κ),
    ValueMap.dotProduct m k = ValueMap.dotProduct m' k
  dotProduct_right : ∀ {κ : Type} [ValueMap κ] (k : κ),
    ValueMap.dotProduct k m = ValueMap.dotProduct k m'

theorem indistinct_of_entries_eq (h : entries m = entries m') : Indistinct m m' where
  sum := by rw [ValueMap.sum, ValueMap.sum, h]
  sumOfSquares := by rw [ValueMap.sumOfSquares, ValueMap.sumOfSquares, h]
  norm := by rw [ValueMap.norm, ValueMap.norm, ValueMap.sumOfSquares, ValueMap.sumOfSquares, h]
  mean := by rw [ValueMap.mean, ValueMap.mean, ValueMap.sum, ValueMap.sum, count_congr h, h]
  dotProduct_left := by
    intro κ _ k
    simp only [ValueMap.dotProduct, products, h, OrderedValueMap.keySorted]
  dotProduct_right := by
    intro κ _ k
    simp only [ValueMap.dotProduct, products, h, value?_congr h, OrderedValueMap.keySorted]

end OrderedValueMap

/-- What `m` computes by itself is what is computed from its entries. -/
structure OwnSums {μ : Type u} [ValueMap μ] (m : μ) (sum sumOfSquares norm mean : Binary64) :
    Prop where
  sum : sum = ValueMap.sum m
  sumOfSquares : sumOfSquares = ValueMap.sumOfSquares m
  norm : norm = ValueMap.norm m
  mean : mean = ValueMap.mean m

/-- A vector sums the values of its window, without the keys. -/
theorem KeyedVector.ownSums (v : KeyedVector) :
    OwnSums v v.sum v.sumOfSquares v.norm v.mean := by
  have hsum : v.sum = ValueMap.sum v := by
    rw [KeyedVector.sum, ← v.map_snd_entries]
    rfl
  have hsquares : v.sumOfSquares = ValueMap.sumOfSquares v := by
    rw [KeyedVector.sumOfSquares, ← v.map_snd_entries, List.map_map]
    rfl
  exact ⟨hsum, hsquares, congrArg Binary64.sqrt hsquares, rfl⟩

theorem DraftVector.ownSums (d : DraftVector) : OwnSums d d.sum d.sumOfSquares d.norm d.mean :=
  ⟨rfl, rfl, rfl, rfl⟩

namespace OrderedValueMap

/-- Vectors, drafts and trees are ordered by key, sum what their entries sum to, and cannot be
told apart by anything that is computed from them if their entries are the same. -/
theorem indistinct_representations :
    (OrderedValueMap KeyedVector ∧ OrderedValueMap DraftVector ∧
      OrderedValueMap (Std.TreeMap Int64 Binary64)) ∧
    (∀ v : KeyedVector, OwnSums v v.sum v.sumOfSquares v.norm v.mean) ∧
    (∀ d : DraftVector, OwnSums d d.sum d.sumOfSquares d.norm d.mean) ∧
    ∀ {μ ν : Type} [ValueMap μ] [ValueMap ν] [OrderedValueMap μ] [OrderedValueMap ν]
      (m : μ) (m' : ν), entries m = entries m' → Indistinct m m' := by
  refine ⟨⟨inferInstance, inferInstance, inferInstance⟩, KeyedVector.ownSums,
    DraftVector.ownSums, ?_⟩
  intro μ ν _ _ _ _ m m' h
  exact indistinct_of_entries_eq h

/-- A draft with a value in the middle slot of three, and a tree with this value. -/
theorem indistinct_draft_tree :
    ∃ (d : DraftVector) (t : Std.TreeMap Int64 Binary64),
      d.domain.toList = [10, 20, 30] ∧ entries d = [(20, Binary64.nan)] ∧
        entries t = [(20, Binary64.nan)] ∧ Indistinct d t := by
  let d := (DraftVector.ofDomain (.whole [10, 20, 30] (by decide))).assign
    ⟨1, by decide⟩ Binary64.nan
  let t : Std.TreeMap Int64 Binary64 := .ofList [((20 : Int64), Binary64.nan)]
  have hd : entries d = [(20, Binary64.nan)] := by decide +kernel
  have ht : entries t = [(20, Binary64.nan)] := by decide +kernel
  exact ⟨d, t, by decide +kernel, hd, ht,
    indistinct_representations.2.2.2 d t (hd.trans ht.symm)⟩

end OrderedValueMap

end PackedRatings
