import PackedRatings.Proofs.Number.Sums
import PackedRatings.Proofs.Vector.MergeWalk

/-!
# Keys that one map lacks

A key that is missing from one operand of a dot product gives a zero term if both maps are walked
in key order. If keys are looked up, the term is the value times zero, and that is not a number
for an infinite value or one that is not a number. So leaving such keys out keeps the dot product
exactly if the walk is taken, or the values are finite, or the products of the common keys have no
numeric sum anyway.
-/
namespace PackedRatings

namespace Operand

variable {a b : Operand Binary64}

/-- The values of `a` whose keys `b` lacks are finite. -/
def FiniteOutside (a b : Operand Binary64) : Prop :=
  ∀ e ∈ a.entries, b.value? e.1 = none → e.2.isFinite = true

abbrev Walked (a b : Operand Binary64) : Prop :=
  a.keySorted = true ∧ b.keySorted = true

theorem products_of_not_walked (h : ¬ a.Walked b) : a.products b = a.entries.map fun e =>
    ((b.value? e.1).map fun y => e.2 * y).getD (e.2 * 0) := by
  rw [products_of_not_keySorted h, lookupProducts]
  apply List.map_congr_left
  rintro ⟨k, x⟩ -
  dsimp only
  cases b.value? k with
  | none => rfl
  | some y => rfl

/-- Nothing but the products of the common keys counts if the other terms are zero. -/
theorem sum_products_sameNumber (ha : a.Lawful) (hb : b.Lawful)
    (h : a.Walked b ∨ a.FiniteOutside b) :
    (Binary64.sum (a.products b)).SameNumber
      (Binary64.sum ((a.foundProducts b).map Prod.snd)) := by
  by_cases hwalk : a.Walked b
  · have hsorted := ha.ascending hwalk.1
    have hsorted' := hb.ascending hwalk.2
    rw [products_of_keySorted hwalk.1 hwalk.2, mergeProducts,
      ← filterMap_mergeWalk hsorted hsorted' hb, List.map_filterMap]
    have hkeyed : (fun v : Visit Binary64 => v.keyedProduct?.map Prod.snd) = Visit.product? := by
      ext v : 1
      simp [Visit.keyedProduct?, Function.comp_def]
    rw [hkeyed]
    apply Binary64.sum_getD_sameNumber
    intro v _ _
    rfl
  · have hfinite := h.resolve_left hwalk
    rw [products_of_not_walked hwalk, foundProducts, List.map_filterMap]
    simp only [Option.map_map, Function.comp_def]
    apply Binary64.sum_getD_sameNumber
    intro e he hnone
    exact Binary64.isZero_mul_zero (hfinite e he (Option.map_eq_none_iff.1 hnone))

/-- A value outside of `b` that is not finite leaves no numeric sum. -/
theorem isNaN_sum_products (hwalk : ¬ a.Walked b) (h : ¬ a.FiniteOutside b) :
    (Binary64.sum (a.products b)).isNaN = true := by
  simp only [FiniteOutside, not_forall, Bool.not_eq_true] at h
  obtain ⟨e, he, hnone, hinfinite⟩ := h
  rw [products_of_not_walked hwalk]
  apply Binary64.isNaN_sum (List.mem_map_of_mem he)
  rw [hnone]
  exact Binary64.isNaN_mul_zero hinfinite

/-- When the dot product is the sum of the products of the common keys. -/
theorem sum_products_sameNumber_iff (ha : a.Lawful) (hb : b.Lawful) {d : Binary64}
    (hd : d.SameNumber (Binary64.sum ((a.foundProducts b).map Prod.snd))) :
    (Binary64.sum (a.products b)).SameNumber d ↔
      a.Walked b ∨ a.FiniteOutside b ∨ d.isNaN = true := by
  rw [← or_assoc]
  constructor
  · intro h
    by_cases hcases : a.Walked b ∨ a.FiniteOutside b
    · exact .inl hcases
    · rw [not_or] at hcases
      exact .inr (h.isNaN_iff.1 (isNaN_sum_products hcases.1 hcases.2))
  · intro h
    by_cases hcases : a.Walked b ∨ a.FiniteOutside b
    · exact (sum_products_sameNumber ha hb hcases).trans hd.symm
    · have hnan := isNaN_sum_products (not_or.1 hcases).1 (not_or.1 hcases).2
      exact .inr ⟨hnan, h.resolve_left hcases⟩

/-- The entries of `a'` are those of `a` whose keys are found in `b`. -/
def Keeps (a' a b : Operand Binary64) : Prop :=
  a'.entries = a.entries.filter fun e => (b.value? e.1).isSome

variable {a' b' : Operand Binary64}

theorem Keeps.value?_eq (hb : b.Lawful) (hb' : b'.Lawful) (h : b'.Keeps b a) {key : Int64}
    (hkey : (a.value? key).isSome = true) : b'.value? key = b.value? key := by
  symm
  apply hb'.eq_value?
  intro x
  rw [hb.value?_eq_some_iff, h, List.mem_filter, and_iff_left hkey]

theorem Keeps.isSome_of_mem (h : a'.Keeps a b) {e : Int64 × Binary64} (he : e ∈ a'.entries) :
    e ∈ a.entries ∧ (b.value? e.1).isSome = true := by
  rw [h] at he
  exact List.mem_filter.1 he

/-- The products of the common keys stay. -/
theorem Keeps.foundProducts_eq (ha : a.Lawful) (hb : b.Lawful) (hb' : b'.Lawful)
    (h : a'.Keeps a b) (h' : b'.Keeps b a) : a'.foundProducts b' = a.foundProducts b := by
  rw [foundProducts, foundProducts, h, List.filterMap_filter]
  apply List.filterMap_congr
  rintro ⟨k, x⟩ hmem
  have hfound : (a.value? k).isSome = true := by
    rw [(ha.value?_eq_some_iff k x).2 hmem]
    rfl
  dsimp only
  rw [Keeps.value?_eq hb hb' h' hfound]
  cases b.value? k with
  | none => rfl
  | some y => rfl

/-- No key is missing any more. -/
theorem Keeps.finiteOutside (ha : a.Lawful) (hb : b.Lawful) (hb' : b'.Lawful) (h : a'.Keeps a b)
    (h' : b'.Keeps b a) : a'.FiniteOutside b' := by
  intro e he hnone
  obtain ⟨hmem, hsome⟩ := h.isSome_of_mem he
  have hfound : (a.value? e.1).isSome = true := by
    rw [(ha.value?_eq_some_iff e.1 e.2).2 hmem]
    rfl
  rw [Keeps.value?_eq hb hb' h' hfound] at hnone
  rw [hnone] at hsome
  cases hsome

theorem foundProducts_congr {c : Operand Binary64} (h : c.value? = b.value?) :
    a.foundProducts c = a.foundProducts b := by
  rw [foundProducts, foundProducts, h]

theorem finiteOutside_congr {c : Operand Binary64} (h : c.value? = b.value?) :
    a.FiniteOutside c ↔ a.FiniteOutside b := by
  rw [FiniteOutside, FiniteOutside, h]

/-- Looking keys up agrees with the walk, unless a value is not finite and its key is missing. -/
theorem lookup_sameNumber_walk_iff {c : Operand Binary64} (ha : a.Lawful) (hb : b.Lawful)
    (hc : c.Lawful) (hwalk : a.Walked b) (hsorted : c.keySorted = false)
    (hvalue : c.value? = b.value?) :
    (Binary64.sum (a.products c)).SameNumber (Binary64.sum (a.products b)) ↔
      a.FiniteOutside b ∨ (Binary64.sum (a.products b)).isNaN = true := by
  have hlookup : ¬ a.Walked c := by simp [Walked, hsorted]
  have hsum := sum_products_sameNumber ha hb (.inl hwalk)
  rw [← foundProducts_congr hvalue] at hsum
  rw [sum_products_sameNumber_iff ha hc hsum, or_iff_right hlookup, finiteOutside_congr hvalue]

/-- Leaving the missing keys out keeps the dot product exactly if they count as zeros. -/
theorem sum_products_keeps_iff (ha : a.Lawful) (ha' : a'.Lawful) (hb : b.Lawful) (hb' : b'.Lawful)
    (h : a'.Keeps a b) (h' : b'.Keeps b a) :
    (Binary64.sum (a.products b)).SameNumber (Binary64.sum (a'.products b')) ↔
      a.Walked b ∨ a.FiniteOutside b ∨ (Binary64.sum (a'.products b')).isNaN = true := by
  have hsum := sum_products_sameNumber ha' hb' (.inr (h.finiteOutside ha hb hb' h'))
  rw [h.foundProducts_eq ha hb hb' h'] at hsum
  exact sum_products_sameNumber_iff ha hb hsum

end Operand

namespace ValueMap

/-- Deleting the keys that the other map lacks keeps the dot product exactly if both maps are
walked at once, or the deleted values of the first map are finite, or what is left has no numeric
dot product. In the same way, looking keys up differs from the walk exactly if a value outside of
the second map is not finite although the walk gives a number. -/
theorem dotProduct_of_common_keys_iff {μ ν : Type} [ValueMap μ] [ValueMap ν] {m : μ} {m₂ : ν}
    (hm : (operand m).Lawful) (hm₂ : (operand m₂).Lawful) :
    (∀ {m' : μ} {m₂' : ν}, (operand m').Lawful → (operand m₂').Lawful →
      (operand m').Keeps (operand m) (operand m₂) →
      (operand m₂').Keeps (operand m₂) (operand m) →
        ((dotProduct m m₂).SameNumber (dotProduct m' m₂') ↔
          (operand m).Walked (operand m₂) ∨ (operand m).FiniteOutside (operand m₂) ∨
            (dotProduct m' m₂').isNaN = true)) ∧
    ∀ {κ : Type} [ValueMap κ] {k : κ}, (operand k).Lawful →
      (operand m).Walked (operand m₂) → keySorted κ = false → value? k = value? m₂ →
        ((dotProduct m k).SameNumber (dotProduct m m₂) ↔
          (operand m).FiniteOutside (operand m₂) ∨ (dotProduct m m₂).isNaN = true) :=
  ⟨fun hm' hm₂' => Operand.sum_products_keeps_iff hm hm' hm₂ hm₂',
    fun hk => Operand.lookup_sameNumber_walk_iff hm hm₂ hk⟩

def infiniteAtTwo : Std.TreeMap Int64 Binary64 :=
  .ofList [((1 : Int64), Binary64.mk 0x4000000000000000), (2, ⟨0x7ff0000000000000⟩)]

def finiteAtOne : Std.TreeMap Int64 Binary64 :=
  .ofList [((1 : Int64), Binary64.mk 0x4000000000000000)]

def threeAtOne : Std.TreeMap Int64 Binary64 :=
  (∅ : Std.TreeMap Int64 Binary64).insert 1 ⟨0x4008000000000000⟩

def threeAtOneHashed : Std.HashMap Int64 Binary64 :=
  (∅ : Std.HashMap Int64 Binary64).insert 1 ⟨0x4008000000000000⟩

theorem value?_threeAtOneHashed : value? threeAtOneHashed = value? threeAtOne := by
  funext key
  change threeAtOneHashed[key]? = threeAtOne[key]?
  rw [threeAtOneHashed, threeAtOne, Std.HashMap.getElem?_insert, Std.TreeMap.getElem?_insert]
  simp

theorem keeps_finiteAtOne : (operand finiteAtOne).Keeps (operand infiniteAtTwo)
    (operand threeAtOneHashed) := by
  have hkeeps : entries finiteAtOne = (entries infiniteAtTwo).filter fun e =>
      (value? threeAtOne e.1).isSome := by
    decide +kernel
  rwa [← value?_threeAtOneHashed] at hkeeps

theorem keeps_threeAtOneHashed : (operand threeAtOneHashed).Keeps (operand threeAtOneHashed)
    (operand infiniteAtTwo) := by
  rw [Operand.Keeps, eq_comm, List.filter_eq_self]
  rintro ⟨key, x⟩ hmem
  rw [← (lawful_operand_hashMap threeAtOneHashed).value?_eq_some_iff] at hmem
  change value? threeAtOneHashed key = some x at hmem
  rw [value?_threeAtOneHashed] at hmem
  have hkey : key = 1 := by
    by_contra hne
    have hnone : value? threeAtOne key = none := by
      change threeAtOne[key]? = none
      simp [threeAtOne, Ne.symm hne]
    rw [hnone] at hmem
    cases hmem
  have hfound : (value? infiniteAtTwo 1).isSome = true := by decide +kernel
  rw [hkey]
  exact hfound

/-- Key 2 is missing from the second map, and still its infinite value makes the dot product one
that is not a number. Without key 2 it is 2 times 3. -/
theorem missing_infinite_value_counts : ¬ ∀ {μ ν : Type} [ValueMap μ] [ValueMap ν] {m m' : μ}
    {m₂ m₂' : ν}, (operand m).Lawful → (operand m').Lawful → (operand m₂).Lawful →
      (operand m₂').Lawful → (operand m').Keeps (operand m) (operand m₂) →
      (operand m₂').Keeps (operand m₂) (operand m) →
        (dotProduct m m₂).SameNumber (dotProduct m' m₂') := by
  intro hall
  have hsame := hall (lawful_operand infiniteAtTwo) (lawful_operand finiteAtOne)
    (lawful_operand_hashMap threeAtOneHashed) (lawful_operand_hashMap threeAtOneHashed)
    keeps_finiteAtOne keeps_threeAtOneHashed
  have hlookups : ∀ m : Std.TreeMap Int64 Binary64, dotProduct m threeAtOneHashed =
      Binary64.sum (lookupProducts (value? threeAtOne) (entries m)) := by
    intro m
    rw [← value?_threeAtOneHashed]
    rfl
  rw [hlookups, hlookups] at hsame
  have hnan : (Binary64.sum (lookupProducts (value? threeAtOne) (entries infiniteAtTwo))).isNaN =
      true := by decide +kernel
  have hsix : Binary64.sum (lookupProducts (value? threeAtOne) (entries finiteAtOne)) =
      ⟨0x4018000000000000⟩ := by decide +kernel
  rw [hsame.isNaN_iff, hsix] at hnan
  cases hnan

/-- The walk leaves the infinite value of key 2 out, and looking keys up does not. -/
theorem dotProduct_of_common_keys_infiniteAtTwo :
    (dotProduct infiniteAtTwo threeAtOne).SameNumber (dotProduct finiteAtOne threeAtOne) ∧
      ¬ (dotProduct infiniteAtTwo threeAtOneHashed).SameNumber
        (dotProduct infiniteAtTwo threeAtOne) := by
  have hm := lawful_operand infiniteAtTwo
  have hm₂ := lawful_operand threeAtOne
  have hkeeps : entries finiteAtOne = (entries infiniteAtTwo).filter fun e =>
      (value? threeAtOne e.1).isSome := by decide +kernel
  have hkeeps' : entries threeAtOne = (entries threeAtOne).filter fun e =>
      (value? infiniteAtTwo e.1).isSome := by decide +kernel
  constructor
  · exact ((dotProduct_of_common_keys_iff hm hm₂).1 (lawful_operand finiteAtOne) hm₂ hkeeps
      hkeeps').2 (.inl ⟨rfl, rfl⟩)
  · rw [(dotProduct_of_common_keys_iff hm hm₂).2 (lawful_operand_hashMap threeAtOneHashed)
      ⟨rfl, rfl⟩ rfl value?_threeAtOneHashed]
    rintro (hfinite | hnan)
    · have hinfinite : ((2 : Int64), Binary64.mk 0x7ff0000000000000) ∈ entries infiniteAtTwo := by
        decide +kernel
      have hmissing : value? threeAtOne 2 = none := by decide +kernel
      exact Bool.false_ne_true (hfinite _ hinfinite hmissing)
    · have hsix : dotProduct infiniteAtTwo threeAtOne = ⟨0x4018000000000000⟩ := by
        decide +kernel
      rw [hsix] at hnan
      cases hnan

end ValueMap

end PackedRatings
