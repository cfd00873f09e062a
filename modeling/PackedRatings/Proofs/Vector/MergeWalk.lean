import Mathlib.Algebra.BigOperators.Group.Finset.Basic
import Mathlib.Algebra.Ring.Int.Defs
import PackedRatings.Proofs.Vector.OrderedMaps

/-!
# The walk over two maps

A dot product of two maps in key order walks over both at once, and any other one looks the keys of
one map up in the other. `mergeWalk` tells which keys the walk comes to: each key of either map, in
ascending order. Where both maps have the key it multiplies their values, and these are the
products, in the same order, that the look-ups find. In a commutative ring nothing else counts, so
there every dot product is the sum over the common keys.
-/
namespace PackedRatings

variable {α : Type u} {xs ys : List (Int64 × α)} {key : Int64}

def Visit.keyedProduct? [Mul α] (v : Visit α) : Option (Int64 × α) :=
  v.product?.map fun p => (v.key, p)

/-- The walk comes to the keys of both lists and to no other. -/
theorem mem_keys_mergeWalk : key ∈ (mergeWalk xs ys).map Visit.key ↔
    key ∈ xs.map Prod.fst ∨ key ∈ ys.map Prod.fst := by
  fun_induction mergeWalk xs ys with
  | case1 ys => simp
  | case2 xs hxs => simp
  | case3 k x xs l y ys hlt ih => simp [ih, or_assoc]
  | case4 k x xs l y ys hnot hlt ih => simp [ih, or_left_comm]
  | case5 k x xs l y ys hnot hnot' ih =>
    have heq : k = l := Int64.le_antisymm (Int64.not_lt.1 hnot') (Int64.not_lt.1 hnot)
    simp only [List.map_cons, List.mem_cons, ih, heq]
    tauto

/-- A key below both lists is below the walk. -/
theorem lt_of_mem_mergeWalk (hxs : ∀ k ∈ xs.map Prod.fst, key < k)
    (hys : ∀ k ∈ ys.map Prod.fst, key < k) :
    ∀ k ∈ (mergeWalk xs ys).map Visit.key, key < k := by
  intro k hk
  cases mem_keys_mergeWalk.1 hk with
  | inl h => exact hxs k h
  | inr h => exact hys k h

abbrev KeysAscend (xs : List (Int64 × α)) : Prop :=
  (xs.map Prod.fst).Pairwise (· < ·)

theorem KeysAscend.lt_of_lt (hys : KeysAscend ((key, y) :: ys)) {k : Int64} (h : k < key) :
    ∀ l ∈ ((key, y) :: ys).map Prod.fst, k < l := by
  intro l hl
  cases List.mem_cons.1 hl with
  | inl heq => rwa [heq]
  | inr hmem => exact Int64.lt_trans h ((List.pairwise_cons.1 hys).1 l hmem)

theorem KeysAscend.not_mem (hxs : ∀ k ∈ xs.map Prod.fst, key < k) (x : α) : (key, x) ∉ xs := by
  intro hmem
  exact Int64.lt_irrefl (hxs key (List.mem_map_of_mem hmem))

/-- The value under a key is the one that stands with it. -/
theorem KeysAscend.some_eq_iff (hxs : KeysAscend xs) {x : α} (hx : (key, x) ∈ xs) (x' : α) :
    some x = some x' ↔ (key, x') ∈ xs := by
  constructor
  · intro heq
    rwa [← Option.some.inj heq]
  · intro hx'
    have hpair := List.inj_on_of_nodup_map (hxs.imp Int64.ne_of_lt) hx hx' rfl
    exact congrArg (fun pair => some pair.2) hpair

/-- Every key is visited once, in ascending order. -/
theorem mergeWalk_ascending (hxs : KeysAscend xs) (hys : KeysAscend ys) :
    ((mergeWalk xs ys).map Visit.key).Pairwise (· < ·) := by
  fun_induction mergeWalk xs ys with
  | case1 ys => simpa [List.pairwise_map] using hys
  | case2 xs _ => simpa [List.pairwise_map] using hxs
  | case3 k x xs l y ys hlt ih =>
    obtain ⟨habove, htail⟩ := List.pairwise_cons.1 hxs
    exact List.pairwise_cons.2 ⟨lt_of_mem_mergeWalk habove (hys.lt_of_lt hlt), ih htail hys⟩
  | case4 k x xs l y ys _ hlt ih =>
    obtain ⟨habove, htail⟩ := List.pairwise_cons.1 hys
    exact List.pairwise_cons.2 ⟨lt_of_mem_mergeWalk (hxs.lt_of_lt hlt) habove, ih hxs htail⟩
  | case5 k x xs l y ys hnot hnot' ih =>
    have heq : k = l := Int64.le_antisymm (Int64.not_lt.1 hnot') (Int64.not_lt.1 hnot)
    obtain ⟨habove, htail⟩ := List.pairwise_cons.1 hxs
    obtain ⟨habove', htail'⟩ := List.pairwise_cons.1 hys
    rw [← heq] at habove'
    exact List.pairwise_cons.2 ⟨lt_of_mem_mergeWalk habove habove', ih htail htail'⟩

/-- What a visit shows is what the lists have under its key. -/
structure Visit.Reads (v : Visit α) (xs ys : List (Int64 × α)) : Prop where
  left : ∀ x, v.left? = some x ↔ (v.key, x) ∈ xs
  right : ∀ y, v.right? = some y ↔ (v.key, y) ∈ ys

theorem Visit.Reads.cons_left {v : Visit α} (h : v.Reads xs ys) (x : α) (hlt : key < v.key) :
    v.Reads ((key, x) :: xs) ys where
  left := by simp [h.left, (Int64.ne_of_lt hlt).symm]
  right := h.right

theorem Visit.Reads.cons_right {v : Visit α} (h : v.Reads xs ys) (y : α) (hlt : key < v.key) :
    v.Reads xs ((key, y) :: ys) where
  left := h.left
  right := by simp [h.right, (Int64.ne_of_lt hlt).symm]

theorem reads_of_mem_mergeWalk (hxs : KeysAscend xs) (hys : KeysAscend ys) :
    ∀ v ∈ mergeWalk xs ys, v.Reads xs ys := by
  fun_induction mergeWalk xs ys with
  | case1 ys =>
    intro v hv
    obtain ⟨⟨l, y⟩, hmem, rfl⟩ := List.mem_map.1 hv
    exact ⟨by simp, hys.some_eq_iff hmem⟩
  | case2 xs _ =>
    intro v hv
    obtain ⟨⟨k, x⟩, hmem, rfl⟩ := List.mem_map.1 hv
    exact ⟨hxs.some_eq_iff hmem, by simp⟩
  | case3 k x xs l y ys hlt ih =>
    obtain ⟨habove, htail⟩ := List.pairwise_cons.1 hxs
    have hbelow := hys.lt_of_lt hlt
    intro v hv
    cases List.mem_cons.1 hv with
    | inl heq =>
      subst heq
      exact ⟨hxs.some_eq_iff List.mem_cons_self, by simp [KeysAscend.not_mem hbelow]⟩
    | inr hv =>
      apply (ih htail hys v hv).cons_left
      exact lt_of_mem_mergeWalk habove hbelow v.key (List.mem_map_of_mem hv)
  | case4 k x xs l y ys _ hlt ih =>
    obtain ⟨habove, htail⟩ := List.pairwise_cons.1 hys
    have hbelow := hxs.lt_of_lt hlt
    intro v hv
    cases List.mem_cons.1 hv with
    | inl heq =>
      subst heq
      exact ⟨by simp [KeysAscend.not_mem hbelow], hys.some_eq_iff List.mem_cons_self⟩
    | inr hv =>
      apply (ih hxs htail v hv).cons_right
      exact lt_of_mem_mergeWalk hbelow habove v.key (List.mem_map_of_mem hv)
  | case5 k x xs l y ys hnot hnot' ih =>
    have heq : k = l := Int64.le_antisymm (Int64.not_lt.1 hnot') (Int64.not_lt.1 hnot)
    subst heq
    obtain ⟨habove, htail⟩ := List.pairwise_cons.1 hxs
    obtain ⟨habove', htail'⟩ := List.pairwise_cons.1 hys
    intro v hv
    cases List.mem_cons.1 hv with
    | inl heq =>
      subst heq
      exact ⟨hxs.some_eq_iff List.mem_cons_self, hys.some_eq_iff List.mem_cons_self⟩
    | inr hv =>
      have hlt := lt_of_mem_mergeWalk habove habove' v.key (List.mem_map_of_mem hv)
      exact ((ih htail htail' v hv).cons_left x hlt).cons_right y hlt

theorem Visit.keyedProduct?_eq_some_iff [Mul α] {v : Visit α} {p : α} :
    v.keyedProduct? = some (key, p) ↔
      v.key = key ∧ ∃ x y, v.left? = some x ∧ v.right? = some y ∧ p = x * y := by
  rw [Visit.keyedProduct?, Visit.product?]
  split
  · rename_i x y hx hy
    simp [hx, hy, eq_comm]
  · rename_i hnone
    simp only [Option.map_none, reduceCtorEq, false_iff, not_and, not_exists]
    intro _ x y hx hy _
    exact hnone x y hx hy

/-- A map as a dot product sees it: entries in some order, look-ups, and whether the entries
ascend by key. -/
structure Operand (α : Type u) where
  entries : List (Int64 × α)
  value? : Int64 → Option α
  keySorted : Bool

namespace Operand

variable {a b c : Operand α}

def keys (a : Operand α) : List Int64 :=
  a.entries.map Prod.fst

/-- Each key stands once, its look-up finds what stands with it, and a map that says so is in key
order. -/
structure Lawful (a : Operand α) : Prop where
  distinct : a.keys.Nodup
  value?_eq_some_iff : ∀ key x, a.value? key = some x ↔ (key, x) ∈ a.entries
  ascending : a.keySorted = true → a.keys.Pairwise (· < ·)

def products [Mul α] [Zero α] (a b : Operand α) : List α :=
  if a.keySorted && b.keySorted then mergeProducts a.entries b.entries
  else lookupProducts b.value? a.entries

/-- The entries of `a` whose keys are found in `b`, multiplied by what is found. -/
def foundProducts [Mul α] (a b : Operand α) : List (Int64 × α) :=
  a.entries.filterMap fun (key, x) => (b.value? key).map fun y => (key, x * y)

theorem Lawful.mem_keys_iff (ha : a.Lawful) : key ∈ a.keys ↔ ∃ x, a.value? key = some x := by
  simp [keys, ha.value?_eq_some_iff]

theorem Lawful.value?_eq_none_iff (ha : a.Lawful) : a.value? key = none ↔ key ∉ a.keys := by
  rw [ha.mem_keys_iff, ← Option.ne_none_iff_exists', not_not]

theorem Lawful.toFinset_keys_eq {a' : Operand α} (ha : a.Lawful) (ha' : a'.Lawful)
    (h : a'.value? = a.value?) : a'.keys.toFinset = a.keys.toFinset := by
  ext key
  rw [List.mem_toFinset, List.mem_toFinset, ha.mem_keys_iff, ha'.mem_keys_iff, h]

/-- What stands with a key in the entries is what a look-up finds. -/
theorem Lawful.eq_value? (ha : a.Lawful) {found : Option α}
    (h : ∀ x, found = some x ↔ (key, x) ∈ a.entries) : found = a.value? key := by
  ext x
  rw [h, ha.value?_eq_some_iff]

section Products

variable [Mul α]

theorem mem_foundProducts (hb : b.Lawful) {p : α} : (key, p) ∈ a.foundProducts b ↔
    ∃ x y, (key, x) ∈ a.entries ∧ (key, y) ∈ b.entries ∧ p = x * y := by
  simp only [foundProducts, List.mem_filterMap, Option.map_eq_some_iff, hb.value?_eq_some_iff,
    Prod.exists, Prod.mk.injEq]
  constructor
  · rintro ⟨k, x, hx, y, hy, rfl, rfl⟩
    exact ⟨x, y, hx, hy, rfl⟩
  · rintro ⟨x, y, hx, hy, rfl⟩
    exact ⟨key, x, hx, y, hy, rfl, rfl⟩

/-- The common keys of the walk are those that are found, and so are their products. -/
theorem filterMap_mergeWalk (ha : KeysAscend a.entries) (hb : KeysAscend b.entries)
    (hlawful : b.Lawful) :
    (mergeWalk a.entries b.entries).filterMap Visit.keyedProduct? = a.foundProducts b := by
  have hwalk : ((mergeWalk a.entries b.entries).filterMap Visit.keyedProduct?).Pairwise
      fun p q => p.1 < q.1 := by
    have hkeys := List.pairwise_map.1 (mergeWalk_ascending ha hb)
    refine hkeys.filterMap _ ?_
    rintro v w hlt ⟨k, p⟩ hp ⟨l, q⟩ hq
    rw [← (Visit.keyedProduct?_eq_some_iff.1 hp).1, ← (Visit.keyedProduct?_eq_some_iff.1 hq).1]
    exact hlt
  have hfound : (a.foundProducts b).Pairwise fun p q => p.1 < q.1 := by
    refine (List.pairwise_map.1 ha).filterMap _ ?_
    rintro ⟨k, x⟩ ⟨l, y⟩ hlt p hp q hq
    obtain ⟨_, -, rfl⟩ := Option.map_eq_some_iff.1 hp
    obtain ⟨_, -, rfl⟩ := Option.map_eq_some_iff.1 hq
    exact hlt
  have hmem : ∀ term, term ∈ (mergeWalk a.entries b.entries).filterMap Visit.keyedProduct? ↔
      term ∈ a.foundProducts b := by
    rintro ⟨k, p⟩
    rw [mem_foundProducts hlawful, List.mem_filterMap]
    constructor
    · rintro ⟨v, hv, hp⟩
      obtain ⟨rfl, x, y, hx, hy, rfl⟩ := Visit.keyedProduct?_eq_some_iff.1 hp
      have hreads := reads_of_mem_mergeWalk ha hb v hv
      exact ⟨x, y, (hreads.left x).1 hx, (hreads.right y).1 hy, rfl⟩
    · rintro ⟨x, y, hx, hy, rfl⟩
      obtain ⟨v, hv, rfl⟩ := List.mem_map.1
        (mem_keys_mergeWalk.2 (.inl (List.mem_map_of_mem hx)) :
          k ∈ (mergeWalk a.entries b.entries).map Visit.key)
      have hreads := reads_of_mem_mergeWalk ha hb v hv
      exact ⟨v, hv, Visit.keyedProduct?_eq_some_iff.2
        ⟨rfl, x, y, (hreads.left x).2 hx, (hreads.right y).2 hy, rfl⟩⟩
  exact eq_of_mem_iff_of_ascending hwalk hfound hmem

variable [Zero α]

/-- Looking the keys up forms the same products, at the keys that are found. -/
theorem filter_lookupProducts (xs : List (Int64 × α)) (value? : Int64 → Option α) :
    ((xs.map Prod.fst).zip (lookupProducts value? xs)).filter
        (fun term => (value? term.1).isSome) =
      xs.filterMap fun (key, x) => (value? key).map fun y => (key, x * y) := by
  induction xs with
  | nil => rfl
  | cons e xs ih =>
    obtain ⟨k, x⟩ := e
    rw [lookupProducts] at ih ⊢
    cases hvalue : value? k with
    | none => simpa [hvalue] using ih
    | some y => simpa [hvalue] using ih

/-- What a walk over two maps in key order does: it comes to every key of either of them once, it
multiplies the values of the common keys, and these are the products that are found by looking
the keys of `a` up in `c`, which has what `b` has. -/
structure WalksWith (a b c : Operand α) : Prop where
  ascending : ((mergeWalk a.entries b.entries).map Visit.key).Pairwise (· < ·)
  mem_keys : ∀ key, key ∈ (mergeWalk a.entries b.entries).map Visit.key ↔
    key ∈ a.keys ∨ key ∈ b.keys
  reads : ∀ v ∈ mergeWalk a.entries b.entries,
    v.left? = a.value? v.key ∧ v.right? = b.value? v.key
  products : a.products b = (mergeWalk a.entries b.entries).map fun v => v.product?.getD 0
  common : (mergeWalk a.entries b.entries).filterMap Visit.keyedProduct? = a.foundProducts b
  found : ((a.keys.zip (a.products c)).filter fun term => (c.value? term.1).isSome) =
    (mergeWalk a.entries b.entries).filterMap Visit.keyedProduct?

theorem products_of_keySorted (ha : a.keySorted = true) (hb : b.keySorted = true) :
    a.products b = mergeProducts a.entries b.entries := by
  rw [products, ha, hb]
  rfl

theorem products_of_not_keySorted (h : ¬ (a.keySorted = true ∧ b.keySorted = true)) :
    a.products b = lookupProducts b.value? a.entries := by
  rw [products, if_neg]
  rwa [Bool.and_eq_true]

theorem Lawful.walksWith (ha : a.Lawful) (hb : b.Lawful) (hsa : a.keySorted = true)
    (hsb : b.keySorted = true) (hc : c.keySorted = false) (hvalue : c.value? = b.value?) :
    a.WalksWith b c := by
  have hascends := ha.ascending hsa
  have hascends' := hb.ascending hsb
  have hcommon := filterMap_mergeWalk hascends hascends' hb
  refine ⟨mergeWalk_ascending hascends hascends', fun key => mem_keys_mergeWalk, ?_, ?_, hcommon,
    ?_⟩
  · intro v hv
    have hreads := reads_of_mem_mergeWalk hascends hascends' v hv
    exact ⟨ha.eq_value? hreads.left, hb.eq_value? hreads.right⟩
  · rw [products_of_keySorted hsa hsb, mergeProducts]
  · rw [products_of_not_keySorted (by simp [hc]), hcommon, foundProducts, ← hvalue]
    exact filter_lookupProducts a.entries c.value?

end Products

section Exact

variable {R : Type u} [CommRing R] {a b : Operand R}

def value (a : Operand R) (key : Int64) : R :=
  (a.value? key).getD 0

/-- The dot product if numbers are those of a ring: the terms are added from left to right. -/
def exactDot (a b : Operand R) : R :=
  (a.products b).foldl (· + ·) 0

theorem Lawful.value_eq (ha : a.Lawful) {x : R} (h : (key, x) ∈ a.entries) : a.value key = x := by
  rw [Operand.value, (ha.value?_eq_some_iff key x).2 h, Option.getD_some]

theorem Lawful.value_eq_zero (ha : a.Lawful) (h : key ∉ a.keys) : a.value key = 0 := by
  rw [Operand.value, ha.value?_eq_none_iff.2 h, Option.getD_none]

/-- Whatever path is taken, there is one term for each key of a list of keys that has all common
ones. -/
theorem Lawful.exists_products_eq (ha : a.Lawful) (hb : b.Lawful) : ∃ keys : List Int64,
    keys.Nodup ∧ (∀ key ∈ a.keys, key ∈ b.keys → key ∈ keys) ∧
      a.products b = keys.map fun key => a.value key * b.value key := by
  by_cases h : a.keySorted = true ∧ b.keySorted = true
  · have hascends := ha.ascending h.1
    have hascends' := hb.ascending h.2
    refine ⟨(mergeWalk a.entries b.entries).map Visit.key,
      (mergeWalk_ascending hascends hascends').imp Int64.ne_of_lt,
      fun key hkey _ => mem_keys_mergeWalk.2 (.inl hkey), ?_⟩
    rw [products_of_keySorted h.1 h.2, mergeProducts, List.map_map]
    apply List.map_congr_left
    intro v hv
    have hreads := reads_of_mem_mergeWalk hascends hascends' v hv
    simp only [Function.comp_apply, Operand.value, ← ha.eq_value? hreads.left,
      ← hb.eq_value? hreads.right, Visit.product?]
    cases v.left? with
    | none => simp
    | some x => cases v.right? with
      | none => simp
      | some y => rfl
  · refine ⟨a.keys, ha.distinct, fun key hkey _ => hkey, ?_⟩
    rw [products_of_not_keySorted h, lookupProducts, keys, List.map_map]
    apply List.map_congr_left
    rintro ⟨k, x⟩ hmem
    change x * b.value k = a.value k * b.value k
    rw [ha.value_eq hmem]

/-- The dot product is the sum over the common keys. -/
theorem Lawful.exactDot_eq_sum (ha : a.Lawful) (hb : b.Lawful) :
    a.exactDot b = ∑ key ∈ a.keys.toFinset ∩ b.keys.toFinset, a.value key * b.value key := by
  obtain ⟨keys, hnodup, hcommon, hproducts⟩ := ha.exists_products_eq hb
  rw [exactDot, ← List.sum_eq_foldl, hproducts, ← List.sum_toFinset _ hnodup]
  symm
  apply Finset.sum_subset
  · intro key hkey
    rw [Finset.mem_inter, List.mem_toFinset, List.mem_toFinset] at hkey
    exact List.mem_toFinset.2 (hcommon key hkey.1 hkey.2)
  · intro key _ hkey
    rw [Finset.mem_inter, List.mem_toFinset, List.mem_toFinset, not_and_or] at hkey
    cases hkey with
    | inl h => rw [ha.value_eq_zero h, zero_mul]
    | inr h => rw [hb.value_eq_zero h, mul_zero]

/-- Only what the look-ups find counts, not how the entries are held. -/
theorem Lawful.exactDot_congr {a' b' : Operand R} (ha : a.Lawful) (hb : b.Lawful)
    (ha' : a'.Lawful) (hb' : b'.Lawful) (hleft : a'.value? = a.value?)
    (hright : b'.value? = b.value?) : a'.exactDot b' = a.exactDot b := by
  rw [ha.exactDot_eq_sum hb, ha'.exactDot_eq_sum hb', ha.toFinset_keys_eq ha' hleft,
    hb.toFinset_keys_eq hb' hright]
  simp only [value, hleft, hright]

theorem Lawful.exactDot_comm (ha : a.Lawful) (hb : b.Lawful) : a.exactDot b = b.exactDot a := by
  rw [ha.exactDot_eq_sum hb, hb.exactDot_eq_sum ha, Finset.inter_comm]
  apply Finset.sum_congr rfl
  intro key _
  exact mul_comm _ _

end Exact

/-- The operand with these entries, the first of a key giving its value. -/
def ofPairs (pairs : List (Int64 × α)) (keySorted : Bool) : Operand α where
  entries := pairs
  value? key := pairs.lookup key
  keySorted

theorem lawful_ofPairs {pairs : List (Int64 × α)} {keySorted : Bool}
    (hdistinct : (pairs.map Prod.fst).Nodup)
    (hascending : keySorted = true → (pairs.map Prod.fst).Pairwise (· < ·)) :
    (ofPairs pairs keySorted).Lawful where
  distinct := hdistinct
  value?_eq_some_iff := by
    intro key x
    change pairs.lookup key = some x ↔ (key, x) ∈ pairs
    rw [List.lookup_eq_some_iff]
    constructor
    · rintro ⟨before, after, heq, -⟩
      rw [heq]
      simp
    · intro hmem
      obtain ⟨before, after, rfl⟩ := List.append_of_mem hmem
      refine ⟨before, after, rfl, fun pair hpair => ?_⟩
      rw [List.map_append, List.nodup_append] at hdistinct
      have hne := hdistinct.2.2 pair.1 (List.mem_map_of_mem hpair) key (by simp)
      simpa using hne.symm
  ascending := hascending

end Operand

namespace ValueMap

variable {μ : Type} [ValueMap μ]

def operand (m : μ) : Operand Binary64 where
  entries := entries m
  value? := value? m
  keySorted := keySorted μ

theorem dotProduct_eq_sum {ν : Type} [ValueMap ν] (m : μ) (m₂ : ν) :
    dotProduct m m₂ = Binary64.sum ((operand m).products (operand m₂)) := rfl

theorem lawful_operand [OrderedValueMap μ] (m : μ) : (operand m).Lawful where
  distinct := (OrderedValueMap.ascending m).imp Int64.ne_of_lt
  value?_eq_some_iff := OrderedValueMap.value?_eq_some_iff m
  ascending := fun _ => OrderedValueMap.ascending m

theorem lawful_operand_hashMap (m : Std.HashMap Int64 Binary64) : (operand m).Lawful where
  distinct := nodup_keys_hashMap m
  value?_eq_some_iff := fun _ _ => Std.HashMap.mem_toList_iff_getElem?_eq_some.symm
  ascending := nofun

end ValueMap

namespace Operand

/-- The walk over two maps in key order comes to every key once and multiplies the values of the
common keys, which are the products that look-ups find, in the same order. In a commutative ring
every dot product is the sum over the common keys, whichever operand is iterated and in whatever
order, so it is symmetric. -/
theorem products_of_common_keys :
    (∀ {α : Type} [Mul α] [Zero α] {a b c : Operand α}, a.Lawful → b.Lawful →
      a.keySorted = true → b.keySorted = true → c.keySorted = false → c.value? = b.value? →
        a.WalksWith b c) ∧
    (∀ {R : Type} [CommRing R] {a b a' b' : Operand R}, a.Lawful → b.Lawful → a'.Lawful →
      b'.Lawful → a'.value? = a.value? → b'.value? = b.value? →
        a.exactDot b = (∑ key ∈ a.keys.toFinset ∩ b.keys.toFinset, a.value key * b.value key) ∧
        a'.exactDot b' = a.exactDot b ∧ b'.exactDot a' = a.exactDot b) ∧
    (∀ {μ ν : Type} [ValueMap μ] [ValueMap ν] (m : μ) (m₂ : ν), ValueMap.dotProduct m m₂ =
      Binary64.sum ((ValueMap.operand m).products (ValueMap.operand m₂))) ∧
    (∀ {μ : Type} [ValueMap μ] [OrderedValueMap μ] (m : μ),
      (ValueMap.operand m).Lawful ∧ (ValueMap.operand m).keySorted = true) ∧
    ∀ m : Std.HashMap Int64 Binary64,
      (ValueMap.operand m).Lawful ∧ (ValueMap.operand m).keySorted = false := by
  refine ⟨Lawful.walksWith, ?_, ValueMap.dotProduct_eq_sum,
    fun m => ⟨ValueMap.lawful_operand m, OrderedValueMap.keySorted⟩,
    fun m => ⟨ValueMap.lawful_operand_hashMap m, rfl⟩⟩
  intro R _ a b a' b' ha hb ha' hb' hleft hright
  refine ⟨ha.exactDot_eq_sum hb, ha.exactDot_congr hb ha' hb' hleft hright, ?_⟩
  rw [hb'.exactDot_comm ha', ha.exactDot_congr hb ha' hb' hleft hright]

/-- The keys 1 and 2 on one side, 4 and 2 on the other: the walk comes to three keys and the only
product is that of key 2, also with the right entries unsorted. -/
theorem products_of_common_keys_one_of_three :
    ∃ a b c : Operand ℤ, a.entries = [(1, 7), (2, 3)] ∧ b.entries = [(2, 5), (4, 11)] ∧
      c.entries = [(4, 11), (2, 5)] ∧ a.WalksWith b c ∧
      (mergeWalk a.entries b.entries).map Visit.key = [1, 2, 4] ∧
      a.products b = [0, 15, 0] ∧ a.exactDot c = a.exactDot b ∧ c.exactDot a = a.exactDot b := by
  let a : Operand ℤ := ofPairs [(1, 7), (2, 3)] true
  let b : Operand ℤ := ofPairs [(2, 5), (4, 11)] true
  let c : Operand ℤ := { ofPairs [(4, 11), (2, 5)] false with value? := b.value? }
  have ha : a.Lawful := lawful_ofPairs (by decide) (by decide)
  have hb : b.Lawful := lawful_ofPairs (by decide) (by decide)
  have hc : c.Lawful := by
    refine ⟨by decide, fun key x => ?_, nofun⟩
    rw [hb.value?_eq_some_iff]
    exact List.Perm.mem_iff (.swap _ _ [])
  have hwalk : a.WalksWith b c := products_of_common_keys.1 ha hb rfl rfl rfl rfl
  have hexact := products_of_common_keys.2.1 ha hb ha hc rfl rfl
  have hkeys : (mergeWalk a.entries b.entries).map Visit.key = [1, 2, 4] := by decide +kernel
  have hproducts : a.products b = [0, 15, 0] := by decide +kernel
  exact ⟨a, b, c, rfl, rfl, rfl, hwalk, hkeys, hproducts, hexact.2.1, hexact.2.2⟩

end Operand

end PackedRatings
