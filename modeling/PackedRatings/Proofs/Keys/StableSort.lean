import Mathlib.Data.List.Sort
import PackedRatings.Keys.Ascending

/-!
# Sorting key by key

Sorting by key is stable: it keeps the elements of each key in their order. As a sorted list is
determined by the elements of each key, sorting is the same as listing the elements of one key
after the other, from the lowest key to the highest. Keeping the first element of each run of
equal keys then keeps the first element of each key.
-/
namespace PackedRatings

variable {α : Type u} {key : α → Int64} {l l' : List α}

def withKey (key : α → Int64) (l : List α) (k : Int64) : List α :=
  l.filter fun a => key a = k

theorem mem_withKey {k : Int64} {a : α} : a ∈ withKey key l k ↔ a ∈ l ∧ key a = k := by
  rw [withKey, List.mem_filter, decide_eq_true_eq]

theorem withKey_cons (a : α) (l : List α) (k : Int64) :
    withKey key (a :: l) k = if key a = k then a :: withKey key l k else withKey key l k := by
  rw [withKey, List.filter_cons]
  simp only [decide_eq_true_eq]
  rfl

theorem withKey_withKey (key : α → Int64) (l : List α) (k k' : Int64) :
    withKey key (withKey key l k) k' = if k = k' then withKey key l k' else [] := by
  split
  · rename_i hk
    rw [hk, withKey, withKey, List.filter_filter]
    simp only [Bool.and_self]
  · rename_i hk
    rw [List.eq_nil_iff_forall_not_mem]
    intro a ha
    obtain ⟨hmem, hk'⟩ := mem_withKey.1 ha
    exact hk ((mem_withKey.1 hmem).2.symm.trans hk')

theorem withKey_pairwise (key : α → Int64) (l : List α) (k : Int64) :
    (withKey key l k).Pairwise fun a b => key a ≤ key b := by
  apply List.pairwise_of_forall_mem_list
  intro a ha b hb
  rw [(mem_withKey.1 ha).2, (mem_withKey.1 hb).2]
  exact Int64.le_refl k

theorem withKey_sortOn (key : α → Int64) (l : List α) (k : Int64) :
    withKey key (sortOn key l) k = withKey key l k := by
  -- The elements of `k` are in order as they stand, so sorting keeps them as they stand, and
  -- there are as many of them before and after.
  have hsorted : (withKey key l k).Sublist (sortOn key l) :=
    List.sublist_mergeSort (decide_key_le_trans key) (decide_key_le_total key)
      ((withKey_pairwise key l k).imp decide_eq_true) List.filter_sublist
  have hsub : (withKey key (withKey key l k) k).Sublist (withKey key (sortOn key l) k) :=
    hsorted.filter _
  rw [withKey_withKey, if_pos rfl] at hsub
  exact (hsub.eq_of_length ((sortOn_perm key l).filter _).length_eq.symm).symm

/-- The first element of a sorted list has its lowest key. -/
theorem key_le_of_mem {a b : α} (h : (b :: l).Pairwise fun a b => key a ≤ key b)
    (ha : a ∈ b :: l) : key b ≤ key a := by
  rcases List.mem_cons.1 ha with rfl | ha
  · exact Int64.le_refl _
  · exact (List.pairwise_cons.1 h).1 a ha

theorem mem_of_withKey_eq (h : ∀ k, withKey key l k = withKey key l' k) {a : α} (ha : a ∈ l) :
    a ∈ l' := by
  have hmem : a ∈ withKey key l (key a) := mem_withKey.2 ⟨ha, rfl⟩
  rw [h] at hmem
  exact (mem_withKey.1 hmem).1

/-- A sorted list is determined by the elements of each key. -/
theorem eq_of_withKey_eq (hl : l.Pairwise fun a b => key a ≤ key b)
    (hl' : l'.Pairwise fun a b => key a ≤ key b)
    (h : ∀ k, withKey key l k = withKey key l' k) : l = l' := by
  induction l generalizing l' with
  | nil =>
    symm
    rw [List.eq_nil_iff_forall_not_mem]
    intro a ha
    exact List.not_mem_nil (mem_of_withKey_eq (fun k => (h k).symm) ha)
  | cons a l ih =>
    cases l' with
    | nil => exact absurd (mem_of_withKey_eq h List.mem_cons_self) List.not_mem_nil
    | cons b l' =>
      have hab := key_le_of_mem hl (mem_of_withKey_eq (fun k => (h k).symm) List.mem_cons_self)
      have hba := key_le_of_mem hl' (mem_of_withKey_eq h List.mem_cons_self)
      -- Both lists start with their lowest key, so their first elements are the first of one key.
      have hkey : key a = key b := Int64.le_antisymm hab hba
      have hhead := h (key a)
      rw [withKey_cons, withKey_cons, if_pos rfl, if_pos hkey.symm, List.cons.injEq] at hhead
      obtain ⟨rfl, -⟩ := hhead
      have htail : ∀ k, withKey key l k = withKey key l' k := by
        intro k
        have hk := h k
        rw [withKey_cons, withKey_cons] at hk
        split at hk
        · exact (List.cons.inj hk).2
        · exact hk
      rw [ih (List.pairwise_cons.1 hl).2 (List.pairwise_cons.1 hl').2 htail]

theorem withKey_flatMap {keys : List Int64} (distinct : keys.Nodup) (l : List α) (k : Int64) :
    withKey key (keys.flatMap (withKey key l)) k = if k ∈ keys then withKey key l k else [] := by
  induction keys with
  | nil => rfl
  | cons k' keys ih =>
    obtain ⟨hk', hrest⟩ := List.nodup_cons.1 distinct
    have happend : withKey key ((k' :: keys).flatMap (withKey key l)) k =
        withKey key (withKey key l k') k ++ withKey key (keys.flatMap (withKey key l)) k :=
      List.filter_append ..
    rw [happend, ih hrest, withKey_withKey]
    by_cases hk : k' = k
    · subst hk
      simp [hk']
    · simp [hk, Ne.symm hk]

/-- Listing the elements of one key after the other sorts them. -/
theorem flatMap_withKey {keys : List Int64} (ascending : keys.Pairwise (· < ·))
    (complete : ∀ a ∈ l, key a ∈ keys) : keys.flatMap (withKey key l) = sortOn key l := by
  have hsorted : (keys.flatMap (withKey key l)).Pairwise fun a b => key a ≤ key b := by
    rw [List.pairwise_flatMap]
    refine ⟨fun k _ => withKey_pairwise key l k, ascending.imp ?_⟩
    intro k k' hlt a ha b hb
    rw [(mem_withKey.1 ha).2, (mem_withKey.1 hb).2]
    exact Int64.le_of_lt hlt
  apply eq_of_withKey_eq hsorted (sortOn_pairwise key l)
  intro k
  rw [withKey_flatMap (ascending.imp Int64.ne_of_lt), withKey_sortOn]
  split
  · rfl
  · rename_i hk
    symm
    rw [List.eq_nil_iff_forall_not_mem]
    intro a ha
    obtain ⟨hmem, rfl⟩ := mem_withKey.1 ha
    exact hk (complete a hmem)

theorem of_head?_withKey {k : Int64} {a : α} (h : (withKey key l k).head? = some a) :
    a ∈ l ∧ key a = k :=
  mem_withKey.1 (List.mem_of_mem_head? h)

theorem exists_head?_withKey (key : α → Int64) {a : α} (ha : a ∈ l) :
    ∃ b, (withKey key l (key a)).head? = some b := by
  have hmem : a ∈ withKey key l (key a) := mem_withKey.2 ⟨ha, rfl⟩
  exact ⟨_, List.head?_eq_some_head (List.ne_nil_of_mem hmem)⟩

theorem mem_dropRepeats_iff {previous : Int64} (hl : l.Pairwise fun a b => key a ≤ key b)
    (above : ∀ a ∈ l, previous ≤ key a) {a : α} : a ∈ dropRepeats key previous l ↔
      key a ≠ previous ∧ (withKey key l (key a)).head? = some a := by
  induction l generalizing previous with
  | nil => simp [dropRepeats, withKey]
  | cons b l ih =>
    obtain ⟨hb, hrest⟩ := List.pairwise_cons.1 hl
    rw [dropRepeats, withKey_cons]
    by_cases hprevious : key b = previous
    · -- The element is dropped, and no other key loses anything by it.
      rw [if_pos hprevious, ih hrest fun a ha => above a (List.mem_cons_of_mem b ha)]
      apply and_congr_right
      intro ha
      rw [if_neg fun heq => ha (heq.symm.trans hprevious)]
    · rw [if_neg hprevious, List.mem_cons, ih hrest hb]
      by_cases hkey : key b = key a
      · rw [if_pos hkey, List.head?_cons, Option.some_inj]
        simp [hkey, hkey ▸ hprevious, eq_comm]
      · rw [if_neg hkey]
        have hne : a ≠ b := fun heq => hkey (congrArg key heq.symm)
        have hlater : (withKey key l (key a)).head? = some a → key a ≠ previous := by
          rintro hhead rfl
          have hle := hb a (of_head?_withKey hhead).1
          exact hkey (Int64.le_antisymm hle (above b List.mem_cons_self))
        simp only [hne, false_or, ne_eq, Ne.symm hkey, not_false_eq_true, true_and]
        exact ⟨fun hhead => ⟨hlater hhead, hhead⟩, And.right⟩

theorem mem_firstOfRuns_iff (hl : l.Pairwise fun a b => key a ≤ key b) {a : α} :
    a ∈ firstOfRuns key l ↔ (withKey key l (key a)).head? = some a := by
  cases l with
  | nil => simp [firstOfRuns, withKey]
  | cons b l =>
    obtain ⟨hb, hrest⟩ := List.pairwise_cons.1 hl
    rw [firstOfRuns, List.mem_cons, mem_dropRepeats_iff hrest hb, withKey_cons]
    by_cases hkey : key b = key a
    · simp [hkey, eq_comm]
    · have hne : a ≠ b := fun heq => hkey (congrArg key heq.symm)
      simp [hkey, hne, Ne.symm hkey]

/-- Sorting first, the elements that are kept are the first of their keys in `l`. -/
theorem mem_firstOfRuns_sortOn_iff {a : α} :
    a ∈ firstOfRuns key (sortOn key l) ↔ (withKey key l (key a)).head? = some a := by
  rw [mem_firstOfRuns_iff (sortOn_pairwise key l), withKey_sortOn]

theorem mem_map_firstOfRuns_sortOn_iff (key : α → Int64) (l : List α) {k : Int64} :
    k ∈ (firstOfRuns key (sortOn key l)).map key ↔ k ∈ l.map key := by
  constructor
  · intro hk
    obtain ⟨a, ha, rfl⟩ := List.mem_map.1 hk
    exact List.mem_map_of_mem (of_head?_withKey (mem_firstOfRuns_sortOn_iff.1 ha)).1
  · intro hk
    obtain ⟨a, ha, rfl⟩ := List.mem_map.1 hk
    obtain ⟨b, hb⟩ := exists_head?_withKey key ha
    have hkey := (of_head?_withKey hb).2
    rw [← hkey] at hb
    rw [← hkey]
    exact List.mem_map_of_mem (mem_firstOfRuns_sortOn_iff.2 hb)

theorem mem_firstOfRuns_id_iff {keys : List Int64} {k : Int64} :
    k ∈ firstOfRuns id (sortOn id keys) ↔ k ∈ keys := by
  have hkey := mem_map_firstOfRuns_sortOn_iff id keys (k := k)
  rwa [List.map_id, List.map_id] at hkey

theorem withKey_pairwise_of_pairwise {R : α → α → Prop} (h : l.Pairwise R) (k : Int64) :
    (withKey key l k).Pairwise fun a b => key a < key b ∨ key a = key b ∧ R a b := by
  apply (h.filter _).imp_of_mem
  intro a b ha hb hab
  exact .inr ⟨(mem_withKey.1 ha).2.trans (mem_withKey.1 hb).2.symm, hab⟩

/-- After sorting the elements are in the order of their keys, and those with equal keys in the
order in which they were before. -/
theorem sortOn_pairwise_of_pairwise {R : α → α → Prop} (key : α → Int64) (h : l.Pairwise R) :
    (sortOn key l).Pairwise fun a b => key a < key b ∨ key a = key b ∧ R a b := by
  have hascending : (firstOfRuns id (sortOn id (l.map key))).Pairwise (· < ·) :=
    firstOfRuns_pairwise (sortOn_pairwise id _)
  have hcomplete : ∀ a ∈ l, key a ∈ firstOfRuns id (sortOn id (l.map key)) := fun a ha =>
    mem_firstOfRuns_id_iff.2 (List.mem_map_of_mem ha)
  rw [← flatMap_withKey hascending hcomplete, List.pairwise_flatMap]
  constructor
  · intro k _
    exact withKey_pairwise_of_pairwise h k
  · apply hascending.imp
    intro k k' hlt a ha b hb
    left
    rwa [(mem_withKey.1 ha).2, (mem_withKey.1 hb).2]

end PackedRatings
