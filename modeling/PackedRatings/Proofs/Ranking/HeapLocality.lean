import PackedRatings.Proofs.Ranking.HeapOrder

/-!
# A heap reads the ranks of its own slots

Two ranks that agree on the slots of a heap move them alike, so it does not matter what rank
any other slot has. A score that is left over under a slot out of use changes nothing.
-/
namespace PackedRatings

section Sift

variable {rank rank' : Nat → Int} {n : Nat} {slots : Vector Nat n}

theorem agree_swap (h : ∀ s ∈ slots, rank s = rank' s) {i j : Nat} (hi : i < n) (hj : j < n) :
    ∀ s ∈ slots.swap i j, rank s = rank' s := by
  intro s hs
  apply h
  exact (Vector.swap_perm hi hj).mem_iff.1 hs

theorem rank_getElem (h : ∀ s ∈ slots, rank s = rank' s) (i : Nat) (hi : i < n) :
    rank slots[i] = rank' slots[i] :=
  h _ (Vector.getElem_mem hi)

theorem siftUp_congr (h : ∀ s ∈ slots, rank s = rank' s) (i : Nat) (hi : i < n) :
    siftUp rank slots i hi = siftUp rank' slots i hi := by
  fun_induction siftUp rank slots i hi with
  | case1 slots => simp [siftUp]
  | case2 slots i hi hzero q hlt ih =>
    rw [rank_getElem h, rank_getElem h] at hlt
    rw [ih (agree_swap h _ _), eq_comm, siftUp, dif_neg hzero, if_pos hlt]
  | case3 slots i hi hzero q hge =>
    rw [rank_getElem h, rank_getElem h] at hge
    rw [siftUp, dif_neg hzero, if_neg hge]

theorem siftDown_congr (h : ∀ s ∈ slots, rank s = rank' s) (i : Nat) (hi : i < n) :
    siftDown rank slots i hi = siftDown rank' slots i hi := by
  fun_induction siftDown rank slots i hi with
  | case1 slots i hi left right hright hlt ih =>
    simp only [rank_getElem h] at hright hlt
    rw [ih (agree_swap h _ _), eq_comm, siftDown, dif_pos left, dif_pos right, if_pos hright,
      if_pos hlt]
  | case2 slots i hi left right hright hge =>
    simp only [rank_getElem h] at hright hge
    rw [siftDown, dif_pos left, dif_pos right, if_pos hright, if_neg hge]
  | case3 slots i hi left right hright hlt ih =>
    simp only [rank_getElem h] at hright hlt
    rw [ih (agree_swap h _ _), eq_comm, siftDown, dif_pos left, dif_pos right, if_neg hright,
      if_pos hlt]
  | case4 slots i hi left right hright hge =>
    simp only [rank_getElem h] at hright hge
    rw [siftDown, dif_pos left, dif_pos right, if_neg hright, if_neg hge]
  | case5 slots i hi left right hlt ih =>
    simp only [rank_getElem h] at hlt
    rw [ih (agree_swap h _ _), eq_comm, siftDown, dif_pos left, dif_neg right, if_pos hlt]
  | case6 slots i hi left right hge =>
    simp only [rank_getElem h] at hge
    rw [siftDown, dif_pos left, dif_neg right, if_neg hge]
  | case7 slots i hi left => rw [siftDown, dif_neg left]

end Sift

namespace SlotHeap

variable {rank rank' : Nat → Int} {h : SlotHeap}

theorem push_congr {slot : Nat} (hagree : ∀ s ∈ h.slots.toList, rank s = rank' s)
    (hslot : rank slot = rank' slot) : h.push rank slot = h.push rank' slot := by
  rw [push, push, siftUp_congr]
  intro s hs
  cases Array.mem_push.1 ((Vector.mem_toArray_iff s _).2 hs) with
  | inl hold => exact hagree s (Array.mem_toList_iff.2 hold)
  | inr heq => rw [heq, hslot]

theorem pop?_congr (hagree : ∀ s ∈ h.slots.toList, rank s = rank' s) :
    h.pop? rank = h.pop? rank' := by
  rw [pop?, pop?]
  cases hback : h.slots.back? with
  | none => rfl
  | some last =>
    dsimp only
    split
    · rename_i hr
      rw [siftDown_congr]
      intro s hs
      have hset : s ∈ h.slots.pop.set 0 last hr := (Vector.mem_toArray_iff s _).2 hs
      apply hagree
      rw [Array.mem_toList_iff]
      cases Array.mem_or_eq_of_mem_set hset with
      | inl hold =>
        rw [← Array.mem_toList_iff, Array.toList_pop] at hold
        exact Array.mem_toList_iff.1 ((List.dropLast_sublist _).subset hold)
      | inr heq =>
        rw [heq]
        exact Array.mem_of_back? hback
    · rfl

theorem popMany_congr (hagree : ∀ s ∈ h.slots.toList, rank s = rank' s) (count : Nat) :
    h.popMany rank count = h.popMany rank' count := by
  induction count generalizing h with
  | zero => rfl
  | succ count ih =>
    rw [popMany, popMany, ← pop?_congr hagree]
    cases hpop : h.pop? rank with
    | none => rfl
    | some result =>
      dsimp only
      rw [ih]
      intro s hs
      apply hagree
      exact (pop?_perm hpop).symm.subset (List.mem_cons_of_mem _ hs)

end SlotHeap

end PackedRatings
