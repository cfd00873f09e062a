import PackedRatings.Ranking.SlotHeap

/-!
# Heaps stay in order

In an ordered heap no slot ranks below its parent. Adding a slot and taking one out keep the
order and the other slots, and the slot that is taken out ranks below no other. While a slot
is moved, the order has one gap: `UpOrder` and `DownOrder` say what still holds around it.
-/
namespace PackedRatings

abbrev IsChild (j p : Nat) : Prop :=
  j = 2 * p + 1 ∨ j = 2 * p + 2

section Sift

variable {rank : Nat → Int} {n : Nat}

/-- No slot ranks below its parent. -/
def Ordered (rank : Nat → Int) (slots : Vector Nat n) : Prop :=
  ∀ p j (hp : p < n) (hj : j < n), IsChild j p → rank slots[p] ≤ rank slots[j]

/-- The order around a slot at `i` that may rank below its parent. -/
structure UpOrder (rank : Nat → Int) (slots : Vector Nat n) (i : Nat) : Prop where
  others : ∀ p j (hp : p < n) (hj : j < n), IsChild j p → j ≠ i → rank slots[p] ≤ rank slots[j]
  across : ∀ p j (hp : p < n) (hj : j < n), IsChild i p → IsChild j i →
    rank slots[p] ≤ rank slots[j]

/-- The order around a slot at `i` that may rank above its children. -/
structure DownOrder (rank : Nat → Int) (slots : Vector Nat n) (i : Nat) : Prop where
  others : ∀ p j (hp : p < n) (hj : j < n), IsChild j p → p ≠ i → rank slots[p] ≤ rank slots[j]
  across : ∀ p j (hp : p < n) (hj : j < n), IsChild i p → IsChild j i →
    rank slots[p] ≤ rank slots[j]

theorem UpOrder.swap {slots : Vector Nat n} {i q : Nat} {hi : i < n} {hq : q < n}
    (h : UpOrder rank slots i) (hchild : IsChild i q) (hlt : rank slots[i] < rank slots[q]) :
    UpOrder rank (slots.swap i q) q := by
  constructor
  · intro p j hp hj hjp hjq
    by_cases hji : j = i
    · obtain rfl : p = q := by omega
      subst hji
      rw [Vector.getElem_swap_left, Vector.getElem_swap_right]
      exact Int.le_of_lt hlt
    · have hother := h.others p j hp hj hjp hji
      rw [Vector.getElem_swap_of_ne hji hjq]
      by_cases hpi : p = i
      · subst hpi
        rw [Vector.getElem_swap_left]
        exact h.across q j hq hj hchild hjp
      · by_cases hpq : p = q
        · subst hpq
          rw [Vector.getElem_swap_right]
          exact Int.le_trans (Int.le_of_lt hlt) hother
        · rw [Vector.getElem_swap_of_ne hpi hpq]
          exact hother
  · intro p j hp hj hqp hjq
    have habove := h.others p q hp hq hqp (by omega)
    rw [Vector.getElem_swap_of_ne (k := p) (by omega) (by omega)]
    by_cases hji : j = i
    · subst hji
      rw [Vector.getElem_swap_left]
      exact habove
    · rw [Vector.getElem_swap_of_ne hji (by omega)]
      exact Int.le_trans habove (h.others q j hq hj hjq hji)

/-- The slot at `i` may stay where it is. -/
theorem UpOrder.ordered {slots : Vector Nat n} {i : Nat} (h : UpOrder rank slots i)
    (hstay : ∀ p (hp : p < n) (hi : i < n), IsChild i p → rank slots[p] ≤ rank slots[i]) :
    Ordered rank slots := by
  intro p j hp hj hjp
  by_cases hji : j = i
  · subst hji
    exact hstay p hp hj hjp
  · exact h.others p j hp hj hjp hji

theorem siftUp_ordered {slots : Vector Nat n} {i : Nat} {hi : i < n}
    (h : UpOrder rank slots i) : Ordered rank (siftUp rank slots i hi) := by
  fun_induction siftUp rank slots i hi with
  | case1 slots => exact h.ordered fun p hp hi hchild => by omega
  | case2 slots i hi hzero q hlt ih => exact ih (h.swap (by omega) hlt)
  | case3 slots i hi hzero q hge =>
    refine h.ordered fun p hp hi hchild => ?_
    obtain rfl : p = q := by omega
    exact Int.not_lt.1 hge

theorem siftUp_perm (rank : Nat → Int) (slots : Vector Nat n) (i : Nat) (hi : i < n) :
    (siftUp rank slots i hi).Perm slots := by
  fun_induction siftUp rank slots i hi with
  | case1 slots => exact .refl _
  | case2 slots i hi hzero q hlt ih => exact ih.trans (Vector.swap_perm _ _)
  | case3 slots i hi hzero q hge => exact .refl _

theorem DownOrder.swap {slots : Vector Nat n} {i c : Nat} {hi : i < n} {hc : c < n}
    (h : DownOrder rank slots i) (hchild : IsChild c i) (hlt : rank slots[c] < rank slots[i])
    (hleast : ∀ j (hj : j < n), IsChild j i → rank slots[c] ≤ rank slots[j]) :
    DownOrder rank (slots.swap i c) c := by
  constructor
  · intro p j hp hj hjp hpc
    by_cases hpi : p = i
    · subst hpi
      rw [Vector.getElem_swap_left]
      by_cases hjc : j = c
      · subst hjc
        rw [Vector.getElem_swap_right]
        exact Int.le_of_lt hlt
      · rw [Vector.getElem_swap_of_ne (by omega) hjc]
        exact hleast j hj hjp
    · rw [Vector.getElem_swap_of_ne hpi hpc]
      by_cases hji : j = i
      · subst hji
        rw [Vector.getElem_swap_left]
        exact h.across p c hp hc hjp hchild
      · rw [Vector.getElem_swap_of_ne hji (by omega)]
        exact h.others p j hp hj hjp hpi
  · intro p j hp hj hcp hjc
    obtain rfl : p = i := by omega
    rw [Vector.getElem_swap_left, Vector.getElem_swap_of_ne (by omega) (by omega)]
    exact h.others c j hc hj hjc (by omega)

/-- The slot at `i` may stay where it is. -/
theorem DownOrder.ordered {slots : Vector Nat n} {i : Nat} (h : DownOrder rank slots i)
    (hstay : ∀ j (hi : i < n) (hj : j < n), IsChild j i → rank slots[i] ≤ rank slots[j]) :
    Ordered rank slots := by
  intro p j hp hj hjp
  by_cases hpi : p = i
  · subst hpi
    exact hstay j hp hj hjp
  · exact h.others p j hp hj hjp hpi

theorem siftDown_ordered {slots : Vector Nat n} {i : Nat} {hi : i < n}
    (h : DownOrder rank slots i) : Ordered rank (siftDown rank slots i hi) := by
  fun_induction siftDown rank slots i hi with
  | case1 slots i hi left right hright hlt ih =>
    refine ih (h.swap (.inr rfl) hlt fun j hj hchild => ?_)
    obtain rfl | rfl := hchild
    · exact Int.le_of_lt hright
    · exact Int.le_refl _
  | case2 slots i hi left right hright hge =>
    refine h.ordered fun j hi hj hchild => ?_
    obtain rfl | rfl := hchild
    · omega
    · omega
  | case3 slots i hi left right hright hlt ih =>
    refine ih (h.swap (.inl rfl) hlt fun j hj hchild => ?_)
    obtain rfl | rfl := hchild
    · exact Int.le_refl _
    · exact Int.not_lt.1 hright
  | case4 slots i hi left right hright hge =>
    refine h.ordered fun j hi hj hchild => ?_
    obtain rfl | rfl := hchild
    · omega
    · omega
  | case5 slots i hi left right hlt ih =>
    refine ih (h.swap (.inl rfl) hlt fun j hj hchild => ?_)
    obtain rfl : j = 2 * i + 1 := by omega
    exact Int.le_refl _
  | case6 slots i hi left right hge =>
    refine h.ordered fun j hi hj hchild => ?_
    obtain rfl : j = 2 * i + 1 := by omega
    exact Int.not_lt.1 hge
  | case7 slots i hi left =>
    exact h.ordered fun j hi hj hchild => by omega

theorem siftDown_perm (rank : Nat → Int) (slots : Vector Nat n) (i : Nat) (hi : i < n) :
    (siftDown rank slots i hi).Perm slots := by
  fun_induction siftDown rank slots i hi with
  | case1 slots i hi left right hright hlt ih => exact ih.trans (Vector.swap_perm _ _)
  | case2 slots i hi left right hright hge => exact .refl _
  | case3 slots i hi left right hright hlt ih => exact ih.trans (Vector.swap_perm _ _)
  | case4 slots i hi left right hright hge => exact .refl _
  | case5 slots i hi left right hlt ih => exact ih.trans (Vector.swap_perm _ _)
  | case6 slots i hi left right hge => exact .refl _
  | case7 slots i hi left => exact .refl _

/-- The root ranks below no slot. -/
theorem Ordered.root_le {slots : Vector Nat n} (h : Ordered rank slots) (i : Nat) (hi : i < n)
    (hzero : 0 < n) : rank slots[0] ≤ rank slots[i] := by
  induction i using Nat.strongRecOn with
  | _ i ih =>
    by_cases hi0 : i = 0
    · subst hi0
      exact Int.le_refl _
    · have hparent := h ((i - 1) / 2) i (by omega) hi (by omega)
      exact Int.le_trans (ih ((i - 1) / 2) (by omega) (by omega)) hparent

end Sift

namespace SlotHeap

variable {rank : Nat → Int}

def InOrder (rank : Nat → Int) (h : SlotHeap) : Prop :=
  Ordered rank (⟨h.slots, rfl⟩ : Vector Nat h.slots.size)

theorem inOrder_toArray {n : Nat} {slots : Vector Nat n} (h : Ordered rank slots) :
    InOrder rank ⟨slots.toArray⟩ := by
  obtain ⟨slots, rfl⟩ := slots
  exact h

theorem inOrder_empty : InOrder rank .empty :=
  fun p _ hp => absurd hp (Nat.not_lt_zero p)

/-- The order depends on the ranks of the slots in the heap only. -/
theorem InOrder.congr {rank' : Nat → Int} {h : SlotHeap} (hordered : h.InOrder rank)
    (heq : ∀ slot ∈ h.slots.toList, rank' slot = rank slot) : h.InOrder rank' := by
  intro p j hp hj hjp
  have hrank : ∀ i (hi : i < h.slots.size), rank' h.slots[i] = rank h.slots[i] := fun i hi =>
    heq _ (Array.getElem_mem_toList hi)
  have hle := hordered p j hp hj hjp
  change rank' h.slots[p] ≤ rank' h.slots[j]
  rw [hrank p hp, hrank j hj]
  exact hle

theorem push_perm (h : SlotHeap) (slot : Nat) :
    (h.push rank slot).slots.toList.Perm (slot :: h.slots.toList) := by
  have hsift := siftUp_perm rank
    (⟨h.slots.push slot, Array.size_push slot⟩ : Vector Nat (h.slots.size + 1)) h.slots.size
    (Nat.lt_succ_self _)
  have hlist := Vector.perm_iff_toList_perm.1 hsift
  apply List.Perm.trans hlist
  change (h.slots.push slot).toList.Perm _
  rw [Array.toList_push]
  exact List.perm_append_comm

theorem InOrder.push {h : SlotHeap} (hordered : h.InOrder rank) (slot : Nat) :
    (h.push rank slot).InOrder rank := by
  refine inOrder_toArray (siftUp_ordered ⟨?_, ?_⟩)
  · intro p j hp hj hjp hne
    have hj : j < h.slots.size := by omega
    have hp : p < h.slots.size := by omega
    have hle := hordered p j hp hj hjp
    rw [Vector.getElem_mk, Vector.getElem_mk, Array.getElem_push_lt hp, Array.getElem_push_lt hj]
    exact hle
  · intro p j hp hj _ hjp
    omega

theorem pop?_eq_none_iff {h : SlotHeap} : h.pop? rank = none ↔ h.slots = #[] := by
  rw [pop?]
  cases hback : h.slots.back? with
  | none => simp [Array.back?_eq_none_iff.1 hback]
  | some last =>
    have hne : h.slots ≠ #[] := by
      intro hempty
      rw [hempty] at hback
      cases hback
    dsimp only
    split
    · simp [hne]
    · simp [hne]

/-- The slot that comes out is the only one, or the last slot has filled its gap. -/
theorem pop?_cases {h rest : SlotHeap} {slot : Nat} (hpop : h.pop? rank = some (slot, rest)) :
    ∃ before last, h.slots = before.push last ∧
      (before = #[] ∧ slot = last ∧ rest = ⟨#[]⟩ ∨
        ∃ hr : 0 < before.size, slot = before[0] ∧
          rest = ⟨(siftDown rank ⟨before.set 0 last, Array.size_set hr⟩ 0 hr).toArray⟩) := by
  rw [SlotHeap.pop?] at hpop
  split at hpop
  · cases hpop
  · rename_i last hback
    have hslots : h.slots = h.slots.pop.push last := by
      rcases Array.back?_eq_some_iff.1 hback with ⟨before, hbefore⟩
      rw [hbefore, Array.pop_push]
    refine ⟨h.slots.pop, last, hslots, ?_⟩
    dsimp only at hpop
    split at hpop
    · rename_i hr
      cases hpop
      exact .inr ⟨hr, rfl, rfl⟩
    · rename_i hr
      have hempty : h.slots.pop = #[] :=
        Array.eq_empty_of_size_eq_zero (Nat.eq_zero_of_not_pos hr)
      cases hpop
      exact .inl ⟨hempty, rfl, by rw [hempty]⟩

theorem pop?_perm {h rest : SlotHeap} {slot : Nat} (hpop : h.pop? rank = some (slot, rest)) :
    h.slots.toList.Perm (slot :: rest.slots.toList) := by
  obtain ⟨before, last, hslots, ⟨rfl, rfl, rfl⟩ | ⟨hr, rfl, rfl⟩⟩ := pop?_cases hpop
  · rw [hslots]
    exact .refl _
  · have hsift := Vector.perm_iff_toList_perm.1 (siftDown_perm rank
      (⟨before.set 0 last, Array.size_set hr⟩ : Vector Nat before.size) 0 hr)
    refine List.Perm.trans ?_ (List.Perm.cons _ hsift.symm)
    obtain ⟨_ | ⟨root, others⟩⟩ := before
    · cases hr
    · rw [hslots, Array.toList_push]
      change (root :: others ++ [last]).Perm (root :: last :: others)
      exact List.Perm.cons root List.perm_append_comm

theorem InOrder.pop? {h rest : SlotHeap} {slot : Nat} (hordered : h.InOrder rank)
    (hpop : h.pop? rank = some (slot, rest)) : rest.InOrder rank := by
  obtain ⟨before, last, hslots, ⟨rfl, rfl, rfl⟩ | ⟨hr, rfl, rfl⟩⟩ := pop?_cases hpop
  · exact inOrder_empty
  · obtain ⟨slots⟩ := h
    obtain rfl : slots = before.push last := hslots
    have hsize : (before.push last).size = before.size + 1 := Array.size_push last
    refine inOrder_toArray (siftDown_ordered ⟨?_, ?_⟩)
    · intro p j hp hj hjp hp0
      have hp' : p < (before.push last).size := by omega
      have hj' : j < (before.push last).size := by omega
      have hle := hordered p j hp' hj' hjp
      rw [Vector.getElem_mk, Vector.getElem_mk, Array.getElem_push_lt hp,
        Array.getElem_push_lt hj] at hle
      have hj0 : 0 ≠ j := by omega
      rw [Vector.getElem_mk, Vector.getElem_mk, Array.getElem_set_ne _ _ (Ne.symm hp0),
        Array.getElem_set_ne _ _ hj0]
      exact hle
    · intro p j hp hj hroot
      omega

/-- The slot that comes out is the one at the root. -/
theorem peek?_of_pop? {h rest : SlotHeap} {slot : Nat}
    (hpop : h.pop? rank = some (slot, rest)) : h.peek? = some slot := by
  rcases h with ⟨slots⟩
  obtain ⟨before, last, hslots, ⟨rfl, rfl, rfl⟩ | ⟨hr, rfl, rfl⟩⟩ := pop?_cases hpop
  · obtain rfl : slots = _ := hslots
    rfl
  · obtain rfl : slots = _ := hslots
    change (before.push last)[0]? = some before[0]
    rw [Array.getElem?_push_lt hr]

theorem InOrder.peek?_le {h : SlotHeap} {slot : Nat} (hordered : h.InOrder rank)
    (hpeek : h.peek? = some slot) : ∀ s ∈ h.slots.toList, rank slot ≤ rank s := by
  obtain ⟨hr, rfl⟩ := Array.getElem?_eq_some_iff.1 hpeek
  intro s hs
  rcases Array.getElem_of_mem (Array.mem_toList_iff.1 hs) with ⟨i, hi, rfl⟩
  exact Ordered.root_le hordered i hi hr

/-- The slot that comes out ranks below no other. -/
theorem InOrder.pop?_le {h rest : SlotHeap} {slot : Nat} (hordered : h.InOrder rank)
    (hpop : h.pop? rank = some (slot, rest)) : ∀ s ∈ h.slots.toList, rank slot ≤ rank s :=
  hordered.peek?_le (peek?_of_pop? hpop)

/-- What comes out is in order, followed by what stays, and nothing is lost. -/
theorem popMany_spec {h : SlotHeap} (hordered : h.InOrder rank) (count : Nat) :
    ((h.popMany rank count).1 ++ (h.popMany rank count).2.slots.toList).Perm h.slots.toList ∧
      (h.popMany rank count).1.length = min count h.size ∧
      (h.popMany rank count).1.Pairwise (rank · ≤ rank ·) ∧
      (h.popMany rank count).2.InOrder rank := by
  induction count generalizing h with
  | zero => exact ⟨.refl _, (Nat.zero_min _).symm, .nil, hordered⟩
  | succ count ih =>
    cases hpop : h.pop? rank with
    | none =>
      have hempty := pop?_eq_none_iff.1 hpop
      simp only [popMany, hpop]
      refine ⟨.refl _, ?_, .nil, hordered⟩
      simp [size, hempty]
    | some result =>
      obtain ⟨slot, rest⟩ := result
      rcases ih (hordered.pop? hpop) with ⟨hperm, hlength, hsorted, hrest⟩
      have hout := pop?_perm hpop
      have hsize := size_pop? hpop
      simp only [popMany, hpop]
      refine ⟨(hperm.cons slot).trans hout.symm, ?_, ?_, hrest⟩
      · rw [List.length_cons, hlength]
        omega
      · refine List.pairwise_cons.2 ⟨fun s hs => hordered.pop?_le hpop s ?_, hsorted⟩
        exact hout.symm.subset (List.mem_cons_of_mem _
          (hperm.subset (List.mem_append_left _ hs)))

/-- Popping until nothing comes out is popping as often as there are slots. -/
theorem drain_eq_popMany (rank : Nat → Int) (h : SlotHeap) :
    h.drain rank = (h.popMany rank h.size).1 := by
  fun_induction drain rank h with
  | case1 h hpop =>
    have hempty := pop?_eq_none_iff.1 hpop
    have hsize : h.size = 0 := congrArg Array.size hempty
    rw [hsize, popMany]
  | case2 h slot rest hpop ih =>
    rw [← size_pop? hpop, popMany, hpop, ih]

/-- What comes out until the heap is empty are all its slots, in order. -/
theorem drain_spec {h : SlotHeap} (hordered : h.InOrder rank) :
    (h.drain rank).Perm h.slots.toList ∧ (h.drain rank).Pairwise (rank · ≤ rank ·) := by
  rcases popMany_spec hordered h.size with ⟨hperm, hlength, hsorted, -⟩
  rw [← drain_eq_popMany] at hperm hlength hsorted
  have hleft : (h.popMany rank h.size).2.slots.toList = [] := by
    have htotal := hperm.length_eq
    rw [List.length_append, hlength, Nat.min_self, size, Array.length_toList] at htotal
    exact List.length_eq_zero_iff.1 (Nat.add_eq_left.1 htotal)
  rw [hleft, List.append_nil] at hperm
  exact ⟨hperm, hsorted⟩

end SlotHeap

end PackedRatings
