import PackedRatings.Proofs.File.WordArithmetic
import PackedRatings.Proofs.Ranking.HeapLocality

/-!
# Heaps whose every look-up is checked

On a machine a heap looks up positions among its slots and slots among the scores, and the
positions below a position are sums of words. Each of these may stop the program. None does as
long as every slot of the heap has a score, and then the heap moves as it does without the checks.
-/
namespace PackedRatings

namespace Guarded

def write {α : Type} (a : Array α) (i : Nat) (x : α) : Guarded (Array α) :=
  if i < a.size then pure (a.setIfInBounds i x) else fault .outOfRange

theorem write_eq_pure {α : Type} {a : Array α} {i : Nat} (h : i < a.size) (x : α) :
    write a i x = pure (a.setIfInBounds i x) :=
  if_pos h

/-- An element that is there is found. -/
theorem found_getElem? {α : Type} {a : Array α} {i : Nat} (h : i < a.size) (default : α) :
    found a[i]? = pure (a.getD i default) := by
  rw [Array.getD_eq_getD_getElem?, Array.getElem?_eq_getElem h]
  rfl

end Guarded

open Guarded

section Sift

variable {n : Nat} {scores : Array Binary64} {slots : Vector Nat n}

def guardedBelow (scores : Array Binary64) (slots : Vector Nat n) (i j : Nat) : Guarded Bool := do
  let s ← found slots[i]?
  let t ← found slots[j]?
  let x ← found scores[s]?
  let y ← found scores[t]?
  return decide (x.rank < y.rank)

def guardedSwap (slots : Vector Nat n) (i j : Nat) : Guarded (Vector Nat n) :=
  if h : i < n ∧ j < n then pure (slots.swap i j h.1 h.2) else fault .outOfRange

def guardedSiftUp (scores : Array Binary64) (slots : Vector Nat n) (i : Nat) :
    Guarded (Vector Nat n) :=
  if h : i = 0 then pure slots
  else do
    let parent := (i - 1) / 2
    if ← guardedBelow scores slots i parent then
      guardedSiftUp scores (← guardedSwap slots i parent) parent
    else return slots
termination_by i
decreasing_by omega

/-- Whether the right one of the two positions below `i` is there and ranks below the left one. -/
def guardedLower (scores : Array Binary64) (slots : Vector Nat n) (i : Nat) : Guarded Bool :=
  if 2 * i + 2 < n then guardedBelow scores slots (2 * i + 2) (2 * i + 1) else pure false

def guardedSiftDown (scores : Array Binary64) (slots : Vector Nat n) (i : Nat) :
    Guarded (Vector Nat n) := do
  let _ ← word (2 * i + 1)
  if hleft : 2 * i + 1 < n then
    let _ ← word (2 * i + 2)
    let child := if ← guardedLower scores slots i then 2 * i + 2 else 2 * i + 1
    if ← guardedBelow scores slots child i then
      guardedSiftDown scores (← guardedSwap slots i child) child
    else return slots
  else return slots
termination_by n - i
decreasing_by
  have hchild : i < child := by
    simp only [child]
    split <;> omega
  omega

def Scores (scores : Array Binary64) (slots : Vector Nat n) : Prop :=
  ∀ s ∈ slots, s < scores.size

theorem Scores.swap (h : Scores scores slots) {i j : Nat} (hi : i < n) (hj : j < n) :
    Scores scores (slots.swap i j) :=
  fun s hs => h s ((Vector.swap_perm hi hj).mem_iff.1 hs)

theorem guardedBelow_eq_pure (h : Scores scores slots) {i j : Nat} (hi : i < n) (hj : j < n) :
    guardedBelow scores slots i j =
      pure (decide (scoreRank scores slots[i] < scoreRank scores slots[j])) := by
  have hs := h slots[i] (Vector.getElem_mem hi)
  have ht := h slots[j] (Vector.getElem_mem hj)
  rw [guardedBelow, Vector.getElem?_eq_getElem hi, Vector.getElem?_eq_getElem hj]
  change (found scores[slots[i]]? >>= fun _ => found scores[slots[j]]? >>= fun _ => _) = _
  rw [found_getElem? hs 0, found_getElem? ht 0]
  rfl

theorem guardedSwap_eq_pure {i j : Nat} (hi : i < n) (hj : j < n) :
    guardedSwap slots i j = pure (slots.swap i j) :=
  dif_pos ⟨hi, hj⟩

theorem guardedSiftUp_eq_pure (h : Scores scores slots) {i : Nat} (hi : i < n) :
    guardedSiftUp scores slots i = pure (siftUp (scoreRank scores) slots i hi) := by
  fun_induction siftUp (scoreRank scores) slots i hi with
  | case1 slots => rw [guardedSiftUp, dif_pos rfl]
  | case2 slots i hi hzero parent hlt ih =>
    rw [guardedSiftUp, dif_neg hzero]
    dsimp only
    rw [guardedBelow_eq_pure h hi (by omega), pure_bind, if_pos (decide_eq_true hlt),
      guardedSwap_eq_pure hi (by omega), pure_bind]
    exact ih (h.swap _ _)
  | case3 slots i hi hzero parent hge =>
    rw [guardedSiftUp, dif_neg hzero]
    dsimp only
    rw [guardedBelow_eq_pure h hi (by omega), pure_bind, if_neg (by simpa using hge)]

/-- One step, once it is known which child is compared. The two words that are computed for it fit
if twice the number of slots does. -/
theorem guardedSiftDown_of_lower (hn : 2 * n < UInt64.size) (h : Scores scores slots) {i : Nat}
    (hi : i < n) (left : 2 * i + 1 < n) {lower : Bool} {child : Nat} (hc : child < n)
    (hlower : guardedLower scores slots i = pure lower)
    (hchild : child = if lower then 2 * i + 2 else 2 * i + 1) :
    guardedSiftDown scores slots i =
      if scoreRank scores slots[child] < scoreRank scores slots[i] then
        guardedSiftDown scores (slots.swap i child) child
      else pure slots := by
  rw [guardedSiftDown, word_eq_pure (by omega), pure_bind, dif_pos left, word_eq_pure (by omega),
    pure_bind, hlower, pure_bind]
  dsimp only
  rw [← hchild, guardedBelow_eq_pure h hc hi, pure_bind, guardedSwap_eq_pure hi hc, pure_bind]
  simp only [decide_eq_true_eq]

theorem guardedLower_eq_pure (h : Scores scores slots) {i : Nat} (right : 2 * i + 2 < n) :
    guardedLower scores slots i =
      pure (decide (scoreRank scores slots[2 * i + 2] < scoreRank scores slots[2 * i + 1])) := by
  rw [guardedLower, if_pos right, guardedBelow_eq_pure h right (by omega)]

theorem guardedSiftDown_eq_pure (hn : 2 * n < UInt64.size) (h : Scores scores slots) {i : Nat}
    (hi : i < n) :
    guardedSiftDown scores slots i = pure (siftDown (scoreRank scores) slots i hi) := by
  fun_induction siftDown (scoreRank scores) slots i hi with
  | case1 slots i hi left right hright hlt ih =>
    rw [guardedSiftDown_of_lower hn h hi left right (guardedLower_eq_pure h right)
      (by rw [decide_eq_true hright]; rfl), if_pos hlt]
    exact ih (h.swap _ _)
  | case2 slots i hi left right hright hge =>
    rw [guardedSiftDown_of_lower hn h hi left right (guardedLower_eq_pure h right)
      (by rw [decide_eq_true hright]; rfl), if_neg hge]
  | case3 slots i hi left right hright hlt ih =>
    rw [guardedSiftDown_of_lower hn h hi left left (guardedLower_eq_pure h right)
      (by rw [decide_eq_false hright]; rfl), if_pos hlt]
    exact ih (h.swap _ _)
  | case4 slots i hi left right hright hge =>
    rw [guardedSiftDown_of_lower hn h hi left left (guardedLower_eq_pure h right)
      (by rw [decide_eq_false hright]; rfl), if_neg hge]
  | case5 slots i hi left right hlt ih =>
    rw [guardedSiftDown_of_lower hn h hi left left (if_neg right) rfl, if_pos hlt]
    exact ih (h.swap _ _)
  | case6 slots i hi left right hge =>
    rw [guardedSiftDown_of_lower hn h hi left left (if_neg right) rfl, if_neg hge]
  | case7 slots i hi left =>
    rw [guardedSiftDown, word_eq_pure (by omega), pure_bind, dif_neg left]

end Sift

namespace SlotHeap

variable {h : SlotHeap} {scores : Array Binary64}

def guardedPush (scores : Array Binary64) (h : SlotHeap) (slot : Nat) : Guarded SlotHeap := do
  ensure (slot < scores.size)
  let slots : Vector Nat (h.slots.size + 1) := h.slots.toVector.push slot
  let last ← sub (h.slots.size + 1) 1
  return ⟨(← guardedSiftUp scores slots last).toArray⟩

def guardedPop? (scores : Array Binary64) (h : SlotHeap) : Guarded (Option (Nat × SlotHeap)) := do
  match h.slots.back? with
  | none => return none
  | some last =>
    let rest := h.slots.pop
    if rest.size = 0 then return some (last, ⟨rest⟩)
    else
      let top ← found rest[0]?
      let filled ← write rest 0 last
      let sifted ← guardedSiftDown scores filled.toVector 0
      return some (top, ⟨sifted.toArray⟩)

theorem guardedPush_eq_pure (hscores : ∀ s ∈ h.slots.toList, s < scores.size) {slot : Nat}
    (hslot : slot < scores.size) :
    h.guardedPush scores slot = pure (h.push (scoreRank scores) slot) := by
  have hall : Scores scores (h.slots.toVector.push slot) := by
    intro s hs
    cases Vector.mem_push.1 hs with
    | inl hmem => exact hscores s (Array.mem_toList_iff.2 (Vector.mem_mk.1 hmem))
    | inr heq => exact heq ▸ hslot
  rw [guardedPush, ensure_eq_pure hslot, pure_bind, sub_eq_pure (by omega), pure_bind,
    Nat.add_sub_cancel, guardedSiftUp_eq_pure hall (Nat.lt_succ_self _)]
  rfl

/-- The number of slots counts once, whichever way it is written. -/
theorem siftDown_toArray_eq {rank : Nat → Int} {a b : Array Nat} {n : Nat} (hab : a = b)
    (hn : b.size = n) (ha : 0 < a.size) (hpos : 0 < n) :
    (siftDown rank (⟨a, rfl⟩ : Vector Nat a.size) 0 ha).toArray =
      (siftDown rank (⟨b, hn⟩ : Vector Nat n) 0 hpos).toArray := by
  subst hab hn
  rfl

theorem mem_of_mem_pop_or_eq_back {last s : Nat} (hback : h.slots.back? = some last)
    (hs : s ∈ h.slots.pop ∨ s = last) : s ∈ h.slots.toList := by
  obtain ⟨before, hbefore⟩ := Array.back?_eq_some_iff.1 hback
  rw [hbefore, Array.pop_push] at hs
  rw [Array.mem_toList_iff, hbefore, Array.mem_push]
  exact hs

theorem guardedPop?_eq_pure (hn : 2 * h.size < UInt64.size)
    (hscores : ∀ s ∈ h.slots.toList, s < scores.size) :
    h.guardedPop? scores = pure (h.pop? (scoreRank scores)) := by
  rw [guardedPop?, SlotHeap.pop?]
  cases hback : h.slots.back? with
  | none => rfl
  | some last =>
    dsimp only
    by_cases hr : 0 < h.slots.pop.size
    · have hfilled : h.slots.pop.setIfInBounds 0 last = h.slots.pop.set 0 last hr := dif_pos hr
      have hsize : (h.slots.pop.setIfInBounds 0 last).size = h.slots.pop.size :=
        Array.size_setIfInBounds
      have hpop : h.slots.pop.size ≤ h.size := by
        rw [Array.size_pop]
        exact Nat.sub_le _ _
      have hall : Scores scores (⟨h.slots.pop.setIfInBounds 0 last, rfl⟩ : Vector Nat _) := by
        intro s hs
        rw [Vector.mem_mk] at hs
        exact hscores s (mem_of_mem_pop_or_eq_back hback (Array.mem_or_eq_of_mem_setIfInBounds hs))
      rw [if_neg (Nat.ne_of_gt hr), dif_pos hr, found_getElem? hr 0, pure_bind, write_eq_pure hr,
        pure_bind, guardedSiftDown_eq_pure (by omega) hall (by omega), pure_bind,
        siftDown_toArray_eq hfilled (Array.size_set hr) _ hr, Array.getElem_eq_getD 0]
    · rw [if_pos (by omega), dif_neg hr]

end SlotHeap

end PackedRatings
