import Mathlib.Algebra.Order.Group.Multiset
import PackedRatings.Proofs.Ranking.HeapOrder

/-!
# Heaps are priority queues

A heap of slots serves a multiset of slots whose scores stand outside of it: what it shows and
what it gives out is always a slot of least score. Each call keeps this true, and so does a
score that is written under a slot which is not enqueued, so it is true at every point of every
run. There the slots in the heap are those that were pushed without those that were popped.
-/
namespace PackedRatings.SlotHeap

variable {h rest : SlotHeap} {scores : Array Binary64} {enqueued pushed popped : Multiset Nat}
  {slot : Nat}

def Least (scores : Array Binary64) (enqueued : Multiset Nat) (slot : Nat) : Prop :=
  slot ∈ enqueued ∧ ∀ s ∈ enqueued, scoreRank scores slot ≤ scoreRank scores s

/-- The heap is in order and its slots are those of `enqueued`, all of which have a score. -/
structure Queues (h : SlotHeap) (scores : Array Binary64) (enqueued : Multiset Nat) : Prop where
  slots : (h.slots.toList : Multiset Nat) = enqueued
  inRange : ∀ slot ∈ enqueued, slot < scores.size
  inOrder : h.InOrder (scoreRank scores)

namespace Queues

theorem empty (scores : Array Binary64) : Queues .empty scores 0 where
  slots := rfl
  inRange := fun slot hslot => absurd hslot (Multiset.notMem_zero slot)
  inOrder := inOrder_empty

theorem push (hq : h.Queues scores enqueued) (hslot : slot < scores.size) :
    (h.push (scoreRank scores) slot).Queues scores (slot ::ₘ enqueued) where
  slots := by
    rw [← hq.slots, Multiset.cons_coe, Multiset.coe_eq_coe]
    exact push_perm h slot
  inRange := by
    intro s hs
    cases Multiset.mem_cons.1 hs with
    | inl heq => exact heq ▸ hslot
    | inr hs => exact hq.inRange s hs
  inOrder := hq.inOrder.push slot

theorem eq_cons_of_pop? (hq : h.Queues scores enqueued)
    (hpop : h.pop? (scoreRank scores) = some (slot, rest)) :
    enqueued = slot ::ₘ (rest.slots.toList : Multiset Nat) := by
  rw [← hq.slots, Multiset.cons_coe, Multiset.coe_eq_coe]
  exact pop?_perm hpop

theorem pop? (hq : h.Queues scores enqueued)
    (hpop : h.pop? (scoreRank scores) = some (slot, rest)) :
    rest.Queues scores (enqueued.erase slot) where
  slots := by
    rw [hq.eq_cons_of_pop? hpop, Multiset.erase_cons_head]
  inRange := fun s hs => hq.inRange s (Multiset.mem_of_mem_erase hs)
  inOrder := hq.inOrder.pop? hpop

/-- The score of a slot that is not enqueued orders nothing. -/
theorem overwrite (hq : h.Queues scores enqueued) (hfree : slot ∉ enqueued) (score : Binary64) :
    h.Queues (scores.setIfInBounds slot score) enqueued where
  slots := hq.slots
  inRange := by
    rw [Array.size_setIfInBounds]
    exact hq.inRange
  inOrder := by
    apply hq.inOrder.congr
    intro s hs
    have hne : slot ≠ s := by
      rintro rfl
      apply hfree
      rw [← hq.slots]
      exact hs
    rw [scoreRank, scoreRank, Array.getD_eq_getD_getElem?, Array.getD_eq_getD_getElem?,
      Array.getElem?_setIfInBounds_ne hne]

theorem slots_eq_empty_iff (hq : h.Queues scores enqueued) : h.slots = #[] ↔ enqueued = 0 := by
  rw [← hq.slots, Multiset.coe_eq_zero, Array.toList_eq_nil_iff]

theorem peek?_eq_none_iff (hq : h.Queues scores enqueued) : h.peek? = none ↔ enqueued = 0 := by
  rw [← hq.slots_eq_empty_iff, peek?, Array.getElem?_eq_none_iff, Nat.le_zero,
    Array.size_eq_zero_iff]

theorem pop?_eq_none_iff (hq : h.Queues scores enqueued) :
    h.pop? (scoreRank scores) = none ↔ enqueued = 0 := by
  rw [← hq.slots_eq_empty_iff, SlotHeap.pop?_eq_none_iff]

theorem least_of_peek? (hq : h.Queues scores enqueued) (hpeek : h.peek? = some slot) :
    Least scores enqueued slot := by
  rw [← hq.slots]
  exact ⟨Array.mem_toList_iff.2 (Array.mem_of_getElem? hpeek), hq.inOrder.peek?_le hpeek⟩

end Queues

/-- The heap answers like a priority queue of the slots of `enqueued`. -/
structure Serves (h : SlotHeap) (scores : Array Binary64) (enqueued : Multiset Nat) : Prop where
  slots : (h.slots.toList : Multiset Nat) = enqueued
  inRange : ∀ slot ∈ enqueued, slot < scores.size
  peek?_eq_none : h.peek? = none ↔ enqueued = 0
  pop?_eq_none : h.pop? (scoreRank scores) = none ↔ enqueued = 0
  peek? : ∀ slot, h.peek? = some slot → Least scores enqueued slot
  pop? : ∀ slot rest, h.pop? (scoreRank scores) = some (slot, rest) →
    Least scores enqueued slot ∧ (rest.slots.toList : Multiset Nat) = enqueued.erase slot
  drain : (h.drain (scoreRank scores) : Multiset Nat) = enqueued
  drain_pairwise : (h.drain (scoreRank scores)).Pairwise
    (scoreRank scores · ≤ scoreRank scores ·)

theorem Queues.serves (hq : h.Queues scores enqueued) : h.Serves scores enqueued where
  slots := hq.slots
  inRange := hq.inRange
  peek?_eq_none := hq.peek?_eq_none_iff
  pop?_eq_none := hq.pop?_eq_none_iff
  peek? := fun _ hpeek => hq.least_of_peek? hpeek
  pop? := fun _ _ hpop => ⟨hq.least_of_peek? (peek?_of_pop? hpop), (hq.pop? hpop).slots⟩
  drain := by
    rw [← hq.slots, Multiset.coe_eq_coe]
    exact (drain_spec hq.inOrder).1
  drain_pairwise := (drain_spec hq.inOrder).2

/-- Calls on an empty heap, and scores that were written between them under slots that were not
enqueued, have led to `scores` and to a heap. Since the heap was last cleared `pushed` are the
slots that were pushed and `popped` those that were popped. A peek, and a pop that finds nothing,
leave everything as it is. -/
inductive Reaches : (pushed popped : Multiset Nat) → Array Binary64 → SlotHeap → Prop where
  | start (scores : Array Binary64) : Reaches 0 0 scores .empty
  | push {pushed popped : Multiset Nat} {scores : Array Binary64} {h : SlotHeap}
    (hreach : Reaches pushed popped scores h) (slot : Nat) (hslot : slot < scores.size) :
    Reaches (slot ::ₘ pushed) popped scores (h.push (scoreRank scores) slot)
  | pop {pushed popped : Multiset Nat} {scores : Array Binary64} {h rest : SlotHeap} {slot : Nat}
    (hreach : Reaches pushed popped scores h)
    (hpop : h.pop? (scoreRank scores) = some (slot, rest)) :
    Reaches pushed (slot ::ₘ popped) scores rest
  | clear {pushed popped : Multiset Nat} {scores : Array Binary64} {h : SlotHeap}
    (hreach : Reaches pushed popped scores h) : Reaches 0 0 scores .empty
  | overwrite {pushed popped : Multiset Nat} {scores : Array Binary64} {h : SlotHeap}
    (hreach : Reaches pushed popped scores h) (slot : Nat) (hfree : slot ∉ pushed - popped)
    (score : Binary64) : Reaches pushed popped (scores.setIfInBounds slot score) h

/-- The slots that were pushed are those that were popped and those that the heap holds. -/
theorem Reaches.exists_queues (hreach : Reaches pushed popped scores h) :
    ∃ enqueued, popped + enqueued = pushed ∧ h.Queues scores enqueued := by
  induction hreach with
  | start scores => exact ⟨0, rfl, .empty scores⟩
  | @push pushed popped scores h hreach slot hslot ih =>
    obtain ⟨enqueued, rfl, hq⟩ := ih
    exact ⟨slot ::ₘ enqueued, Multiset.add_cons slot popped enqueued, hq.push hslot⟩
  | @pop pushed popped scores h rest slot hreach hpop ih =>
    obtain ⟨enqueued, rfl, hq⟩ := ih
    have hslot : slot ∈ enqueued := (hq.least_of_peek? (peek?_of_pop? hpop)).1
    refine ⟨enqueued.erase slot, ?_, hq.pop? hpop⟩
    rw [Multiset.cons_add, ← Multiset.add_cons, Multiset.cons_erase hslot]
  | clear hreach ih => exact ⟨0, rfl, .empty _⟩
  | overwrite hreach slot hfree score ih =>
    obtain ⟨enqueued, rfl, hq⟩ := ih
    rw [add_tsub_cancel_left] at hfree
    exact ⟨enqueued, rfl, hq.overwrite hfree score⟩

/-- At every point of every run the heap is a priority queue of the slots that were pushed and
not popped. -/
theorem reaches_serves (hreach : Reaches pushed popped scores h) :
    popped ≤ pushed ∧ h.Serves scores (pushed - popped) := by
  obtain ⟨enqueued, rfl, hq⟩ := hreach.exists_queues
  rw [add_tsub_cancel_left]
  exact ⟨Multiset.le_add_right popped enqueued, hq.serves⟩

/-- Slot 1 is enqueued twice, and slot 0 is popped and enqueued again as not a number. -/
theorem reaches_serves_reused_slot :
    ∃ scores h, Reaches {0, 1, 1, 0} {0} scores h ∧ h.Serves scores {0, 1, 1} ∧
      h.peek? = some 1 ∧ Least scores {0, 1, 1} 1 := by
  have hstart := Reaches.start #[⟨0x4008000000000000⟩, ⟨0x401c000000000000⟩]
  have hpushed : Reaches {1, 1, 0} 0 #[⟨0x4008000000000000⟩, ⟨0x401c000000000000⟩] _ :=
    ((hstart.push 0 (by decide)).push 1 (by decide)).push 1 (by decide)
  have hpopped : Reaches {1, 1, 0} {0} _ ⟨#[1, 1]⟩ := hpushed.pop (by decide +kernel)
  have hreach : Reaches {0, 1, 1, 0} {0} _ _ :=
    (hpopped.overwrite 0 (by decide) .nan).push 0 (by decide)
  have hleft : ({0, 1, 1, 0} - {0} : Multiset Nat) = {0, 1, 1} := by decide
  have hserves := (reaches_serves hreach).2
  rw [hleft] at hserves
  exact ⟨_, _, hreach, hserves, by decide +kernel, hserves.peek? 1 (by decide +kernel)⟩

end PackedRatings.SlotHeap
