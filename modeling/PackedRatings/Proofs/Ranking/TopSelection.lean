import PackedRatings.Proofs.Ranking.HeapOrder
import PackedRatings.Ranking.FullCollector
import PackedRatings.Ranking.TopCollector

/-!
# The highest scores are selected

`TopCollector.Selects c n puts` relates a collector to what was put into it since it last
started anew: the heap and the spare slot number the slots in use, each slot in the heap shows
one of the entries that were put, and no entry that was left out scores above one that is
kept. Every put keeps this true. Finishing then lists the kept entries by rank, so the
collector agrees with one that keeps everything.
-/
namespace PackedRatings

namespace TopCollector

def kept (c : TopCollector) : List Scored :=
  c.heap.slots.toList.map c.entryAt

structure Selects (c : TopCollector) (n : Nat) (puts : List Scored) : Prop where
  capacity : c.capacity = n
  size : c.size = min puts.length n
  scores_size : c.scores.size = n + 1
  keys_size : c.keys.size = min puts.length (n + 1)
  slots : (c.spare :: c.heap.slots.toList).Perm (List.range (c.size + 1))
  spare : puts.length ≤ n → c.spare = puts.length
  inOrder : c.heap.InOrder (scoreRank c.scores)
  selection : ∃ out, (c.kept ++ out).Perm puts ∧
    ∀ e ∈ c.kept, ∀ o ∈ out, o.score.rank ≤ e.score.rank

theorem scoreRank_eq (c : TopCollector) (slot : Nat) :
    scoreRank c.scores slot = (c.entryAt slot).score.rank := rfl

theorem selects_ofCapacity (n : Nat) : (ofCapacity n).Selects n [] where
  capacity := rfl
  size := (Nat.zero_min n).symm
  scores_size := Array.size_replicate
  keys_size := (Nat.zero_min (n + 1)).symm
  slots := .refl _
  spare := fun _ => rfl
  inOrder := SlotHeap.inOrder_empty
  selection := ⟨[], .refl _, nofun⟩

theorem size_writeKey (keys : Array Int64) (slot : Nat) (key : Int64) :
    (writeKey keys slot key).size = if slot = keys.size then keys.size + 1 else keys.size := by
  rw [writeKey]
  split
  · exact Array.size_push key
  · exact Array.size_setIfInBounds

theorem getD_writeKey {keys : Array Int64} {slot : Nat} (hslot : slot ≤ keys.size) (key : Int64)
    (i : Nat) : (writeKey keys slot key).getD i 0 = if i = slot then key else keys.getD i 0 := by
  rw [writeKey, Array.getD_eq_getD_getElem?, Array.getD_eq_getD_getElem?]
  split
  · rename_i hend
    rw [Array.getElem?_push, hend]
    split
    · rfl
    · rfl
  · rw [Array.getElem?_setIfInBounds]
    by_cases hi : i = slot
    · rw [if_pos hi.symm, if_pos (by omega), if_pos hi]
      rfl
    · rw [if_neg (Ne.symm hi), if_neg hi]

theorem getD_setIfInBounds {scores : Array Binary64} {slot : Nat} (hslot : slot < scores.size)
    (score : Binary64) (i : Nat) :
    (scores.setIfInBounds slot score).getD i 0 = if i = slot then score else scores.getD i 0 := by
  rw [Array.getD_eq_getD_getElem?, Array.getD_eq_getD_getElem?, Array.getElem?_setIfInBounds]
  by_cases hi : i = slot
  · rw [if_pos hi.symm, if_pos hslot, if_pos hi]
    rfl
  · rw [if_neg (Ne.symm hi), if_neg hi]

namespace Selects

variable {c : TopCollector} {n : Nat} {puts : List Scored}

theorem heap_size (h : c.Selects n puts) : c.heap.size = c.size := by
  have hlength := h.slots.length_eq
  rw [List.length_cons, List.length_range, Array.length_toList] at hlength
  exact Nat.succ.inj hlength

theorem spare_le (h : c.Selects n puts) : c.spare ≤ c.size := by
  have hmem := h.slots.subset List.mem_cons_self
  exact Nat.le_of_lt_succ (List.mem_range.1 hmem)

theorem nodup_slots (h : c.Selects n puts) : (c.spare :: c.heap.slots.toList).Nodup :=
  h.slots.symm.nodup List.nodup_range

theorem spare_le_keys (h : c.Selects n puts) : c.spare ≤ c.keys.size := by
  have hspare := h.spare_le
  rw [h.size] at hspare
  rw [h.keys_size]
  omega

/-- Only the spare slot shows another entry. -/
theorem entryAt_enqueue (h : c.Selects n puts) (entry : Scored) (slot : Nat) :
    (c.enqueue entry).entryAt slot = if slot = c.spare then entry else c.entryAt slot := by
  have hspare := h.spare_le
  have hscores : c.spare < c.scores.size := by
    rw [h.scores_size]
    rw [h.size] at hspare
    omega
  rw [entryAt, enqueue, getD_writeKey h.spare_le_keys, getD_setIfInBounds hscores]
  split
  · rfl
  · rfl

theorem entryAt_enqueue_of_mem (h : c.Selects n puts) (entry : Scored) {slot : Nat}
    (hslot : slot ∈ c.heap.slots.toList) : (c.enqueue entry).entryAt slot = c.entryAt slot := by
  have hne : slot ≠ c.spare := by
    rintro rfl
    exact (List.nodup_cons.1 h.nodup_slots).1 hslot
  rw [h.entryAt_enqueue, if_neg hne]

theorem enqueue_slots_perm (c : TopCollector) (entry : Scored) :
    (c.enqueue entry).heap.slots.toList.Perm (c.spare :: c.heap.slots.toList) :=
  SlotHeap.push_perm c.heap c.spare

theorem enqueue_inOrder (h : c.Selects n puts) (entry : Scored) :
    (c.enqueue entry).heap.InOrder (scoreRank (c.enqueue entry).scores) := by
  refine SlotHeap.InOrder.push (h.inOrder.congr fun slot hslot => ?_) c.spare
  rw [scoreRank_eq, h.entryAt_enqueue_of_mem entry hslot, scoreRank_eq]

theorem enqueue_kept_perm (h : c.Selects n puts) (entry : Scored) :
    (c.enqueue entry).kept.Perm (entry :: c.kept) := by
  have hmap := (enqueue_slots_perm c entry).map (c.enqueue entry).entryAt
  rw [List.map_cons, h.entryAt_enqueue, if_pos rfl,
    List.map_congr_left fun slot hslot => h.entryAt_enqueue_of_mem entry hslot] at hmap
  exact hmap

theorem keys_size_enqueue (h : c.Selects n puts) (entry : Scored) :
    (c.enqueue entry).keys.size = min (puts.length + 1) (n + 1) := by
  have hspare := h.spare_le
  rw [h.size] at hspare
  change (writeKey _ _ _).size = _
  rw [size_writeKey, h.keys_size]
  by_cases hroom : puts.length ≤ n
  · rw [if_pos (by rw [h.spare hroom]; omega)]
    omega
  · rw [if_neg (by omega)]
    omega

/-- Below capacity nothing is left out. -/
theorem offer_of_room (h : c.Selects n puts) (entry : Scored) (hroom : c.size ≠ c.capacity) :
    (c.offer entry).Selects n (puts ++ [entry]) := by
  have hoffer : c.offer entry =
      { c.enqueue entry with spare := c.spare + 1, size := c.size + 1 } :=
    if_neg hroom
  have hsize := h.size
  have hlt : puts.length < n := by
    rw [hsize, h.capacity] at hroom
    omega
  have hspare := h.spare (Nat.le_of_lt hlt)
  obtain ⟨out, hperm, -⟩ := h.selection
  have hout : out = [] := by
    have hlength := hperm.length_eq
    rw [List.length_append, kept, List.length_map, Array.length_toList] at hlength
    have hheap := h.heap_size
    rw [SlotHeap.size] at hheap
    exact List.length_eq_zero_iff.1 (by omega)
  rw [hoffer]
  constructor
  · exact h.capacity
  · change c.size + 1 = _
    rw [List.length_append, List.length_singleton]
    omega
  · change (c.scores.setIfInBounds _ _).size = _
    rw [Array.size_setIfInBounds, h.scores_size]
  · rw [List.length_append, List.length_singleton]
    exact h.keys_size_enqueue entry
  · change ((c.spare + 1) :: (c.enqueue entry).heap.slots.toList).Perm (List.range (c.size + 1 + 1))
    have hlast : c.spare = c.size := by omega
    have hused := (enqueue_slots_perm c entry).trans h.slots
    rw [List.range_succ, hlast]
    exact (hused.cons _).trans (List.perm_append_singleton _ _).symm
  · intro _
    rw [List.length_append, List.length_singleton]
    exact congrArg Nat.succ hspare
  · exact h.enqueue_inOrder entry
  · refine ⟨[], ?_, fun _ _ o ho => by cases ho⟩
    rw [hout, List.append_nil] at hperm
    rw [List.append_nil]
    exact (h.enqueue_kept_perm entry).trans
      ((hperm.cons entry).trans (List.perm_append_singleton entry puts).symm)

theorem exists_pop_enqueue (h : c.Selects n puts) (entry : Scored) : ∃ evicted rest,
    (c.enqueue entry).heap.pop? (scoreRank (c.enqueue entry).scores) = some (evicted, rest) := by
  cases hpop : (c.enqueue entry).heap.pop? (scoreRank (c.enqueue entry).scores) with
  | none =>
    have hlength := ((enqueue_slots_perm c entry).trans h.slots).length_eq
    rw [SlotHeap.pop?_eq_none_iff.1 hpop, List.length_range] at hlength
    cases hlength
  | some result => exact ⟨result.1, result.2, rfl⟩

/-- The entries left out score above none that stays, the evicted one among them. -/
theorem left_out_le (h : c.Selects n puts) {entry : Scored} {evicted : Nat} {rest : SlotHeap}
    (hpop : (c.enqueue entry).heap.pop? (scoreRank (c.enqueue entry).scores) =
      some (evicted, rest)) {out : List Scored}
    (habove : ∀ e ∈ c.kept, ∀ o ∈ out, o.score.rank ≤ e.score.rank) {slot : Nat}
    (hslot : slot ∈ rest.slots.toList) {o : Scored}
    (ho : o ∈ (c.enqueue entry).entryAt evicted :: out) :
    o.score.rank ≤ ((c.enqueue entry).entryAt slot).score.rank := by
  have hperm := SlotHeap.pop?_perm hpop
  have hmem := hperm.symm.subset (List.mem_cons_of_mem evicted hslot)
  have hlow : ((c.enqueue entry).entryAt evicted).score.rank ≤
      ((c.enqueue entry).entryAt slot).score.rank :=
    (h.enqueue_inOrder entry).pop?_le hpop slot hmem
  have hold : ∀ s ∈ c.heap.slots.toList,
      o ∈ out → o.score.rank ≤ ((c.enqueue entry).entryAt s).score.rank := by
    intro s hs ho
    rw [h.entryAt_enqueue_of_mem entry hs]
    exact habove _ (List.mem_map_of_mem hs) o ho
  have hcases : ∀ s ∈ (c.enqueue entry).heap.slots.toList, s = c.spare ∨
      s ∈ c.heap.slots.toList := fun s hs =>
    List.mem_cons.1 ((enqueue_slots_perm c entry).subset hs)
  rcases List.mem_cons.1 ho with rfl | ho
  · exact hlow
  · rcases hcases slot hmem with rfl | hslot'
    · -- The new entry stays, so the evicted one is old and ranks above those left out.
      have hne : evicted ≠ c.spare := by
        rintro rfl
        have hnodup := (hperm.symm.trans (enqueue_slots_perm c entry)).symm.nodup h.nodup_slots
        exact (List.nodup_cons.1 hnodup).1 hslot
      have hevicted := (hcases evicted (hperm.symm.subset List.mem_cons_self)).resolve_left hne
      exact Int.le_trans (hold evicted hevicted ho) hlow
    · exact hold slot hslot' ho

/-- At capacity a lowest entry is left out. -/
theorem offer_of_full (h : c.Selects n puts) (entry : Scored) (hfull : c.size = c.capacity) :
    (c.offer entry).Selects n (puts ++ [entry]) := by
  rcases h.exists_pop_enqueue entry with ⟨evicted, rest, hpop⟩
  have hoffer : c.offer entry = { c.enqueue entry with heap := rest, spare := evicted } := by
    have hfull' : (c.enqueue entry).size = (c.enqueue entry).capacity := hfull
    rw [TopCollector.offer]
    dsimp only
    rw [if_pos hfull', hpop]
  have hperm := SlotHeap.pop?_perm hpop
  have hcapacity := h.capacity
  have hsize := h.size
  obtain ⟨out, hselection, habove⟩ := h.selection
  rw [hoffer]
  constructor
  · exact h.capacity
  · change c.size = _
    rw [List.length_append, List.length_singleton]
    omega
  · change (c.scores.setIfInBounds _ _).size = _
    rw [Array.size_setIfInBounds, h.scores_size]
  · rw [List.length_append, List.length_singleton]
    exact h.keys_size_enqueue entry
  · exact hperm.symm.trans ((enqueue_slots_perm c entry).trans h.slots)
  · intro hroom
    rw [List.length_append, List.length_singleton] at hroom
    omega
  · exact (h.enqueue_inOrder entry).pop? hpop
  · refine ⟨(c.enqueue entry).entryAt evicted :: out, ?_, ?_⟩
    · change (rest.slots.toList.map (c.enqueue entry).entryAt ++ _).Perm _
      have hkept : ((c.enqueue entry).entryAt evicted ::
          rest.slots.toList.map (c.enqueue entry).entryAt).Perm (entry :: c.kept) :=
        (hperm.map (c.enqueue entry).entryAt).symm.trans (h.enqueue_kept_perm entry)
      have hall : (entry :: (c.kept ++ out)).Perm (puts ++ [entry]) :=
        (hselection.cons entry).trans (List.perm_append_singleton entry puts).symm
      exact List.perm_middle.trans ((hkept.append_right out).trans hall)
    · intro e he o ho
      rcases List.mem_map.1 he with ⟨slot, hslot, rfl⟩
      exact h.left_out_le hpop habove hslot ho

theorem offer (h : c.Selects n puts) (entry : Scored) :
    (c.offer entry).Selects n (puts ++ [entry]) := by
  by_cases hfull : c.size = c.capacity
  · exact h.offer_of_full entry hfull
  · exact h.offer_of_room entry hfull

/-- Finishing lists the kept entries by rank and starts anew. -/
theorem finish (h : c.Selects n puts) (hopen : c.finished = false) :
    ∃ ranked c', c.finish = (.ok ranked, c') ∧ ranked.Perm c.kept ∧
      ranked.Pairwise (fun s t => t.score.rank ≤ s.score.rank) ∧
      c'.Selects n [] ∧ c'.finished = true := by
  obtain ⟨hperm, hlength, hsorted, hleft⟩ := SlotHeap.popMany_spec h.inOrder c.size
  obtain ⟨slots, left, hpop⟩ : ∃ slots left,
      c.heap.popMany (scoreRank c.scores) c.size = (slots, left) := ⟨_, _, rfl⟩
  rw [hpop] at hperm hlength hsorted hleft
  rw [h.heap_size, Nat.min_self] at hlength
  dsimp only at hperm hlength hsorted hleft
  have hempty : left.slots.toList = [] := by
    have hheap := h.heap_size
    have hlengths := hperm.length_eq
    simp only [List.length_append, Array.length_toList] at hlengths
    rw [SlotHeap.size] at hheap
    exact List.length_eq_zero_iff.1 (by rw [Array.length_toList]; omega)
  rw [hempty, List.append_nil] at hperm
  have hfinish : c.finish = (.ok (slots.map c.entryAt).reverse,
      { c with keys := #[], spare := 0, size := 0, heap := left, finished := true }) := by
    rw [TopCollector.finish, hopen, hpop]
    dsimp only
    rw [hlength, Nat.sub_self]
    rfl
  refine ⟨_, _, hfinish, ?_, ?_, ?_, rfl⟩
  · exact (List.reverse_perm _).trans (hperm.map c.entryAt)
  · rw [List.pairwise_reverse, List.pairwise_map]
    exact hsorted
  · refine ⟨h.capacity, (Nat.zero_min n).symm, h.scores_size, (Nat.zero_min (n + 1)).symm, ?_,
      fun _ => rfl, hleft, [], ?_, fun _ _ o ho => by cases ho⟩
    · change (0 :: left.slots.toList).Perm _
      rw [hempty]
      exact .refl _
    · change (left.slots.toList.map _ ++ []).Perm []
      rw [hempty]
      exact .refl _

end Selects

end TopCollector

end PackedRatings
