import PackedRatings.Proofs.Ranking.HeapLocality
import PackedRatings.Proofs.Ranking.Rounds

/-!
# Every round is like the first one

A collector of everything starts anew with nothing in it. A collector of the highest scores
still has the scores of earlier rounds in its slots, but a slot is written before it is read:
`TopCollector.Twins` relates two collectors that differ only in scores which are left over, and
every call keeps them twins and gets one answer from both.
-/
namespace PackedRatings

namespace FullCollector

theorem lifeCycle_empty : ScoreCollector.LifeCycle empty := by
  apply ScoreCollector.lifeCycle_of_renewed rfl
  intro history ranked c' hfinish entry later
  change FullCollector.finish _ = _ at hfinish
  rw [FullCollector.finish] at hfinish
  split at hfinish
  · cases hfinish
  · cases hfinish
    rfl

end FullCollector

namespace TopCollector

open ScoreCollector

variable {n : Nat} {puts : List Scored} {c d : TopCollector}

theorem Selects.lt_size_keys (h : c.Selects n puts) {slot : Nat}
    (hslot : slot ∈ c.heap.slots.toList) : slot < c.keys.size := by
  have hrange := List.mem_range.1 (h.slots.subset (List.mem_cons_of_mem c.spare hslot))
  have hne : slot ≠ c.spare := by
    rintro rfl
    exact (List.nodup_cons.1 h.nodup_slots).1 hslot
  have hspare := h.spare
  rw [h.size] at hrange
  rw [h.keys_size]
  omega

theorem Selects.spare_lt_scores (h : c.Selects n puts) : c.spare < c.scores.size := by
  have hspare := h.spare_le
  rw [h.size] at hspare
  rw [h.scores_size]
  omega

theorem Selects.keys_eq_empty (h : c.Selects n []) : c.keys = #[] := by
  apply Array.eq_empty_of_size_eq_zero
  simp [h.keys_size]

theorem Selects.heap_eq_empty (h : c.Selects n []) : c.heap = .empty := by
  apply congrArg SlotHeap.mk
  apply Array.eq_empty_of_size_eq_zero
  change c.heap.size = 0
  simp [h.heap_size, h.size]

theorem Selects.step_finish (h : c.Selects n puts) (hopen : c.finished = false)
    (output : Output) : (ScoreCollector.step c (.finish output)).2.Selects n [] := by
  obtain ⟨ranked, hfinish⟩ := (step_of_open (c := c) hopen output).1
  exact (h.of_finish hfinish).1

/-- Two collectors hold the same entries in the same slots. They may differ in the scores of
slots that no key has been written into. -/
structure Twins (n : Nat) (puts : List Scored) (c d : TopCollector) : Prop where
  left : c.Selects n puts
  right : d.Selects n puts
  keys : c.keys = d.keys
  spare : c.spare = d.spare
  heap : c.heap = d.heap
  scores : ∀ slot < c.keys.size, c.scores.getD slot 0 = d.scores.getD slot 0

/-- With nothing put there is no entry in which two collectors could differ. -/
theorem twins_of_selects_nil (hc : c.Selects n []) (hd : d.Selects n []) :
    Twins n [] c d where
  left := hc
  right := hd
  keys := by rw [hc.keys_eq_empty, hd.keys_eq_empty]
  spare := by rw [hc.spare (Nat.zero_le n), hd.spare (Nat.zero_le n)]
  heap := by rw [hc.heap_eq_empty, hd.heap_eq_empty]
  scores := by simp [hc.keys_eq_empty]

theorem keys_offer (c : TopCollector) (entry : Scored) :
    (c.offer entry).keys = writeKey c.keys c.spare entry.key := by
  rw [TopCollector.offer]
  split
  · split
    · rfl
    · rfl
  · rfl

theorem scores_offer (c : TopCollector) (entry : Scored) :
    (c.offer entry).scores = c.scores.setIfInBounds c.spare entry.score := by
  rw [TopCollector.offer]
  split
  · split
    · rfl
    · rfl
  · rfl

namespace Twins

theorem size_eq (h : Twins n puts c d) : c.size = d.size := by
  rw [h.left.size, h.right.size]

theorem capacity_eq (h : Twins n puts c d) : c.capacity = d.capacity := by
  rw [h.left.capacity, h.right.capacity]

theorem getD_write (h : Twins n puts c d) (score : Binary64) {slot : Nat}
    (hslot : slot = c.spare ∨ slot < c.keys.size) :
    (c.scores.setIfInBounds c.spare score).getD slot 0 =
      (d.scores.setIfInBounds d.spare score).getD slot 0 := by
  rw [getD_setIfInBounds h.left.spare_lt_scores, getD_setIfInBounds h.right.spare_lt_scores,
    ← h.spare]
  split
  · rfl
  · rename_i hne
    exact h.scores slot (hslot.resolve_left hne)

theorem scoreRank_enqueue (h : Twins n puts c d) (entry : Scored) :
    ∀ slot ∈ c.spare :: c.heap.slots.toList,
      scoreRank (c.enqueue entry).scores slot = scoreRank (d.enqueue entry).scores slot := by
  intro slot hslot
  apply congrArg Binary64.rank
  apply h.getD_write
  cases List.mem_cons.1 hslot with
  | inl heq => exact .inl heq
  | inr hmem => exact .inr (h.left.lt_size_keys hmem)

theorem heap_enqueue (h : Twins n puts c d) (entry : Scored) :
    (c.enqueue entry).heap = (d.enqueue entry).heap := by
  change c.heap.push (scoreRank (c.enqueue entry).scores) c.spare =
    d.heap.push (scoreRank (d.enqueue entry).scores) d.spare
  rw [← h.heap, ← h.spare]
  apply SlotHeap.push_congr
  · intro slot hslot
    exact h.scoreRank_enqueue entry slot (List.mem_cons_of_mem _ hslot)
  · exact h.scoreRank_enqueue entry c.spare List.mem_cons_self

theorem pop?_enqueue (h : Twins n puts c d) (entry : Scored) :
    (c.enqueue entry).heap.pop? (scoreRank (c.enqueue entry).scores) =
      (d.enqueue entry).heap.pop? (scoreRank (d.enqueue entry).scores) := by
  rw [← h.heap_enqueue entry]
  apply SlotHeap.pop?_congr
  intro slot hslot
  exact h.scoreRank_enqueue entry slot ((Selects.enqueue_slots_perm c entry).subset hslot)

theorem places_offer (h : Twins n puts c d) (entry : Scored) :
    (c.offer entry).spare = (d.offer entry).spare ∧
      (c.offer entry).heap = (d.offer entry).heap := by
  have hcapacity : (c.enqueue entry).size = (c.enqueue entry).capacity ↔
      (d.enqueue entry).size = (d.enqueue entry).capacity := by
    change c.size = c.capacity ↔ d.size = d.capacity
    rw [h.size_eq, h.capacity_eq]
  have hspare : (c.enqueue entry).spare = (d.enqueue entry).spare := h.spare
  simp only [TopCollector.offer, hcapacity, h.pop?_enqueue entry]
  split
  · split
    · exact ⟨rfl, rfl⟩
    · exact ⟨hspare, h.heap_enqueue entry⟩
  · exact ⟨congrArg (· + 1) hspare, h.heap_enqueue entry⟩

theorem offer (h : Twins n puts c d) (entry : Scored) :
    Twins n (puts ++ [entry]) (c.offer entry) (d.offer entry) where
  left := h.left.offer entry
  right := h.right.offer entry
  keys := by rw [keys_offer, keys_offer, h.keys, h.spare]
  spare := (h.places_offer entry).1
  heap := (h.places_offer entry).2
  scores := by
    intro slot hslot
    rw [keys_offer, size_writeKey] at hslot
    rw [scores_offer, scores_offer]
    apply h.getD_write
    split at hslot
    · omega
    · exact .inr hslot

theorem entryAt_eq (h : Twins n puts c d) {slot : Nat} (hslot : slot ∈ c.heap.slots.toList) :
    c.entryAt slot = d.entryAt slot := by
  rw [entryAt, entryAt, h.scores slot (h.left.lt_size_keys hslot), h.keys]

theorem popMany_eq (h : Twins n puts c d) :
    c.heap.popMany (scoreRank c.scores) c.size = d.heap.popMany (scoreRank d.scores) d.size := by
  rw [← h.heap, ← h.size_eq]
  apply SlotHeap.popMany_congr
  intro slot hslot
  rw [scoreRank, scoreRank, h.scores slot (h.left.lt_size_keys hslot)]

theorem finish_eq (h : Twins n puts c d) (hfinished : c.finished = d.finished) :
    c.finish.1 = d.finish.1 := by
  have hentries : (c.heap.popMany (scoreRank c.scores) c.size).1.map c.entryAt =
      (c.heap.popMany (scoreRank c.scores) c.size).1.map d.entryAt := by
    apply List.map_congr_left
    intro slot hslot
    apply h.entryAt_eq
    exact (SlotHeap.popMany_spec h.left.inOrder c.size).1.subset (List.mem_append_left _ hslot)
  rw [TopCollector.finish, TopCollector.finish, ← hfinished, ← h.popMany_eq, ← h.size_eq]
  split
  · rfl
  · exact congrArg (fun entries => Except.ok (_ ++ entries.reverse)) hentries

/-- A call leaves twins, both finished or neither. -/
theorem step (h : Twins n puts c d) (hfinished : c.finished = d.finished) (call : Call) :
    (∃ puts', Twins n puts' (ScoreCollector.step c call).2 (ScoreCollector.step d call).2) ∧
      (ScoreCollector.step c call).2.finished = (ScoreCollector.step d call).2.finished := by
  cases call with
  | offer entry =>
    exact ⟨⟨_, h.offer entry⟩, (finished_offer c entry).trans (finished_offer d entry).symm⟩
  | size => exact ⟨⟨puts, h⟩, hfinished⟩
  | finish output =>
    constructor
    · cases hc : c.finished with
      | true =>
        rw [step_of_finished hc, step_of_finished (hfinished.symm.trans hc)]
        exact ⟨puts, h⟩
      | false =>
        have hleft := h.left.step_finish hc output
        have hright := h.right.step_finish (hfinished.symm.trans hc) output
        exact ⟨[], twins_of_selects_nil hleft hright⟩
    · exact (finished_step_finish c output).trans (finished_step_finish d output).symm

/-- Whatever is called, twins give the same answers. -/
theorem answers_eq (h : Twins n puts c d) (hfinished : c.finished = d.finished)
    (calls : List Call) : answers c calls = answers d calls := by
  induction calls generalizing puts c d with
  | nil => rfl
  | cons call calls ih =>
    obtain ⟨⟨puts', hnext⟩, hflags⟩ := h.step hfinished call
    rw [answers, answers, ih hnext hflags]
    congr 1
    cases call with
    | offer entry => rfl
    | size => exact congrArg Answer.size h.size_eq
    | finish output => exact step_finish_congr (h.finish_eq hfinished) output

end Twins

/-- At every point of every run the collector selects from the entries put since the last
finish. -/
theorem selects_after (n : Nat) (history : List Call) :
    (after (ofCapacity n) history).Selects n (pending history) := by
  induction history using List.reverseRecOn with
  | nil => exact selects_ofCapacity n
  | append_singleton history call ih =>
    rw [after_concat]
    cases call with
    | offer entry =>
      rw [pending_offer]
      exact ih.offer entry
    | size =>
      rw [pending_size]
      exact ih
    | finish output =>
      rw [pending_finish]
      cases hfinished : (after (ofCapacity n) history).finished with
      | true =>
        have hnew : ScoreCollector.finished (ofCapacity n) = false := rfl
        rw [step_of_finished hfinished]
        rwa [pending_of_spent ((finished_after_iff hnew history).1 hfinished)] at ih
      | false => exact ih.step_finish hfinished output

theorem lifeCycle_ofCapacity (n : Nat) : ScoreCollector.LifeCycle (ofCapacity n) := by
  apply lifeCycle_of_renewed rfl
  intro history ranked c' hfinish entry later
  have h := selects_after n history
  have htwins := twins_of_selects_nil (h.of_finish hfinish).1 (selects_ofCapacity n)
  apply (htwins.offer entry).answers_eq
  rw [finished_offer, finished_offer]

end TopCollector

/-- A collector of the highest scores, whatever its capacity, and a collector of everything are
spent exactly between a finish and the next put, and every round is like the first one. -/
theorem ScoreCollector.lifeCycle_of_new :
    (∀ n, LifeCycle (TopCollector.ofCapacity n)) ∧ LifeCycle FullCollector.empty :=
  ⟨TopCollector.lifeCycle_ofCapacity, FullCollector.lifeCycle_empty⟩

end PackedRatings
