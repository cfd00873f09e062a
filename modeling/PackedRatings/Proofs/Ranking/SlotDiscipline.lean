import PackedRatings.Proofs.File.TableRoundTrip
import PackedRatings.Proofs.Ranking.CheckedHeap
import PackedRatings.Proofs.Ranking.LifeCycle

/-!
# No slot is out of range

A collector of the highest scores writes and reads its slots in two arrays, and it counts on
which slots its heap holds. On a machine each look-up, each count and each assertion about the
heap may stop the program. At every point of every run the slots of the heap and the spare slot
are the numbers up to the size, one of each, and each slot of the heap holds the key and the
score of one entry that was put. So the collector with all these checks answers like the one
without them.
-/
namespace PackedRatings

open Guarded

namespace TopCollector

open ScoreCollector

variable {n : Nat} {puts : List Scored} {c : TopCollector}

/-- A new collector asks for memory for its scores, and as much for its heap. -/
def guardedNew (capacity : Nat) : Guarded TopCollector := do
  let slots ← word (capacity + 1)
  room slots 8
  room slots 8
  return ofCapacity capacity

def guardedWriteKey (keys : Array Int64) (slot : Nat) (key : Int64) : Guarded (Array Int64) :=
  if slot = keys.size then pure (keys.push key) else write keys slot key

def guardedEnqueue (c : TopCollector) (entry : Scored) : Guarded TopCollector := do
  ensure (c.spare ≤ c.capacity)
  ensure (c.heap.size = c.size)
  let keys ← guardedWriteKey c.keys c.spare entry.key
  let scores ← write c.scores c.spare entry.score
  let heap ← c.heap.guardedPush scores c.spare
  return { c with keys, scores, heap, finished := false }

def guardedOffer (c : TopCollector) (entry : Scored) : Guarded TopCollector := do
  let c ← c.guardedEnqueue entry
  if c.size = c.capacity then
    match ← c.heap.guardedPop? c.scores with
    | some (evicted, rest) => return { c with heap := rest, spare := evicted }
    | none => return c
  else
    let spare ← word (c.spare + 1)
    let size ← word (c.size + 1)
    return { c with spare, size }

/-- The entries of at most `count` slots in the order in which these come out of a heap, and what
stays in it. It breaks off when no slot is left. -/
def guardedDrain (c : TopCollector) (heap : SlotHeap) : Nat → Guarded (List Scored × SlotHeap)
  | 0 => pure ([], heap)
  | count + 1 => do
    match ← heap.guardedPop? c.scores with
    | none => return ([], heap)
    | some (slot, rest) =>
      let key ← found c.keys[slot]?
      let score ← found c.scores[slot]?
      let (entries, left) ← c.guardedDrain rest count
      return ({ key, score } :: entries, left)

def guardedFinish (c : TopCollector) : Guarded (Except Failure (List Scored) × TopCollector) := do
  if c.finished then return (.error (.invalidOperation "finish"), c)
  else
    ensure (c.heap.size = c.size)
    let (entries, heap) ← c.guardedDrain c.heap c.size
    ensure (heap.size = 0)
    let missing := List.replicate (c.size - entries.length) { key := 0, score := 0 : Scored }
    return (.ok (missing ++ entries.reverse),
      { c with keys := #[], spare := 0, size := 0, heap, finished := true })

def guardedFinishVector (c : TopCollector) :
    Guarded (Except Failure KeyedVector × TopCollector) := do
  let (ranked, c) ← c.guardedFinish
  return (ranked >>= Scored.toVector, c)

def guardedFinishKeys (c : TopCollector) :
    Guarded (Except Failure KeyWindow × TopCollector) := do
  let (ranked, c) ← c.guardedFinish
  return (ranked.map Scored.toKeys, c)

def guardedStep (c : TopCollector) : Call → Guarded (Answer × TopCollector)
  | .offer entry => do return (.taken, ← c.guardedOffer entry)
  | .size => return (.size c.size, c)
  | .finish .list => do return answered .ranked (← c.guardedFinish)
  | .finish .vector => do return answered .vector (← c.guardedFinishVector)
  | .finish .keys => do return answered .keys (← c.guardedFinishKeys)

def guardedCalls (c : TopCollector) : List Call → Guarded (List Answer × TopCollector)
  | [] => return ([], c)
  | call :: calls => do
    let (answer, c) ← c.guardedStep call
    let (answers, c) ← c.guardedCalls calls
    return (answer :: answers, c)

theorem guardedNew_eq_pure (hn : (n + 1) * 8 ≤ maxBytes) : guardedNew n = pure (ofCapacity n) := by
  have hword : n + 1 < UInt64.size := by
    have : maxBytes < UInt64.size := by decide
    omega
  rw [guardedNew, word_eq_pure hword, pure_bind, room_eq_pure hn, pure_bind, pure_bind]

def InRange (c : TopCollector) (slot : Nat) : Prop :=
  slot < c.scores.size ∧ slot < c.keys.size

/-- Each enqueued slot is in range and holds the key and the score of one entry of `puts`. -/
structure Shows (c : TopCollector) (puts : List Scored) : Prop where
  inRange : ∀ slot ∈ c.heap.slots.toList, c.InRange slot
  holds : ∀ slot ∈ c.heap.slots.toList, ∃ entry ∈ puts,
    c.keys[slot]? = some entry.key ∧ c.scores[slot]? = some entry.score

theorem InRange.getElem?_eq {slot : Nat} (h : c.InRange slot) :
    c.keys[slot]? = some (c.entryAt slot).key ∧ c.scores[slot]? = some (c.entryAt slot).score := by
  simp [entryAt, h.1, h.2]

theorem shows_of_kept_subset (hrange : ∀ slot ∈ c.heap.slots.toList, c.InRange slot)
    (hkept : c.kept ⊆ puts) : c.Shows puts where
  inRange := hrange
  holds := fun slot hslot =>
    ⟨c.entryAt slot, hkept (List.mem_map_of_mem hslot), (hrange slot hslot).getElem?_eq⟩

namespace Selects

theorem lt_size_scores (h : c.Selects n puts) {slot : Nat}
    (hslot : slot ∈ c.spare :: c.heap.slots.toList) : slot < c.scores.size := by
  have hrange := List.mem_range.1 (h.slots.subset hslot)
  rw [h.size] at hrange
  rw [h.scores_size]
  omega

theorem kept_subperm (h : c.Selects n puts) : c.kept.Subperm puts := by
  obtain ⟨out, hperm, -⟩ := h.selection
  exact (List.sublist_append_left c.kept out).subperm.trans hperm.subperm

theorem shows (h : c.Selects n puts) : c.Shows puts := by
  apply shows_of_kept_subset
  · intro slot hslot
    exact ⟨h.lt_size_scores (List.mem_cons_of_mem _ hslot), h.lt_size_keys hslot⟩
  · exact h.kept_subperm.subset

/-- Between the push and the pop of a put the spare slot is enqueued too. -/
theorem shows_enqueue (h : c.Selects n puts) (entry : Scored) :
    (c.enqueue entry).Shows (puts ++ [entry]) := by
  apply shows_of_kept_subset
  · intro slot hslot
    have hused := (enqueue_slots_perm c entry).subset hslot
    have hlt := List.mem_range.1 (h.slots.subset hused)
    constructor
    · change slot < (c.scores.setIfInBounds _ _).size
      rw [Array.size_setIfInBounds]
      exact h.lt_size_scores hused
    · rw [h.keys_size_enqueue]
      rw [h.size] at hlt
      omega
  · have hkept := (h.enqueue_kept_perm entry).subperm.trans
      ((List.subperm_cons entry).2 h.kept_subperm)
    exact (hkept.trans (List.perm_append_singleton entry puts).symm.subperm).subset

theorem size_le (h : c.Selects n puts) : c.size ≤ n := by
  rw [h.size]
  exact Nat.min_le_right _ _

/-- Where there is memory for the scores, the positions below any position of the heap are words. -/
theorem two_mul_size_lt (h : c.Selects n puts) (hn : (n + 1) * 8 ≤ maxBytes) :
    2 * (c.size + 1) < UInt64.size := by
  have hle := h.size_le
  have hbytes : maxBytes < UInt64.size := by decide
  omega

/-- All slots come out and the heap is left empty. -/
theorem exists_popMany_eq (h : c.Selects n puts) :
    ∃ slots, c.heap.popMany (scoreRank c.scores) c.size = (slots, .empty) ∧
      slots.length = c.size ∧ slots.Perm c.heap.slots.toList := by
  rcases hpop : c.heap.popMany (scoreRank c.scores) c.size with ⟨slots, left⟩
  obtain ⟨hperm, hlength, -⟩ := SlotHeap.popMany_spec h.inOrder c.size
  rw [hpop] at hperm hlength
  rw [h.heap_size, Nat.min_self] at hlength
  dsimp only at hperm hlength
  have htotal := hperm.length_eq
  have hheap := h.heap_size
  simp only [List.length_append, Array.length_toList, hlength] at htotal
  rw [SlotHeap.size] at hheap
  have hleft : left.slots = #[] := Array.eq_empty_of_size_eq_zero (by omega)
  obtain rfl : left = .empty := congrArg SlotHeap.mk hleft
  rw [hleft, Array.toList_empty, List.append_nil] at hperm
  exact ⟨slots, rfl, hlength, hperm⟩

end Selects

theorem guardedWriteKey_eq_pure {keys : Array Int64} {slot : Nat} (h : slot ≤ keys.size)
    (key : Int64) : guardedWriteKey keys slot key = pure (writeKey keys slot key) := by
  rw [guardedWriteKey, writeKey]
  split
  · rfl
  · exact write_eq_pure (by omega) key

theorem guardedEnqueue_eq_pure (h : c.Selects n puts) (entry : Scored) :
    c.guardedEnqueue entry = pure (c.enqueue entry) := by
  have hspare : c.spare ≤ c.capacity := by
    rw [h.capacity]
    exact Nat.le_trans h.spare_le h.size_le
  have hscores : ∀ s ∈ c.spare :: c.heap.slots.toList,
      s < (c.scores.setIfInBounds c.spare entry.score).size := by
    rw [Array.size_setIfInBounds]
    exact fun s hs => h.lt_size_scores hs
  rw [guardedEnqueue, ensure_eq_pure hspare, pure_bind, ensure_eq_pure h.heap_size, pure_bind,
    guardedWriteKey_eq_pure h.spare_le_keys, pure_bind, write_eq_pure h.spare_lt_scores, pure_bind,
    SlotHeap.guardedPush_eq_pure (fun s hs => hscores s (List.mem_cons_of_mem _ hs))
      (hscores c.spare List.mem_cons_self)]
  rfl

theorem guardedOffer_eq_pure (hn : (n + 1) * 8 ≤ maxBytes) (h : c.Selects n puts)
    (entry : Scored) : c.guardedOffer entry = pure (c.offer entry) := by
  have hwords := h.two_mul_size_lt hn
  have hheap : (c.enqueue entry).heap.size = c.size + 1 := by
    have hlength := (Selects.enqueue_slots_perm c entry).length_eq
    rw [List.length_cons, Array.length_toList, Array.length_toList] at hlength
    exact hlength.trans (congrArg Nat.succ h.heap_size)
  rw [guardedOffer, guardedEnqueue_eq_pure h, pure_bind, TopCollector.offer]
  split
  · obtain ⟨evicted, rest, hpop⟩ := h.exists_pop_enqueue entry
    rw [SlotHeap.guardedPop?_eq_pure (by omega)
      fun s hs => ((h.shows_enqueue entry).inRange s hs).1, pure_bind, hpop]
  · have hspare := h.spare_le
    have hsize : (c.enqueue entry).size = c.size := rfl
    have hslot : (c.enqueue entry).spare = c.spare := rfl
    rw [word_eq_pure (by omega), pure_bind, word_eq_pure (by omega), pure_bind]

theorem guardedDrain_eq_pure {heap : SlotHeap} (hsize : 2 * heap.size < UInt64.size)
    (hrange : ∀ slot ∈ heap.slots.toList, c.InRange slot) (count : Nat) :
    c.guardedDrain heap count =
      pure ((heap.popMany (scoreRank c.scores) count).1.map c.entryAt,
        (heap.popMany (scoreRank c.scores) count).2) := by
  induction count generalizing heap with
  | zero => rfl
  | succ count ih =>
    rw [guardedDrain, SlotHeap.guardedPop?_eq_pure hsize fun s hs => (hrange s hs).1, pure_bind,
      SlotHeap.popMany]
    cases hpop : heap.pop? (scoreRank c.scores) with
    | none => rfl
    | some result =>
      obtain ⟨slot, rest⟩ := result
      have hperm := SlotHeap.pop?_perm hpop
      have hslot := hrange slot (hperm.symm.subset List.mem_cons_self)
      have hless := SlotHeap.size_pop? hpop
      have hsmaller : 2 * rest.size < UInt64.size := by omega
      have hrest := ih hsmaller
        fun s hs => hrange s (hperm.symm.subset (List.mem_cons_of_mem slot hs))
      dsimp only
      rw [found_getElem? hslot.2 0, pure_bind, found_getElem? hslot.1 0, pure_bind, hrest]
      rfl

theorem guardedFinish_eq_pure (hn : (n + 1) * 8 ≤ maxBytes) (h : c.Selects n puts) :
    c.guardedFinish = pure c.finish := by
  have hwords := h.two_mul_size_lt hn
  have hheap := h.heap_size
  obtain ⟨slots, hpop, -⟩ := h.exists_popMany_eq
  rw [guardedFinish, TopCollector.finish]
  split
  · rfl
  · rw [ensure_eq_pure hheap, pure_bind, guardedDrain_eq_pure (by omega) h.shows.inRange, pure_bind,
      hpop]
    dsimp only
    have hempty : SlotHeap.empty.size = 0 := rfl
    rw [ensure_eq_pure hempty, pure_bind, List.length_map]

theorem guardedStep_eq_pure (hn : (n + 1) * 8 ≤ maxBytes) (h : c.Selects n puts) (call : Call) :
    c.guardedStep call = pure (step c call) := by
  cases call with
  | offer entry =>
    rw [guardedStep, guardedOffer_eq_pure hn h]
    rfl
  | size => rfl
  | finish output =>
    have hfinish := guardedFinish_eq_pure hn h
    cases output with
    | list =>
      rw [guardedStep, hfinish]
      rfl
    | vector =>
      rw [guardedStep, guardedFinishVector, hfinish]
      rfl
    | keys =>
      rw [guardedStep, guardedFinishKeys, hfinish]
      rfl

/-- A call leaves a collector that selects from what was put, or from nothing. -/
theorem Selects.exists_step (h : c.Selects n puts) (call : Call) :
    ∃ puts', (step c call).2.Selects n puts' := by
  cases call with
  | offer entry => exact ⟨_, h.offer entry⟩
  | size => exact ⟨puts, h⟩
  | finish output =>
    cases hfinished : c.finished with
    | true =>
      rw [step_of_finished hfinished]
      exact ⟨puts, h⟩
    | false => exact ⟨[], h.step_finish hfinished output⟩

theorem guardedCalls_eq_pure (hn : (n + 1) * 8 ≤ maxBytes) (h : c.Selects n puts)
    (calls : List Call) : c.guardedCalls calls = pure (answers c calls, after c calls) := by
  induction calls generalizing c puts with
  | nil => rfl
  | cons call calls ih =>
    obtain ⟨puts', hnext⟩ := h.exists_step call
    rw [guardedCalls, guardedStep_eq_pure hn h, pure_bind]
    dsimp only
    rw [ih hnext]
    rfl

end TopCollector

namespace ScoreCollector

variable {σ : Type} [ScoreCollector σ] {new : σ}

/-- What stays to be listed of `puts` after a call and its answer. -/
def remaining (puts : List Scored) : Call → Answer → List Scored
  | .offer entry, _ => puts ++ [entry]
  | .size, _ => puts
  | .finish _, .refused _ => puts
  | .finish _, _ => []

/-- The entries put into a new collector since the last finish that it did not refuse. -/
def unlisted (new : σ) (history : List Call) : List Scored :=
  (history.zip (answers new history)).foldl (fun puts asked => remaining puts asked.1 asked.2) []

theorem length_answers (c : σ) (calls : List Call) : (answers c calls).length = calls.length := by
  induction calls generalizing c with
  | nil => rfl
  | cons call calls ih => exact congrArg Nat.succ (ih _)

theorem answers_concat (c : σ) (calls : List Call) (call : Call) :
    answers c (calls ++ [call]) = answers c calls ++ [(step (after c calls) call).1] := by
  induction calls generalizing c with
  | nil => rfl
  | cons first calls ih => exact congrArg ((step c first).1 :: ·) (ih _)

theorem unlisted_concat (history : List Call) (call : Call) :
    unlisted new (history ++ [call]) =
      remaining (unlisted new history) call (step (after new history) call).1 := by
  rw [unlisted, answers_concat, List.zip_append (length_answers new history).symm,
    List.foldl_append]
  rfl

/-- A finish is refused only if nothing has been put since the last one. -/
theorem unlisted_eq_pending (hnew : finished new = false) (history : List Call) :
    unlisted new history = pending history := by
  induction history using List.reverseRecOn with
  | nil => rfl
  | append_singleton history call ih =>
    rw [unlisted_concat, ih]
    cases call with
    | offer entry => rw [pending_offer, remaining]
    | size => rw [pending_size, remaining]
    | finish output =>
      rw [pending_finish]
      by_cases hspent : Spent history
      · rw [step_of_finished ((finished_after_iff hnew history).2 hspent), remaining]
        exact pending_of_spent hspent
      · have haccepted := (step_of_open (open_after hnew hspent) output).2
        rw [remaining]
        exact haccepted

end ScoreCollector

namespace TopCollector

open ScoreCollector

variable {n : Nat} {puts : List Scored} {c : TopCollector}

/-- What holds of the slots of a collector of capacity `n` while `puts` are to be listed. -/
structure KeepsSlots (c : TopCollector) (n : Nat) (puts : List Scored) : Prop where
  size : c.size = min puts.length n
  heap_size : c.heap.size = c.size
  distinct : c.heap.slots.toList.Nodup
  spare_le : c.spare ≤ n
  spare_free : c.spare ∉ c.heap.slots.toList
  used : ∀ slot, slot = c.spare ∨ slot ∈ c.heap.slots.toList ↔ slot ≤ c.size
  shows : c.Shows puts
  /-- Different slots hold different entries. -/
  kept : c.kept.Subperm puts
  /-- The same is true in the middle of a put, when the spare slot has joined the heap. -/
  pushed : ∀ entry, (c.enqueue entry).Shows (puts ++ [entry])
  evicted : ∀ entry, ∃ slot rest,
    (c.enqueue entry).heap.pop? (scoreRank (c.enqueue entry).scores) = some (slot, rest) ∧
      (c.enqueue entry).InRange slot
  /-- As many slots come out as are asked for, so a drain does not break off. -/
  drained : ∃ slots, c.heap.popMany (scoreRank c.scores) c.size = (slots, .empty) ∧
    slots.length = c.size ∧ ∀ slot ∈ slots, c.InRange slot

theorem Selects.keepsSlots (h : c.Selects n puts) : c.KeepsSlots n puts where
  size := h.size
  heap_size := h.heap_size
  distinct := (List.nodup_cons.1 h.nodup_slots).2
  spare_le := Nat.le_trans h.spare_le h.size_le
  spare_free := (List.nodup_cons.1 h.nodup_slots).1
  used := fun slot => by rw [← List.mem_cons, h.slots.mem_iff, List.mem_range, Nat.lt_succ_iff]
  shows := h.shows
  kept := h.kept_subperm
  pushed := h.shows_enqueue
  evicted := by
    intro entry
    obtain ⟨slot, rest, hpop⟩ := h.exists_pop_enqueue entry
    have hslot := (SlotHeap.pop?_perm hpop).symm.subset List.mem_cons_self
    exact ⟨slot, rest, hpop, (h.shows_enqueue entry).inRange slot hslot⟩
  drained := by
    obtain ⟨slots, hpop, hlength, hperm⟩ := h.exists_popMany_eq
    exact ⟨slots, hpop, hlength, fun slot hslot => h.shows.inRange slot (hperm.subset hslot)⟩

theorem heap_after_finish (n : Nat) (history : List Call) (output : Output) :
    (step (after (ofCapacity n) history) (.finish output)).2.heap = .empty := by
  have h := selects_after n (history ++ [.finish output])
  rw [pending_finish, after_concat] at h
  exact h.heap_eq_empty

/-- If there is memory for the scores, no check fails in any run of a new collector. At every
point of it the heap holds as many slots as entries are kept, the spare slot is the only other
one up to the size, and all slots show entries that were put; a finish leaves no slot. -/
theorem guardedCalls_keep_slots (n : Nat) (hn : (n + 1) * 8 ≤ maxBytes) :
    guardedNew n = pure (ofCapacity n) ∧ ∀ history : List Call,
      guardedCalls (ofCapacity n) history =
        pure (answers (ofCapacity n) history, after (ofCapacity n) history) ∧
      (after (ofCapacity n) history).KeepsSlots n (unlisted (ofCapacity n) history) ∧
      ∀ output, (step (after (ofCapacity n) history) (.finish output)).2.heap = .empty := by
  refine ⟨guardedNew_eq_pure hn, fun history => ⟨?_, ?_, heap_after_finish n history⟩⟩
  · exact guardedCalls_eq_pure hn (selects_ofCapacity n) history
  · rw [unlisted_eq_pending rfl]
    exact (selects_after n history).keepsSlots

/-- Slot 0 is left over from a first round, and slot 1 is the spare one again after the lowest of
three scores has left it. -/
theorem guardedCalls_keep_slots_lowest_of_three :
    (2 + 1) * 8 ≤ maxBytes ∧ ∃ answers c,
      guardedCalls (ofCapacity 2) [.offer ⟨9, .nan⟩, .finish .list, .finish .keys,
        .offer ⟨4, ⟨0x4000000000000000⟩⟩, .offer ⟨6, 0⟩, .offer ⟨4, ⟨0x4008000000000000⟩⟩] =
          pure (answers, c) ∧
      c.KeepsSlots 2 [⟨4, ⟨0x4000000000000000⟩⟩, ⟨6, 0⟩, ⟨4, ⟨0x4008000000000000⟩⟩] ∧
      c.size = 2 ∧ c.spare = 1 ∧ c.heap = ⟨#[0, 2]⟩ := by
  have hn : (2 + 1) * 8 ≤ maxBytes := by decide
  obtain ⟨hcalls, hslots, -⟩ := (guardedCalls_keep_slots 2 hn).2 [.offer ⟨9, .nan⟩, .finish .list,
    .finish .keys, .offer ⟨4, ⟨0x4000000000000000⟩⟩, .offer ⟨6, 0⟩,
    .offer ⟨4, ⟨0x4008000000000000⟩⟩]
  refine ⟨hn, _, _, hcalls, ?_, ?_, ?_, ?_⟩
  · rw [unlisted_eq_pending rfl] at hslots
    exact hslots
  · decide +kernel
  · decide +kernel
  · decide +kernel

end TopCollector

end PackedRatings
