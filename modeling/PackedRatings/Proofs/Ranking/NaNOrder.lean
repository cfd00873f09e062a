import PackedRatings.Proofs.Ranking.HeapRuns

/-!
# Where a heap gives out what is not a number

The order of bit patterns looks at the sign before anything else. So a not-a-number with a sign
bit ranks below `-∞`, and only one without it ranks above `∞`. A heap that is drained gives out
the former first, then all numbers and then the latter. The numbers come first exactly if there
is none of the former, or if there is no number at all.
-/
namespace PackedRatings

namespace Binary64

variable {x y : Binary64}

def isNegativeNaN (x : Binary64) : Bool :=
  x.isNaN && x.negative

def isPositiveNaN (x : Binary64) : Bool :=
  x.isNaN && !x.negative

theorem isNaN_eq_or (x : Binary64) : x.isNaN = (x.isNegativeNaN || x.isPositiveNaN) := by
  rw [isNegativeNaN, isPositiveNaN]
  cases x.negative <;> simp

theorem isNegativeNaN_eq_false_of_isPositiveNaN (h : x.isPositiveNaN = true) :
    x.isNegativeNaN = false := by
  rw [isPositiveNaN, Bool.and_eq_true, Bool.not_eq_true'] at h
  rw [isNegativeNaN, h.2, Bool.and_false]

theorem isNegativeNaN_iff_rank :
    x.isNegativeNaN = true ↔ x.rank < -(infiniteMagnitude : Int) - 1 := by
  rw [isNegativeNaN, isNaN, rank]
  cases x.negative with
  | false =>
    simp only [Bool.and_false, Bool.false_eq_true, ↓reduceIte, false_iff]
    omega
  | true =>
    simp only [Bool.and_true, decide_eq_true_eq, ↓reduceIte]
    omega

theorem isPositiveNaN_iff_rank :
    x.isPositiveNaN = true ↔ (infiniteMagnitude : Int) < x.rank := by
  rw [isPositiveNaN, isNaN, rank]
  cases x.negative with
  | false =>
    simp only [Bool.not_false, Bool.and_true, decide_eq_true_eq, Bool.false_eq_true, ↓reduceIte]
    omega
  | true =>
    simp only [Bool.not_true, Bool.and_false, Bool.false_eq_true, ↓reduceIte, false_iff]
    omega

theorem isNegativeNaN_of_rank_le (h : x.rank ≤ y.rank) (hy : y.isNegativeNaN = true) :
    x.isNegativeNaN = true :=
  isNegativeNaN_iff_rank.2 (Int.lt_of_le_of_lt h (isNegativeNaN_iff_rank.1 hy))

theorem isPositiveNaN_of_le_rank (h : x.rank ≤ y.rank) (hx : x.isPositiveNaN = true) :
    y.isPositiveNaN = true :=
  isPositiveNaN_iff_rank.2 (Int.lt_of_lt_of_le (isPositiveNaN_iff_rank.1 hx) h)

section Lists

variable {α : Type u} {score : α → Binary64} {l : List α}

/-- Nothing whose score is not a number stands in front of anything whose score is. -/
def NumbersFirst (score : α → Binary64) (l : List α) : Prop :=
  l.Pairwise fun a b => (score b).isNaN = false → (score a).isNaN = false

instance : Decidable (NumbersFirst score l) :=
  inferInstanceAs (Decidable (List.Pairwise _ _))

theorem filter_append_filter_not {p : α → Bool}
    (h : l.Pairwise fun a b => p b = true → p a = true) :
    l.filter p ++ l.filter (fun a => !p a) = l := by
  induction l with
  | nil => rfl
  | cons a l ih =>
    obtain ⟨ha, hl⟩ := List.pairwise_cons.1 h
    cases hp : p a with
    | true => simp [hp, ih hl]
    | false =>
      have hnone : ∀ b ∈ l, p b = false := by
        intro b hb
        simpa [hp] using ha b hb
      rw [List.filter_cons_of_neg (by simp [hp]), List.filter_cons_of_pos (by simp [hp]),
        List.filter_eq_nil_iff.2 (by simpa using hnone),
        List.filter_eq_self.2 (by simpa using hnone), List.nil_append]

/-- What is in order falls into three stretches. -/
theorem stretches_of_pairwise (h : l.Pairwise fun a b => (score a).rank ≤ (score b).rank) :
    l = l.filter (fun a => (score a).isNegativeNaN) ++
      (l.filter (fun a => !(score a).isNaN) ++ l.filter (fun a => (score a).isPositiveNaN)) := by
  have hlow := filter_append_filter_not (p := fun a => (score a).isNegativeNaN)
    (h.imp isNegativeNaN_of_rank_le)
  have hhigh := filter_append_filter_not (p := fun a => !(score a).isPositiveNaN)
    ((h.filter fun a => !(score a).isNegativeNaN).imp fun hle => by
      simpa using mt (isPositiveNaN_of_le_rank hle))
  have hnumber : ∀ x : Binary64, (!x.isPositiveNaN && !x.isNegativeNaN) = !x.isNaN := by
    intro x
    rw [isNaN_eq_or, Bool.not_or, Bool.and_comm]
  have hpositive : ∀ x : Binary64, (x.isPositiveNaN && !x.isNegativeNaN) = x.isPositiveNaN := by
    intro x
    cases hx : x.isPositiveNaN with
    | false => rfl
    | true => simp [isNegativeNaN_eq_false_of_isPositiveNaN hx]
  simp only [List.filter_filter, Bool.not_not, hnumber, hpositive] at hhigh
  rw [hhigh, hlow]

theorem numbersFirst_iff_of_pairwise
    (h : l.Pairwise fun a b => (score a).rank ≤ (score b).rank) :
    NumbersFirst score l ↔
      (∀ a ∈ l, (score a).isNegativeNaN = false) ∨ ∀ a ∈ l, (score a).isNaN = true := by
  constructor
  · -- A negative not-a-number stands in front of every number.
    intro hfirst
    rw [NumbersFirst, stretches_of_pairwise h, List.pairwise_append] at hfirst
    by_contra! hboth
    obtain ⟨⟨a, ha, hlow⟩, b, hb, hnumber⟩ := hboth
    rw [Bool.ne_false_iff] at hlow
    rw [ne_eq, Bool.not_eq_true] at hnumber
    have hnone := hfirst.2.2 a (List.mem_filter.2 ⟨ha, hlow⟩) b
      (List.mem_append_left _ (List.mem_filter.2 ⟨hb, by rw [hnumber]; rfl⟩)) hnumber
    rw [isNaN_eq_or, hlow, Bool.true_or] at hnone
    cases hnone
  · rintro (hnone | hall)
    · refine h.imp_of_mem fun {a b} ha hb hle hnumber => ?_
      rw [isNaN_eq_or, Bool.or_eq_false_iff] at hnumber ⊢
      refine ⟨hnone a ha, Bool.eq_false_iff.2 fun hpositive => ?_⟩
      rw [isPositiveNaN_of_le_rank hle hpositive] at hnumber
      cases hnumber.2
    · refine h.imp_of_mem fun {a b} ha hb hle hnumber => ?_
      rw [hall b hb] at hnumber
      cases hnumber

end Lists

end Binary64

namespace SlotHeap

variable {scores : Array Binary64} {pushed popped enqueued : Multiset Nat} {h : SlotHeap}

/-- What comes out of the heap are the enqueued slots: first those under negative not-a-numbers,
then those under numbers, then those under positive not-a-numbers. -/
structure DrainsInStretches (h : SlotHeap) (scores : Array Binary64) (enqueued : Multiset Nat) :
    Prop where
  slots : (h.drain (scoreRank scores) : Multiset Nat) = enqueued
  stretches : ∃ low numbers high, h.drain (scoreRank scores) = low ++ (numbers ++ high) ∧
    (∀ slot ∈ low, (scores.getD slot 0).isNegativeNaN = true) ∧
    (∀ slot ∈ numbers, (scores.getD slot 0).isNaN = false) ∧
    ∀ slot ∈ high, (scores.getD slot 0).isPositiveNaN = true
  numbersFirst_iff : Binary64.NumbersFirst (scores.getD · 0) (h.drain (scoreRank scores)) ↔
    (∀ slot ∈ enqueued, (scores.getD slot 0).isNegativeNaN = false) ∨
      ∀ slot ∈ enqueued, (scores.getD slot 0).isNaN = true

theorem Queues.drainsInStretches (hq : h.Queues scores enqueued) :
    h.DrainsInStretches scores enqueued := by
  have hslots := hq.serves.drain
  have hsorted := hq.serves.drain_pairwise
  refine ⟨hslots, ⟨_, _, _, Binary64.stretches_of_pairwise hsorted, ?_, ?_, ?_⟩, ?_⟩
  · simp
  · simp
  · simp
  · rw [Binary64.numbersFirst_iff_of_pairwise hsorted, ← hslots]
    rfl

/-- At every point of every run, draining the heap gives out the enqueued slots with a number for
a score before those without one exactly if no enqueued slot has a negative not-a-number for a
score, or none has a number. -/
theorem drain_in_stretches (hreach : Reaches pushed popped scores h) :
    h.DrainsInStretches scores (pushed - popped) := by
  obtain ⟨enqueued, rfl, hq⟩ := hreach.exists_queues
  rw [add_tsub_cancel_left]
  exact hq.drainsInStretches

/-- A positive not-a-number is pushed before `2` and `1` and comes out after them. -/
theorem drain_in_stretches_positive_last :
    ∃ scores h, Reaches {2, 1, 0} 0 scores h ∧ h.drain (scoreRank scores) = [2, 1, 0] ∧
      Binary64.NumbersFirst (scores.getD · 0) (h.drain (scoreRank scores)) := by
  have hreach := (((Reaches.start #[.nan, ⟨0x4000000000000000⟩, ⟨0x3ff0000000000000⟩]).push 0
    (by decide)).push 1 (by decide)).push 2 (by decide)
  refine ⟨_, _, hreach, by decide +kernel, ?_⟩
  apply (drain_in_stretches hreach).numbersFirst_iff.2
  exact .inl (by decide)

/-- A negative not-a-number is pushed after `1` and comes out before it. -/
theorem negative_nan_drained_first :
    let scores : Array Binary64 := #[⟨0x3ff0000000000000⟩, ⟨0xfff8000000000000⟩]
    let h := (SlotHeap.empty.push (scoreRank scores) 0).push (scoreRank scores) 1
    Reaches {1, 0} 0 scores h ∧ h.drain (scoreRank scores) = [1, 0] ∧
      ¬ Binary64.NumbersFirst (scores.getD · 0) (h.drain (scoreRank scores)) := by
  intro scores h
  have hdrain : h.drain (scoreRank scores) = [1, 0] := by decide +kernel
  refine ⟨((Reaches.start scores).push 0 (by decide)).push 1 (by decide), hdrain, ?_⟩
  rw [hdrain]
  decide

end SlotHeap

end PackedRatings
