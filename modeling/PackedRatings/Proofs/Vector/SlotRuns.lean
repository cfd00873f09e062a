import Mathlib.Data.Finset.Sort
import Mathlib.Data.Fintype.Basic
import PackedRatings.Proofs.Vector.SlotMembers

/-!
# Sets of slots are finite sets

The members of a `SlotSet` change with each call as a finite set of slots does. Its size, its
list and the scan of its words show these members and nothing else, so two sets have the same
words if they have the same members, however they came about.
-/
namespace PackedRatings.SlotSet

variable {n m : Nat}

/-- Words are determined by their bits. -/
theorem words_eq_of_bitAt_eq {words words' : Vector UInt64 m}
    (h : ∀ i, bitAt words i = bitAt words' i) : words = words' := by
  ext k hk : 1
  apply UInt64.toBitVec_inj.1
  apply BitVec.eq_of_getLsbD_eq
  intro b hb
  have hbit := h (64 * k + b)
  rw [bitAt_word words ⟨k, hk⟩ hb, bitAt_word words' ⟨k, hk⟩ hb] at hbit
  exact hbit

inductive Call (n : Nat) where
  | insert (i : Fin n)
  | erase (i : Fin n)
  | contains (i : Fin n)
  | clear
  | fill

/-- Makes a call. A call for a slot says whether the slot was in the set before. -/
def step (s : SlotSet n) : Call n → Option Bool × SlotSet n
  | .insert i => (some (s.contains i), s.insert i)
  | .erase i => (some (s.contains i), s.erase i)
  | .contains i => (some (s.contains i), s)
  | .clear => (none, s.clear)
  | .fill => (none, s.fill)

namespace Call

def mean (A : Finset (Fin n)) : Call n → Option Bool × Finset (Fin n)
  | .insert i => (some (i ∈ A), Insert.insert i A)
  | .erase i => (some (i ∈ A), A.erase i)
  | .contains i => (some (i ∈ A), A)
  | .clear => (none, ∅)
  | .fill => (none, Finset.univ)

def run {σ : Type} (step : σ → Call n → Option Bool × σ) (s : σ) :
    List (Call n) → List (Option Bool) × σ
  | [] => ([], s)
  | call :: calls =>
    let (answer, s) := step s call
    let (answers, s) := run step s calls
    (answer :: answers, s)

end Call

def members (s : SlotSet n) : Finset (Fin n) :=
  {i | s.contains i = true}

@[simp] theorem mem_members {s : SlotSet n} {i : Fin n} :
    i ∈ s.members ↔ s.contains i = true := by
  simp [members]

@[simp] theorem members_empty : (empty n).members = ∅ := by
  ext i
  simp

@[simp] theorem members_full : (full n).members = Finset.univ := by
  ext i
  simp

@[simp] theorem members_clear (s : SlotSet n) : s.clear.members = ∅ := by
  ext i
  simp

@[simp] theorem members_fill (s : SlotSet n) : s.fill.members = Finset.univ := by
  ext i
  simp

@[simp] theorem members_insert (s : SlotSet n) (i : Fin n) :
    (s.insert i).members = Insert.insert i s.members := by
  ext j
  simp [contains_insert]

@[simp] theorem members_erase (s : SlotSet n) (i : Fin n) :
    (s.erase i).members = s.members.erase i := by
  ext j
  simp [contains_erase]

/-- Every call means what it means for finite sets. -/
theorem step_eq_mean (s : SlotSet n) (call : Call n) :
    (s.step call).1 = (Call.mean s.members call).1 ∧
      (s.step call).2.members = (Call.mean s.members call).2 := by
  cases call with
  | insert i => simp [step, Call.mean]
  | erase i => simp [step, Call.mean]
  | contains i => simp [step, Call.mean]
  | clear => simp [step, Call.mean]
  | fill => simp [step, Call.mean]

theorem run_eq_mean (s : SlotSet n) (calls : List (Call n)) :
    (Call.run step s calls).1 = (Call.run Call.mean s.members calls).1 ∧
      (Call.run step s calls).2.members = (Call.run Call.mean s.members calls).2 := by
  induction calls generalizing s with
  | nil => exact ⟨rfl, rfl⟩
  | cons call calls ih =>
    obtain ⟨hanswer, hmembers⟩ := s.step_eq_mean call
    have hrest := ih (s.step call).2
    rw [hmembers] at hrest
    simp only [Call.run, hanswer, hrest, and_self]

theorem toList_eq_sort (s : SlotSet n) : s.toList = s.members.sort := by
  apply s.toList_pairwise.eq_of_mem_iff s.members.sortedLT_sort.pairwise
  intro i
  rw [mem_toList, Finset.mem_sort, mem_members]

theorem size_eq_card (s : SlotSet n) : s.size = s.members.card := by
  rw [size_eq_length_toList, toList_eq_sort, Finset.length_sort]

/-- Everything that is read from `s` is read from the finite set `A`, and there are no bits
behind the slots. -/
structure Shows (s : SlotSet n) (A : Finset (Fin n)) : Prop where
  members : s.members = A
  contains : ∀ i, s.contains i = decide (i ∈ A)
  size : s.size = A.card
  toList : s.toList = A.sort
  scan : s.scan = A.sort.map Fin.val
  noTail : ∀ (k : Fin ((n + 63) / 64)) (b : Nat), n ≤ 64 * k + b →
    (s.words.get k).toBitVec.getLsbD b = false

theorem shows_members (s : SlotSet n) : s.Shows s.members where
  members := rfl
  contains := by simp
  size := s.size_eq_card
  toList := s.toList_eq_sort
  scan := by rw [← map_val_toList, toList_eq_sort]
  noTail := by
    intro k b hb
    by_cases hword : b < 64
    · rw [← bitAt_word s.words k hword]
      exact s.clean _ hb
    · exact BitVec.getLsbD_of_ge _ _ (Nat.le_of_not_lt hword)

theorem bitAt_eq_of_members_eq {s t : SlotSet n} (h : s.members = t.members) (i : Nat) :
    bitAt s.words i = bitAt t.words i := by
  by_cases hi : i < n
  · have hmem := Finset.ext_iff.1 h ⟨i, hi⟩
    rw [mem_members, mem_members, contains_eq_bitAt, contains_eq_bitAt] at hmem
    exact Bool.eq_iff_iff.2 hmem
  · rw [s.clean i (Nat.le_of_not_lt hi), t.clean i (Nat.le_of_not_lt hi)]

theorem words_eq_of_members_eq {s t : SlotSet n} (h : s.members = t.members) :
    s.words = t.words :=
  words_eq_of_bitAt_eq (bitAt_eq_of_members_eq h)

theorem eq_of_contains_eq {s t : SlotSet n} (h : ∀ i, s.contains i = t.contains i) : s = t := by
  have hmembers : s.members = t.members := by
    ext i
    rw [mem_members, mem_members, h]
  have hwords := words_eq_of_members_eq hmembers
  have hsize : s.size = t.size := by rw [size_eq_card, size_eq_card, hmembers]
  cases s
  cases t
  cases hwords
  cases hsize
  rfl

theorem members_eq_of_words_eq {s t : SlotSet n} (h : s.words = t.words) :
    s.members = t.members := by
  ext i
  rw [mem_members, mem_members, contains, contains, h]

theorem sameAs_iff (s : SlotSet n) (t : SlotSet m) :
    s.sameAs t = true ↔
      n = m ∧ s.members.map Fin.valEmbedding = t.members.map Fin.valEmbedding := by
  simp only [sameAs, Bool.and_eq_true, beq_iff_eq]
  constructor
  · rintro ⟨⟨rfl, -⟩, hwords⟩
    rw [members_eq_of_words_eq (Vector.toArray_inj.1 hwords)]
    exact ⟨rfl, rfl⟩
  · rintro ⟨rfl, hmembers⟩
    have h := Finset.map_injective _ hmembers
    rw [size_eq_card, size_eq_card, h, words_eq_of_members_eq h]
    exact ⟨⟨rfl, rfl⟩, rfl⟩

/-- A run of calls on `s` gives the answers of the same run on `A`, and ends with a set that
shows what the run on `A` ends with. -/
def RunsLike (s : SlotSet n) (A : Finset (Fin n)) : Prop :=
  ∀ calls : List (Call n),
    (Call.run step s calls).1 = (Call.run Call.mean A calls).1 ∧
      (Call.run step s calls).2.Shows (Call.run Call.mean A calls).2

theorem runsLike_members (s : SlotSet n) : s.RunsLike s.members := by
  intro calls
  obtain ⟨hanswers, hmembers⟩ := s.run_eq_mean calls
  rw [← hmembers]
  exact ⟨hanswers, shows_members _⟩

/-- Whatever is called on an empty or a full set of slots, it behaves as the finite set without
or with all slots does. Two sets are equal if they have as many slots and the same members. -/
theorem new_runsLike_finset :
    (∀ n, (empty n).RunsLike ∅) ∧ (∀ n, (full n).RunsLike Finset.univ) ∧
      ∀ (n m : Nat) (s : SlotSet n) (t : SlotSet m), s.sameAs t = true ↔
        n = m ∧ s.members.map Fin.valEmbedding = t.members.map Fin.valEmbedding := by
  refine ⟨fun n => ?_, fun n => ?_, fun n m s t => s.sameAs_iff t⟩
  · rw [← members_empty]
    exact runsLike_members _
  · rw [← members_full]
    exact runsLike_members _

end PackedRatings.SlotSet
