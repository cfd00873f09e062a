import PackedRatings.Vector.BitScan

/-!
# Sets of slots

A `SlotSet n` is a set of positions below `n`, one bit each in words of 64, with its size
kept beside it. Membership after every operation is given by one equation per operation.
-/
namespace PackedRatings

/-- Bit `i` of a row of words, the least significant bit of a word first. -/
def bitAt {m : Nat} (words : Vector UInt64 m) (i : Nat) : Bool :=
  if h : i / 64 < m then words[i / 64].toBitVec.getLsbD (i % 64) else false

def singleBit (b : Nat) : UInt64 :=
  .ofBitVec (.twoPow 64 b)

theorem bitAt_set {m : Nat} (words : Vector UInt64 m) {k : Nat} (hk : k < m) (word : UInt64)
    (i : Nat) :
    bitAt (words.set k word hk) i =
      if i / 64 = k then word.toBitVec.getLsbD (i % 64) else bitAt words i := by
  by_cases h : i / 64 = k
  · subst h
    simp [bitAt, hk]
  · by_cases hi : i / 64 < m
    · simp [bitAt, hi, h, Ne.symm h]
    · simp [bitAt, hi, h]

/-- A bit is found in the word that has its place. -/
theorem bitAt_word {m : Nat} (words : Vector UInt64 m) (k : Fin m) {b : Nat} (hb : b < 64) :
    bitAt words (64 * k + b) = (words.get k).toBitVec.getLsbD b := by
  have hk : (64 * k.val + b) / 64 = k.val := by omega
  have hmod : (64 * k.val + b) % 64 = b := by omega
  simp only [bitAt, hk, hmod, k.isLt, dif_pos]
  rfl

theorem and_singleBit_ne_zero_iff (word : UInt64) {b : Nat} (hb : b < 64) :
    word &&& singleBit b ≠ 0 ↔ word.toBitVec.getLsbD b = true := by
  have hpos : BitVec.twoPow 64 b ≠ 0#64 := by
    intro hzero
    have hbit := BitVec.getLsbD_twoPow (w := 64) b b
    simp [hzero, hb] at hbit
  rw [Ne, ← UInt64.toBitVec_inj, UInt64.toBitVec_and, singleBit, UInt64.toBitVec_ofBitVec,
    BitVec.and_twoPow]
  by_cases h : word.toBitVec.getLsbD b = true
  · simp [h, hpos]
  · simp [h]

theorem getLsbD_singleBit_sub_one {b : Nat} (hb : b < 64) (j : Nat) :
    (singleBit b - 1).toBitVec.getLsbD j = decide (j < b) := by
  have hbit : (singleBit b).toNat = 2 ^ b := BitVec.toNat_twoPow_of_lt hb
  have hle : (1 : UInt64) ≤ singleBit b := by
    rw [UInt64.le_iff_toNat_le, hbit]
    exact Nat.two_pow_pos b
  change (singleBit b - 1).toNat.testBit j = _
  rw [UInt64.toNat_sub_of_le _ _ hle, hbit]
  exact Nat.testBit_two_pow_sub_one b j

theorem getLsbD_ones {j : Nat} (hj : j < 64) :
    (0xffffffffffffffff : UInt64).toBitVec.getLsbD j = true := by
  change (BitVec.allOnes 64).getLsbD j = true
  rw [BitVec.getLsbD_allOnes]
  exact decide_eq_true hj

/-- Counting after the value at one position has become true. -/
theorem countP_range_add_one {p q : Nat → Bool} {i n : Nat} (hi : i < n)
    (hp : p i = false) (hq : q i = true) (same : ∀ j, j ≠ i → q j = p j) :
    (List.range n).countP q = (List.range n).countP p + 1 := by
  induction n with
  | zero => omega
  | succ n ih =>
    rw [List.range_succ, List.countP_append, List.countP_append]
    by_cases h : i = n
    · subst h
      have : (List.range i).countP q = (List.range i).countP p :=
        List.countP_congr fun j hj => by
          rw [same j (by have := List.mem_range.1 hj; omega)]
      simp [this, hp, hq]
    · rw [ih (by omega)]
      simp only [List.countP_singleton, same n (Ne.symm h)]
      omega

structure SlotSet (n : Nat) where
  words : Vector UInt64 ((n + 63) / 64)
  size : Nat
  clean : ∀ i, n ≤ i → bitAt words i = false
  size_eq : size = (List.range n).countP (bitAt words)

namespace SlotSet

variable {n : Nat}

theorem lt_of_bitAt (s : SlotSet n) {i : Nat} (h : bitAt s.words i = true) : i < n := by
  by_cases hi : i < n
  · exact hi
  · rw [s.clean i (by omega)] at h
    cases h

theorem word_lt (i : Fin n) : i.val / 64 < (n + 63) / 64 := by
  omega

/-- Tests the bit of a slot by a conjunction with a word that has no other bit. -/
def contains (s : SlotSet n) (i : Fin n) : Bool :=
  s.words.get ⟨i / 64, word_lt i⟩ &&& singleBit (i % 64) != 0

theorem contains_eq_bitAt (s : SlotSet n) (i : Fin n) : s.contains i = bitAt s.words i := by
  have hb : i.val % 64 < 64 := Nat.mod_lt _ (by decide)
  rw [Bool.eq_iff_iff, contains, bne_iff_ne, and_singleBit_ne_zero_iff _ hb,
    ← bitAt_word s.words ⟨i / 64, word_lt i⟩ hb, Nat.div_add_mod]

def empty (n : Nat) : SlotSet n where
  words := Vector.replicate _ 0
  size := 0
  clean := by simp [bitAt]
  size_eq := by
    rw [eq_comm, List.countP_eq_zero]
    simp [bitAt]

def clear (s : SlotSet n) : SlotSet n where
  words := s.words.map fun _ => 0
  size := 0
  clean := by simp [bitAt]
  size_eq := by
    rw [eq_comm, List.countP_eq_zero]
    simp [bitAt]

/-- Sets all bits, and clears those behind the slots if there are any in the last word. -/
def fillWords (words : Vector UInt64 ((n + 63) / 64)) : Vector UInt64 ((n + 63) / 64) :=
  let ones := words.map fun _ => 0xffffffffffffffff
  if h : n % 64 = 0 then ones
  else ones.set (n / 64) (0xffffffffffffffff &&& (singleBit (n % 64) - 1)) (by omega)

theorem bitAt_fillWords (words : Vector UInt64 ((n + 63) / 64)) (i : Nat) :
    bitAt (fillWords words) i = decide (i < n) := by
  have hplace : i % 64 < 64 := Nat.mod_lt i (by decide)
  have hones : bitAt (words.map fun _ => 0xffffffffffffffff) i =
      decide (i / 64 < (n + 63) / 64) := by
    by_cases hword : i / 64 < (n + 63) / 64
    · rw [bitAt, dif_pos hword, Vector.getElem_map, getLsbD_ones hplace, decide_eq_true hword]
    · simp [bitAt, hword]
  by_cases hwhole : n % 64 = 0
  · rw [fillWords, dif_pos hwhole, hones, decide_eq_decide]
    omega
  · rw [fillWords, dif_neg hwhole, bitAt_set, hones]
    -- Only the last word has bits behind the slots.
    split
    · rw [UInt64.toBitVec_and, BitVec.getLsbD_and, getLsbD_ones hplace, Bool.true_and,
        getLsbD_singleBit_sub_one (Nat.mod_lt n (by decide)), decide_eq_decide]
      omega
    · rw [decide_eq_decide]
      omega

def fill (s : SlotSet n) : SlotSet n where
  words := fillWords s.words
  size := n
  clean := fun i hi => by
    rw [bitAt_fillWords, decide_eq_false_iff_not]
    omega
  size_eq := by
    have hall : (List.range n).countP (bitAt (fillWords s.words)) = (List.range n).length := by
      apply List.countP_eq_length.2
      intro i hi
      rw [bitAt_fillWords]
      exact decide_eq_true (List.mem_range.1 hi)
    rw [hall, List.length_range]

def full (n : Nat) : SlotSet n :=
  (empty n).fill

def wordsInsert (s : SlotSet n) (i : Fin n) : Vector UInt64 ((n + 63) / 64) :=
  have := word_lt i
  s.words.set (i / 64) (s.words[i.val / 64] ||| singleBit (i % 64))

def wordsErase (s : SlotSet n) (i : Fin n) : Vector UInt64 ((n + 63) / 64) :=
  have := word_lt i
  s.words.set (i / 64) (s.words[i.val / 64] &&& ~~~ singleBit (i % 64))

theorem bitAt_wordsInsert (s : SlotSet n) (i : Fin n) (j : Nat) :
    bitAt (s.wordsInsert i) j = (decide (j = i) || bitAt s.words j) := by
  have hi := word_lt i
  rw [wordsInsert, bitAt_set]
  split
  · rename_i h
    have hm : i.val % 64 < 64 := Nat.mod_lt _ (by decide)
    have : (decide (i.val % 64 = j % 64)) = decide (j = i) := decide_eq_decide.2 (by omega)
    have hj : bitAt s.words j = s.words[i.val / 64].toBitVec.getLsbD (j % 64) := by
      simp [bitAt, h, hi]
    simp [singleBit, BitVec.getLsbD_twoPow, hm, this, hj, Bool.or_comm]
  · have : j ≠ i := by omega
    simp [this]

theorem bitAt_wordsErase (s : SlotSet n) (i : Fin n) (j : Nat) :
    bitAt (s.wordsErase i) j = (!decide (j = i) && bitAt s.words j) := by
  have hi := word_lt i
  rw [wordsErase, bitAt_set]
  split
  · rename_i h
    have hm : j % 64 < 64 := Nat.mod_lt _ (by decide)
    have : (decide (j % 64 = i.val % 64)) = decide (j = i) := decide_eq_decide.2 (by omega)
    have hj : bitAt s.words j = s.words[i.val / 64].toBitVec.getLsbD (j % 64) := by
      simp [bitAt, h, hi]
    simp [singleBit, hm, this, hj, Bool.and_comm]
  · have : j ≠ i := by omega
    simp [this]

def insert (s : SlotSet n) (i : Fin n) : SlotSet n where
  words := s.wordsInsert i
  size := if s.contains i then s.size else s.size + 1
  clean := fun j hj => by
    have : j ≠ i := by omega
    simp [bitAt_wordsInsert, s.clean j hj, this]
  size_eq := by
    rw [s.size_eq, contains_eq_bitAt]
    split
    · rename_i h
      refine List.countP_congr fun j _ => ?_
      rw [bitAt_wordsInsert]
      by_cases hj : j = i
      · subst hj
        simp [h]
      · simp [hj]
    · rename_i h
      rw [Bool.not_eq_true] at h
      refine (countP_range_add_one i.isLt h ?_ fun j hj => ?_).symm
      · simp [bitAt_wordsInsert]
      · simp [bitAt_wordsInsert, hj]

def erase (s : SlotSet n) (i : Fin n) : SlotSet n where
  words := s.wordsErase i
  size := if s.contains i then s.size - 1 else s.size
  clean := fun j hj => by
    simp [bitAt_wordsErase, s.clean j hj]
  size_eq := by
    rw [s.size_eq, contains_eq_bitAt]
    split
    · rename_i h
      have := @countP_range_add_one (bitAt (s.wordsErase i)) (bitAt s.words) i n i.isLt
        (by simp [bitAt_wordsErase]) h fun j hj => by simp [bitAt_wordsErase, hj]
      omega
    · rename_i h
      rw [Bool.not_eq_true] at h
      refine List.countP_congr fun j _ => ?_
      rw [bitAt_wordsErase]
      by_cases hj : j = i
      · subst hj
        simp [h]
      · simp [hj]

/-- The slots that are listed when the words are scanned one after the other. -/
def scan (s : SlotSet n) : List Nat :=
  (List.finRange ((n + 63) / 64)).flatMap fun (k : Fin _) =>
    BitScan.listed ⟨s.words.get k, 64 * k⟩

theorem mem_scan {s : SlotSet n} {i : Nat} : i ∈ s.scan ↔ bitAt s.words i = true := by
  simp only [scan, List.mem_flatMap, List.mem_finRange, true_and, BitScan.mem_listed]
  constructor
  · rintro ⟨k, b, hb, rfl⟩
    rw [bitAt_word s.words k (BitVec.lt_of_getLsbD hb)]
    exact hb
  · intro h
    have hk := word_lt ⟨i, s.lt_of_bitAt h⟩
    have hi : i = 64 * (i / 64) + i % 64 := (Nat.div_add_mod i 64).symm
    refine ⟨⟨i / 64, hk⟩, i % 64, ?_, hi⟩
    rw [← bitAt_word s.words ⟨i / 64, hk⟩ (Nat.mod_lt i (by decide)), ← hi]
    exact h

theorem scan_pairwise (s : SlotSet n) : s.scan.Pairwise (· < ·) := by
  apply List.pairwise_flatMap.2 ⟨fun k _ => BitScan.listed_pairwise _, ?_⟩
  apply (List.pairwise_lt_finRange _).imp
  intro k l hkl i hi j hj
  obtain ⟨b, hb, rfl⟩ := BitScan.mem_listed.1 hi
  obtain ⟨c, hc, rfl⟩ := BitScan.mem_listed.1 hj
  have hlt : b < 64 := BitVec.lt_of_getLsbD hb
  have hkl : k.val < l.val := hkl
  change 64 * k.val + b < 64 * l.val + c
  omega

def toList (s : SlotSet n) : List (Fin n) :=
  s.scan.pmap Fin.mk fun _ hi => s.lt_of_bitAt (mem_scan.1 hi)

theorem map_val_toList (s : SlotSet n) : s.toList.map Fin.val = s.scan := by
  rw [toList, List.map_pmap, List.pmap_eq_map, List.map_id']

@[simp] theorem mem_toList {s : SlotSet n} {i : Fin n} : i ∈ s.toList ↔ s.contains i = true := by
  rw [toList, List.mem_pmap, contains_eq_bitAt, ← mem_scan]
  constructor
  · rintro ⟨j, hj, rfl⟩
    exact hj
  · intro hi
    exact ⟨i, hi, rfl⟩

theorem toList_pairwise (s : SlotSet n) : s.toList.Pairwise (· < ·) := by
  have hscan := s.scan_pairwise
  rw [← map_val_toList, List.pairwise_map] at hscan
  exact hscan

def sameAs {m : Nat} (s : SlotSet n) (t : SlotSet m) : Bool :=
  n == m && s.size == t.size && s.words.toArray == t.words.toArray

@[simp] theorem contains_empty (i : Fin n) : (empty n).contains i = false := by
  simp [contains_eq_bitAt, empty, bitAt]

@[simp] theorem contains_clear (s : SlotSet n) (i : Fin n) : s.clear.contains i = false := by
  simp [contains_eq_bitAt, clear, bitAt]

@[simp] theorem contains_fill (s : SlotSet n) (i : Fin n) : s.fill.contains i = true := by
  simp [contains_eq_bitAt, fill, bitAt_fillWords]

@[simp] theorem contains_full (i : Fin n) : (full n).contains i = true :=
  contains_fill (empty n) i

theorem contains_insert (s : SlotSet n) (i j : Fin n) :
    (s.insert i).contains j = (decide (j = i) || s.contains j) := by
  simp only [contains_eq_bitAt, insert, bitAt_wordsInsert, Fin.ext_iff]

theorem contains_erase (s : SlotSet n) (i j : Fin n) :
    (s.erase i).contains j = (!decide (j = i) && s.contains j) := by
  simp only [contains_eq_bitAt, erase, bitAt_wordsErase, Fin.ext_iff]

end SlotSet

end PackedRatings
