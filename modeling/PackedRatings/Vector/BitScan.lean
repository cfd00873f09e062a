/-!
# Scanning the bits of a word

A `BitScan` lists the bits of a word from the lowest on. Each step takes the number of zeros
below the lowest bit, and clears this bit by a conjunction with the number before the word.
-/
namespace PackedRatings

/-- The bits of a word that are still to be listed, and the slot of its first bit. -/
structure BitScan where
  word : UInt64
  base : Nat

namespace BitScan

variable {s s' : BitScan}

def lowest (s : BitScan) : Nat :=
  s.word.toBitVec.ctz.toNat

def rest (s : BitScan) : BitScan where
  word := s.word &&& (s.word - 1)
  base := s.base

def next? (s : BitScan) : Option (Nat × BitScan) :=
  if s.word = 0 then none else some (s.base + s.lowest, s.rest)

theorem next?_eq_none_iff : s.next? = none ↔ s.word = 0 := by
  simp [next?]

theorem next?_eq_some_iff {i : Nat} :
    s.next? = some (i, s') ↔ s.word ≠ 0 ∧ i = s.base + s.lowest ∧ s' = s.rest := by
  simp [next?, eq_comm]

theorem toNat_word_rest (h : s.word ≠ 0) :
    s.rest.word.toNat = s.word.toNat &&& (s.word.toNat - 1) := by
  have hle : (1 : UInt64) ≤ s.word := by
    rw [UInt64.le_iff_toNat_le]
    exact Nat.pos_of_ne_zero fun hzero => h (UInt64.toNat_inj.1 hzero)
  rw [rest, UInt64.toNat_and, UInt64.toNat_sub_of_le _ _ hle]
  rfl

/-- Taking 1 away from a number with its lowest bit at `t` clears this bit, sets those below and
keeps those above. -/
theorem testBit_and_sub_one (t v i : Nat) :
    ((2 * v + 1) <<< t &&& ((2 * v + 1) <<< t - 1)).testBit i =
      (!decide (i = t) && ((2 * v + 1) <<< t).testBit i) := by
  have hpos : 0 < 2 ^ t := Nat.two_pow_pos t
  have hsub : (2 * v + 1) <<< t - 1 = 2 ^ t * (2 * v) + (2 ^ t - 1) := by
    rw [Nat.shiftLeft_eq, Nat.mul_comm, Nat.mul_add, Nat.mul_one]
    omega
  rw [Nat.testBit_and, hsub, Nat.testBit_two_pow_mul_add _ (by omega), Nat.testBit_shiftLeft]
  rcases Nat.lt_trichotomy i t with hlt | rfl | hgt
  · simp [Nat.not_le_of_lt hlt]
  · simp [Nat.testBit_zero]
  · obtain ⟨j, hj⟩ : ∃ j, i - t = j + 1 := ⟨i - t - 1, by omega⟩
    have hhalf : (2 * v + 1) / 2 = v := by omega
    simp [hj, Nat.testBit_succ, Nat.not_lt_of_lt hgt, Nat.ne_of_gt hgt, hhalf]

theorem getLsbD_lowest (h : s.word ≠ 0) : s.word.toBitVec.getLsbD s.lowest = true := by
  apply BitVec.getLsbD_true_ctz_of_ne_zero
  intro hzero
  exact h (UInt64.toBitVec_inj.1 hzero)

theorem lowest_le {b : Nat} (h : s.word.toBitVec.getLsbD b = true) : s.lowest ≤ b := by
  apply Nat.le_of_not_lt
  intro hlt
  rw [BitVec.getLsbD_false_of_lt_ctz hlt] at h
  cases h

/-- A word is an odd number shifted to its lowest bit. -/
theorem exists_toNat_word_eq (h : s.word ≠ 0) :
    ∃ v, s.word.toNat = (2 * v + 1) <<< s.lowest := by
  have hbelow : s.word.toNat % 2 ^ s.lowest = 0 := by
    apply Nat.eq_of_testBit_eq
    intro b
    rw [Nat.testBit_mod_two_pow, Nat.zero_testBit]
    by_cases hb : b < s.lowest
    · simp [hb, show s.word.toNat.testBit b = false from BitVec.getLsbD_false_of_lt_ctz hb]
    · simp [hb]
  have hodd : s.word.toNat / 2 ^ s.lowest % 2 = 1 := by
    have hbit : (s.word.toNat / 2 ^ s.lowest).testBit 0 = true := by
      rw [Nat.testBit_div_two_pow, Nat.zero_add]
      exact getLsbD_lowest h
    simpa [Nat.testBit_zero] using hbit
  refine ⟨s.word.toNat / 2 ^ s.lowest / 2, ?_⟩
  rw [show 2 * (s.word.toNat / 2 ^ s.lowest / 2) + 1 = s.word.toNat / 2 ^ s.lowest by omega,
    Nat.shiftLeft_eq, Nat.div_mul_cancel (Nat.dvd_of_mod_eq_zero hbelow)]

/-- The step clears the lowest bit and no other. -/
theorem getLsbD_rest (h : s.word ≠ 0) (b : Nat) :
    s.rest.word.toBitVec.getLsbD b = (!decide (b = s.lowest) && s.word.toBitVec.getLsbD b) := by
  obtain ⟨v, hv⟩ := exists_toNat_word_eq h
  change s.rest.word.toNat.testBit b = (!decide (b = s.lowest) && s.word.toNat.testBit b)
  rw [toNat_word_rest h, hv, testBit_and_sub_one]

theorem lowest_lt (h : s.word ≠ 0) : s.lowest < 64 :=
  BitVec.lt_of_getLsbD (getLsbD_lowest h)

/-- The next bit stands above the lowest one, so a scan ends. -/
theorem lowest_lt_lowest_rest (h : s.word ≠ 0) : s.lowest < s.rest.lowest := by
  by_cases hrest : s.rest.word = 0
  · have hend : s.rest.lowest = 64 := by
      rw [lowest, hrest]
      decide +kernel
    rw [hend]
    exact lowest_lt h
  · have hnext := getLsbD_lowest hrest
    rw [getLsbD_rest h, Bool.and_eq_true, Bool.not_eq_true', decide_eq_false_iff_not] at hnext
    exact Nat.lt_of_le_of_ne (lowest_le hnext.2) (Ne.symm hnext.1)

/-- The slots that are listed until nothing comes next. -/
def listed (s : BitScan) : List Nat :=
  match _h : s.next? with
  | none => []
  | some (i, s') => i :: s'.listed
termination_by 64 - s.lowest
decreasing_by
  obtain ⟨hword, -, rfl⟩ := next?_eq_some_iff.1 _h
  have := lowest_lt hword
  have := lowest_lt_lowest_rest hword
  omega

theorem mem_listed {i : Nat} :
    i ∈ s.listed ↔ ∃ b, s.word.toBitVec.getLsbD b = true ∧ i = s.base + b := by
  fun_induction listed s with
  | case1 s h =>
    simp [next?_eq_none_iff.1 h]
  | case2 s first s' h ih =>
    obtain ⟨hword, rfl, rfl⟩ := next?_eq_some_iff.1 h
    simp only [List.mem_cons, ih, getLsbD_rest hword]
    constructor
    · rintro (rfl | ⟨b, hb, rfl⟩)
      · exact ⟨s.lowest, getLsbD_lowest hword, rfl⟩
      · exact ⟨b, (Bool.and_eq_true_iff.1 hb).2, rfl⟩
    · rintro ⟨b, hb, rfl⟩
      by_cases hlowest : b = s.lowest
      · exact .inl (by rw [hlowest])
      · exact .inr ⟨b, by simp [hlowest, hb], rfl⟩

theorem listed_pairwise (s : BitScan) : s.listed.Pairwise (· < ·) := by
  fun_induction listed s with
  | case1 s h => exact List.Pairwise.nil
  | case2 s first s' h ih =>
    obtain ⟨hword, rfl, rfl⟩ := next?_eq_some_iff.1 h
    apply List.Pairwise.cons _ ih
    intro i hi
    obtain ⟨b, hb, rfl⟩ := mem_listed.1 hi
    simp only [getLsbD_rest hword, Bool.and_eq_true, Bool.not_eq_true', decide_eq_false_iff_not]
      at hb
    exact Nat.add_lt_add_left (Nat.lt_of_le_of_ne (lowest_le hb.2) (Ne.symm hb.1)) _

end BitScan

end PackedRatings
