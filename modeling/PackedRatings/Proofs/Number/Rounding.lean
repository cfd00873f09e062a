import Mathlib.Algebra.Order.Field.Power
import Mathlib.Data.Rat.Cast.Order
import Mathlib.Tactic.Linarith
import Mathlib.Tactic.NormNum
import Mathlib.Tactic.Positivity
import Mathlib.Tactic.Ring
import PackedRatings.Number.Decimal

/-!
# Numbers that are rounded to a magnitude

A magnitude stands for a whole number of last places. Rounding to nearest takes the magnitude whose
number is nearest and, of two, the even one. So what is rounded to a magnitude is an interval
between two midpoints, which is the one that the search for decimals works with.
-/
namespace PackedRatings

namespace Binary64

/-- The distance from the number of a magnitude to that of the next one. -/
def lastPlace (m : ℕ) : ℚ :=
  2 ^ ((max (m / 0x10000000000000) 1 : ℕ) - 1075 : ℤ)

/-- How many last places the number of a magnitude has. -/
def significand (m : ℕ) : ℕ :=
  if m / 0x10000000000000 = 0 then m % 0x10000000000000
  else 0x10000000000000 + m % 0x10000000000000

/-- The number that a magnitude stands for. From the infinite one on the magnitudes go on as if
there was no greatest exponent. -/
def numberOf (m : ℕ) : ℚ :=
  significand m * lastPlace m

theorem lastPlace_pos (m : ℕ) : 0 < lastPlace m :=
  zpow_pos (by norm_num) _

/-- The first magnitude of an exponent, from the second on, is twice as far from the next one as
from the one before. -/
theorem lastPlace_succ (m : ℕ) : lastPlace (m + 1) =
    if (m + 1) % 0x10000000000000 = 0 ∧ 1 < (m + 1) / 0x10000000000000 then 2 * lastPlace m
    else lastPlace m := by
  split
  · have hexponent : ((max ((m + 1) / 0x10000000000000) 1 : ℕ) - 1075 : ℤ) =
        ((max (m / 0x10000000000000) 1 : ℕ) - 1075 : ℤ) + 1 := by omega
    rw [lastPlace, hexponent, zpow_add_one₀ (by norm_num), lastPlace, mul_comm]
  · have hexponent : max ((m + 1) / 0x10000000000000) 1 = max (m / 0x10000000000000) 1 := by omega
    rw [lastPlace, hexponent, lastPlace]

theorem numberOf_succ (m : ℕ) : numberOf (m + 1) = numberOf m + lastPlace m := by
  rw [numberOf, lastPlace_succ, numberOf]
  split
  · have hfirst : significand (m + 1) = 0x10000000000000 := by
      rw [significand]
      split <;> omega
    have hfull : significand m = 0x1fffffffffffff := by
      rw [significand]
      split <;> omega
    rw [hfirst, hfull]
    push_cast
    ring
  · have hnext : significand (m + 1) = significand m + 1 := by
      rw [significand, significand]
      split <;> split <;> omega
    rw [hnext]
    push_cast
    ring

theorem numberOf_strictMono : StrictMono numberOf := by
  apply strictMono_nat_of_lt_succ
  intro m
  rw [numberOf_succ]
  exact lt_add_of_pos_right _ (lastPlace_pos m)

theorem numberOf_zero : numberOf 0 = 0 := by
  simp [numberOf, significand]

def halfway (m : ℕ) : ℚ :=
  (numberOf m + numberOf (m + 1)) / 2

/-- Of all magnitudes `m` has the number nearest to `q`, or one of the two nearest and is even. -/
structure RoundsTo (q : ℚ) (m : ℕ) : Prop where
  nearest : ∀ n, |q - numberOf m| ≤ |q - numberOf n|
  even : ∀ n, n ≠ m → |q - numberOf m| = |q - numberOf n| → m % 2 = 0

variable {q : ℚ} {m n : ℕ}

theorem roundsTo_zero : RoundsTo 0 0 where
  nearest := by
    intro n
    rw [numberOf_zero, sub_zero, abs_zero]
    exact abs_nonneg _
  even := fun _ _ _ => rfl

theorem sq_sub_sub_sq_sub (q a b : ℚ) :
    (q - b) ^ 2 - (q - a) ^ 2 = (b - a) * (2 * ((a + b) / 2 - q)) := by
  ring

theorem abs_sub_le_abs_sub_iff {a b : ℚ} (h : a < b) : |q - a| ≤ |q - b| ↔ q ≤ (a + b) / 2 := by
  rw [← sq_le_sq, ← sub_nonneg, sq_sub_sub_sq_sub, mul_nonneg_iff_of_pos_left (sub_pos.2 h),
    mul_nonneg_iff_of_pos_left two_pos, sub_nonneg]

theorem abs_sub_lt_abs_sub_iff {a b : ℚ} (h : a < b) : |q - a| < |q - b| ↔ q < (a + b) / 2 := by
  rw [← sq_lt_sq, ← sub_pos, sq_sub_sub_sq_sub, mul_pos_iff_of_pos_left (sub_pos.2 h),
    mul_pos_iff_of_pos_left two_pos, sub_pos]

theorem middle_le_halfway (h : n < m + 1) : (numberOf n + numberOf (m + 1)) / 2 ≤ halfway m := by
  have hle := numberOf_strictMono.monotone (Nat.le_of_lt_succ h)
  rw [halfway]
  linarith

theorem halfway_le_middle (h : m < n) : halfway m ≤ (numberOf m + numberOf n) / 2 := by
  have hle := numberOf_strictMono.monotone (Nat.succ_le_of_lt h)
  rw [halfway]
  linarith

/-- The numbers between the midpoints around `m + 1`, which an odd magnitude leaves to its
neighbours. -/
def Around (m : ℕ) (q : ℚ) : Prop :=
  if (m + 1) % 2 = 0 then halfway m ≤ q ∧ q ≤ halfway (m + 1)
  else halfway m < q ∧ q < halfway (m + 1)

theorem RoundsTo.around (h : RoundsTo q (m + 1)) : Around m q := by
  have hbelow : numberOf m < numberOf (m + 1) := numberOf_strictMono (Nat.lt_succ_self _)
  have habove : numberOf (m + 1) < numberOf (m + 2) := numberOf_strictMono (Nat.lt_succ_self _)
  have hlow : halfway m ≤ q :=
    not_lt.1 fun hlt => not_le.2 ((abs_sub_lt_abs_sub_iff hbelow).2 hlt) (h.nearest m)
  have hhigh : q ≤ halfway (m + 1) := (abs_sub_le_abs_sub_iff habove).1 (h.nearest (m + 2))
  rw [Around]
  split
  · exact ⟨hlow, hhigh⟩
  · rename_i hodd
    constructor
    · apply lt_of_le_of_ne hlow
      intro heq
      have hle := (abs_sub_le_abs_sub_iff hbelow).2 heq.ge
      exact hodd (h.even m (Nat.succ_ne_self m).symm (le_antisymm (h.nearest m) hle))
    · apply lt_of_le_of_ne hhigh
      intro heq
      have hle := not_lt.1 ((abs_sub_lt_abs_sub_iff habove).not.2 heq.not_lt)
      exact hodd (h.even (m + 2) (by omega) (le_antisymm (h.nearest _) hle))

theorem Around.roundsTo (h : Around m q) : RoundsTo q (m + 1) := by
  rw [Around] at h
  have hbounds : halfway m ≤ q ∧ q ≤ halfway (m + 1) := by
    split at h
    · exact h
    · exact ⟨h.1.le, h.2.le⟩
  constructor
  · intro n
    rcases Nat.lt_trichotomy n (m + 1) with hlt | rfl | hgt
    · apply not_lt.1
      rw [abs_sub_lt_abs_sub_iff (numberOf_strictMono hlt), not_lt]
      exact (middle_le_halfway hlt).trans hbounds.1
    · exact le_rfl
    · rw [abs_sub_le_abs_sub_iff (numberOf_strictMono hgt)]
      exact hbounds.2.trans (halfway_le_middle hgt)
  · intro n hne heq
    by_contra hodd
    rw [if_neg hodd] at h
    rcases Nat.lt_or_gt_of_ne hne with hlt | hgt
    · have hmiddle := (abs_sub_le_abs_sub_iff (numberOf_strictMono hlt)).1 heq.ge
      exact absurd (hmiddle.trans (middle_le_halfway hlt)) (not_le.2 h.1)
    · have hmiddle := (abs_sub_lt_abs_sub_iff (numberOf_strictMono hgt)).not.1 heq.not_lt
      exact absurd ((halfway_le_middle hgt).trans (not_lt.1 hmiddle)) (not_le.2 h.2)

theorem roundsTo_succ_iff : RoundsTo q (m + 1) ↔ Around m q :=
  ⟨RoundsTo.around, Around.roundsTo⟩

/-- No number is rounded to two magnitudes. -/
theorem RoundsTo.unique (h : RoundsTo q m) (h' : RoundsTo q n) : m = n := by
  wlog hlt : m < n generalizing m n
  · rcases Nat.lt_or_eq_of_le (Nat.le_of_not_lt hlt) with hgt | heq
    · exact (this h' h hgt).symm
    · exact heq.symm
  have heq : |q - numberOf m| = |q - numberOf n| := le_antisymm (h.nearest n) (h'.nearest m)
  have heven := h.even n hlt.ne' heq
  have heven' := h'.even m hlt.ne heq.symm
  -- Between two even magnitudes there is an odd one, which is nearer than both.
  have hmiddle : (numberOf m + numberOf n) / 2 ≤ q :=
    not_lt.1 ((abs_sub_lt_abs_sub_iff (numberOf_strictMono hlt)).not.1 heq.not_lt)
  have hbetween : m + 1 < n := by omega
  have hnear := (abs_sub_le_abs_sub_iff (numberOf_strictMono (Nat.lt_succ_self m))).1
    (h.nearest (m + 1))
  linarith [numberOf_strictMono hbetween]

end Binary64

namespace Decimal.Rounding

def Contains (r : Rounding) (q : ℚ) : Prop :=
  if r.closed then r.low ≤ q * r.denominator ∧ q * r.denominator ≤ r.high
  else r.low < q * r.denominator ∧ q * r.denominator < r.high

/-- A value inside its interval, which has at least sixteen digits. -/
structure Valid (r : Rounding) : Prop where
  denominator_pos : 0 < r.denominator
  low_lt : r.low < r.value
  lt_high : r.value < r.high
  wide : r.value < 10 ^ 16 * (r.high - r.low)

def center (r : Rounding) : ℚ :=
  r.value / r.denominator

open Binary64

/-- A quarter of the last place in units of the denominator. -/
def quarter (m : ℕ) : ℕ :=
  2 ^ (max (m / 0x10000000000000) 1 - 1077)

theorem ofBinary64_eq (x : Binary64) : ofBinary64 x =
    { low := (4 * significand x.magnitude -
        if x.magnitude % 0x10000000000000 = 0 ∧ 1 < x.magnitude / 0x10000000000000 then 1
        else 2) * quarter x.magnitude
      value := 4 * significand x.magnitude * quarter x.magnitude
      high := (4 * significand x.magnitude + 2) * quarter x.magnitude
      denominator := 2 ^ (1077 - max (x.magnitude / 0x10000000000000) 1)
      closed := significand x.magnitude % 2 = 0 } := by
  simp only [quarter, ← Nat.one_shiftLeft]
  rfl

theorem denominator_pos (x : Binary64) : 0 < (ofBinary64 x).denominator := by
  rw [ofBinary64_eq]
  positivity

theorem quarter_pos (m : ℕ) : 0 < quarter m := by
  rw [quarter]
  positivity

theorem four_mul_quarter (x : Binary64) : 4 * (quarter x.magnitude : ℚ) =
    lastPlace x.magnitude * (ofBinary64 x).denominator := by
  rw [ofBinary64_eq, quarter, lastPlace]
  generalize max (x.magnitude / 0x10000000000000) 1 = exponent
  push_cast
  rcases Nat.le_total exponent 1077 with hle | hle
  · have hsum : (exponent - 1075 : ℤ) + (1077 - exponent : ℕ) = 2 := by omega
    rw [Nat.sub_eq_zero_of_le hle, ← zpow_natCast 2 (1077 - exponent), ← zpow_add₀ (by norm_num),
      hsum]
    norm_num
  · have hsum : (exponent - 1075 : ℤ) = (exponent - 1077 : ℕ) + 2 := by omega
    rw [Nat.sub_eq_zero_of_le hle, hsum, zpow_add₀ (by norm_num), zpow_natCast]
    ring

theorem value_ofBinary64 (x : Binary64) :
    ((ofBinary64 x).value : ℚ) = numberOf x.magnitude * (ofBinary64 x).denominator := by
  rw [numberOf, mul_assoc, ← four_mul_quarter, ofBinary64_eq]
  push_cast
  ring

/-- The upper end is the midpoint to the next number. -/
theorem high_ofBinary64 (x : Binary64) :
    ((ofBinary64 x).high : ℚ) = halfway x.magnitude * (ofBinary64 x).denominator := by
  have hvalue := value_ofBinary64 x
  have hquarter := four_mul_quarter x
  rw [halfway, numberOf_succ]
  rw [ofBinary64_eq] at *
  push_cast at *
  linarith

theorem significand_pos {m : ℕ} (h : m ≠ 0) : 0 < significand m := by
  rw [significand]
  split <;> omega

/-- The lower end is the midpoint to the number before. -/
theorem low_ofBinary64 {m : ℕ} {x : Binary64} (h : x.magnitude = m + 1) :
    ((ofBinary64 x).low : ℚ) = halfway m * (ofBinary64 x).denominator := by
  have hvalue := value_ofBinary64 x
  have hquarter := four_mul_quarter x
  have hpos := significand_pos (h.trans_ne (Nat.succ_ne_zero m))
  have hplace := lastPlace_succ m
  have hmiddle : halfway m = numberOf (m + 1) - lastPlace m / 2 := by
    rw [halfway, numberOf_succ]
    ring
  rw [hmiddle]
  rw [← h] at *
  rw [ofBinary64_eq] at *
  dsimp only at *
  split at hplace
  · rename_i hfirst
    rw [hplace] at hquarter
    rw [if_pos hfirst, Nat.cast_mul, Nat.cast_sub (by omega)]
    push_cast at *
    linarith
  · rename_i hfirst
    rw [hplace] at hquarter
    rw [if_neg hfirst, Nat.cast_mul, Nat.cast_sub (by omega)]
    push_cast at *
    linarith

/-- The interval of a number that is not zero is what is rounded to it. -/
theorem contains_iff_roundsTo {x : Binary64} {q : ℚ} (h : x.magnitude ≠ 0) :
    (ofBinary64 x).Contains q ↔ RoundsTo q x.magnitude := by
  obtain ⟨m, hm⟩ : ∃ m, x.magnitude = m + 1 := Nat.exists_eq_succ_of_ne_zero h
  have hdenominator : (0 : ℚ) < (ofBinary64 x).denominator := by
    exact_mod_cast denominator_pos x
  have hclosed : (ofBinary64 x).closed = true ↔ (m + 1) % 2 = 0 := by
    rw [ofBinary64_eq, decide_eq_true_eq, ← hm, significand]
    split <;> omega
  simp only [Contains, low_ofBinary64 hm, high_ofBinary64 x, hclosed, hm, roundsTo_succ_iff, Around,
    mul_le_mul_iff_of_pos_right hdenominator, mul_lt_mul_iff_of_pos_right hdenominator]

theorem valid_ofBinary64 {x : Binary64} (h : x.magnitude ≠ 0) : (ofBinary64 x).Valid where
  denominator_pos := denominator_pos x
  low_lt := by
    have hpos := significand_pos h
    rw [ofBinary64_eq]
    apply Nat.mul_lt_mul_of_pos_right _ (quarter_pos _)
    split <;> omega
  lt_high := by
    rw [ofBinary64_eq]
    exact Nat.mul_lt_mul_of_pos_right (Nat.lt_add_of_pos_right (by decide)) (quarter_pos _)
  wide := by
    have hpos := significand_pos h
    rw [ofBinary64_eq]
    dsimp only
    rw [← Nat.mul_sub_right_distrib, ← Nat.mul_assoc]
    apply Nat.mul_lt_mul_of_pos_right _ (quarter_pos _)
    rw [significand] at *
    split <;> split <;> omega

end Decimal.Rounding

end PackedRatings
