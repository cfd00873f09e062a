/-!
# Binary64 numbers

A 64-bit floating-point number is kept as its bits, so that a not-a-number keeps its sign
and payload through storage, ranking and listing. Besides the numeric equality of IEEE 754
there is the total order of all bit patterns, given by `rank`.
-/
namespace PackedRatings

/-- A binary64 number: one sign bit above 63 bits of magnitude. -/
structure Binary64 where
  bits : UInt64
  deriving DecidableEq

namespace Binary64

def posZero : Binary64 := ⟨0⟩

def negZero : Binary64 := ⟨0x8000000000000000⟩

/-- The quiet not-a-number with an empty payload. -/
def nan : Binary64 := ⟨0x7ff8000000000000⟩

instance : Zero Binary64 := ⟨posZero⟩

instance : Inhabited Binary64 := ⟨posZero⟩

def negative (x : Binary64) : Bool :=
  decide (0x8000000000000000 ≤ x.bits.toNat)

/-- The bits below the sign bit. Among numbers of one sign a greater magnitude is further
from zero. -/
def magnitude (x : Binary64) : Nat :=
  x.bits.toNat % 0x8000000000000000

/-- The magnitude of the infinities: eleven ones above fifty-two zeros. -/
def infiniteMagnitude : Nat := 0x7ff0000000000000

def isNaN (x : Binary64) : Bool :=
  decide (infiniteMagnitude < x.magnitude)

def isInfinite (x : Binary64) : Bool :=
  decide (x.magnitude = infiniteMagnitude)

def isFinite (x : Binary64) : Bool :=
  decide (x.magnitude < infiniteMagnitude)

def isZero (x : Binary64) : Bool :=
  decide (x.magnitude = 0)

def signedZero (negative : Bool) : Binary64 :=
  if negative then negZero else posZero

/-- Numeric equality: the two zeros are equal and a not-a-number equals nothing. -/
def numEq (x y : Binary64) : Bool :=
  !x.isNaN && !y.isNaN && (x == y || (x.isZero && y.isZero))

/-- The place of `x` in the total order of bit patterns: from the negative not-a-numbers
through the negative numbers, `-0.0`, `0.0` and the positive numbers to the positive
not-a-numbers. -/
def rank (x : Binary64) : Int :=
  if x.negative then -(x.magnitude : Int) - 1 else x.magnitude

theorem rank_injective {x y : Binary64} (h : x.rank = y.rank) : x = y := by
  obtain ⟨x⟩ := x
  obtain ⟨y⟩ := y
  have hx := x.toNat_lt
  have hy := y.toNat_lt
  suffices x.toNat = y.toNat by rw [UInt64.toNat_inj.1 this]
  simp only [rank, negative, magnitude, decide_eq_true_eq] at h
  split at h <;> split at h <;> omega

end Binary64

end PackedRatings
