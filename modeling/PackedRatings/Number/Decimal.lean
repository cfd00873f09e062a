import PackedRatings.Number.Binary64

/-!
# Shortest decimals

The shortest decimal of a binary64 number is the one with the fewest digits that rounds back
to the number, and of those the one nearest to it; of two equally near the one farther from
zero is taken. It is found in exact arithmetic: for one digit, two digits and so on, the two
neighbours of the number on the grid of decimals of that length are tested against the interval
of values that round to it.
-/
namespace PackedRatings

/-- The number `digits * 10 ^ exponent`. -/
structure Decimal where
  digits : Nat
  exponent : Int
  deriving DecidableEq

namespace Decimal

def digitCount (n : Nat) : Nat :=
  if n = 0 then 0 else (Nat.toDigits 10 n).length

/-- A positive value with the interval of values that round to it, all over the same
denominator. -/
structure Rounding where
  low : Nat
  value : Nat
  high : Nat
  denominator : Nat
  /-- Whether the ends of the interval round to the value too. -/
  closed : Bool

/-- The finite number `x`, which must not be zero, with its interval. A number whose fraction
is empty has a neighbour below it at half the distance. -/
def Rounding.ofBinary64 (x : Binary64) : Rounding :=
  let fraction := x.magnitude % 0x10000000000000
  let biased := x.magnitude / 0x10000000000000
  let significand := if biased = 0 then fraction else 0x10000000000000 + fraction
  let narrow := fraction = 0 ∧ 1 < biased
  let shift := max biased 1
  -- The number is `significand * 2 ^ (shift - 1075)`, and a quarter of its last place is the unit.
  let unit := 1 <<< (shift - 1077)
  { low := (4 * significand - if narrow then 1 else 2) * unit
    value := 4 * significand * unit
    high := (4 * significand + 2) * unit
    denominator := 1 <<< (1077 - shift)
    closed := significand % 2 = 0 }

/-- The exponent of the power of ten at or below the value. -/
def Rounding.exponent (r : Rounding) : Int :=
  if r.denominator ≤ r.value then (digitCount (r.value / r.denominator) : Int) - 1
  else -(digitCount ((r.denominator - 1) / r.value) : Int)

/-- The same values counted in units of `10 ^ unit`. -/
def Rounding.scaled (r : Rounding) (unit : Int) : Rounding :=
  let up := Nat.pow 10 (-unit).toNat
  { r with
    low := r.low * up
    value := r.value * up
    high := r.high * up
    denominator := r.denominator * Nat.pow 10 unit.toNat }

def Rounding.holds (r : Rounding) (n : Nat) : Bool :=
  let scaled := n * r.denominator
  if r.closed then r.low ≤ scaled && scaled ≤ r.high else r.low < scaled && scaled < r.high

/-- The whole number next to the value that lies in its interval, if one does. Of two the
nearer is taken, and of two equally near the greater one. -/
def Rounding.nearest? (r : Rounding) : Option Nat :=
  let below := r.value / r.denominator
  let above := below + 1
  match r.holds below, r.holds above with
  | false, false => none
  | true, false => some below
  | false, true => some above
  | true, true =>
    let middle := (below + above) * r.denominator
    if 2 * r.value < middle then some below else some above

/-- Tries grids with `length` digits, then one more, at most `attempts` of them. -/
def search (r : Rounding) (length attempts : Nat) : Decimal :=
  match attempts with
  | 0 => ⟨0, 0⟩
  | attempts + 1 =>
    let unit := r.exponent - (length : Int) + 1
    match (r.scaled unit).nearest? with
    | some digits => ⟨digits, unit⟩
    | none => search r (length + 1) attempts

/-- The shortest decimal of a finite number that is not zero. Seventeen digits always do. -/
def shortest (x : Binary64) : Decimal :=
  search (Rounding.ofBinary64 x) 1 17

/-- How numbers are written: between which powers of ten all digits are written out, and
how special values are named. -/
structure Style where
  leastPositional : Int
  greatestPositional : Int
  notANumber : String
  infinity : String

/-- The decimal digits from the first to the last that is not zero, and the exponent of the
power of ten of the first. -/
def significant (d : Decimal) : List Char × Int :=
  let digits := Nat.toDigits 10 d.digits
  ((digits.reverse.dropWhile (· == '0')).reverse, d.exponent + (digits.length : Int) - 1)

/-- Digits with a point in them. There is at least one digit on each side of the point. -/
def positional (digits : List Char) (lead : Int) : List Char :=
  if lead < 0 then
    '0' :: '.' :: (List.replicate (-lead - 1).toNat '0' ++ digits)
  else
    let places := lead.toNat + 1
    let whole := digits.take places ++ List.replicate (places - digits.length) '0'
    match digits.drop places with
    | [] => whole ++ ['.', '0']
    | fraction => whole ++ '.' :: fraction

/-- One digit before the point, then the exponent of ten. -/
def scientific (digits : List Char) (lead : Int) : List Char :=
  let exponent := 'e' :: (toString lead).toList
  match digits with
  | [] => exponent
  | [digit] => digit :: exponent
  | digit :: fraction => digit :: '.' :: (fraction ++ exponent)

def Style.text (style : Style) (x : Binary64) : String :=
  if x.isNaN then style.notANumber
  else
    let sign := if x.negative then "-" else ""
    if x.isInfinite then sign ++ style.infinity
    else if x.isZero then sign ++ "0.0"
    else
      let (digits, lead) := (shortest x).significant
      let written :=
        if style.leastPositional ≤ lead ∧ lead ≤ style.greatestPositional then
          positional digits lead
        else scientific digits lead
      sign ++ String.ofList written

end Decimal

end PackedRatings
