import PackedRatings.Number.Binary64

/-!
# Arithmetic on binary64 numbers

Operations with a not-a-number, an infinite or a zero operand are given by their IEEE 754
rules, and all others are rounded to nearest. A not-a-number operand passes through with
its quiet bit set, the first of two; an operation without a value gives `indefinite`.
-/
namespace PackedRatings.Binary64

/-- The result of an operation that has no value, such as infinity minus infinity. -/
def indefinite : Binary64 := ⟨0xfff8000000000000⟩

def quiet (x : Binary64) : Binary64 :=
  ⟨x.bits ||| 0x0008000000000000⟩

def toFloat (x : Binary64) : Float :=
  Float.ofBits x.bits

def ofFloat (f : Float) : Binary64 :=
  if f.isNaN then indefinite else ⟨f.toBits⟩

def ofNat (n : Nat) : Binary64 :=
  ofFloat (Float.ofNat n)

/-- The sum. Zero is neutral, and two zeros add to `-0.0` only if both are negative. -/
def add (x y : Binary64) : Binary64 :=
  if x.isNaN then x.quiet
  else if y.isNaN then y.quiet
  else if x.isZero && y.isZero then signedZero (x.negative && y.negative)
  else if x.isZero then y
  else if y.isZero then x
  else ofFloat (x.toFloat + y.toFloat)

/-- The product. Zero times a finite number is a zero with the sign of the product, and
zero times an infinity has no value. -/
def mul (x y : Binary64) : Binary64 :=
  if x.isNaN then x.quiet
  else if y.isNaN then y.quiet
  else if x.isZero || y.isZero then
    if x.isInfinite || y.isInfinite then indefinite
    else signedZero (x.negative != y.negative)
  else ofFloat (x.toFloat * y.toFloat)

def div (x y : Binary64) : Binary64 :=
  if x.isNaN then x.quiet
  else if y.isNaN then y.quiet
  else ofFloat (x.toFloat / y.toFloat)

/-- The square root. That of a zero is the same zero. -/
def sqrt (x : Binary64) : Binary64 :=
  if x.isNaN then x.quiet
  else if x.isZero then x
  else ofFloat x.toFloat.sqrt

instance : Add Binary64 := ⟨add⟩

instance : Mul Binary64 := ⟨mul⟩

instance : Div Binary64 := ⟨div⟩

/-- Adds from left to right, from `-0.0`, the number that changes no other when added. -/
def sum (xs : List Binary64) : Binary64 :=
  xs.foldl (· + ·) negZero

end PackedRatings.Binary64
