/-!
The exact value of a double, the double nearest to a ratio of natural numbers, and the remainder
of two doubles.
-/
namespace Fabula.Number

/-- The power of two with a natural exponent; one when the exponent is negative. -/
def twoTo (e : Int) : Nat := Nat.pow 2 e.toNat

/-- The power of ten with a natural exponent; one when the exponent is negative. -/
def tenTo (e : Int) : Nat := Nat.pow 10 e.toNat

/-- The size of a finite double, `significand * 2 ^ exponent`. -/
structure Binary where
  significand : Nat
  exponent : Int
  deriving DecidableEq, Repr

def leastExponent : Int := -1074

def infinityBits : Nat := 0x7FF0000000000000

/-- Whether the sign bit of a double is set. -/
def isNegative (x : Float) : Bool := twoTo 63 ≤ x.toBits.toNat

def Binary.ofFloat (x : Float) : Binary :=
  let bits := x.toBits.toNat
  let field : Nat := bits / twoTo 52 % twoTo 11
  let fraction : Nat := bits % twoTo 52
  if field = 0 then ⟨fraction, leastExponent⟩ else ⟨twoTo 52 + fraction, (field : Int) - 1075⟩

/-- The quotient rounded to the nearest integer, a half to the even neighbour. -/
def roundDiv (num den : Nat) : Nat :=
  let quotient := num / den
  let twice := 2 * (num % den)
  if twice < den then quotient
  else if den < twice then quotient + 1
  else quotient + quotient % 2

def atLeastPower (num den : Nat) (e : Int) : Bool :=
  den * twoTo e ≤ num * twoTo (-e)

/-- The bits of the double nearest to `num / den`, infinity when that is too large. -/
def nearestBits (num den : Nat) : Nat :=
  if num = 0 then 0
  else
    let estimate : Int := (num.log2 : Int) - den.log2
    let log := if atLeastPower num den estimate then estimate else estimate - 1
    let exponent := max (log - 52) leastExponent
    let significand := roundDiv (num * twoTo (-exponent)) (den * twoTo exponent)
    min ((exponent - leastExponent).toNat * twoTo 52 + significand) infinityBits

/-- The double nearest to a ratio, with a sign. -/
def nearest (negative : Bool) (num den : Nat) : Float :=
  Float.ofBits (UInt64.ofNat ((if negative then twoTo 63 else 0) + nearestBits num den))

def infinity : Float := Float.ofBits (UInt64.ofNat infinityBits)

def notANumber : Float := Float.ofBits 0x7FF8000000000000

/-- The remainder of `x` by `y` with the sign of `x`, as if computed without rounding. -/
def remainder (x y : Float) : Float :=
  if x.isNaN || y.isNaN || x.isInf || y == 0 then notANumber
  else if y.isInf then x
  else
    let a := Binary.ofFloat x
    let b := Binary.ofFloat y
    let exponent := min a.exponent b.exponent
    let rest := (a.significand * twoTo (a.exponent - exponent)) %
      (b.significand * twoTo (b.exponent - exponent))
    nearest (isNegative x) (rest * twoTo exponent) (twoTo (-exponent))

end Fabula.Number
