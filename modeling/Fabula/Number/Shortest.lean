import Fabula.Number.Binary

/-!
The shortest decimal that reads back as a given double. For one digit, two digits and so on, the
two neighbours of the value among the decimals with that many digits are tried; the first that
reads back is taken, of two the nearer one, and of two equally near the larger one.
-/
namespace Fabula.Number

structure Decimal where
  digits : Nat
  exponent : Int
  deriving DecidableEq, Repr

def compareScaled (a : Nat) (i : Int) (n : Nat) (j : Int) : Ordering :=
  compare (a * tenTo i * twoTo (-j)) (n * twoTo j * tenTo (-i))

namespace Binary

/-- Whether a decimal rounds to a double: it lies between the midpoints to the neighbours, which
belong to the double when its significand is even. The midpoint below is nearer at a power of
two. -/
def readsBack (x : Binary) (d : Decimal) : Bool :=
  let narrow := x.significand == twoTo 52 && x.exponent != leastExponent
  let low := 4 * x.significand - (if narrow then 1 else 2)
  let high := 4 * x.significand + 2
  let even := x.significand % 2 == 0
  let overLow := compareScaled d.digits d.exponent low (x.exponent - 2)
  let overHigh := compareScaled d.digits d.exponent high (x.exponent - 2)
  (overLow == .gt || (even && overLow == .eq)) && (overHigh == .lt || (even && overHigh == .eq))

def magnitude (x : Binary) : Int :=
  let estimate := ((x.significand.log2 : Int) + x.exponent) * 30103 / 100000
  if compareScaled 1 (estimate + 1) x.significand x.exponent == .gt then estimate
  else estimate + 1

def unitsBelow (x : Binary) (e : Int) : Nat :=
  (x.significand * twoTo x.exponent * tenTo (-e)) / (twoTo (-x.exponent) * tenTo e)

/-- Among the decimals with `n` digits, the one next to a value that reads back, if any. -/
def candidate? (x : Binary) (n : Nat) : Option Decimal :=
  let e := x.magnitude - (n : Int) + 1
  let below : Decimal := ⟨x.unitsBelow e, e⟩
  let above : Decimal := ⟨below.digits + 1, e⟩
  match x.readsBack below, x.readsBack above with
  | true, true =>
    -- The value lies below the middle of the two candidates exactly when `below` is nearer.
    let middle := compareScaled (2 * below.digits + 1) e (2 * x.significand) x.exponent
    some (if middle == .gt then below else above)
  | true, false => some below
  | false, true => some above
  | false, false => none

end Binary

/-- A decimal without trailing zeros among its digits, up to the given number of them. -/
def Decimal.normalize : Nat → Decimal → Decimal
  | 0, d => d
  | n + 1, d =>
    if d.digits ≠ 0 ∧ d.digits % 10 = 0 then normalize n ⟨d.digits / 10, d.exponent + 1⟩ else d

/-- The shortest decimal that reads back as a positive double. Seventeen digits always do. -/
def shortest (x : Binary) : Decimal :=
  let found := (List.range 17).findSome? fun n => x.candidate? (n + 1)
  (found.getD ⟨x.unitsBelow (-1), -1⟩).normalize 18

end Fabula.Number
