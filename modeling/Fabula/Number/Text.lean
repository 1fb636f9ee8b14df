import Fabula.Number.Shortest

/-!
The text of numbers: writing a double in positional notation with the fewest digits that read
back, and reading a double from decimal text.
-/
namespace Fabula.Number

structure Layout where
  /-- Whether a whole number keeps a fraction, as in `1.0`. -/
  wholeFraction : Bool
  /-- Whether the sign of a negative zero is written. -/
  signedZero : Bool

def Decimal.positional (layout : Layout) (d : Decimal) : String :=
  let digits := Nat.toDigits 10 d.digits
  let zeros (n : Nat) : List Char := List.replicate n '0'
  if 0 ≤ d.exponent then
    String.ofList (digits ++ zeros d.exponent.toNat) ++ if layout.wholeFraction then
      ".0" else ""
  else
    let places := (-d.exponent).toNat
    let padded := zeros (places + 1 - digits.length) ++ digits
    let whole := padded.take (padded.length - places)
    String.ofList (whole ++ '.' :: padded.drop (padded.length - places))

/-- The text of a double. -/
def write (layout : Layout) (x : Float) : String :=
  if x.isNaN then "NaN"
  else
    let size := if x.isInf then "inf"
      else
        let b := Binary.ofFloat x
        if b.significand = 0 then Decimal.positional layout ⟨0, 0⟩
        else (shortest b).positional layout
    if isNegative x && (layout.signedZero || x != 0) then "-" ++ size else size

def digitsValue (digits : List Char) : Nat :=
  digits.foldl (fun n d => 10 * n + (d.toNat - 48)) 0

/-- The double nearest to a decimal. A decimal that is sure to lie beyond the powers of ten that
doubles reach, judged by the power of two below its digits, is infinite or zero. -/
def ofDecimal (negative : Bool) (d : Decimal) : Float :=
  let size : Int := d.digits.log2
  if d.digits = 0 || (size + 1) * 30103 / 100000 + 1 + d.exponent < -330 then
    nearest negative 0 1
  else if 310 < size * 30102 / 100000 + d.exponent then if negative then -infinity else infinity
  else nearest negative (d.digits * tenTo d.exponent) (tenTo (-d.exponent))

def readExponent? : List Char → Option Int
  | [] => some 0
  | mark :: cs =>
    let (negative, digits) :=
      match cs with
      | '-' :: rest => (true, rest)
      | '+' :: rest => (false, rest)
      | _ => (false, cs)
    if mark.toLower == 'e' && !digits.isEmpty && digits.all Char.isDigit then
      let size : Int := digitsValue digits
      some (if negative then -size else size)
    else none

/-- Read a number without sign: digits with an optional point, at least one digit, and an
optional exponent; or one of the words for infinity and for no number, in any letter case. -/
def readUnsigned? (negative : Bool) (cs : List Char) : Option Float :=
  let word := String.ofList (cs.map Char.toLower)
  if word == "inf" || word == "infinity" then some (if negative then -infinity else infinity)
  else if word == "nan" then some notANumber
  else
    let whole := cs.takeWhile Char.isDigit
    let rest := cs.dropWhile Char.isDigit
    let (fraction, rest) :=
      match rest with
      | '.' :: rest => (rest.takeWhile Char.isDigit, rest.dropWhile Char.isDigit)
      | _ => ([], rest)
    if whole.isEmpty && fraction.isEmpty then none
    else
      (readExponent? rest).map fun exponent =>
        ofDecimal negative ⟨digitsValue (whole ++ fraction), exponent - fraction.length⟩

/-- Read a number with an optional sign; `none` when the text is no number. -/
def read? (text : String) : Option Float :=
  match text.toList with
  | '-' :: rest => readUnsigned? true rest
  | '+' :: rest => readUnsigned? false rest
  | cs => readUnsigned? false cs

end Fabula.Number
