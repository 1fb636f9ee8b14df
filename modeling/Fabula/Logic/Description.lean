import Fabula.Datum.Basic
import Fabula.Grammar.Basic
import Fabula.Logic.Lexicon
import Fabula.Logic.Program

/-!
What the productions of the logic language build, and how messages describe it.
-/
namespace Fabula

/-- What the productions of the logic language build. -/
inductive Phrase where
  | expr (e : Expr)
  | command (c : Command)
  | commands (cs : List Command)
  | arguments (es : List Expr)

/-- The name of a tag in descriptions. -/
def LogicTag.title : LogicTag → String
  | and => "And"
  | or => "Or"
  | not => "Not"
  | true => "True"
  | false => "False"
  | equals => "Equals"
  | notEquals => "NotEquals"
  | less => "Less"
  | lessEquals => "LessEquals"
  | greater => "Greater"
  | greaterEquals => "GreaterEquals"
  | plusEquals => "PlusEquals"
  | minusEquals => "MinusEquals"
  | timesEquals => "TimesEquals"
  | divideEquals => "DivideEquals"
  | plus => "Plus"
  | minus => "Minus"
  | times => "Times"
  | divide => "Divide"
  | modulo => "Modulo"
  | number => "Number"
  | identifier => "Identifier"
  | visit => "Visit"
  | openParen => "OpenParen"
  | closeParen => "CloseParen"
  | comma => "Comma"
  | semicolon => "Semicolon"

/-- The parts of a description between brackets. -/
def describeList (parts : List String) : String :=
  "[" ++ String.intercalate ", " parts ++ "]"

/-- A description with named parts. -/
def describeRecord (title : String) (fields : List (String × String)) : String :=
  title ++ " \x7b " ++
    String.intercalate ", " (fields.map fun f => f.1 ++ ": " ++ f.2) ++ " \x7d"

namespace Number

/-- A decimal with one digit before the point and a power of ten. -/
def Decimal.scientific (d : Decimal) : String :=
  let digits := Nat.toDigits 10 d.digits
  let power := d.exponent + (digits.length : Int) - 1
  let fraction := digits.drop 1
  String.ofList (digits.take 1 ++ if fraction.isEmpty then [] else '.' :: fraction) ++ "e" ++
    toString power

/-- A double in descriptions: very large and very small ones have a power of ten. -/
def describe (x : Float) : String :=
  let size := x.abs
  if size.isInf || !((size != 0 && size < 1e-4) || 1e16 ≤ size) then write storedLayout x
  else (if isNegative x then "-" else "") ++ (shortest (Binary.ofFloat x)).scientific

end Number

namespace Expr

mutual

def describe : Expr → String
  | number n => "Number(" ++ Number.describe n ++ ")"
  | bool b => if b then "Bool(true)" else "Bool(false)"
  | quality name => "Quality(" ++ Text.quote name ++ ")"
  | visits scene => "Visits(" ++ Text.quote scene ++ ")"
  | binary op lhs rhs =>
    describeRecord "Binary" [("op", op.title), ("lhs", lhs.describe), ("rhs", rhs.describe)]
  | not e => "Not(" ++ e.describe ++ ")"
  | negate e => "Negate(" ++ e.describe ++ ")"
  | call name args =>
    describeRecord "Call" [("name", Text.quote name), ("args", describeList (describeAll args))]

def describeAll : List Expr → List String
  | [] => []
  | e :: es => e.describe :: describeAll es

end

end Expr

def Command.describe (c : Command) : String :=
  describeRecord "Command"
    [("quality", Text.quote c.quality), ("op", c.op.title), ("value", c.value.describe)]

def Phrase.describe : Phrase → String
  | expr e => "Expr(" ++ e.describe ++ ")"
  | command c => "Command(" ++ c.describe ++ ")"
  | commands cs => "Commands(" ++ describeList (cs.map Command.describe) ++ ")"
  | arguments es => "Args(" ++ describeList (Expr.describeAll es) ++ ")"

def Token.describe (t : Token LogicTag) : String :=
  let tag := t.tag.elim "None" fun tag => "Some(" ++ tag.title ++ ")"
  describeRecord "Token"
    [("tag", tag), ("start", toString t.start), ("text", Text.quote t.text)]

def Child.describe : Child LogicTag Phrase → String
  | token t => "Token(" ++ t.describe ++ ")"
  | value phrase => "Value(" ++ phrase.describe ++ ")"

end Fabula
