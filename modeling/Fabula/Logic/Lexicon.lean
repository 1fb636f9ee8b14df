import Fabula.Scan
import Fabula.Text.Blank

/-!
The tokens of the logic language. Keywords are read in any letter case and only as whole words,
since a longer name is a longer match. Blanks separate tokens and are left out.
-/
namespace Fabula

inductive LogicTag where
  | and | or | not | true | false
  | equals | notEquals | less | lessEquals | greater | greaterEquals
  | plusEquals | minusEquals | timesEquals | divideEquals
  | plus | minus | times | divide | modulo
  | number | identifier
  /-- A reference to the visits of a scene, such as `@cellar.door`. -/
  | visit
  | openParen | closeParen | comma | semicolon
  deriving DecidableEq, Repr

namespace Lexicon

def isDigit (c : Char) : Bool := '0' ≤ c && c ≤ '9'

/-- The characters that a name starts with. -/
def isNameStart (c : Char) : Bool := ('A' ≤ c && c ≤ 'Z') || ('a' ≤ c && c ≤ 'z') || c == '_'

/-- The characters of a name after its first. -/
def isNameRest (c : Char) : Bool := isNameStart c || isDigit c

open Pattern

def digits : Pattern := some1 (one isDigit)

/-- Digits, then possibly a point and further digits. -/
def number : Pattern := seq digits (opt true (seq (char '.') digits))

def name : Pattern := seq (one isNameStart) (many (one isNameRest))

/-- Names joined by points after an at sign. -/
def visit : Pattern := seq (char '@') (seq name (many (seq (char '.') name)))

/-- The rules in order of priority: keywords before names. -/
def rules : List (Rule LogicTag) :=
  [.tagged .and (anyCase "and"), .tagged .or (anyCase "or"), .tagged .not (anyCase "not"),
   .tagged .true (anyCase "true"), .tagged .false (anyCase "false"),
   .tagged .notEquals (lit "!="), .tagged .lessEquals (lit "<="),
   .tagged .greaterEquals (lit ">="), .tagged .less (lit "<"), .tagged .greater (lit ">"),
   .tagged .plusEquals (lit "+="), .tagged .minusEquals (lit "-="),
   .tagged .timesEquals (lit "*="), .tagged .divideEquals (lit "/="),
   .tagged .equals (lit "="), .tagged .plus (lit "+"), .tagged .minus (lit "-"),
   .tagged .times (lit "*"), .tagged .divide (lit "/"), .tagged .modulo (lit "%"),
   .tagged .number number, .tagged .identifier name, .tagged .visit visit,
   .tagged .openParen (lit "("), .tagged .closeParen (lit ")"),
   .tagged .comma (lit ","), .tagged .semicolon (lit ";"),
   .discarded (some1 (one Text.isBlank))]

/-- The scanner's table for a number of steps. -/
def table (maxSteps : Nat) : Table LogicTag := ⟨rules, maxSteps⟩

end Lexicon

end Fabula
