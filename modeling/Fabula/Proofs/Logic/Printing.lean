import Fabula.Logic.Rules

namespace Fabula

inductive Lexeme where
  | sign (tag : LogicTag)
  | word (tag : LogicTag) (text : String)

/-- The token is one for the lexeme, wherever it stands and however a sign is spelled. -/
def Token.Shows (token : Token LogicTag) : Lexeme → Prop
  | .sign tag => token.tag = some tag
  | .word tag text => token.tag = some tag ∧ token.text = text

instance (token : Token LogicTag) (lexeme : Lexeme) : Decidable (token.Shows lexeme) :=
  match lexeme with
  | .sign tag => inferInstanceAs (Decidable (token.tag = some tag))
  | .word tag text => inferInstanceAs (Decidable (token.tag = some tag ∧ token.text = text))

def Lexeme.separated (tag : LogicTag) : List (List Lexeme) → List Lexeme
  | [] => []
  | first :: rest => first ++ rest.flatMap (.sign tag :: ·)

/-- How a number is written: a literal, possibly with a minus before it. -/
structure Numeral where
  negative : Bool
  literal : String

namespace Numeral

def Denotes (numeral : Numeral) (n : Float) : Prop :=
  ∃ size, Number.read? numeral.literal = some size ∧ n = if numeral.negative then
    -size else size

def print (numeral : Numeral) : List Lexeme :=
  if numeral.negative then [.sign .minus, .word .number numeral.literal]
  else [.word .number numeral.literal]

end Numeral

theorem Phrase.number_of_read {t : Token LogicTag} {n : Float}
    (h : Number.read? t.text = some n) : number [.token t] = .ok (.expr (.number n)) := by
  simp [number, Child.asToken, bind, Except.bind, h]

namespace BinaryOp

def tag : BinaryOp → LogicTag
  | add => .plus
  | sub => .minus
  | mul => .times
  | div => .divide
  | mod => .modulo
  | eq => .equals
  | notEq => .notEquals
  | lt => .less
  | le => .lessEquals
  | gt => .greater
  | ge => .greaterEquals
  | and => .and
  | or => .or

def strength : BinaryOp → Nat
  | or => 0
  | and => 1
  | eq | notEq | lt | le | gt | ge => 3
  | add | sub => 4
  | mul | div | mod => 5

end BinaryOp

/-- The tag of an assignment. -/
def AssignOp.tag : AssignOp → LogicTag
  | set => .equals
  | add => .plusEquals
  | sub => .minusEquals
  | mul => .timesEquals
  | div => .divideEquals

namespace Expr

variable (spell : Float → Numeral)

/-- The strength of the outermost operator of an expression, where numbers are spelled as given:
`or`, `and`, `not`, comparison, sum, product and minus from 0 to 6, and 7 where there is
none. -/
def strength : Expr → Nat
  | number n => if (spell n).negative then 6 else 7
  | binary op _ _ => op.strength
  | not _ => 2
  | negate _ => 6
  | bool _ | quality _ | visits _ | call _ _ => 7

/-- The print of an operand of some strength, in parentheses where at least `least` is called
for. -/
def enclose (least strength : Nat) (lexemes : List Lexeme) : List Lexeme :=
  if strength < least then .sign .openParen :: (lexemes ++ [.sign .closeParen]) else lexemes

mutual

/-- An expression in print. Operators associate to the left, so a right operand must be
stronger. -/
def print : Expr → List Lexeme
  | number n => (spell n).print
  | bool b => [.sign (if b then .true else .false)]
  | quality name => [.word .identifier name]
  | visits scene => [.word .visit ("@" ++ scene)]
  | binary op lhs rhs =>
    enclose op.strength (lhs.strength spell) lhs.print ++
      .sign op.tag :: enclose (op.strength + 1) (rhs.strength spell) rhs.print
  | not e => .sign .not :: enclose 2 (e.strength spell) e.print
  | negate e => .sign .minus :: enclose 6 (e.strength spell) e.print
  | call name args =>
    .word .identifier name :: .sign .openParen ::
      (Lexeme.separated .comma (printEach args) ++ [.sign .closeParen])

def printEach : List Expr → List (List Lexeme)
  | [] => []
  | e :: es => e.print :: printEach es

end

structure Vocabulary where
  number : Float → Prop
  name : String → Prop
  scene : String → Prop

section Sorts

variable (words : Vocabulary)

inductive Amount : Expr → Prop where
  | number {n : Float} (known : words.number n) : Amount (.number n)
  | quality {name : String} (named : words.name name) : Amount (.quality name)
  | visits {scene : String} (referred : words.scene scene) : Amount (.visits scene)
  | call {name : String} {args : List Expr} (named : words.name name)
      (each : ∀ e ∈ args, Amount e) : Amount (.call name args)
  | negate {e : Expr} (inner : Amount e) (compound : ∀ n, e ≠ .number n) : Amount (.negate e)
  | binary {op : BinaryOp} {lhs rhs : Expr} (operator : op ∈ [.add, .sub, .mul, .div, .mod])
      (left : Amount lhs) (right : Amount rhs) : Amount (.binary op lhs rhs)

inductive Condition : Expr → Prop where
  | amount {e : Expr} (value : Amount words e) : Condition e
  | bool {b : Bool} : Condition (.bool b)
  | comparison {op : BinaryOp} {lhs rhs : Expr}
      (operator : op ∈ [.eq, .notEq, .lt, .le, .gt, .ge])
      (left : Amount words lhs) (right : Amount words rhs) : Condition (.binary op lhs rhs)
  | not {e : Expr} (inner : Condition e) : Condition (.not e)
  | connective {op : BinaryOp} {lhs rhs : Expr} (operator : op ∈ [.and, .or])
      (left : Condition lhs) (right : Condition rhs) : Condition (.binary op lhs rhs)

end Sorts

/-- What can be written: numbers as they are spelled, any name, and scenes that some reference
names. -/
def written : Vocabulary where
  number n := (spell n).Denotes n
  name _ := True
  scene scene := ∃ reference, Phrase.sceneOf reference = scene

/-- An expression of arithmetic that can be written. -/
abbrev Arithmetic : Expr → Prop := Amount (written spell)

/-- A condition that can be written. -/
abbrev Boolean : Expr → Prop := Condition (written spell)

end Expr

namespace Command

variable (spell : Float → Numeral)

def print (c : Command) : List Lexeme :=
  .word .identifier c.quality :: .sign c.op.tag :: c.value.print spell

/-- Commands in print, with semicolons between them. -/
def printAll (cs : List Command) : List Lexeme :=
  Lexeme.separated .semicolon (cs.map (print spell))

end Command

end Fabula
