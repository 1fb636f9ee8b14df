import Fabula.Grammar.Parse
import Fabula.Logic.Description

/-!
The grammar of the logic language. From loosest to tightest: `or`, `and`, `not`, comparison,
sum, product, minus, atom. Boolean parentheses hold only a strict condition, one that is no bare
sum, so that `(x)` has one derivation.
-/
namespace Fabula

/-- The non-terminals of the logic language. -/
inductive Category where
  | actions | commands | command
  | predicate | expression
  | disjunction | conjunction | negation | condition | strict | comparison
  | sum | product | signed | atom | arguments
  deriving DecidableEq, Repr

namespace Category

def name : Category → String
  | actions => "actions"
  | commands => "commands"
  | command => "command"
  | predicate => "predicate"
  | expression => "expression"
  | disjunction => "or_expr"
  | conjunction => "and_expr"
  | negation => "not_expr"
  | condition => "bool_atom"
  | strict => "strict"
  | comparison => "comparison"
  | sum => "sum"
  | product => "product"
  | signed => "unary"
  | atom => "atom"
  | arguments => "args"

instance : ToString Category := ⟨name⟩

/-- The category that a root kind is parsed from. -/
def ofRoot : RootKind → Category
  | .predicate => predicate
  | .expression => expression
  | .actions => actions

end Category

namespace Child

/-- The token that a child is to be. -/
def asToken : Child LogicTag Phrase → Except String (Token LogicTag)
  | token t => .ok t
  | value phrase => .error ("expected a token, found " ++ phrase.describe)

/-- The expression that a child is to be. -/
def asExpr : Child LogicTag Phrase → Except String Expr
  | value (.expr e) => .ok e
  | child => .error ("expected an expression, found " ++ child.describe)

end Child

namespace Phrase

/-- Children of a production of the logic language. -/
abbrev Children := List (Child LogicTag Phrase)

/-- The message for a number of children other than the one called for. -/
def miscount (count : Nat) (given : Children) : String :=
  let found := given.length
  s!"expected {count} children, found {found}"

/-- The result of the first child. -/
def pass : Children → Except String Phrase
  | .value phrase :: _ => .ok phrase
  | .token t :: _ => .error s!"unexpected token '{t.text}'"
  | [] => .error "empty rule"

def truth (b : Bool) : Children → Except String Phrase := fun _ => .ok (.expr (.bool b))

/-- What stands between two parentheses. -/
def parenthesized : Children → Except String Phrase
  | [_, inner, _] => return .expr (← inner.asExpr)
  | given => .error (miscount 3 given)

/-- Two operands with an operator between them. -/
def binary (op : BinaryOp) : Children → Except String Phrase
  | [lhs, _, rhs] => return .expr (.binary op (← lhs.asExpr) (← rhs.asExpr))
  | given => .error (miscount 3 given)

def not : Children → Except String Phrase
  | [_, inner] => return .expr (.not (← inner.asExpr))
  | given => .error (miscount 2 given)

/-- The opposite of an expression; that of a number is a number. -/
def opposite : Expr → Expr
  | .number n => .number (-n)
  | e => .negate e

def negate : Children → Except String Phrase
  | [_, inner] => return .expr (opposite (← inner.asExpr))
  | given => .error (miscount 2 given)

def number : Children → Except String Phrase
  | [literal] => do
    let text := (← literal.asToken).text
    match Number.read? text with
    | some n => .ok (.expr (.number n))
    | none =>
      let cause :=
        if text.isEmpty then "cannot parse float from empty string" else "invalid float literal"
      .error s!"bad number '{text}': {cause}"
  | given => .error (miscount 1 given)

def quality : Children → Except String Phrase
  | [name] => return .expr (.quality (← name.asToken).text)
  | given => .error (miscount 1 given)

/-- The scene that a visit reference names: what follows its at sign. -/
def sceneOf (reference : String) : String :=
  String.ofList (reference.toList.dropWhile (· == '@'))

def visits : Children → Except String Phrase
  | [scene] => return .expr (.visits (sceneOf (← scene.asToken).text))
  | given => .error (miscount 1 given)

/-- The arguments of a call stand after its name and a parenthesis. -/
def argumentsOf : Children → List Expr
  | _ :: _ :: .value (.arguments es) :: _ => es
  | _ => []

def call : Children → Except String Phrase
  | [] => .error "missing function name"
  | name :: rest => return .expr (.call (← name.asToken).text (argumentsOf (name :: rest)))

def firstArgument : Children → Except String Phrase
  | [first] => return .arguments [← first.asExpr]
  | given => .error (miscount 1 given)

def nextArgument : Children → Except String Phrase
  | [.value (.arguments es), _, next] => return .arguments (es ++ [← next.asExpr])
  | [child, _, _] => .error ("expected an argument list, found " ++ child.describe)
  | given => .error (miscount 3 given)

def assign (op : AssignOp) : Children → Except String Phrase
  | [name, _, value] => return .command ⟨(← name.asToken).text, op, ← value.asExpr⟩
  | given => .error (miscount 3 given)

def firstCommand : Children → Except String Phrase
  | [.value (.command c)] => .ok (.commands [c])
  | [child] => .error ("expected a command, found " ++ child.describe)
  | given => .error (miscount 1 given)

def nextCommand : Children → Except String Phrase
  | [.value (.commands cs), _, .value (.command c)] => .ok (.commands (cs ++ [c]))
  | [before, _, next] =>
    .error ("expected commands, found (" ++ before.describe ++ ", " ++ next.describe ++ ")")
  | given => .error (miscount 3 given)

end Phrase

namespace Logic

/-- A token of the given tag. -/
def tok (t : LogicTag) : Symbol Category LogicTag := .terminal t

/-- A phrase of the given category. -/
def cat (c : Category) : Symbol Category LogicTag := .nonterminal c

open Category in
/-- The productions of the logic language. -/
def productions : List (Production Category LogicTag Phrase) :=
  [⟨actions, [cat commands], Phrase.pass⟩,
   ⟨actions, [cat commands, tok .semicolon], Phrase.pass⟩,
   ⟨commands, [cat command], Phrase.firstCommand⟩,
   ⟨commands, [cat commands, tok .semicolon, cat command], Phrase.nextCommand⟩,
   ⟨command, [tok .identifier, tok .equals, cat sum], Phrase.assign .set⟩,
   ⟨command, [tok .identifier, tok .plusEquals, cat sum], Phrase.assign .add⟩,
   ⟨command, [tok .identifier, tok .minusEquals, cat sum], Phrase.assign .sub⟩,
   ⟨command, [tok .identifier, tok .timesEquals, cat sum], Phrase.assign .mul⟩,
   ⟨command, [tok .identifier, tok .divideEquals, cat sum], Phrase.assign .div⟩,
   ⟨predicate, [cat disjunction], Phrase.pass⟩,
   ⟨expression, [cat sum], Phrase.pass⟩,
   ⟨disjunction, [cat disjunction, tok .or, cat conjunction], Phrase.binary .or⟩,
   ⟨disjunction, [cat conjunction], Phrase.pass⟩,
   ⟨conjunction, [cat conjunction, tok .and, cat negation], Phrase.binary .and⟩,
   ⟨conjunction, [cat negation], Phrase.pass⟩,
   ⟨negation, [tok .not, cat negation], Phrase.not⟩,
   ⟨negation, [cat condition], Phrase.pass⟩,
   ⟨condition, [cat sum], Phrase.pass⟩,
   ⟨condition, [cat comparison], Phrase.pass⟩,
   ⟨condition, [tok .true], Phrase.truth true⟩,
   ⟨condition, [tok .false], Phrase.truth false⟩,
   ⟨condition, [tok .openParen, cat strict, tok .closeParen], Phrase.parenthesized⟩,
   ⟨strict, [cat disjunction, tok .or, cat conjunction], Phrase.binary .or⟩,
   ⟨strict, [cat conjunction, tok .and, cat negation], Phrase.binary .and⟩,
   ⟨strict, [tok .not, cat negation], Phrase.not⟩,
   ⟨strict, [cat comparison], Phrase.pass⟩,
   ⟨strict, [tok .true], Phrase.truth true⟩,
   ⟨strict, [tok .false], Phrase.truth false⟩,
   ⟨strict, [tok .openParen, cat strict, tok .closeParen], Phrase.parenthesized⟩,
   ⟨comparison, [cat sum, tok .equals, cat sum], Phrase.binary .eq⟩,
   ⟨comparison, [cat sum, tok .notEquals, cat sum], Phrase.binary .notEq⟩,
   ⟨comparison, [cat sum, tok .less, cat sum], Phrase.binary .lt⟩,
   ⟨comparison, [cat sum, tok .lessEquals, cat sum], Phrase.binary .le⟩,
   ⟨comparison, [cat sum, tok .greater, cat sum], Phrase.binary .gt⟩,
   ⟨comparison, [cat sum, tok .greaterEquals, cat sum], Phrase.binary .ge⟩,
   ⟨sum, [cat sum, tok .plus, cat product], Phrase.binary .add⟩,
   ⟨sum, [cat sum, tok .minus, cat product], Phrase.binary .sub⟩,
   ⟨sum, [cat product], Phrase.pass⟩,
   ⟨product, [cat product, tok .times, cat signed], Phrase.binary .mul⟩,
   ⟨product, [cat product, tok .divide, cat signed], Phrase.binary .div⟩,
   ⟨product, [cat product, tok .modulo, cat signed], Phrase.binary .mod⟩,
   ⟨product, [cat signed], Phrase.pass⟩,
   ⟨signed, [tok .minus, cat signed], Phrase.negate⟩,
   ⟨signed, [cat atom], Phrase.pass⟩,
   ⟨atom, [tok .number], Phrase.number⟩,
   ⟨atom, [tok .identifier], Phrase.quality⟩,
   ⟨atom, [tok .visit], Phrase.visits⟩,
   ⟨atom, [tok .openParen, cat sum, tok .closeParen], Phrase.parenthesized⟩,
   ⟨atom, [tok .identifier, tok .openParen, tok .closeParen], Phrase.call⟩,
   ⟨atom, [tok .identifier, tok .openParen, cat arguments, tok .closeParen], Phrase.call⟩,
   ⟨arguments, [cat sum], Phrase.firstArgument⟩,
   ⟨arguments, [cat arguments, tok .comma, cat sum], Phrase.nextArgument⟩]

/-- The grammar of the logic language with its three roots. -/
def grammar : Grammar Category LogicTag Phrase where
  roots := [.actions, .predicate, .expression]
  productions := productions.toArray
  faultless := by decide +kernel

end Logic

end Fabula
