import Fabula.Logic.Engine

/-!
Evaluation of logic against qualities and visits. Reading never fails, since what is unset is
zero; only the engine's functions can fail.
-/
namespace Fabula

def Value.equals : Value → Value → Bool
  | .text a, .text b => a == b
  | a, b => a.toNumber == b.toNumber

/-- The value of an operator on two values. -/
def BinaryOp.apply (op : BinaryOp) (a b : Value) : Value :=
  match op with
  | .add => .number (a.toNumber + b.toNumber)
  | .sub => .number (a.toNumber - b.toNumber)
  | .mul => .number (a.toNumber * b.toNumber)
  | .div => .number (a.toNumber / b.toNumber)
  | .mod => .number (Number.remainder a.toNumber b.toNumber)
  | .eq => .bool (a.equals b)
  | .notEq => .bool (!a.equals b)
  | .lt => .bool (a.toNumber < b.toNumber)
  | .le => .bool (a.toNumber ≤ b.toNumber)
  | .gt => .bool (b.toNumber < a.toNumber)
  | .ge => .bool (b.toNumber ≤ a.toNumber)
  | .and => .bool (a.isTruthy && b.isTruthy)
  | .or => .bool (a.isTruthy || b.isTruthy)

def BinaryOp.decided? (op : BinaryOp) (a : Value) : Option Value :=
  match op with
  | .and => if a.isTruthy then none else some (.bool false)
  | .or => if a.isTruthy then some (.bool true) else none
  | _ => none

namespace Expr

mutual

/-- The value of an expression. Operands and arguments are evaluated from left to right, and the
right operand of `and` and `or` only if the left one does not decide. -/
def evaluate (engine : Engine) (visits : Visits) (qualities : Qualities) :
    Expr → Except EvalError Value
  | number n => .ok (.number n)
  | bool b => .ok (.bool b)
  | quality name => .ok (qualities.get name)
  | .visits scene => .ok (.number (visits.count scene).toNat.toFloat)
  | not e => do
    let value ← evaluate engine visits qualities e
    return .bool (!value.isTruthy)
  | negate e => do
    let value ← evaluate engine visits qualities e
    return .number (-value.toNumber)
  | binary op lhs rhs => do
    let left ← evaluate engine visits qualities lhs
    match op.decided? left with
    | some value => return value
    | none =>
      let right ← evaluate engine visits qualities rhs
      return op.apply left right
  | call name args => do
    let values ← evaluateAll engine visits qualities args
    engine.call name values

def evaluateAll (engine : Engine) (visits : Visits) (qualities : Qualities) :
    List Expr → Except EvalError (List Value)
  | [] => .ok []
  | e :: es => do
    let value ← evaluate engine visits qualities e
    let values ← evaluateAll engine visits qualities es
    return value :: values

end

end Expr

/-- The value that an assignment gives a quality. -/
def AssignOp.apply (op : AssignOp) (current : Value) (value : Value) : Value :=
  match op with
  | .set => value
  | .add => .number (current.toNumber + value.toNumber)
  | .sub => .number (current.toNumber - value.toNumber)
  | .mul => .number (current.toNumber * value.toNumber)
  | .div => .number (current.toNumber / value.toNumber)

/-- The qualities after a command. -/
def Command.apply (engine : Engine) (visits : Visits) (c : Command) (qualities : Qualities) :
    Except EvalError Qualities := do
  let value ← c.value.evaluate engine visits qualities
  return qualities.set c.quality (c.op.apply (qualities.get c.quality) value)

/-- The qualities after a list of commands, and the error of the command that fails; the
commands before it keep their effect. -/
def Command.applyAll (engine : Engine) (visits : Visits) :
    List Command → Qualities → Qualities × Except EvalError Unit
  | [], qualities => (qualities, .ok ())
  | c :: cs, qualities =>
    match c.apply engine visits qualities with
    | .ok next => applyAll engine visits cs next
    | .error e => (qualities, .error e)

inductive Outcome where
  | test (holds : Bool)
  | value (value : Value)
  /-- The number of commands applied. -/
  | applied (count : Nat)

/-- Run a program as what it is: the qualities afterwards, and the outcome. -/
def Program.run (engine : Engine) (visits : Visits) (qualities : Qualities) :
    Program → Qualities × Except EvalError Outcome
  | predicate e =>
    (qualities, (e.evaluate engine visits qualities).map fun v => .test v.isTruthy)
  | expression e => (qualities, (e.evaluate engine visits qualities).map .value)
  | actions commands =>
    let (next, result) := Command.applyAll engine visits commands qualities
    (next, result.map fun _ => .applied commands.length)

namespace Snippet

def run (engine : Engine) (visits : Visits) (qualities : Qualities) (s : Snippet) :
    Qualities × Except EvalError Outcome :=
  s.program.run engine visits qualities

def test (engine : Engine) (visits : Visits) (qualities : Qualities) (s : Snippet) :
    Except EvalError Bool :=
  match s.program with
  | .predicate e => (e.evaluate engine visits qualities).map Value.isTruthy
  | .expression e => (e.evaluate engine visits qualities).map Value.isTruthy
  | .actions _ => .error (.wrongRoot .predicate .actions)

/-- Use a snippet as a value; that of a predicate is its truth. -/
def value (engine : Engine) (visits : Visits) (qualities : Qualities) (s : Snippet) :
    Except EvalError Value :=
  match s.program with
  | .predicate e => (e.evaluate engine visits qualities).map fun v => .bool v.isTruthy
  | .expression e => e.evaluate engine visits qualities
  | .actions _ => .error (.wrongRoot .expression .actions)

/-- Use a snippet as a change of state. -/
def apply (engine : Engine) (visits : Visits) (qualities : Qualities) (s : Snippet) :
    Qualities × Except EvalError Unit :=
  match s.program with
  | .actions commands => Command.applyAll engine visits commands qualities
  | program => (qualities, .error (.wrongRoot .actions program.root))

end Snippet

end Fabula
