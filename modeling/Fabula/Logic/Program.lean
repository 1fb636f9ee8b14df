/-!
Programs of the logic language: predicates, expressions and lists of commands, with the names of
the qualities and scenes they depend on.
-/
namespace Fabula

/-- What a piece of logic is compiled as. -/
inductive RootKind where
  /-- A condition, such as `hp > 0 and not @cellar`. -/
  | predicate
  /-- A value, such as `gold * 2`. -/
  | expression
  /-- Changes of state, such as `gold += 5; seen = 1`. -/
  | actions
  deriving DecidableEq, Repr

/-- The word for a root kind in messages. -/
def RootKind.name : RootKind → String
  | predicate => "predicate"
  | expression => "expression"
  | actions => "actions"

def RootKind.title : RootKind → String
  | predicate => "Predicate"
  | expression => "Expression"
  | actions => "Actions"

inductive BinaryOp where
  | add | sub | mul | div | mod
  | eq | notEq | lt | le | gt | ge
  | and | or
  deriving DecidableEq, Repr

def BinaryOp.title : BinaryOp → String
  | add => "Add"
  | sub => "Sub"
  | mul => "Mul"
  | div => "Div"
  | mod => "Mod"
  | eq => "Eq"
  | notEq => "NotEq"
  | lt => "Lt"
  | le => "Le"
  | gt => "Gt"
  | ge => "Ge"
  | and => "And"
  | or => "Or"

inductive Expr where
  | number (n : Float)
  | bool (b : Bool)
  /-- The value of a quality, zero when it is unset. -/
  | quality (name : String)
  /-- The visit count of a scene. -/
  | visits (scene : String)
  | binary (op : BinaryOp) (lhs rhs : Expr)
  | not (e : Expr)
  | negate (e : Expr)
  /-- A call of a function that the engine supplies. -/
  | call (name : String) (args : List Expr)

inductive AssignOp where
  | set | add | sub | mul | div
  deriving DecidableEq, Repr

/-- The name that an assignment is stored under. -/
def AssignOp.title : AssignOp → String
  | set => "Set"
  | add => "Add"
  | sub => "Sub"
  | mul => "Mul"
  | div => "Div"

/-- One change of a quality. -/
structure Command where
  quality : String
  op : AssignOp
  value : Expr

inductive Program where
  | predicate (e : Expr)
  | expression (e : Expr)
  | actions (commands : List Command)

/-- A piece of logic: its source, what it is compiled as, and the program. -/
structure Snippet where
  source : String
  root : RootKind
  program : Program

namespace Names

/-- Put a name into a list in increasing order without repetition. -/
def insert (name : String) : List String → List String
  | [] => [name]
  | n :: ns =>
    if name < n then name :: n :: ns
    else if name = n then n :: ns
    else n :: insert name ns

/-- The names of a list in increasing order, each once. -/
def ofList (names : List String) : List String :=
  names.foldr insert []

end Names

namespace Expr

mutual

/-- The qualities that an expression reads, in order of appearance. -/
def readNames : Expr → List String
  | number _ => []
  | bool _ => []
  | quality name => [name]
  | visits _ => []
  | binary _ lhs rhs => lhs.readNames ++ rhs.readNames
  | not e => e.readNames
  | negate e => e.readNames
  | call _ args => readNamesOf args

def readNamesOf : List Expr → List String
  | [] => []
  | e :: es => e.readNames ++ readNamesOf es

end

mutual

/-- The scenes whose visits an expression reads, in order of appearance. -/
def sceneNames : Expr → List String
  | number _ => []
  | bool _ => []
  | quality _ => []
  | visits scene => [scene]
  | binary _ lhs rhs => lhs.sceneNames ++ rhs.sceneNames
  | not e => e.sceneNames
  | negate e => e.sceneNames
  | call _ args => sceneNamesOf args

def sceneNamesOf : List Expr → List String
  | [] => []
  | e :: es => e.sceneNames ++ sceneNamesOf es

end

end Expr

namespace Program

def root : Program → RootKind
  | predicate _ => .predicate
  | expression _ => .expression
  | actions _ => .actions

/-- The qualities that a program reads or writes, in increasing order. -/
def qualities : Program → List String
  | predicate e => Names.ofList e.readNames
  | expression e => Names.ofList e.readNames
  | actions commands => Names.ofList (commands.flatMap fun c => c.quality :: c.value.readNames)

/-- The scenes whose visits a program reads, in increasing order. -/
def scenes : Program → List String
  | predicate e => Names.ofList e.sceneNames
  | expression e => Names.ofList e.sceneNames
  | actions commands => Names.ofList (commands.flatMap (·.value.sceneNames))

end Program

end Fabula
