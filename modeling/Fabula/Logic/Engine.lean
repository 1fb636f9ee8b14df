import Fabula.Value
import Fabula.Logic.Program

/-!
What the engine that plays a story supplies to logic: functions, display formatters and the
running of raw scripts. A function table is an engine of named functions and formatters.
-/
namespace Fabula

/-- What the value of a dependency is used for. -/
inductive DependencyKind where
  /-- It decides whether a conditional is shown. -/
  | predicate
  /-- It is shown in place of an insert. -/
  | insert
  deriving DecidableEq, Repr

inductive EvalError where
  | unknownFunction (name : String)
  | unknownFormatter (name : String)
  | rawScriptUnsupported (source : String)
  | function (name message : String)
  | wrongRoot (expected found : RootKind)
  deriving DecidableEq, Repr

def EvalError.message : EvalError → String
  | unknownFunction name => s!"unknown function '{name}'"
  | unknownFormatter name => s!"unknown display formatter '{name}'"
  | rawScriptUnsupported source => s!"raw script is not supported here: {source}"
  | function name message => s!"function '{name}' failed: {message}"
  | wrongRoot expected found =>
    let expected := expected.name
    let found := found.name
    s!"{found} logic cannot be used as {expected}"

structure Engine where
  call : String → List Value → Except EvalError Value
  format : String → Value → Except EvalError Value :=
    fun name _ => .error (.unknownFormatter name)
  runScript : DependencyKind → String → Visits → Qualities → Except EvalError Value :=
    fun _ source _ _ => .error (.rawScriptUnsupported source)

structure FunctionTable where
  functions : List (String × (List Value → Except String Value))
  formatters : List (String × (Value → String))

namespace FunctionTable

def empty : FunctionTable := ⟨[], []⟩

/-- A table with one more function, in place of any of the same name. -/
def withFunction (t : FunctionTable) (name : String)
    (function : List Value → Except String Value) : FunctionTable :=
  { t with functions := (name, function) :: t.functions.filter (·.1 != name) }

/-- A table with one more formatter, in place of any of the same name. -/
def withFormatter (t : FunctionTable) (name : String) (formatter : Value → String) :
    FunctionTable :=
  { t with formatters := (name, formatter) :: t.formatters.filter (·.1 != name) }

/-- Combine the numbers of all arguments, of which there must be one. -/
def foldNumbers (name : String) (f : Float → Float → Float) : List Value → Except String Value
  | [] => .error (name ++ " needs at least one argument")
  | v :: vs => .ok (.number (vs.foldl (fun n w => f n w.toNumber) v.toNumber))

/-- Apply a function to the number of the only argument. -/
def onNumber (f : Float → Float) (args : List Value) : Except String Value :=
  match args with
  | [v] => .ok (.number (f v.toNumber))
  | _ =>
    let count := args.length
    .error s!"expected 1 argument, got {count}"

/-- The smaller number; what is no number is passed over. -/
def smaller (a b : Float) : Float :=
  if a.isNaN then b else if b < a then b else a

/-- The larger number; what is no number is passed over. -/
def larger (a b : Float) : Float :=
  if a.isNaN then b else if a < b then b else a

/-- The numeric functions that most stories want. -/
def standard : FunctionTable :=
  empty
    |>.withFunction "min" (foldNumbers "min" smaller)
    |>.withFunction "max" (foldNumbers "max" larger)
    |>.withFunction "abs" (onNumber Float.abs)
    |>.withFunction "floor" (onNumber Float.floor)
    |>.withFunction "ceil" (onNumber Float.ceil)
    |>.withFunction "round" (onNumber Float.round)

def quotedNames (names : List String) : String :=
  "[" ++ String.intercalate ", " ((Names.ofList names).map fun n => "\"" ++ n ++ "\"") ++ "]"

def describe (t : FunctionTable) : String :=
  "FunctionTable \x7b functions: " ++ quotedNames (t.functions.map (·.1)) ++
    ", formatters: " ++ quotedNames (t.formatters.map (·.1)) ++ " \x7d"

/-- The engine of a table; it runs no raw scripts. -/
def engine (t : FunctionTable) : Engine where
  call name args :=
    match t.functions.lookup name with
    | none => .error (.unknownFunction name)
    | some function => (function args).mapError (.function name)
  format name value :=
    match t.formatters.lookup name with
    | none => .error (.unknownFormatter name)
    | some formatter => .ok (.text (formatter value))

end FunctionTable

end Fabula
