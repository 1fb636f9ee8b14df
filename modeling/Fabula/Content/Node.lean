import Fabula.Logic.Engine

/-!
Compiled content: a tree in which conditionals and inserts refer by index to a list of
dependencies, so that one tree can be shown against many states.
-/
namespace Fabula

/-- The kinds of nodes that only hold other nodes. -/
inductive Style where
  | paragraph | quotation | attribution | heading
  | emphasis | strongEmphasis | hidden
  deriving DecidableEq, Repr

/-- The name that a style is stored under. -/
def Style.title : Style → String
  | paragraph => "Paragraph"
  | quotation => "Quotation"
  | attribution => "Attribution"
  | heading => "Heading"
  | emphasis => "Emphasis"
  | strongEmphasis => "StrongEmphasis"
  | hidden => "Hidden"

inductive Node where
  | text (s : String)
  | styled (style : Style) (children : List Node)
  /-- Shown when the dependency holds. -/
  | conditional (dependency : Nat) (children : List Node)
  /-- Shown as the value of the dependency. -/
  | insert (dependency : Nat)
  | rawScript (source : String)
  | lineBreak
  | horizontalRule
  /-- Several nodes at the root. -/
  | sequence (children : List Node)

namespace Node

mutual

/-- The dependencies that a node refers to, each node before its children. -/
def dependencyIndices : Node → List Nat
  | text _ => []
  | styled _ children => indicesOf children
  | conditional dependency children => dependency :: indicesOf children
  | insert dependency => [dependency]
  | rawScript _ => []
  | lineBreak => []
  | horizontalRule => []
  | sequence children => indicesOf children

def indicesOf : List Node → List Nat
  | [] => []
  | n :: ns => n.dependencyIndices ++ indicesOf ns

end

end Node

/-- The name that a kind of dependency is stored under. -/
def DependencyKind.title : DependencyKind → String
  | predicate => "Predicate"
  | insert => "Insert"

/-- How the value of a dependency is found: by compiled logic, or by the engine from a raw
script. -/
inductive DependencyLogic where
  | structured (snippet : Snippet)
  | rawScript (source : String)

structure Dependency where
  kind : DependencyKind
  logic : DependencyLogic
  formatter : Option String

namespace Dependency

def source (d : Dependency) : String :=
  match d.logic with
  | .structured snippet => snippet.source
  | .rawScript source => source

def isRaw (d : Dependency) : Bool :=
  match d.logic with
  | .structured _ => false
  | .rawScript _ => true

end Dependency

structure Content where
  root : Node
  dependencies : List Dependency

end Fabula
