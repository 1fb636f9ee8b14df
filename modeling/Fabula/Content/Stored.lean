import Fabula.Content.Node
import Fabula.Datum.Basic

/-!
The data that compiled logic and content are stored as.
-/
namespace Fabula

namespace Expr

mutual

def toDatum : Expr → Datum
  | number n => .tuple "Number" [.number n]
  | bool b => .tuple "Bool" [.word (if b then "true" else "false")]
  | quality name => .tuple "Quality" [.text name]
  | visits scene => .tuple "Visits" [.text scene]
  | binary op lhs rhs =>
    .record "Binary" [("op", .word op.title), ("lhs", lhs.toDatum), ("rhs", rhs.toDatum)]
  | not e => .tuple "Not" [e.toDatum]
  | negate e => .tuple "Negate" [e.toDatum]
  | call name args => .record "Call" [("name", .text name), ("args", .list (toDatumAll args))]

def toDatumAll : List Expr → List Datum
  | [] => []
  | e :: es => e.toDatum :: toDatumAll es

end

end Expr

def Command.toDatum (c : Command) : Datum :=
  .record "" [("quality", .text c.quality), ("op", .word c.op.title),
    ("value", c.value.toDatum)]

def Program.toDatum (p : Program) : Datum :=
  .tuple p.root.title
    (match p with
    | predicate e => [e.toDatum]
    | expression e => [e.toDatum]
    | actions commands => [.list (commands.map Command.toDatum)])

def Snippet.toDatum (s : Snippet) : Datum :=
  .record "" [("source", .text s.source), ("root", .word s.root.title),
    ("program", s.program.toDatum)]

namespace Node

mutual

def toDatum : Node → Datum
  | text s => .tuple "Text" [.text s]
  | styled style children => .tuple style.title [.list (toDatumAll children)]
  | conditional dependency children =>
    .record "Conditional"
      [("dependency", .natural dependency), ("content", .list (toDatumAll children))]
  | insert dependency => .record "Insert" [("dependency", .natural dependency)]
  | rawScript source => .tuple "RawScript" [.text source]
  | lineBreak => .word "LineBreak"
  | horizontalRule => .word "HorizontalRule"
  | sequence children => .tuple "Sequence" [.list (toDatumAll children)]

def toDatumAll : List Node → List Datum
  | [] => []
  | n :: ns => n.toDatum :: toDatumAll ns

end

end Node

def DependencyLogic.toDatum : DependencyLogic → Datum
  | structured snippet => .tuple "Structured" [snippet.toDatum]
  | rawScript source => .tuple "RawScript" [.text source]

def Dependency.toDatum (d : Dependency) : Datum :=
  .record "" [("kind", .word d.kind.title), ("logic", d.logic.toDatum),
    ("formatter",
      match d.formatter with
      | none => .word "None"
      | some name => .tuple "Some" [.text name])]

def Content.toDatum (c : Content) : Datum :=
  .record "" [("root", c.root.toDatum),
    ("dependencies", .list (c.dependencies.map Dependency.toDatum))]

end Fabula
