import Fabula.Content.Extract
import Fabula.Logic.Evaluation

/-!
Content from its source, the resolution of its dependencies against a state, and the relinking
of their sources.
-/
namespace Fabula

namespace Content

/-- Compile marked-up text. Markers are scanned leniently, since what is no marker is text. -/
def compile (dialect : Dialect Category) (maxSteps maxDepth : Nat) (source : String)
    (collect : Bool) : Except ContentError Content := do
  let tokens ← ((Feature.table collect maxSteps).scan true source).mapError .scan
  let events ← (Event.ofTokens tokens).mapError .markup
  let tree ← (Range.ofEvents maxDepth events).mapError .markup
  let parts :=
    match tree.tidy with
    | some (.node _ children) => children
    | _ => []
  let (top, dependencies) ← Extract.nodesOf dialect 0 parts
  return ⟨Extract.rootOf collect top, dependencies⟩

end Content

/-- What relinking leaves: what was relinked, the state of the rewrite, and the error if there
is one. -/
structure Relinked (σ α : Type) where
  left : α
  state : σ
  result : Except ContentError Unit

namespace Dependency

variable {σ : Type}

def resolve (engine : Engine) (visits : Visits) (qualities : Qualities) (d : Dependency) :
    Except EvalError Value := do
  let value ←
    match d.logic, d.kind with
    | .structured snippet, .predicate => (snippet.test engine visits qualities).map Value.bool
    | .structured snippet, .insert => snippet.value engine visits qualities
    | .rawScript source, .predicate =>
      (engine.runScript d.kind source visits qualities).map fun v => .bool v.isTruthy
    | .rawScript source, .insert => engine.runScript d.kind source visits qualities
  match d.formatter with
  | some name => engine.format name value
  | none => return value

/-- Rewrite the source of a dependency; structured logic is compiled again, and is left as it is
if the new source does not compile. -/
def relink (dialect : Dialect Category) (rewrite : String → σ → String × σ) (state : σ)
    (d : Dependency) : Relinked σ Dependency :=
  match d.logic with
  | .rawScript source =>
    let rewritten := rewrite source state
    ⟨{ d with logic := .rawScript rewritten.1 }, rewritten.2, .ok ()⟩
  | .structured snippet =>
    let rewritten := rewrite snippet.source state
    match dialect.recompile snippet rewritten.1 with
    | .ok snippet => ⟨{ d with logic := .structured snippet }, rewritten.2, .ok ()⟩
    | .error e => ⟨d, rewritten.2, .error (.logic rewritten.1 e)⟩

def relinkAll (dialect : Dialect Category) (rewrite : String → σ → String × σ) :
    σ → List Dependency → Relinked σ (List Dependency)
  | state, [] => ⟨[], state, .ok ()⟩
  | state, d :: ds =>
    let first := d.relink dialect rewrite state
    match first.result with
    | .ok () =>
      let rest := relinkAll dialect rewrite first.state ds
      ⟨first.left :: rest.left, rest.state, rest.result⟩
    | .error e => ⟨first.left :: ds, first.state, .error e⟩

end Dependency

namespace Content

def resolve (engine : Engine) (visits : Visits) (qualities : Qualities) (c : Content) :
    Except EvalError (List Value) :=
  c.dependencies.mapM (Dependency.resolve engine visits qualities)

/-- Relink a copy of the dependencies, which takes their place unless one of them fails. The
rewrite may keep a state from one source to the next. -/
def relink {σ : Type} (dialect : Dialect Category) (rewrite : String → σ → String × σ)
    (state : σ) (c : Content) : Relinked σ Content :=
  let copy := Dependency.relinkAll dialect rewrite state c.dependencies
  match copy.result with
  | .ok () => ⟨{ c with dependencies := copy.left }, copy.state, .ok ()⟩
  | .error e => ⟨c, copy.state, .error e⟩

end Content

end Fabula
