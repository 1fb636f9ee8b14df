import Fabula.Datum.Reader
import Fabula.Logic.Dialect

/-!
The limits of a compiler: how many steps a scan may take, how deep markup may nest, and how many
tokens a piece of logic may have. They are stored as a record whose missing fields have their
usual values.
-/
namespace Fabula

structure Limits where
  maxLexIterations : Nat := defaultMaxSteps
  maxNestingDepth : Nat := 64
  maxLogicTokens : Nat := defaultMaxTokens
  deriving DecidableEq, Repr

namespace Limits

def standard : Limits := {}

def toDatum (l : Limits) : Datum :=
  .record "" [("max_lex_iterations", .natural l.maxLexIterations),
    ("max_nesting_depth", .natural l.maxNestingDepth),
    ("max_logic_tokens", .natural l.maxLogicTokens)]

/-- The value of a limit in a record: the usual one when the field is missing; `none` when it is
there twice or holds no natural number. -/
def field? (fields : List (String × Datum)) (key : String) (usual : Nat) : Option Nat :=
  match fields.filter (·.1 == key) with
  | [] => some usual
  | [(_, .natural n)] => some n
  | _ => none

/-- The limits of a record, which may have a name of its own; fields that are no limits are
passed over. -/
def ofDatum? : Datum → Option Limits
  | .record name fields => do
    if name = "" ∨ name = "CompilerConfig" then
      let steps ← field? fields "max_lex_iterations" standard.maxLexIterations
      let depth ← field? fields "max_nesting_depth" standard.maxNestingDepth
      let tokens ← field? fields "max_logic_tokens" standard.maxLogicTokens
      return ⟨steps, depth, tokens⟩
    else none
  | _ => none

/-- The limits stored in a text. -/
def read? (s : String) : Option Limits := (Datum.read? s).bind ofDatum?

end Limits

end Fabula
