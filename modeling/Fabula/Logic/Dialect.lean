import Fabula.Logic.Rules

/-!
Compiling logic: the source is scanned strictly, must not have too many tokens, is parsed from
the root's category, and must give what the root asks for.
-/
namespace Fabula

inductive CompileError (ν : Type) where
  | lex (error : ScanError)
  | parse (error : ParseError ν)
  deriving DecidableEq, Repr

namespace CompileError

variable {ν : Type}

/-- The byte offset that an error points at, 0 when it points nowhere. -/
def offset : CompileError ν → Nat
  | lex (.unrecognized offset _) => offset
  | lex (.runaway _) => 0
  | parse error => error.offset

def message [ToString ν] (e : CompileError ν) : String :=
  let offset := e.offset
  match e with
  | lex error =>
    let cause := error.message
    s!"lex error at offset {offset}: {cause}"
  | parse error =>
    let cause := error.message
    s!"parse error at offset {offset}: {cause}"

end CompileError

def defaultMaxTokens : Nat := 1024

/-- A way to compile logic: tokens, grammar, the non-terminal of each root, and the most
tokens. -/
structure Dialect (ν : Type) [DecidableEq ν] where
  table : Table LogicTag
  grammar : Grammar ν LogicTag Phrase
  start : RootKind → ν
  maxTokens : Nat := defaultMaxTokens

/-- The program that a phrase is under a root, if it is one. -/
def Program.ofPhrase? : RootKind → Phrase → Option Program
  | .predicate, .expr e => some (.predicate e)
  | .expression, .expr e => some (.expression e)
  | .actions, .commands cs => some (.actions cs)
  | _, _ => none

namespace Dialect

variable {ν : Type} [DecidableEq ν]

/-- Compile a source under a root. -/
def compile (d : Dialect ν) (source : String) (root : RootKind) :
    Except (CompileError ν) Snippet :=
  match d.table.scan false source with
  | .error e => .error (.lex e)
  | .ok tokens =>
    match tokens[d.maxTokens]? with
    | some excess => .error (.parse (.tooLong excess.start d.maxTokens))
    | none =>
      match d.grammar.parse (d.start root) tokens with
      | .error e => .error (.parse e)
      | .ok phrase =>
        match Program.ofPhrase? root phrase with
        | some program => .ok ⟨source, root, program⟩
        | none =>
          .error (.parse (.action (d.start root) ("unexpected result " ++ phrase.describe)))

def recompile (d : Dialect ν) (snippet : Snippet) (source : String) :
    Except (CompileError ν) Snippet :=
  d.compile source snippet.root

/-- The logic language with the given limits. -/
def standard (maxSteps maxTokens : Nat) : Dialect Category :=
  ⟨Lexicon.table maxSteps, Logic.grammar, Category.ofRoot, maxTokens⟩

end Dialect

end Fabula
