import Fabula.Content.Compile
import Fabula.Limits

/-!
A compiler of logic and content under given limits.
-/
namespace Fabula

structure Compiler where
  limits : Limits

/-- Limits that are set one by one. -/
structure Settings where
  maxLexIterations : Option Nat
  maxNestingDepth : Option Nat
  maxLogicTokens : Option Nat

/-- The limits with those of the settings in their place. -/
def Settings.apply (s : Settings) (l : Limits) : Limits :=
  ⟨s.maxLexIterations.getD l.maxLexIterations, s.maxNestingDepth.getD l.maxNestingDepth,
    s.maxLogicTokens.getD l.maxLogicTokens⟩

namespace Compiler

/-- The logic language under the compiler's limits. -/
def dialect (c : Compiler) : Dialect Category :=
  .standard c.limits.maxLexIterations c.limits.maxLogicTokens

def compileLogic (c : Compiler) (source : String) (root : RootKind) :
    Except (CompileError Category) Snippet :=
  c.dialect.compile source root

def recompile (c : Compiler) (snippet : Snippet) (source : String) :
    Except (CompileError Category) Snippet :=
  c.dialect.recompile snippet source

def compileContent (c : Compiler) (source : String) (collect : Bool) :
    Except ContentError Content :=
  Content.compile c.dialect c.limits.maxLexIterations c.limits.maxNestingDepth source collect

def relink {σ : Type} (c : Compiler) (rewrite : String → σ → String × σ) (state : σ)
    (content : Content) : Relinked σ Content :=
  content.relink c.dialect rewrite state

end Compiler

end Fabula
