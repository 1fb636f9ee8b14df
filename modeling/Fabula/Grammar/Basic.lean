import Fabula.Scan

/-!
Context-free grammars over tagged tokens. Each production carries an action that builds a result
from the results of its right-hand side. A grammar holds only rule sets that pass three checks:
every root has a production, every non-terminal on a right-hand side has one, and every
production is reached from a root.
-/
namespace Fabula

/-- A symbol of a right-hand side: a tag that one token must have, or a non-terminal. -/
inductive Symbol (ν τ : Type) where
  | terminal (tag : τ)
  | nonterminal (name : ν)
  deriving DecidableEq, Repr

/-- What an action is given for one symbol: the token, or the result of the non-terminal. -/
inductive Child (τ ρ : Type) where
  | token (token : Token τ)
  | value (value : ρ)

structure Production (ν τ ρ : Type) where
  lhs : ν
  rhs : List (Symbol ν τ)
  action : List (Child τ ρ) → Except String ρ

inductive GrammarError (ν : Type) where
  | missingRoot (root : ν)
  | undefinedNonterminal (rule symbol : ν)
  | unreachableRule (rule : ν)
  deriving DecidableEq, Repr

def GrammarError.message {ν : Type} [ToString ν] : GrammarError ν → String
  | missingRoot root => s!"no rule produces root '{root}'"
  | undefinedNonterminal rule symbol =>
    s!"rule '{rule}' references undefined non-terminal '{symbol}'"
  | unreachableRule rule => s!"rule '{rule}' is not reachable from any root"

namespace Production

variable {ν τ ρ : Type} [DecidableEq ν]

def mentions (p : Production ν τ ρ) : List ν :=
  p.rhs.filterMap fun
    | .terminal _ => none
    | .nonterminal name => some name

def defined (ps : List (Production ν τ ρ)) (name : ν) : Bool :=
  ps.any (·.lhs == name)

/-- The first mention of a non-terminal without production: the rule it is in, and its name. -/
def undefined? (ps : List (Production ν τ ρ)) : Option (ν × ν) :=
  ps.findSome? fun p => (p.mentions.find? (!defined ps ·)).map (p.lhs, ·)

def newlyReached (ps : List (Production ν τ ρ)) (reached : List ν) : List ν :=
  ((ps.filter (reached.contains ·.lhs)).flatMap mentions).filter (!reached.contains ·)

/-- The names reached from `reached` in at most `n` rounds. -/
def reachedIn (ps : List (Production ν τ ρ)) : Nat → List ν → List ν
  | 0, reached => reached
  | n + 1, reached =>
    match newlyReached ps reached with
    | [] => reached
    | new => reachedIn ps n (reached ++ new.eraseDups)

/-- The first production that no root reaches. Every round but the last reaches a further
left-hand side, so there are no more rounds than productions. -/
def unreached? (roots : List ν) (ps : List (Production ν τ ρ)) : Option ν :=
  let reached := reachedIn ps ps.length roots
  (ps.find? (!reached.contains ·.lhs)).map (·.lhs)

def fault? (roots : List ν) (ps : List (Production ν τ ρ)) : Option (GrammarError ν) :=
  match roots.find? (!defined ps ·) with
  | some root => some (.missingRoot root)
  | none =>
    match undefined? ps with
    | some (rule, symbol) => some (.undefinedNonterminal rule symbol)
    | none => (unreached? roots ps).map .unreachableRule

end Production

/-- A rule set without fault. -/
structure Grammar (ν τ ρ : Type) [DecidableEq ν] where
  roots : List ν
  productions : Array (Production ν τ ρ)
  faultless : Production.fault? roots productions.toList = none

namespace Grammar

variable {ν τ ρ : Type} [DecidableEq ν]

/-- The grammar of a rule set, or the first fault of the set. -/
def ofRules (roots : List ν) (rules : List (Production ν τ ρ)) :
    Except (GrammarError ν) (Grammar ν τ ρ) :=
  match h : Production.fault? roots rules with
  | none => .ok ⟨roots, rules.toArray, h⟩
  | some e => .error e

/-- The left-hand side of a production, by its index. -/
def lhs? (g : Grammar ν τ ρ) (production : Nat) : Option ν :=
  g.productions[production]?.map (·.lhs)

/-- The right-hand side of a production, by its index. -/
def rhs (g : Grammar ν τ ρ) (production : Nat) : List (Symbol ν τ) :=
  match g.productions[production]? with
  | some p => p.rhs
  | none => []

/-- The indices of the productions of a non-terminal, in order. -/
def producing (g : Grammar ν τ ρ) (name : ν) : List Nat :=
  (List.range g.productions.size).filter (g.lhs? · == some name)

def dottedCount (g : Grammar ν τ ρ) : Nat :=
  g.productions.toList.foldr (fun p n => p.rhs.length + 1 + n) 0

end Grammar

end Fabula
