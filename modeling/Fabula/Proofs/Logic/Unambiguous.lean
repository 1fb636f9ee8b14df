import Fabula.Logic.Dialect
import Fabula.Proofs.Grammar.Decision
import Fabula.Proofs.Grammar.Unambiguous

namespace Fabula

namespace Logic

/-- The ranks of operators, from product to the list of commands. -/
def rank : LogicTag → Nat
  | .times | .divide | .modulo => 1
  | .plus | .minus => 2
  | .equals | .notEquals | .less | .lessEquals | .greater | .greaterEquals => 3
  | .and => 4
  | .or => 5
  | .comma => 6
  | .semicolon => 7
  | _ => 0

def isArithmetic : LogicTag → Bool
  | .plus | .minus | .times | .divide | .modulo | .number | .identifier | .visit
  | .openParen | .closeParen | .comma => true
  | _ => false

def atomFirst : List LogicTag := [.number, .identifier, .visit, .openParen]

def atomLast : List LogicTag := [.number, .identifier, .visit, .closeParen]

/-- The tokens that can end an operand. -/
def operandLast : List LogicTag := .true :: .false :: atomLast

/-- What arithmetic looks like: of arithmetic tokens only, with operators of a rank up to
`top`. -/
def arithmetic (first : List LogicTag) (top : Nat) : Outline LogicTag :=
  ⟨first, atomLast, top, 0, true, false⟩

def boolean (first : List LogicTag) (top : Nat) (foreign : Bool) : Outline LogicTag :=
  ⟨first ++ [.true, .false, .minus] ++ atomFirst, operandLast, top, 0, false, foreign⟩

def layers : Layers Category LogicTag where
  shift
    | .openParen => 1
    | .closeParen => -1
    | _ => 0
  ends := operandLast.contains
  rank := rank
  plain := isArithmetic
  outline
    | .atom => arithmetic atomFirst 0
    | .signed => arithmetic (.minus :: atomFirst) 0
    | .product => arithmetic (.minus :: atomFirst) 1
    | .sum => arithmetic (.minus :: atomFirst) 2
    | .expression => arithmetic (.minus :: atomFirst) 2
    | .arguments => arithmetic (.minus :: atomFirst) 6
    | .comparison => ⟨.minus :: atomFirst, atomLast, 3, 3, false, true⟩
    | .condition => boolean [] 3 false
    | .negation => boolean [.not] 3 false
    | .conjunction => boolean [.not] 4 false
    | .disjunction => boolean [.not] 5 false
    | .predicate => boolean [.not] 5 false
    | .strict => boolean [.not] 5 true
    | .command => ⟨[.identifier], atomLast, 3, 0, false, true⟩
    | .commands => ⟨[.identifier], atomLast, 7, 0, false, true⟩
    | .actions => ⟨[.identifier], .semicolon :: atomLast, 7, 0, false, true⟩

theorem layers_separates : layers.Separates grammar := by
  decide +kernel

/-- The nesting of the categories: where a production has a single category, that one is
lower. -/
def height : Category → Nat
  | .atom => 0
  | .signed => 1
  | .product => 2
  | .sum => 3
  | .comparison | .expression | .arguments | .command => 4
  | .condition | .strict | .commands => 5
  | .negation | .actions => 6
  | .conjunction => 7
  | .disjunction => 8
  | .predicate => 9

theorem grammar_descends : grammar.Descends height := by
  decide +kernel

end Logic

namespace Dialect

/-- The logic language is unambiguous: compiling never reports an ambiguity, whatever the
limits, and no token list has two derivations from a root. -/
theorem standard_unambiguous :
    (∀ maxSteps maxTokens source root name offset,
        (standard maxSteps maxTokens).compile source root ≠
          .error (.parse (.ambiguous name offset))) ∧
      ∀ root tokens,
        (Logic.grammar.derivations (Category.ofRoot root) tokens).Subsingleton := by
  refine ⟨?_, fun root tokens => Logic.layers_separates.derivations_subsingleton _ tokens⟩
  intro maxSteps maxTokens source root name offset h
  unfold compile at h
  split at h
  · cases h
  · rename_i tokens htokens
    split at h
    · cases h
    · split at h
      · rename_i e he
        cases h
        exact Grammar.parse_ne_ambiguous Logic.grammar_descends.acyclic
          (Logic.layers_separates.derivations_subsingleton _ tokens) name offset he
      · split at h <;> cases h

end Dialect

end Fabula
