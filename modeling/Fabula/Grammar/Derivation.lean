import Fabula.Grammar.Chart

/-!
Derivation trees and their reduction. A tree is reduced through the actions of its productions,
children before parents and left to right, by a stack machine that runs the tree's postfix code.
-/
namespace Fabula

/-- A derivation: a token by its position, or a production by its index with a derivation for
each symbol of its right-hand side. -/
inductive Derivation where
  | leaf (position : Nat)
  | node (production : Nat) (children : List Derivation)
  deriving Repr

inductive ParseError (ν : Type) where
  /-- No derivation; `found` is the text of the token that fits no continuation, `none` at the
  end. -/
  | noParse (offset : Nat) (found : Option String)
  | ambiguous (root : ν) (offset : Nat)
  | tooLong (offset limit : Nat)
  | unknownRoot (root : ν)
  /-- An action refused its children. -/
  | action (rule : ν) (message : String)
  deriving DecidableEq, Repr

namespace ParseError

variable {ν : Type}

def message [ToString ν] : ParseError ν → String
  | noParse offset (some text) => s!"unexpected '{text}' at offset {offset}"
  | noParse offset none => s!"unexpected end of input at offset {offset}"
  | ambiguous root offset =>
    s!"input has more than one '{root}' derivation, diverging at offset {offset}"
  | tooLong offset limit => s!"input exceeds {limit} tokens at offset {offset}"
  | unknownRoot root => s!"'{root}' is not a root of this grammar"
  | action rule message => s!"rule '{rule}' rejected its children: {message}"

/-- The byte offset that an error points at, 0 when it points nowhere. -/
def offset : ParseError ν → Nat
  | noParse offset _ => offset
  | ambiguous _ offset => offset
  | tooLong offset _ => offset
  | unknownRoot _ => 0
  | action _ _ => 0

end ParseError

inductive Instruction where
  /-- Push the token at a position. -/
  | shift (position : Nat)
  /-- Replace the topmost children by the result of a production's action on them. -/
  | reduce (production arity : Nat)
  deriving DecidableEq, Repr

namespace Derivation

mutual

/-- The postfix code of a derivation, put before `rest`. -/
def code : Derivation → List Instruction → List Instruction
  | leaf position, rest => .shift position :: rest
  | node production children, rest =>
    codeAll children (.reduce production children.length :: rest)

/-- The postfix codes of derivations in order, put before `rest`. -/
def codeAll : List Derivation → List Instruction → List Instruction
  | [], rest => rest
  | d :: ds, rest => d.code (codeAll ds rest)

end

end Derivation

namespace Grammar

variable {ν τ ρ : Type} [DecidableEq ν]

def exec (g : Grammar ν τ ρ) (tokens : Array (Token τ)) :
    List Instruction → List (Child τ ρ) → Except (ParseError ν) (List (Child τ ρ))
  | [], stack => .ok stack
  | .shift position :: rest, stack =>
    match tokens[position]? with
    | some token => exec g tokens rest (.token token :: stack)
    | none => exec g tokens rest stack
  | .reduce production arity :: rest, stack =>
    match g.productions[production]? with
    | none => exec g tokens rest (stack.drop arity)
    | some p =>
      match p.action (stack.take arity).reverse with
      | .ok value => exec g tokens rest (.value value :: stack.drop arity)
      | .error message => .error (.action p.lhs message)

/-- The result of a derivation of `root`. -/
def reduce (g : Grammar ν τ ρ) (root : ν) (tokens : Array (Token τ)) (d : Derivation) :
    Except (ParseError ν) ρ :=
  match g.exec tokens (d.code []) [] with
  | .ok (.value value :: _) => .ok value
  | .ok _ => .error (.action root "reduction produced no value")
  | .error e => .error e

end Grammar

end Fabula
