import Fabula.Grammar.Forest

/-!
Parsing: a token list has a result under a root when it has exactly one derivation, and the
result is that of reducing it.
-/
namespace Fabula

/-- The offset of a column: the start of its token, or the end of the last token. -/
def Token.offsetAt {τ : Type} (tokens : Array (Token τ)) (column : Nat) : Nat :=
  match tokens[column]? with
  | some token => token.start
  | none => (tokens.back?.map Token.stop).getD 0

namespace Chart

variable {ν τ ρ : Type} [DecidableEq ν]

def finals (chart : Chart) (g : Grammar ν τ ρ) (root : ν) (stop : Nat) : List Address :=
  let column := chart.column stop
  (column.select (fun i => i.origin == 0 && i.completes g root) column.size []).map
    fun (index, _) => ⟨stop, index⟩

def furthest (chart : Chart) : Nat :=
  (List.range chart.columns.size).foldl
    (fun last c => if (chart.column c).isEmpty then last else c) 0

/-- The error of a chart without derivation. -/
def noParse (chart : Chart) (tokens : Array (Token τ)) : ParseError ν :=
  let column := chart.furthest
  .noParse (Token.offsetAt tokens column) (tokens[column]?.map (·.text))

end Chart

namespace Grammar

variable {ν τ ρ : Type} [DecidableEq ν] [DecidableEq τ]

/-- The result of the only derivation of the tokens from the root. -/
def parse (g : Grammar ν τ ρ) (root : ν) (tokens : List (Token τ)) : Except (ParseError ν) ρ :=
  if root ∈ g.roots then
    let tokens := tokens.toArray
    let chart := Chart.ofTokens g root tokens
    match Forest.derivations chart (chart.finals g root tokens.size) [] (.ofChart chart) with
    | ([], _) => .error (chart.noParse tokens)
    | ([tree], _) => g.reduce root tokens tree
    | (_, forest) =>
      .error (.ambiguous root (Token.offsetAt tokens (forest.ambiguousAt.getD 0)))
  else .error (.unknownRoot root)

end Grammar

end Fabula
