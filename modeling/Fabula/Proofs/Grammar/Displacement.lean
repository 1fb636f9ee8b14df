import Mathlib
import Fabula.Proofs.Grammar.Recasting

namespace Fabula

variable {ν τ ρ : Type}

/-- The token without its offset. -/
def Token.unplaced (t : Token τ) : Token τ := { t with start := 0 }

def ScanError.unplaced : ScanError → ScanError
  | unrecognized _ text => unrecognized 0 text
  | runaway limit => runaway limit

def ParseError.unplaced : ParseError ν → ParseError ν
  | noParse _ found => noParse 0 found
  | ambiguous root _ => ambiguous root 0
  | tooLong _ limit => tooLong 0 limit
  | unknownRoot root => unknownRoot root
  | action rule message => action rule message

/-- Tokens lose their offsets, and results stay as they are. -/
def Recasting.unplaced (τ ρ : Type) : Recasting τ ρ := ⟨Token.unplaced, id, fun _ => rfl⟩

namespace Grammar

variable [DecidableEq ν] {g : Grammar ν τ ρ} {root : ν}

omit [DecidableEq ν] in
theorem unplaced_noParse (chart : Chart) (tokens : Array (Token τ)) :
    (chart.noParse (tokens.map Token.unplaced)).unplaced =
      (chart.noParse tokens : ParseError ν).unplaced := by
  rw [Chart.noParse, Chart.noParse, Array.getElem?_map]
  cases tokens[chart.furthest]? with
  | none => rfl
  | some t => rfl

variable [DecidableEq τ]

theorem parse_map_unplaced (hg : ∀ q ∈ g.productions, (Recasting.unplaced τ ρ).Respects q)
    {tokens : List (Token τ)}
    (h : ∀ rule message, g.parse root tokens ≠ .error (.action rule message)) :
    (g.parse root (tokens.map Token.unplaced)).mapError ParseError.unplaced =
      (g.parse root tokens).mapError ParseError.unplaced := by
  have hparallel : Parallel (fun v v' => v' = v) (g.parse root tokens)
      (g.parse root (tokens.map Token.unplaced)) := Recasting.parse hg root tokens
  have htokens : (tokens.map Token.unplaced).toArray = tokens.toArray.map Token.unplaced := by
    simp
  have hsize : (tokens.toArray.map Token.unplaced).size = tokens.toArray.size := by simp
  have hchart : Chart.ofTokens g root (tokens.toArray.map Token.unplaced) =
      Chart.ofTokens g root tokens.toArray := by
    apply Chart.ofTokens_congr hsize
    intro i
    rw [Array.getElem?_map, Option.bind_map]
    rfl
  unfold parse at h hparallel ⊢
  split
  · rename_i hr
    rw [if_pos hr] at h hparallel
    rw [if_pos hr] at hparallel
    simp only [htokens, hchart, hsize] at h hparallel ⊢
    split
    · exact congrArg Except.error (unplaced_noParse _ _)
    · rename_i tree forest hd
      rw [hd] at h hparallel
      dsimp only at h hparallel
      generalize g.reduce root (tokens.toArray.map Token.unplaced) tree = x' at hparallel ⊢
      cases hx : g.reduce root tokens.toArray tree with
      | ok v =>
        rw [hx] at hparallel
        cases hparallel with
        | ok related => rw [related]
      | error e =>
        obtain ⟨rule, message, rfl⟩ := reduce_error hx
        exact absurd hx (h rule message)
    · rfl
  · rfl

theorem parse_congr_unplaced (hg : ∀ q ∈ g.productions, (Recasting.unplaced τ ρ).Respects q)
    {tokens tokens' : List (Token τ)}
    (h : ∀ rule message, g.parse root tokens ≠ .error (.action rule message))
    (h' : ∀ rule message, g.parse root tokens' ≠ .error (.action rule message))
    (hsame : tokens.map Token.unplaced = tokens'.map Token.unplaced) :
    (g.parse root tokens).mapError ParseError.unplaced =
      (g.parse root tokens').mapError ParseError.unplaced := by
  rw [← parse_map_unplaced hg h, hsame, parse_map_unplaced hg h']

end Grammar

end Fabula
