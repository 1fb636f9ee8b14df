import Mathlib
import Fabula.Logic.Dialect
import Fabula.Proofs.Scan.Collapsing
import Fabula.Proofs.Grammar.Displacement
import Fabula.Proofs.Logic.Lexing
import Fabula.Proofs.Logic.Renaming

namespace Fabula

mutual

theorem Expr.rename_id : (e : Expr) → e.rename id = e
  | .number _ => rfl
  | .bool _ => rfl
  | .quality _ => rfl
  | .visits _ => rfl
  | .binary _ lhs rhs => by rw [rename, rename_id lhs, rename_id rhs]
  | .not e => by rw [rename, rename_id e]
  | .negate e => by rw [rename, rename_id e]
  | .call _ args => by rw [rename, renameAll_id args, id]

theorem Expr.renameAll_id : (es : List Expr) → renameAll id es = es
  | [] => rfl
  | e :: es => by rw [renameAll, rename_id e, renameAll_id es]

end

theorem Phrase.rename_id : Phrase.rename id = id := by
  have hexpr : Expr.rename id = id := funext Expr.rename_id
  have hcommand : Command.rename id = id := by
    funext c
    rw [Command.rename, hexpr]
    rfl
  funext v
  cases v <;> simp [rename, hexpr, hcommand]

namespace Logic

theorem recast_id : recast id (fun _ => 0) = Recasting.unplaced LogicTag Phrase := by
  apply Recasting.ext
  · funext t
    have htoken : t.rename id = t := by simp [Token.rename]
    exact congrArg (Token.moved fun _ => 0) htoken
  · exact Phrase.rename_id

theorem productions_placeless :
    ∀ q ∈ grammar.productions, (Recasting.unplaced LogicTag Phrase).Respects q := by
  rw [← recast_id]
  exact productions_respected

end Logic

/-- The error without its offset. -/
def CompileError.unplaced {ν : Type} : CompileError ν → CompileError ν
  | lex e => lex e.unplaced
  | parse e => parse e.unplaced

namespace Dialect

variable {ν : Type} [DecidableEq ν] {d : Dialect ν} {root : RootKind} {source source' : String}

def Accepts (d : Dialect ν) (root : RootKind) : Prop :=
  ∀ source tokens, d.table.scan false source = .ok tokens →
    ∀ rule message, d.grammar.parse (d.start root) tokens ≠ .error (.action rule message)

theorem compile_of_tokens {tokens tokens' : List (Token LogicTag)}
    (hg : ∀ q ∈ d.grammar.productions, (Recasting.unplaced LogicTag Phrase).Respects q)
    (hd : d.Accepts root) (h : d.table.scan false source = .ok tokens)
    (h' : d.table.scan false source' = .ok tokens')
    (hsame : tokens'.map Token.unplaced = tokens.map Token.unplaced) :
    ((d.compile source' root).map Snippet.program).mapError CompileError.unplaced =
      ((d.compile source root).map Snippet.program).mapError CompileError.unplaced := by
  have hexcess :
      tokens'[d.maxTokens]?.map Token.unplaced = tokens[d.maxTokens]?.map Token.unplaced := by
    rw [← List.getElem?_map, hsame, List.getElem?_map]
  have hparse := Grammar.parse_congr_unplaced hg (hd _ _ h') (hd _ _ h) hsame
  simp only [compile, h, h']
  cases ht : tokens[d.maxTokens]? with
  | some t =>
    rw [ht] at hexcess
    obtain ⟨t', ht', -⟩ := Option.map_eq_some_iff.mp hexcess
    rw [ht']
    rfl
  | none =>
    rw [ht, Option.map_none, Option.map_eq_none_iff] at hexcess
    rw [hexcess]
    cases hp : d.grammar.parse (d.start root) tokens with
    | error e =>
      cases hp' : d.grammar.parse (d.start root) tokens' with
      | error e' =>
        rw [hp, hp'] at hparse
        exact congrArg (Except.error ∘ CompileError.parse) (Except.error.inj hparse)
      | ok phrase =>
        rw [hp, hp'] at hparse
        cases hparse
    | ok phrase =>
      rw [hp] at hparse
      rw [eq_ok_of_mapError hparse]
      dsimp only
      cases Program.ofPhrase? root phrase with
      | none => rfl
      | some program => rfl

theorem compile_collapse_of_spaced (hspaced : Table.Spaced d.table.rules)
    (hg : ∀ q ∈ d.grammar.productions, (Recasting.unplaced LogicTag Phrase).Respects q)
    (hd : d.Accepts root) (source : String) :
    ((d.compile (Text.collapse source) root).map Snippet.program).mapError
        CompileError.unplaced =
      ((d.compile source root).map Snippet.program).mapError CompileError.unplaced := by
  have hscan := Table.scan_collapse hspaced source
  cases h : d.table.scan false source with
  | error e =>
    cases h' : d.table.scan false (Text.collapse source) with
    | error e' =>
      rw [h, h'] at hscan
      simp only [compile, h, h']
      exact congrArg (Except.error ∘ CompileError.lex) (Except.error.inj hscan)
    | ok tokens' =>
      rw [h, h'] at hscan
      cases hscan
  | ok tokens =>
    rw [h] at hscan
    obtain ⟨tokens', h', hsame⟩ := map_eq_ok_iff.mp (eq_ok_of_mapError hscan)
    exact compile_of_tokens hg hd h h' hsame

theorem standard_accepts (maxSteps maxTokens : Nat) (root : RootKind) :
    (standard maxSteps maxTokens).Accepts root := by
  intro source tokens hscan rule message haction
  have hapt : ∀ t ∈ tokens, t.Apt := fun t ht => Lexicon.apt_of_scan hscan ht
  rcases Logic.parse_sorted hapt (ofRoot_mem root) with ⟨v, hv, -⟩ | ⟨offset, found, hnone⟩
  · cases hv.symm.trans haction
  · cases hnone.symm.trans haction

/-- Collapsing the blank runs of a piece of logic changes nothing that is made of it, whatever
the limits: it compiles to the same program, or fails in both forms with the same error, whose
offset alone may differ. -/
theorem compile_collapse (maxSteps maxTokens : Nat) (source : String) (root : RootKind) :
    (((standard maxSteps maxTokens).compile (Text.collapse source) root).map
          Snippet.program).mapError CompileError.unplaced =
      (((standard maxSteps maxTokens).compile source root).map Snippet.program).mapError
        CompileError.unplaced :=
  compile_collapse_of_spaced Lexicon.spaced Logic.productions_placeless
    (standard_accepts maxSteps maxTokens root) source

end Dialect

end Fabula
