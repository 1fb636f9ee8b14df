import Fabula.Proofs.Grammar.Reading
import Fabula.Proofs.Grammar.Recognition

namespace Fabula

variable {ν τ ρ : Type}

/-- The tokens that are read and the results that each non-terminal may have. -/
structure Sorting (ν τ ρ : Type) where
  token : Token τ → Prop
  value : ν → ρ → Prop

namespace Sorting

inductive Suits (S : Sorting ν τ ρ) : Symbol ν τ → Child τ ρ → Prop where
  | token {t : Token τ} {tag : τ} (tagged : t.tag = some tag) (sort : S.token t) :
      Suits S (.terminal tag) (.token t)
  | value {name : ν} {v : ρ} (sort : S.value name v) : Suits S (.nonterminal name) (.value v)

/-- The action of the production takes children of the right sorts to a result of the right
sort. -/
def Admits (S : Sorting ν τ ρ) (q : Production ν τ ρ) : Prop :=
  ∀ given, List.Forall₂ S.Suits q.rhs given → ∃ v, q.action given = .ok v ∧ S.value q.lhs v

variable {S : Sorting ν τ ρ} {symbols : List (Symbol ν τ)} {given : List (Child τ ρ)}

theorem suits_terminal {tag : τ} (h : List.Forall₂ S.Suits (.terminal tag :: symbols) given) :
    ∃ t rest, given = .token t :: rest ∧ t.tag = some tag ∧ S.token t ∧
      List.Forall₂ S.Suits symbols rest := by
  cases h with
  | cons first later =>
    cases first with
    | token tagged sort => exact ⟨_, _, rfl, tagged, sort, later⟩

theorem suits_nonterminal {name : ν}
    (h : List.Forall₂ S.Suits (.nonterminal name :: symbols) given) :
    ∃ v rest, given = .value v :: rest ∧ S.value name v ∧
      List.Forall₂ S.Suits symbols rest := by
  cases h with
  | cons first later =>
    cases first with
    | value sort => exact ⟨_, _, rfl, sort, later⟩

end Sorting

variable [DecidableEq ν] {S : Sorting ν τ ρ} {g : Grammar ν τ ρ}

theorem Derives.evaluateAll_suits {tokens : Array (Token τ)} {symbols : List (Symbol ν τ)}
    {trees : List Derivation} {i k : Nat} (hg : ∀ q ∈ g.productions, S.Admits q)
    (ht : ∀ t ∈ tokens, S.token t) (h : Derives g tokens symbols trees i k) :
    ∃ given, Derivation.evaluateAll g tokens trees = .ok given ∧
      List.Forall₂ S.Suits symbols given := by
  induction h with
  | nil => exact ⟨[], rfl, .nil⟩
  | token matched rest ih =>
    obtain ⟨given, hgiven, hsuits⟩ := ih
    obtain ⟨t, hget, htag⟩ := exists_token matched
    exact ⟨_, Derivation.evaluateAll_cons (Derivation.evaluate_leaf hget) hgiven,
      .cons (.token htag (ht t (Array.mem_of_getElem? hget))) hsuits⟩
  | rule produced inner rest ihInner ihRest =>
    obtain ⟨children, hchildren, hinner⟩ := ihInner
    obtain ⟨given, hgiven, hsuits⟩ := ihRest
    obtain ⟨q, hq, rfl⟩ := Grammar.lhs?_eq_some_iff.mp produced
    rw [Grammar.rhs_eq hq] at hinner
    obtain ⟨v, hv, hsort⟩ := hg q (Array.mem_of_getElem? hq) children hinner
    exact ⟨_, Derivation.evaluateAll_cons (Derivation.evaluate_node hq hchildren hv) hgiven,
      .cons (.value hsort) hsuits⟩

namespace Grammar

variable [DecidableEq τ] {root : ν} {tokens : List (Token τ)}

theorem parse_suits (hg : ∀ q ∈ g.productions, S.Admits q) (ht : ∀ t ∈ tokens, S.token t)
    (hr : root ∈ g.roots) :
    (∃ v, g.parse root tokens = .ok v ∧ S.value root v) ∨
      (∃ offset found, g.parse root tokens = .error (.noParse offset found)) ∨
      ∃ offset, g.parse root tokens = .error (.ambiguous root offset) := by
  rcases parse_cases hr tokens with ⟨-, hp⟩ | ⟨d, hd, hp⟩ | ⟨d, d', rest, offset, -, hp⟩
  · exact .inr (.inl hp)
  · have hmem : Derives g tokens.toArray [.nonterminal root] [d] 0 tokens.length :=
      mem_derivations_of_sampled (by simp [hd])
    obtain ⟨given, hgiven, hsuits⟩ := hmem.evaluateAll_suits hg (by simpa using ht)
    obtain ⟨child, rfl⟩ := List.length_eq_one_iff.mp hsuits.length_eq.symm
    obtain ⟨v, hv, heq⟩ := map_eq_ok_iff.mp
      (hmem.reduce_eq_evaluate.trans (Derivation.evaluate_of_evaluateAll hgiven))
    cases heq
    cases hsuits with
    | cons hsort _ =>
      cases hsort with
      | value hsort => exact .inl ⟨v, hp.trans hv, hsort⟩
  · exact .inr (.inr ⟨offset, hp⟩)

end Grammar

end Fabula
