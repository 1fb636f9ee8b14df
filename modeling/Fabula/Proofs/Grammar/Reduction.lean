import Fabula.Proofs.Grammar.Trees
import Fabula.Proofs.Outcome

namespace Fabula

variable {ν τ ρ : Type} [DecidableEq ν]

namespace Derivation

mutual

/-- What a tree gives to the production above it: its token, or the result of its own production
on what its children give. The first production from the left, children before parents, that
refuses its children ends it. There is nothing to give for a token or production that does not
exist. -/
def evaluate (g : Grammar ν τ ρ) (tokens : Array (Token τ)) :
    Derivation → Except (ParseError ν) (Option (Child τ ρ))
  | leaf position => .ok (tokens[position]?.map .token)
  | node production children => do
    let given ← evaluateAll g tokens children
    match g.productions[production]? with
    | none => .ok none
    | some p =>
      match p.action given with
      | .ok value => .ok (some (.value value))
      | .error message => .error (.action p.lhs message)

def evaluateAll (g : Grammar ν τ ρ) (tokens : Array (Token τ)) :
    List Derivation → Except (ParseError ν) (List (Child τ ρ))
  | [] => .ok []
  | d :: ds => do
    let first ← evaluate g tokens d
    let rest ← evaluateAll g tokens ds
    return first.toList ++ rest

end

end Derivation

namespace Grammar

variable {g : Grammar ν τ ρ} {tokens : Array (Token τ)}

theorem lhs?_eq_some_iff {p : Nat} {name : ν} :
    g.lhs? p = some name ↔ ∃ q, g.productions[p]? = some q ∧ q.lhs = name := by
  rw [lhs?, Option.map_eq_some_iff]

theorem rhs_eq {p : Nat} {q : Production ν τ ρ} (h : g.productions[p]? = some q) :
    g.rhs p = q.rhs := by
  rw [rhs, h]

end Grammar

namespace Derives

open Fabula.Derivation

variable {g : Grammar ν τ ρ} {tokens : Array (Token τ)} {symbols : List (Symbol ν τ)}
  {trees : List Derivation} {given : List (Child τ ρ)} {i k : Nat}

theorem exists_token {tag : τ} (h : tokens[i]?.bind (·.tag) = some tag) :
    ∃ t, tokens[i]? = some t ∧ t.tag = some tag :=
  Option.bind_eq_some_iff.mp h

theorem evaluateAll_length (h : Derives g tokens symbols trees i k)
    (hg : evaluateAll g tokens trees = .ok given) : given.length = trees.length := by
  induction h generalizing given with
  | nil =>
    cases hg
    rfl
  | token matched rest ih =>
    obtain ⟨t, ht, -⟩ := exists_token matched
    rw [evaluateAll, evaluate, ht] at hg
    obtain ⟨first, hf, hg⟩ := bind_eq_ok_iff.mp hg
    obtain ⟨later, hl, hg⟩ := bind_eq_ok_iff.mp hg
    cases hf
    cases hg
    simp [ih hl]
  | rule produced inner rest ihInner ihRest =>
    obtain ⟨q, hq, -⟩ := Grammar.lhs?_eq_some_iff.mp produced
    rw [evaluateAll, evaluate, hq] at hg
    obtain ⟨first, hf, hg⟩ := bind_eq_ok_iff.mp hg
    obtain ⟨values, -, hf⟩ := bind_eq_ok_iff.mp hf
    obtain ⟨later, hl, hg⟩ := bind_eq_ok_iff.mp hg
    cases ha : q.action values with
    | error message => simp [ha] at hf
    | ok value =>
      simp only [ha] at hf
      cases hf
      cases hg
      simp [ihRest hl]

theorem exec_codeAll (h : Derives g tokens symbols trees i k) (code : List Instruction)
    (stack : List (Child τ ρ)) :
    g.exec tokens (codeAll trees code) stack =
      evaluateAll g tokens trees >>=
        fun given => g.exec tokens code (given.reverse ++ stack) := by
  -- What follows in the code and what lies on the stack stay open, since each tree changes
  -- both.
  induction h generalizing code stack with
  | nil => rfl
  | @token tag symbols trees i k matched rest ih =>
    obtain ⟨t, ht, -⟩ := exists_token matched
    simp only [codeAll, Derivation.code, Grammar.exec, ht, ih, evaluateAll, evaluate]
    cases evaluateAll g tokens trees with
    | error e => rfl
    | ok later => simp [bind, Except.bind, pure, Except.pure]
  | @rule p name symbols children trees i j k produced inner rest ihInner ihRest =>
    obtain ⟨q, hq, -⟩ := Grammar.lhs?_eq_some_iff.mp produced
    simp only [codeAll, Derivation.code, ihInner, evaluateAll, evaluate, hq]
    cases hc : evaluateAll g tokens children with
    | error e => rfl
    | ok values =>
      have hl : values.reverse.length = children.length := by
        rw [List.length_reverse, inner.evaluateAll_length hc]
      simp only [bind, Except.bind, Grammar.exec, hq, List.take_left' hl, List.drop_left' hl,
        List.reverse_reverse]
      cases q.action values with
      | error message => rfl
      | ok value =>
        simp only [ihRest, bind, Except.bind]
        cases evaluateAll g tokens trees with
        | error e => rfl
        | ok later => simp [pure, Except.pure]

/-- Reducing the tree of a non-terminal is evaluating it, and it always gives a result or a
refusal. -/
theorem reduce_eq_evaluate {name root : ν} {d : Derivation}
    (h : Derives g tokens [.nonterminal name] [d] i k) :
    (g.reduce root tokens d).map (fun value => some (Child.value value)) =
      d.evaluate g tokens := by
  have he := h.exec_codeAll [] []
  obtain ⟨p, children, rfl, produced, inner⟩ := rule_iff.mp h
  obtain ⟨q, hq, -⟩ := Grammar.lhs?_eq_some_iff.mp produced
  simp only [codeAll, evaluateAll, evaluate, hq, bind, Except.bind] at he
  simp only [Grammar.reduce, he, evaluate, hq, bind, Except.bind]
  cases evaluateAll g tokens children with
  | error e => rfl
  | ok values =>
    cases hv : q.action values with
    | error message => simp only [hv, Except.map]
    | ok value => simp [hv, Except.map, pure, Except.pure, Grammar.exec]

end Derives

end Fabula
