import Fabula.Proofs.Grammar.Sorting

namespace Fabula

variable {ν τ ρ : Type} [DecidableEq ν] [DecidableEq τ] {g : Grammar ν τ ρ} {root : ν}

namespace Chart

variable {tokens tokens' : Array (Token τ)}

theorem treat_congr (h : ∀ i : Nat, tokens[i]?.bind (·.tag) = tokens'[i]?.bind (·.tag))
    (chart : Chart) (here : Address) :
    treat g tokens chart here = treat g tokens' chart here := by
  unfold treat advanceOver
  rw [h]

theorem closeFrom_congr (h : ∀ i : Nat, tokens[i]?.bind (·.tag) = tokens'[i]?.bind (·.tag))
    (c n i : Nat) (chart : Chart) :
    closeFrom g tokens c n i chart = closeFrom g tokens' c n i chart := by
  induction n generalizing i chart with
  | zero => rfl
  | succ n ih => simp only [closeFrom, treat_congr h, ih]

theorem ofTokens_congr (hsize : tokens.size = tokens'.size)
    (h : ∀ i : Nat, tokens[i]?.bind (·.tag) = tokens'[i]?.bind (·.tag)) :
    ofTokens g root tokens = ofTokens g root tokens' := by
  have hclose : close g tokens = close g tokens' := by
    funext chart c
    exact closeFrom_congr h c _ 0 chart
  rw [ofTokens, ofTokens, hclose, hsize]

end Chart

/-- A change of tokens that keeps their tags, and the change of results that goes with it. -/
@[ext]
structure Recasting (τ ρ : Type) where
  token : Token τ → Token τ
  value : ρ → ρ
  tag_token : ∀ t, (token t).tag = t.tag

def Sorting.any (ν τ ρ : Type) : Sorting ν τ ρ := ⟨fun _ => True, fun _ _ => True⟩

namespace Recasting

variable (R : Recasting τ ρ)

def child : Child τ ρ → Child τ ρ
  | .token t => .token (R.token t)
  | .value v => .value (R.value v)

def Respects (q : Production ν τ ρ) : Prop :=
  ∀ given, List.Forall₂ (Sorting.any ν τ ρ).Suits q.rhs given →
    Parallel (fun v v' => v' = R.value v) (q.action given) (q.action (given.map R.child))

/-- The children are of the kinds that the symbols call for, and the others are the same ones
changed. -/
structure Turns (symbols : List (Symbol ν τ)) (given given' : List (Child τ ρ)) : Prop where
  suits : List.Forall₂ (Sorting.any ν τ ρ).Suits symbols given
  eq_map : given' = given.map R.child

variable {R} {tokens : Array (Token τ)} {p : Nat} {q : Production ν τ ρ}
  {children : List Derivation}

omit [DecidableEq τ] in
theorem evaluate_node (hp : g.productions[p]? = some q) (hq : R.Respects q)
    (h : Parallel (R.Turns q.rhs) (Derivation.evaluateAll g tokens children)
      (Derivation.evaluateAll g (tokens.map R.token) children)) :
    Parallel (fun c c' => ∃ v, c = some (.value v) ∧ c' = some (.value (R.value v)))
      (Derivation.evaluate g tokens (.node p children))
      (Derivation.evaluate g (tokens.map R.token) (.node p children)) := by
  simp only [Derivation.evaluate, hp]
  apply h.bind
  intro given given' hturns
  rw [hturns.eq_map]
  have haction := hq given hturns.suits
  revert haction
  generalize q.action given = x
  generalize q.action (given.map R.child) = x'
  intro haction
  cases haction with
  | ok related => exact .ok ⟨_, rfl, by rw [related]⟩
  | error e e' => exact .error _ _

omit [DecidableEq τ] in
theorem evaluateAll {symbols : List (Symbol ν τ)} {trees : List Derivation} {i k : Nat}
    (hg : ∀ q ∈ g.productions, R.Respects q) (h : Derives g tokens symbols trees i k) :
    Parallel (R.Turns symbols) (Derivation.evaluateAll g tokens trees)
      (Derivation.evaluateAll g (tokens.map R.token) trees) := by
  induction h with
  | nil => exact .ok ⟨.nil, rfl⟩
  | @token tag symbols trees i k matched rest ih =>
    obtain ⟨t, ht, htag⟩ := Derives.exists_token matched
    have ht' : (tokens.map R.token)[i]? = some (R.token t) := by simp [ht]
    simp only [Derivation.evaluateAll, Derivation.evaluate_leaf ht,
      Derivation.evaluate_leaf ht']
    apply ih.bind
    intro given given' hturns
    exact .ok ⟨.cons (.token htag trivial) hturns.suits, by rw [hturns.eq_map]; rfl⟩
  | @rule p name symbols children trees i j k produced inner rest ihInner ihRest =>
    obtain ⟨q, hp, rfl⟩ := Grammar.lhs?_eq_some_iff.mp produced
    rw [Grammar.rhs_eq hp] at ihInner
    simp only [Derivation.evaluateAll]
    apply (evaluate_node hp (hg q (Array.mem_of_getElem? hp)) ihInner).bind
    intro c c' hc
    obtain ⟨v, rfl, rfl⟩ := hc
    apply ihRest.bind
    intro given given' hturns
    exact .ok ⟨.cons (.value trivial) hturns.suits, by rw [hturns.eq_map]; rfl⟩

omit [DecidableEq τ] in
theorem evaluate {name : ν} {d : Derivation} {i k : Nat}
    (hg : ∀ q ∈ g.productions, R.Respects q)
    (h : Derives g tokens [.nonterminal name] [d] i k) :
    Parallel (fun c c' => ∃ v, c = some (.value v) ∧ c' = some (.value (R.value v)))
      (Derivation.evaluate g tokens d) (Derivation.evaluate g (tokens.map R.token) d) := by
  obtain ⟨p, children, rfl, produced, inner⟩ := Derives.rule_iff.mp h
  obtain ⟨q, hp, -⟩ := Grammar.lhs?_eq_some_iff.mp produced
  have hinner := evaluateAll hg inner
  rw [Grammar.rhs_eq hp] at hinner
  exact evaluate_node hp (hg q (Array.mem_of_getElem? hp)) hinner

end Recasting

namespace Grammar

variable {tokens : List (Token τ)} {d : Derivation}

theorem parse_of_sampled (hr : root ∈ g.roots) (h : g.sampled root tokens = [d]) :
    g.parse root tokens = g.reduce root tokens.toArray d := by
  rcases parse_cases hr tokens with ⟨hnil, -⟩ | ⟨d', hd, hp⟩ | ⟨d', d'', rest, offset, hd, -⟩
  · cases hnil.symm.trans h
  · cases hd.symm.trans h
    exact hp
  · cases hd.symm.trans h

theorem exists_error_of_sampled (hr : root ∈ g.roots) (h : ∀ d, g.sampled root tokens ≠ [d]) :
    ∃ e, g.parse root tokens = .error e := by
  rcases parse_cases hr tokens with
      ⟨-, offset, found, hp⟩ | ⟨d, hd, -⟩ | ⟨d, d', rest, offset, -, hp⟩
  · exact ⟨_, hp⟩
  · exact absurd hd (h d)
  · exact ⟨_, hp⟩

end Grammar

namespace Recasting

theorem sampled_map (R : Recasting τ ρ) (g : Grammar ν τ ρ) (root : ν)
    (tokens : List (Token τ)) :
    g.sampled root (tokens.map R.token) = g.sampled root tokens := by
  have hchart :
      Chart.ofTokens g root (tokens.map R.token).toArray =
        Chart.ofTokens g root tokens.toArray := by
    apply Chart.ofTokens_congr
    · simp
    · intro i
      simp [Option.bind_map, R.tag_token]
  unfold Grammar.sampled
  rw [hchart]
  simp

/-- Where the actions go along with a change of tokens, parsing does: it fails both before and
after it, or its result is changed. -/
theorem parse {R : Recasting τ ρ} (hg : ∀ q ∈ g.productions, R.Respects q) (root : ν)
    (tokens : List (Token τ)) :
    Parallel (fun v v' => v' = R.value v) (g.parse root tokens)
      (g.parse root (tokens.map R.token)) := by
  by_cases hr : root ∈ g.roots
  · have hsame := R.sampled_map g root tokens
    by_cases hone : ∃ d, g.sampled root tokens = [d]
    · obtain ⟨d, hd⟩ := hone
      have hd' : g.sampled root (tokens.map R.token) = [d] := hsame.trans hd
      have hmem : Derives g tokens.toArray [.nonterminal root] [d] 0 tokens.length :=
        Grammar.mem_derivations_of_sampled (by simp [hd])
      have hmem' :
          Derives g (tokens.map R.token).toArray [.nonterminal root] [d] 0
            (tokens.map R.token).length :=
        Grammar.mem_derivations_of_sampled (by simp [hd'])
      rw [Grammar.parse_of_sampled hr hd, Grammar.parse_of_sampled hr hd']
      -- Reducing a tree is evaluating it, its one result being wrapped up.
      have hreduce : (g.reduce root tokens.toArray d).map _ = _ := hmem.reduce_eq_evaluate
      have hreduce' : (g.reduce root (tokens.map R.token).toArray d).map _ = _ :=
        hmem'.reduce_eq_evaluate
      have hevaluate := evaluate hg hmem
      rw [List.map_toArray, ← hreduce, ← hreduce'] at hevaluate
      apply hevaluate.of_map
      intro v v' hv
      obtain ⟨w, hw, hw'⟩ := hv
      cases hw
      cases hw'
      rfl
    · have hnone : ∀ d, g.sampled root tokens ≠ [d] := not_exists.mp hone
      obtain ⟨e, he⟩ := Grammar.exists_error_of_sampled hr hnone
      rw [← hsame] at hnone
      obtain ⟨e', he'⟩ := Grammar.exists_error_of_sampled hr hnone
      rw [he, he']
      exact .error e e'
  · simp only [Grammar.parse, if_neg hr]
    exact .error _ _

end Recasting

end Fabula
