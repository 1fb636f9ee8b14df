import Fabula.Proofs.Grammar.Decision

namespace Fabula

variable {ν τ ρ : Type} [DecidableEq ν]

namespace Derivation

variable {g : Grammar ν τ ρ} {tokens : Array (Token τ)}

theorem evaluateAll_cons {d : Derivation} {ds : List Derivation} {child : Child τ ρ}
    {given : List (Child τ ρ)} (hd : evaluate g tokens d = .ok (some child))
    (hs : evaluateAll g tokens ds = .ok given) :
    evaluateAll g tokens (d :: ds) = .ok (child :: given) := by
  rw [evaluateAll, hd, hs]
  rfl

theorem evaluate_of_evaluateAll {d : Derivation} {child : Child τ ρ}
    (h : evaluateAll g tokens [d] = .ok [child]) : evaluate g tokens d = .ok (some child) := by
  obtain ⟨first, hfirst, h⟩ := bind_eq_ok_iff.mp h
  cases first with
  | none => cases h
  | some first =>
    cases h
    exact hfirst

theorem evaluate_leaf {token : Token τ} {i : Nat} (h : tokens[i]? = some token) :
    evaluate g tokens (.leaf i) = .ok (some (.token token)) := by
  rw [evaluate, h]
  rfl

theorem evaluate_node {p : Nat} {q : Production ν τ ρ} {children : List Derivation}
    {given : List (Child τ ρ)} {value : ρ} (hp : g.productions[p]? = some q)
    (hc : evaluateAll g tokens children = .ok given) (ha : q.action given = .ok value) :
    evaluate g tokens (.node p children) = .ok (some (.value value)) := by
  simp only [evaluate, hc, hp, ha, bind, Except.bind]

theorem evaluate_node_eq_ok {p : Nat} {q : Production ν τ ρ} {children : List Derivation}
    {child : Option (Child τ ρ)} (hp : g.productions[p]? = some q)
    (h : evaluate g tokens (.node p children) = .ok child) :
    ∃ given value, evaluateAll g tokens children = .ok given ∧ q.action given = .ok value ∧
      child = some (.value value) := by
  rw [evaluate, hp] at h
  obtain ⟨given, hgiven, h⟩ := bind_eq_ok_iff.mp h
  cases hvalue : q.action given with
  | error message => simp [hvalue] at h
  | ok value =>
    simp only [hvalue] at h
    cases h
    exact ⟨given, value, hgiven, hvalue, rfl⟩

end Derivation

namespace Grammar

inductive Builds (g : Grammar ν τ ρ) :
    List (Symbol ν τ) → List (Token τ) → List (Child τ ρ) → Prop where
  | nil : Builds g [] [] []
  | token {tag : τ} {token : Token τ} {symbols : List (Symbol ν τ)} {tokens : List (Token τ)}
      {given : List (Child τ ρ)} (tagged : token.tag = some tag)
        (rest : Builds g symbols tokens given) :
      Builds g (.terminal tag :: symbols) (token :: tokens) (.token token :: given)
  | phrase {q : Production ν τ ρ} {symbols : List (Symbol ν τ)} {front tokens : List (Token τ)}
      {children given : List (Child τ ρ)} {value : ρ} (produced : q ∈ g.productions)
      (inner : Builds g q.rhs front children)
      (action : q.action children = .ok value) (rest : Builds g symbols tokens given) :
      Builds g (.nonterminal q.lhs :: symbols) (front ++ tokens) (.value value :: given)

namespace Builds

variable {g : Grammar ν τ ρ} {symbols : List (Symbol ν τ)} {tokens : List (Token τ)}
  {given : List (Child τ ρ)}

theorem rule {q : Production ν τ ρ} {value : ρ} (produced : q ∈ g.productions)
    (inner : g.Builds q.rhs tokens given) (action : q.action given = .ok value) :
    g.Builds [.nonterminal q.lhs] tokens [.value value] := by
  simpa using phrase produced inner action nil

theorem cons {name : ν} {front : List (Token τ)} {value : ρ}
    (first : g.Builds [.nonterminal name] front [.value value])
    (rest : g.Builds symbols tokens given) :
    g.Builds (.nonterminal name :: symbols) (front ++ tokens) (.value value :: given) := by
  cases first with
  | phrase produced inner action last =>
    cases last
    rw [List.append_nil]
    exact phrase produced inner action rest

/-- Wherever the tokens stand, what is built from them is the value of a derivation. -/
theorem derives (h : g.Builds symbols tokens given) (before after : List (Token τ)) :
    ∃ trees, Derives g (before ++ (tokens ++ after)).toArray symbols trees before.length
        (before.length + tokens.length) ∧
      Derivation.evaluateAll g (before ++ (tokens ++ after)).toArray trees = .ok given := by
  -- What stands before and after is open, as it grows by the tokens of the neighbours.
  induction h generalizing before after with
  | nil => exact ⟨[], .nil, rfl⟩
  | @token tag token symbols tokens given tagged rest ih =>
    obtain ⟨trees, hd, he⟩ := ih (before ++ [token]) after
    have hi : (before ++ (token :: tokens ++ after)).toArray[before.length]? = some token := by
      simp
    rw [List.append_assoc, List.length_append, Nat.add_assoc, Nat.add_comm [token].length] at hd
    rw [List.append_assoc] at he
    refine ⟨.leaf before.length :: trees, .token ?_ hd, ?_⟩
    · rw [hi]
      exact tagged
    · exact Derivation.evaluateAll_cons (Derivation.evaluate_leaf hi) he
  | @phrase q symbols front tokens children given value produced inner action rest
      ihInner ihRest =>
    obtain ⟨p, hp⟩ := Array.mem_iff_getElem?.mp produced
    obtain ⟨trees, hd, he⟩ := ihInner before (tokens ++ after)
    obtain ⟨others, hd', he'⟩ := ihRest (before ++ front) after
    rw [List.append_assoc, List.length_append, Nat.add_assoc] at hd'
    rw [List.append_assoc] at he'
    rw [List.append_assoc, List.length_append]
    refine ⟨.node p trees :: others, .rule ?_ ?_ hd', ?_⟩
    · exact lhs?_eq_some_iff.mpr ⟨q, hp, rfl⟩
    · rw [rhs_eq hp]
      exact hd
    · exact Derivation.evaluateAll_cons (Derivation.evaluate_node hp he action) he'

theorem length_le (hg : ∀ q ∈ g.productions, q.rhs ≠ []) (h : g.Builds symbols tokens given) :
    symbols.length ≤ tokens.length := by
  induction h with
  | nil => exact Nat.le_refl 0
  | token tagged rest ih => simpa using ih
  | phrase produced inner action rest ihInner ihRest =>
    have hpos := List.length_pos_iff.mpr (hg _ produced)
    simp only [List.length_cons, List.length_append]
    omega

theorem split {name : ν} (h : g.Builds (.nonterminal name :: symbols) tokens given) :
    ∃ front rest value later, tokens = front ++ rest ∧ given = .value value :: later ∧
      g.Builds [.nonterminal name] front [.value value] ∧ g.Builds symbols rest later := by
  cases h with
  | phrase produced inner action rest =>
    exact ⟨_, _, _, _, rfl, rfl, rule produced inner action, rest⟩

theorem exists_value {name : ν} (h : g.Builds [.nonterminal name] tokens given) :
    ∃ value, given = [.value value] := by
  cases h with
  | phrase produced inner action rest =>
    cases rest
    exact ⟨_, rfl⟩

theorem exists_production {name : ν} {value : ρ}
    (h : g.Builds [.nonterminal name] tokens [.value value]) :
    ∃ q ∈ g.productions, q.lhs = name ∧ ∃ given, g.Builds q.rhs tokens given ∧
      q.action given = .ok value := by
  cases h with
  | phrase produced inner action rest =>
    cases rest
    rw [List.append_nil]
    exact ⟨_, produced, rfl, _, inner, action⟩

end Builds

end Grammar

theorem Derives.builds {g : Grammar ν τ ρ} {tokens : Array (Token τ)}
    {symbols : List (Symbol ν τ)} {trees : List Derivation} {i k : Nat}
    {given : List (Child τ ρ)} (h : Derives g tokens symbols trees i k)
    (hv : Derivation.evaluateAll g tokens trees = .ok given) :
    g.Builds symbols ((tokens.toList.drop i).take (k - i)) given := by
  induction h generalizing given with
  | nil =>
    cases hv
    rw [Nat.sub_self]
    exact .nil
  | @token tag symbols trees i k matched rest ih =>
    obtain ⟨t, ht, htag⟩ := exists_token matched
    obtain ⟨child, hchild, hv⟩ := bind_eq_ok_iff.mp hv
    obtain ⟨later, hlater, hv⟩ := bind_eq_ok_iff.mp hv
    cases (Derivation.evaluate_leaf ht).symm.trans hchild
    cases hv
    have hcover :
        (tokens.toList.drop i).take (k - i) =
          t :: (tokens.toList.drop (i + 1)).take (k - (i + 1)) := by
      have hk : k - i = k - (i + 1) + 1 := by
        have := rest.le
        omega
      rw [hk, List.drop_eq_getElem?_toList_append, Array.getElem?_toList, ht]
      rfl
    rw [hcover]
    exact .token htag (ih hlater)
  | @rule p name symbols children trees i j k produced inner rest ihInner ihRest =>
    obtain ⟨q, hq, rfl⟩ := Grammar.lhs?_eq_some_iff.mp produced
    obtain ⟨child, hchild, hv⟩ := bind_eq_ok_iff.mp hv
    obtain ⟨later, hlater, hv⟩ := bind_eq_ok_iff.mp hv
    obtain ⟨values, value, hvalues, haction, rfl⟩ := Derivation.evaluate_node_eq_ok hq hchild
    cases hv
    have hcover : (tokens.toList.drop i).take (k - i) =
        (tokens.toList.drop i).take (j - i) ++ (tokens.toList.drop j).take (k - j) := by
      have hi := inner.le
      have hj := rest.le
      rw [show k - i = j - i + (k - j) by omega, List.take_add, List.drop_drop,
        Nat.add_sub_cancel' hi]
    rw [hcover]
    apply Grammar.Builds.phrase (Array.mem_of_getElem? hq) _ haction (ihRest hlater)
    rw [← Grammar.rhs_eq hq]
    exact ihInner hvalues

namespace Grammar

variable [DecidableEq τ]

/-- Where a token list has at most one derivation, parsing gives what can be built from it. -/
theorem parse_eq_of_builds {g : Grammar ν τ ρ} {root : ν} {tokens : List (Token τ)} {value : ρ}
    (hg : g.Acyclic) (hu : (g.derivations root tokens).Subsingleton) (hr : root ∈ g.roots)
    (h : g.Builds [.nonterminal root] tokens [.value value]) :
    g.parse root tokens = .ok value := by
  obtain ⟨trees, hd, he⟩ := h.derives [] []
  rw [List.nil_append, List.append_nil, List.length_nil, Nat.zero_add] at hd
  rw [List.nil_append, List.append_nil] at he
  obtain ⟨d, rfl⟩ := List.length_eq_one_iff.mp hd.length_eq
  have hp := parse_of_one_derivation hg hr (hu.eq_singleton_of_mem hd)
  rw [Derivation.evaluate_of_evaluateAll he] at hp
  obtain ⟨value', hparse, hvalue⟩ := map_eq_ok_iff.mp hp
  cases hvalue
  exact hparse

theorem parse_eq_ok_iff {g : Grammar ν τ ρ} {root : ν} {tokens : List (Token τ)} {value : ρ}
    (hg : g.Acyclic) (hu : (g.derivations root tokens).Subsingleton) (hr : root ∈ g.roots) :
    g.parse root tokens = .ok value ↔ g.Builds [.nonterminal root] tokens [.value value] := by
  constructor
  · intro h
    rcases parse_cases hr tokens with
        ⟨-, offset, found, hp⟩ | ⟨d, hd, hp⟩ | ⟨_, _, _, offset, -, hp⟩
    · rw [hp] at h
      cases h
    · have hmem : d ∈ g.derivations root tokens := (hg.samples root tokens).mem d (by simp [hd])
      have hvalue : d.evaluate g tokens.toArray = .ok (some (.value value)) := by
        apply (Derives.reduce_eq_evaluate hmem).symm.trans
        rw [← hp, h]
        rfl
      have hbuilds := Derives.builds hmem (Derivation.evaluateAll_cons hvalue rfl)
      simpa using hbuilds
    · rw [hp] at h
      cases h
  · exact parse_eq_of_builds hg hu hr

end Grammar

end Fabula
