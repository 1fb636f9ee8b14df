import Fabula.Grammar.Parse
import Fabula.Proofs.Grammar.Enumeration
import Fabula.Proofs.Grammar.Reduction

namespace Fabula

open Relation

variable {ν τ ρ : Type} [DecidableEq ν]

theorem Column.nodup_select {column : Column} {test : Item → Bool} {n : Nat}
    {later : List (Nat × Item)} (hlater : (later.map Prod.fst).Nodup)
    (hle : ∀ i ∈ later.map Prod.fst, n ≤ i) :
    ((column.select test n later).map Prod.fst).Nodup := by
  induction n generalizing later with
  | zero => exact hlater
  | succ n ih =>
    have hle' : ∀ i ∈ later.map Prod.fst, n ≤ i := fun i hi => Nat.le_of_succ_le (hle i hi)
    unfold select
    split
    · exact ih hlater hle'
    · split
      · refine ih (List.nodup_cons.mpr ⟨fun hn => ?_, hlater⟩)
          (List.forall_mem_cons.mpr ⟨?_, hle'⟩)
        · exact Nat.lt_irrefl n (hle n hn)
        · exact Nat.le_refl n
      · exact ih hlater hle'

namespace Chart

variable {g : Grammar ν τ ρ} {root : ν} {tokens : Array (Token τ)} {chart : Chart} {a : Address}
  {stop : Nat}

theorem nodup_finals : (chart.finals g root stop).Nodup := by
  have hselect : (((chart.column stop).select (fun i => i.origin == 0 && i.completes g root)
      (chart.column stop).size []).map Prod.fst).Nodup :=
      Column.nodup_select (by simp) (by simp)
  have haddress : Function.Injective (Address.mk stop) := by
    intro i j hij
    exact (Address.mk.inj hij).2
  have hmap := hselect.map haddress
  rwa [List.map_map] at hmap

theorem mem_finals :
    a ∈ chart.finals g root stop ↔ a.column = stop ∧ ∃ e, chart.entryAt? a = some e ∧
      e.item.origin = 0 ∧ e.item.symbol? g = none ∧ g.lhs? e.item.production = some root := by
  obtain ⟨c, i⟩ := a
  simp only [finals, List.mem_map, Prod.exists, Column.mem_select, List.not_mem_nil, or_false,
    Bool.and_eq_true, beq_iff_eq, Item.completes_iff]
  constructor
  · rintro ⟨index, item, ⟨-, ⟨horigin, hended, hroot⟩, e, he, rfl⟩, hi⟩
    cases hi
    exact ⟨rfl, e, he, horigin, hended, hroot⟩
  · rintro ⟨rfl, e, he, horigin, hended, hroot⟩
    have hlt := (Array.getElem?_eq_some_iff.mp he).1
    exact ⟨i, e.item, ⟨hlt, ⟨horigin, hended, hroot⟩, e, he, rfl⟩, rfl⟩

theorem Exact.mem_derivations {list : List (Token τ)} (h : Exact g root list.toArray chart)
    {t : Derivation} : t ∈ g.derivations root list ↔
      ∃ a ∈ chart.finals g root list.toArray.size,
        t ∈ chart.treesOf g list.toArray (.item a) := by
  rw [Grammar.derivations, Set.mem_ofPred_eq, Derives.rule_iff]
  constructor
  · rintro ⟨q, children, rfl, produced, hchildren⟩
    have hbegun := h.closed _ _ (.root produced)
    obtain ⟨a, e, ha, hc, hended, rfl, horigin⟩ := h.completed hbegun hchildren
    refine ⟨a, mem_finals.mpr ⟨hc, e, ha, horigin, hended, produced⟩, ?_⟩
    refine (mem_treesOf_item ha hended).mpr ⟨children, rfl, ?_⟩
    rw [horigin, hc]
    exact hchildren
  · rintro ⟨a, ha, ht⟩
    obtain ⟨hc, e, he, horigin, hended, produced⟩ := mem_finals.mp ha
    obtain ⟨s, rfl, hs⟩ := (mem_treesOf_item he hended).mp ht
    rw [horigin, hc] at hs
    exact ⟨_, s, rfl, produced, hs⟩

theorem Built.finals_apart (h : Built g root tokens chart) :
    (chart.finals g root stop).Pairwise fun a b =>
      Disjoint (chart.treesOf g tokens (.item a)) (chart.treesOf g tokens (.item b)) := by
  refine nodup_finals.imp_of_mem fun {a b} ha hb hne => ?_
  obtain ⟨hca, e, hea, hoa, hna, -⟩ := mem_finals.mp ha
  obtain ⟨hcb, f, hfb, hob, hnb, -⟩ := mem_finals.mp hb
  refine Set.disjoint_left.mpr fun t hta htb => hne ?_
  exact h.tree_unique hea hfb hna hnb (hca.trans hcb.symm) (hoa.trans hob.symm) hta htb

end Chart

namespace Grammar

variable [DecidableEq τ] {g : Grammar ν τ ρ} {root : ν} {tokens : List (Token τ)}

/-- The trees of the root that the walk over the chart finds. -/
def sampled (g : Grammar ν τ ρ) (root : ν) (tokens : List (Token τ)) : List Derivation :=
  let chart := Chart.ofTokens g root tokens.toArray
  (Forest.derivations chart (chart.finals g root tokens.toArray.size) [] (.ofChart chart)).1

theorem Acyclic.samples (hg : g.Acyclic) (root : ν) (tokens : List (Token τ)) :
    Samples derivationLimit (g.sampled root tokens) (g.derivations root tokens) := by
  have hx := Chart.exact_ofTokens g root tokens.toArray
  have hset : g.derivations root tokens =
      ∅ ∪ {t | ∃ a ∈ (Chart.ofTokens g root tokens.toArray).finals g root tokens.toArray.size,
        t ∈ (Chart.ofTokens g root tokens.toArray).treesOf g tokens.toArray (.item a)} := by
    ext t
    rw [hx.mem_derivations, Set.empty_union, Set.mem_ofPred_eq]
  rw [hset]
  refine (Forest.sound_ofChart g tokens.toArray _).derivations hg hx ?_ ?_ (Samples.empty _)
    (fun _ _ => Set.empty_disjoint _) hx.built.finals_apart
  · intro t
    simp [Forest.status_ofChart]
  · intro a ha
    obtain ⟨-, e, he, -⟩ := Chart.mem_finals.mp ha
    exact ⟨e, he⟩

theorem parse_cases (hr : root ∈ g.roots) (tokens : List (Token τ)) :
    (g.sampled root tokens = [] ∧ ∃ offset found,
        g.parse root tokens = .error (.noParse offset found)) ∨
      (∃ d, g.sampled root tokens = [d] ∧
        g.parse root tokens = g.reduce root tokens.toArray d) ∨
      (∃ d d' rest offset, g.sampled root tokens = d :: d' :: rest ∧
        g.parse root tokens = .error (.ambiguous root offset)) := by
  simp only [parse, sampled, hr, if_true]
  split
  · rename_i h
    exact .inl ⟨by rw [h], _, _, rfl⟩
  · rename_i h
    exact .inr (.inl ⟨_, by rw [h], rfl⟩)
  · rename_i trees forest hnil hone h
    match trees with
    | [] => exact (hnil rfl).elim
    | [d] => exact (hone d rfl).elim
    | d :: d' :: rest => exact .inr (.inr ⟨d, d', rest, _, by rw [h], rfl⟩)

theorem parse_of_no_derivation (hg : g.Acyclic) (hr : root ∈ g.roots)
    (h : g.derivations root tokens = ∅) :
    ∃ offset found, g.parse root tokens = .error (.noParse offset found) := by
  have hs := hg.samples root tokens
  rcases parse_cases hr tokens with ⟨-, hp⟩ | ⟨d, hd, -⟩ | ⟨d, d', rest, -, hd, -⟩
  · exact hp
  · have hmem := hs.mem d (by simp [hd])
    simp [h] at hmem
  · have hmem := hs.mem d (by simp [hd])
    simp [h] at hmem

theorem parse_of_one_derivation (hg : g.Acyclic) (hr : root ∈ g.roots) {d : Derivation}
    (h : g.derivations root tokens = {d}) :
    (g.parse root tokens).map (fun value => some (Child.value value)) =
      d.evaluate g tokens.toArray := by
  have hs := hg.samples root tokens
  have hd : d ∈ g.derivations root tokens := by simp [h]
  rcases parse_cases hr tokens with ⟨hnil, -⟩ | ⟨d', hd', hp⟩ | ⟨d', d'', rest, -, hmore, -⟩
  · have hmem := hs.all (by simp [hnil, derivationLimit]) d hd
    simp [hnil] at hmem
  · have hmem := hs.mem d' (by simp [hd'])
    rw [h, Set.mem_singleton_iff] at hmem
    rw [hp, hmem]
    exact Derives.reduce_eq_evaluate hd
  · have hnodup := hs.nodup
    have hmem := hs.mem d' (by simp [hmore])
    have hmem' := hs.mem d'' (by simp [hmore])
    rw [h, Set.mem_singleton_iff] at hmem hmem'
    simp [hmore, hmem, hmem'] at hnodup

theorem parse_of_two_derivations (hg : g.Acyclic) (hr : root ∈ g.roots)
    (h : (g.derivations root tokens).Nontrivial) :
    ∃ offset, g.parse root tokens = .error (.ambiguous root offset) := by
  have hs := hg.samples root tokens
  obtain ⟨d₁, h₁, d₂, h₂, hne⟩ := h
  rcases parse_cases hr tokens with ⟨hnil, -⟩ | ⟨d, hd, -⟩ | ⟨d, d', rest, offset, -, hp⟩
  · have hmem := hs.all (by simp [hnil, derivationLimit]) d₁ h₁
    simp [hnil] at hmem
  · have hmem₁ := hs.all (by simp [hd, derivationLimit]) d₁ h₁
    have hmem₂ := hs.all (by simp [hd, derivationLimit]) d₂ h₂
    simp only [hd, List.mem_singleton] at hmem₁ hmem₂
    exact absurd (hmem₁.trans hmem₂.symm) hne
  · exact ⟨offset, hp⟩

omit [DecidableEq τ] in
theorem exec_error {tokens : Array (Token τ)} {code : List Instruction}
    {stack : List (Child τ ρ)} {e : ParseError ν} (h : g.exec tokens code stack = .error e) :
    ∃ rule message, e = .action rule message := by
  induction code generalizing stack with
  | nil => cases h
  | cons instruction code ih =>
    cases instruction with
    | shift position =>
      simp only [exec] at h
      split at h
      · exact ih h
      · exact ih h
    | reduce p arity =>
      simp only [exec] at h
      split at h
      · exact ih h
      · split at h
        · exact ih h
        · cases h
          exact ⟨_, _, rfl⟩

omit [DecidableEq τ] in
theorem reduce_error {tokens : Array (Token τ)} {d : Derivation} {e : ParseError ν}
    (h : g.reduce root tokens d = .error e) : ∃ rule message, e = .action rule message := by
  unfold reduce at h
  split at h
  · cases h
  · cases h
    exact ⟨_, _, rfl⟩
  · rename_i he
    cases h
    exact exec_error he

theorem parse_ne_ambiguous (hg : g.Acyclic)
    (h : (g.derivations root tokens).Subsingleton) (name : ν) (offset : Nat) :
    g.parse root tokens ≠ .error (.ambiguous name offset) := by
  intro hp
  by_cases hr : root ∈ g.roots
  · rcases parse_cases hr tokens with ⟨-, _, _, hp'⟩ | ⟨d, -, hp'⟩ | ⟨d, d', rest, _, hd, -⟩
    · rw [hp'] at hp
      cases hp
    · rw [hp'] at hp
      obtain ⟨rule, message, he⟩ := reduce_error hp
      cases he
    · have hs := hg.samples root tokens
      have hnodup := hs.nodup
      have heq : d = d' := h (hs.mem d (by simp [hd])) (hs.mem d' (by simp [hd]))
      simp [hd, heq] at hnodup
  · simp only [parse, hr, if_false] at hp
    cases hp

/-- Parsing is decided by the number of derivations: without any there is no parse, one gives
the result of its productions' actions, or the error of the first that refuses, and with two the
root is ambiguous. -/
theorem parse_decided_by_derivations (g : Grammar ν τ ρ) (hg : g.Acyclic) (root : ν)
    (hr : root ∈ g.roots) (tokens : List (Token τ)) :
    (g.derivations root tokens = ∅ →
        ∃ offset found, g.parse root tokens = .error (.noParse offset found)) ∧
      (∀ d, g.derivations root tokens = {d} →
        (g.parse root tokens).map (fun value => some (Child.value value)) =
          d.evaluate g tokens.toArray) ∧
      ((g.derivations root tokens).Nontrivial →
        ∃ offset, g.parse root tokens = .error (.ambiguous root offset)) :=
  ⟨parse_of_no_derivation hg hr, fun _ => parse_of_one_derivation hg hr,
    parse_of_two_derivations hg hr⟩

def juxtaposition : Grammar Unit Unit Nat where
  roots := [()]
  productions :=
    #[⟨(), [.terminal ()], fun _ => .ok 1⟩,
      ⟨(), [.nonterminal (), .nonterminal ()], fun
        | [.value m, .value n] => .ok (m + n)
        | _ => .error "expected two expressions"⟩]
  faultless := by decide

theorem mem_derivations_word {t : Token Unit} {d : Derivation}
    (hd : d ∈ juxtaposition.derivations () [t]) : d = .node 0 [.leaf 0] := by
  have hdescends : juxtaposition.Descends fun _ => 0 := by decide
  obtain ⟨p, children, rfl, produced, hchildren⟩ := Derives.rule_iff.mp hd
  match p with
  | 0 =>
    have hchildren : Derives juxtaposition #[t] [.terminal ()] children 0 1 := hchildren
    cases hchildren with
    | token matched rest =>
      obtain ⟨rfl, -⟩ := Derives.nil_iff.mp rest
      rfl
  | 1 =>
    have htwo : 2 ≤ 1 := hdescends.length_le hchildren
    omega
  | p + 2 => cases produced

/-- No expression is empty, one word is one expression, and three words are put together in two
ways. -/
theorem juxtaposition_decided :
    (∃ offset found, juxtaposition.parse () [] = .error (.noParse offset found)) ∧
      juxtaposition.parse () [⟨some (), 0, "a"⟩] = .ok 1 ∧
      ∃ offset, juxtaposition.parse ()
          [⟨some (), 0, "a"⟩, ⟨some (), 1, "b"⟩, ⟨some (), 2, "c"⟩] =
        .error (.ambiguous () offset) := by
  have hd : juxtaposition.Descends fun _ => 0 := by decide
  have hdecided := parse_decided_by_derivations juxtaposition hd.acyclic () (by decide)
  refine ⟨(hdecided []).1 ?_, ?_, (hdecided _).2.2 ?_⟩
  · refine Set.eq_empty_of_forall_notMem fun d hmem => ?_
    exact absurd (hd.length_le hmem) (by decide)
  · have hone : juxtaposition.derivations () [⟨some (), 0, "a"⟩] = {.node 0 [.leaf 0]} := by
      refine Set.eq_singleton_iff_unique_mem.mpr ⟨?_, fun d hmem => mem_derivations_word hmem⟩
      exact .rule rfl (.token rfl .nil) .nil
    obtain ⟨n, hn, he⟩ := map_eq_ok_iff.mp ((hdecided _).2.1 _ hone)
    cases he
    exact hn
  · refine ⟨.node 1 [.node 1 [.node 0 [.leaf 0], .node 0 [.leaf 1]], .node 0 [.leaf 2]], ?_,
      .node 1 [.node 0 [.leaf 0], .node 1 [.node 0 [.leaf 1], .node 0 [.leaf 2]]], ?_, by simp⟩
    · exact .rule rfl
        (.rule rfl (.rule rfl (.token rfl .nil) (.rule rfl (.token rfl .nil) .nil))
          (.rule rfl (.token rfl .nil) .nil)) .nil
    · exact .rule rfl (.rule rfl (.token rfl .nil) (.rule rfl (.rule rfl (.token rfl .nil)
        (.rule rfl (.token rfl .nil) .nil)) .nil)) .nil

end Grammar

end Fabula
