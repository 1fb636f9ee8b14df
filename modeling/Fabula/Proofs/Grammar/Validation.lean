import Fabula.Proofs.Grammar.Viability

namespace Fabula

variable {ν τ ρ : Type}

namespace Production

/-- Some production has this left-hand side. -/
def Produced (ps : List (Production ν τ ρ)) (name : ν) : Prop :=
  ∃ p ∈ ps, p.lhs = name

/-- Every non-terminal among the symbols has a production. -/
def Grounded (ps : List (Production ν τ ρ)) (symbols : List (Symbol ν τ)) : Prop :=
  ∀ name, .nonterminal name ∈ symbols → Produced ps name

inductive Reached (roots : List ν) (ps : List (Production ν τ ρ)) : ν → Prop where
  | root {name : ν} (root : name ∈ roots) : Reached roots ps name
  | mention {p : Production ν τ ρ} {name : ν} (rule : p ∈ ps) (outer : Reached roots ps p.lhs)
      (mentioned : .nonterminal name ∈ p.rhs) : Reached roots ps name

structure Lawful (roots : List ν) (ps : List (Production ν τ ρ)) : Prop where
  produced : ∀ root ∈ roots, Produced ps root
  grounded : ∀ p ∈ ps, Grounded ps p.rhs
  reached : ∀ p ∈ ps, Reached roots ps p.lhs

/-- The first fault of a rule set. Roots come before right-hand sides and these before what is
not reached; each is searched in order. -/
def FirstFault (roots : List ν) (ps : List (Production ν τ ρ)) : GrammarError ν → Prop
  | .missingRoot root =>
    ∃ front back, roots = front ++ root :: back ∧ (∀ r ∈ front, Produced ps r) ∧
      ¬Produced ps root
  | .undefinedNonterminal rule name =>
    (∀ root ∈ roots, Produced ps root) ∧
      ∃ before p after front back, ps = before ++ p :: after ∧
        (∀ q ∈ before, Grounded ps q.rhs) ∧
        p.lhs = rule ∧ p.rhs = front ++ .nonterminal name :: back ∧ Grounded ps front ∧
          ¬Produced ps name
  | .unreachableRule rule =>
    (∀ root ∈ roots, Produced ps root) ∧ (∀ p ∈ ps, Grounded ps p.rhs) ∧
      ∃ before p after, ps = before ++ p :: after ∧ (∀ q ∈ before, Reached roots ps q.lhs) ∧
        p.lhs = rule ∧ ¬Reached roots ps p.lhs

variable [DecidableEq ν] {roots reached : List ν} {ps : List (Production ν τ ρ)}
  {p : Production ν τ ρ}
  {name rule : ν} {n : Nat}

theorem defined_iff : defined ps name = true ↔ Produced ps name := by
  simp [defined, Produced]

omit [DecidableEq ν] in
theorem mem_mentions : name ∈ p.mentions ↔ .nonterminal name ∈ p.rhs := by
  constructor
  · intro h
    obtain ⟨s, hs, hname⟩ := List.mem_filterMap.mp h
    cases s with
    | terminal tag => cases hname
    | nonterminal inner =>
      cases hname
      exact hs
  · intro h
    exact List.mem_filterMap.mpr ⟨_, h, rfl⟩

theorem mem_newlyReached :
    name ∈ newlyReached ps reached ↔
      (∃ p ∈ ps, p.lhs ∈ reached ∧ .nonterminal name ∈ p.rhs) ∧ name ∉ reached := by
  simp [newlyReached, mem_mentions, and_assoc]

theorem reached_of_mem_reachedIn (hreached : ∀ name ∈ reached, Reached roots ps name)
    (h : name ∈ reachedIn ps n reached) : Reached roots ps name := by
  induction n generalizing reached with
  | zero => exact hreached name h
  | succ n ih =>
    rw [reachedIn] at h
    split at h
    · exact hreached name h
    · apply ih _ h
      intro name hname
      rcases List.mem_append.mp hname with hname | hname
      · exact hreached name hname
      · obtain ⟨⟨p, hp, hlhs, hmention⟩, -⟩ := mem_newlyReached.mp (List.mem_eraseDups.mp hname)
        exact .mention hp (hreached p.lhs hlhs) hmention

theorem subset_reachedIn : reached ⊆ reachedIn ps n reached := by
  induction n generalizing reached with
  | zero => exact List.Subset.refl reached
  | succ n ih =>
    rw [reachedIn]
    split
    · exact List.Subset.refl reached
    · exact List.Subset.trans (List.subset_append_left _ _) ih

/-- The productions whose left-hand side has not been reached. -/
def pending (ps : List (Production ν τ ρ)) (reached : List ν) : List (Production ν τ ρ) :=
  ps.filter (!reached.contains ·.lhs)

theorem length_pending_lt {new : List ν} (hnew : name ∈ new) (hname : name ∉ reached)
    (hproduced : Produced ps name) :
    (pending ps (reached ++ new)).length < (pending ps reached).length := by
  obtain ⟨p, hp, rfl⟩ := hproduced
  have hfilter :
      pending ps (reached ++ new) = (pending ps reached).filter (!new.contains ·.lhs) := by
    rw [pending, pending, List.filter_filter]
    apply List.filter_congr
    intro q _
    simp [Bool.and_comm]
  rw [hfilter, List.length_filter_lt_length_iff_exists]
  refine ⟨p, ?_, by simpa using hnew⟩
  simpa [pending, hname] using hp

theorem newlyReached_reachedIn (hgrounded : ∀ p ∈ ps, Grounded ps p.rhs)
    (hn : (pending ps reached).length ≤ n) : newlyReached ps (reachedIn ps n reached) = [] := by
  induction n generalizing reached with
  | zero =>
    rw [List.eq_nil_iff_forall_not_mem]
    intro name hname
    obtain ⟨⟨p, hp, -, hmention⟩, hfresh⟩ := mem_newlyReached.mp hname
    have hlt : (pending ps (reached ++ [name])).length < (pending ps reached).length :=
      length_pending_lt List.mem_cons_self hfresh (hgrounded p hp name hmention)
    omega
  | succ n ih =>
    rw [reachedIn]
    split
    · assumption
    · rename_i hne
      apply ih
      obtain ⟨name, hname⟩ := List.exists_mem_of_ne_nil _ hne
      obtain ⟨⟨p, hp, -, hmention⟩, hfresh⟩ := mem_newlyReached.mp hname
      have hlt := length_pending_lt (List.mem_eraseDups.mpr hname) hfresh
        (hgrounded p hp name hmention)
      omega

theorem mem_reachedIn_iff (hgrounded : ∀ p ∈ ps, Grounded ps p.rhs) :
    name ∈ reachedIn ps ps.length roots ↔ Reached roots ps name := by
  constructor
  · intro h
    exact reached_of_mem_reachedIn (fun _ hroot => .root hroot) h
  · intro h
    have hdone : newlyReached ps (reachedIn ps ps.length roots) = [] :=
      newlyReached_reachedIn hgrounded (List.length_filter_le _ ps)
    induction h with
    | root hroot => exact subset_reachedIn hroot
    | @mention p name hp _ hmention ih =>
      by_contra hname
      have hnew := mem_newlyReached.mpr ⟨⟨p, hp, ih, hmention⟩, hname⟩
      rw [hdone] at hnew
      cases hnew

omit [DecidableEq ν] in
theorem Reached.produced (h : Reached roots ps name) (hroots : ∀ root ∈ roots, Produced ps root)
    (hgrounded : ∀ p ∈ ps, Grounded ps p.rhs) : Produced ps name := by
  cases h with
  | root hroot => exact hroots name hroot
  | mention hp _ hmention => exact hgrounded _ hp name hmention

theorem find?_roots_eq_none_iff :
    roots.find? (!defined ps ·) = none ↔ ∀ root ∈ roots, Produced ps root := by
  simp [defined_iff]

/-- The first mention of a non-terminal without production, by its place on the right-hand
side. -/
theorem find?_mentions_eq_some_iff :
    p.mentions.find? (!defined ps ·) = some name ↔
      ∃ front back, p.rhs = front ++ .nonterminal name :: back ∧ Grounded ps front ∧
        ¬Produced ps name := by
  rw [mentions, List.find?_filterMap, Option.bind_eq_some_iff]
  constructor
  · rintro ⟨s, hfind, hs⟩
    obtain ⟨hfault, front, back, hrhs, hfront⟩ := List.find?_eq_some_iff_append.mp hfind
    cases s with
    | terminal tag => cases hs
    | nonterminal inner =>
      cases hs
      refine ⟨front, back, hrhs, ?_, by simpa [← defined_iff] using hfault⟩
      intro name hname
      simpa [defined_iff] using hfront _ hname
  · rintro ⟨front, back, hrhs, hfront, hname⟩
    refine ⟨.nonterminal name, ?_, rfl⟩
    apply List.find?_eq_some_iff_append.mpr
    refine ⟨by simpa [← defined_iff] using hname, front, back, hrhs, ?_⟩
    intro s hs
    cases s with
    | terminal tag => rfl
    | nonterminal inner => simpa [defined_iff] using hfront inner hs

theorem find?_mentions_eq_none_iff :
    p.mentions.find? (!defined ps ·) = none ↔ Grounded ps p.rhs := by
  simp [mem_mentions, defined_iff, Grounded]

theorem undefined?_eq_some_iff :
    undefined? ps = some (rule, name) ↔
      ∃ before p after front back, ps = before ++ p :: after ∧
        (∀ q ∈ before, Grounded ps q.rhs) ∧
        p.lhs = rule ∧ p.rhs = front ++ .nonterminal name :: back ∧ Grounded ps front ∧
          ¬Produced ps name := by
  rw [undefined?, List.findSome?_eq_some_iff]
  simp only [Option.map_eq_some_iff, Option.map_eq_none_iff, find?_mentions_eq_some_iff,
    find?_mentions_eq_none_iff, Prod.mk.injEq]
  constructor
  · rintro ⟨before, p, after, hps, ⟨_, ⟨front, back, hp⟩, hrule, rfl⟩, hbefore⟩
    exact ⟨before, p, after, front, back, hps, hbefore, hrule, hp⟩
  · rintro ⟨before, p, after, front, back, hps, hbefore, hrule, hp⟩
    exact ⟨before, p, after, hps, ⟨name, ⟨front, back, hp⟩, hrule, rfl⟩, hbefore⟩

theorem undefined?_eq_none_iff : undefined? ps = none ↔ ∀ p ∈ ps, Grounded ps p.rhs := by
  rw [undefined?, List.findSome?_eq_none_iff]
  simp only [Option.map_eq_none_iff, find?_mentions_eq_none_iff]

theorem unreached?_eq_some_iff (hgrounded : ∀ p ∈ ps, Grounded ps p.rhs) :
    unreached? roots ps = some rule ↔
      ∃ before p after, ps = before ++ p :: after ∧ (∀ q ∈ before, Reached roots ps q.lhs) ∧
        p.lhs = rule ∧ ¬Reached roots ps p.lhs := by
  simp only [unreached?, Option.map_eq_some_iff, List.find?_eq_some_iff_append,
    Bool.not_eq_true', Bool.not_not, List.contains_eq_mem, decide_eq_false_iff_not,
    mem_reachedIn_iff hgrounded, decide_eq_true_eq]
  constructor
  · rintro ⟨p, ⟨hp, before, after, hps, hbefore⟩, hrule⟩
    exact ⟨before, p, after, hps, hbefore, hrule, hp⟩
  · rintro ⟨before, p, after, hps, hbefore, hrule, hp⟩
    exact ⟨p, ⟨hp, before, after, hps, hbefore⟩, hrule⟩

theorem unreached?_eq_none_iff (hgrounded : ∀ p ∈ ps, Grounded ps p.rhs) :
    unreached? roots ps = none ↔ ∀ p ∈ ps, Reached roots ps p.lhs := by
  simp [unreached?, mem_reachedIn_iff hgrounded]

theorem fault?_cases (roots : List ν) (ps : List (Production ν τ ρ)) :
    (∃ root, roots.find? (!defined ps ·) = some root ∧
      fault? roots ps = some (.missingRoot root)) ∨
      (∃ rule symbol, (∀ root ∈ roots, Produced ps root) ∧ undefined? ps = some (rule, symbol) ∧
        fault? roots ps = some (.undefinedNonterminal rule symbol)) ∨
      (∀ root ∈ roots, Produced ps root) ∧ (∀ p ∈ ps, Grounded ps p.rhs) ∧
        fault? roots ps = (unreached? roots ps).map .unreachableRule := by
  rw [fault?]
  split
  · rename_i root hroot
    exact .inl ⟨root, hroot, rfl⟩
  · rename_i hroots
    rw [find?_roots_eq_none_iff] at hroots
    split
    · rename_i rule symbol hundefined
      exact .inr (.inl ⟨rule, symbol, hroots, hundefined, rfl⟩)
    · rename_i hgrounded
      rw [undefined?_eq_none_iff] at hgrounded
      exact .inr (.inr ⟨hroots, hgrounded, rfl⟩)

theorem fault?_eq_none_iff : fault? roots ps = none ↔ Lawful roots ps := by
  constructor
  · intro h
    obtain ⟨root, -, hfault⟩ | ⟨rule, symbol, -, -, hfault⟩ | ⟨hroots, hgrounded, hfault⟩ :=
      fault?_cases roots ps
    · cases hfault.symm.trans h
    · cases hfault.symm.trans h
    · rw [h, eq_comm, Option.map_eq_none_iff, unreached?_eq_none_iff hgrounded] at hfault
      exact ⟨hroots, hgrounded, hfault⟩
  · intro h
    rw [fault?, find?_roots_eq_none_iff.mpr h.produced, undefined?_eq_none_iff.mpr h.grounded,
      (unreached?_eq_none_iff h.grounded).mpr h.reached]
    rfl

theorem find?_roots_eq_some_iff {root : ν} :
    roots.find? (!defined ps ·) = some root ↔ FirstFault roots ps (.missingRoot root) := by
  rw [List.find?_eq_some_iff_append, FirstFault]
  simp only [Bool.not_eq_true', Bool.not_not, defined_iff, ← Bool.not_eq_true]
  constructor
  · rintro ⟨hroot, front, back, hroots, hfront⟩
    exact ⟨front, back, hroots, hfront, hroot⟩
  · rintro ⟨front, back, hroots, hfront, hroot⟩
    exact ⟨hroot, front, back, hroots, hfront⟩

theorem firstFault_of_fault? {e : GrammarError ν} (h : fault? roots ps = some e) :
    FirstFault roots ps e := by
  obtain ⟨root, hroot, hfault⟩ | ⟨rule, symbol, hroots, hundefined, hfault⟩ |
    ⟨hroots, hgrounded, hfault⟩ := fault?_cases roots ps
  · cases hfault.symm.trans h
    exact find?_roots_eq_some_iff.mp hroot
  · cases hfault.symm.trans h
    exact ⟨hroots, undefined?_eq_some_iff.mp hundefined⟩
  · obtain ⟨rule, hrule, rfl⟩ := Option.map_eq_some_iff.mp (hfault.symm.trans h)
    exact ⟨hroots, hgrounded, (unreached?_eq_some_iff hgrounded).mp hrule⟩

theorem fault?_of_firstFault {e : GrammarError ν} (h : FirstFault roots ps e) :
    fault? roots ps = some e := by
  cases e with
  | missingRoot root => rw [fault?, find?_roots_eq_some_iff.mpr h]
  | undefinedNonterminal rule symbol =>
    obtain ⟨hroots, hundefined⟩ := h
    rw [fault?, find?_roots_eq_none_iff.mpr hroots, undefined?_eq_some_iff.mpr hundefined]
  | unreachableRule rule =>
    obtain ⟨hroots, hgrounded, hunreached⟩ := h
    rw [fault?, find?_roots_eq_none_iff.mpr hroots, undefined?_eq_none_iff.mpr hgrounded,
      (unreached?_eq_some_iff hgrounded).mpr hunreached]
    rfl

end Production

namespace Grammar

open Production

variable [DecidableEq ν] {g : Grammar ν τ ρ} {roots : List ν}
  {rules : List (Production ν τ ρ)} {name : ν}

theorem ofRules_eq_ok_iff :
    ofRules roots rules = .ok g ↔ g.roots = roots ∧ g.productions.toList = rules := by
  rw [ofRules]
  split
  · rename_i hfault
    constructor
    · rintro ⟨⟩
      exact ⟨rfl, rfl⟩
    · rintro ⟨rfl, rfl⟩
      rfl
  · rename_i e hfault
    constructor
    · rintro ⟨⟩
    · rintro ⟨rfl, rfl⟩
      cases hfault.symm.trans g.faultless

theorem ofRules_eq_error_iff {e : GrammarError ν} :
    ofRules roots rules = .error e ↔ fault? roots rules = some e := by
  rw [ofRules]
  split
  · rename_i hfault
    simp [hfault]
  · rename_i hfault
    simp [hfault]

theorem exists_ofRules_iff : (∃ g, ofRules roots rules = .ok g) ↔ Lawful roots rules := by
  rw [← fault?_eq_none_iff]
  constructor
  · rintro ⟨g, hg⟩
    obtain ⟨rfl, rfl⟩ := ofRules_eq_ok_iff.mp hg
    exact g.faultless
  · intro hfault
    exact ⟨⟨roots, rules.toArray, hfault⟩, ofRules_eq_ok_iff.mpr ⟨rfl, rfl⟩⟩

theorem producing_ne_nil {form : List (Symbol ν τ)} (h : g.Grounded form)
    (hname : .nonterminal name ∈ form) : g.producing name ≠ [] := by
  obtain ⟨p, hp⟩ := h name hname
  exact List.ne_nil_of_mem (mem_producing.mpr hp)

theorem producing_awaited_ne_nil {item : Item} (h : item.symbol? g = some (.nonterminal name)) :
    g.producing name ≠ [] := by
  have hmem : Symbol.nonterminal name ∈ g.rhs item.production := List.mem_of_getElem? h
  cases hlhs : g.lhs? item.production with
  | some outer => exact producing_ne_nil (grounded_rhs hlhs) hmem
  | none =>
    rw [rhs, Option.map_eq_none_iff.mp hlhs] at hmem
    cases hmem

/-- A rule set is a grammar just when it has no fault, and otherwise the first fault is named.
While names are reached, and when a grammar is parsed with, every name that is looked up has a
production. -/
theorem ofRules_exact (roots : List ν) (rules : List (Production ν τ ρ)) :
    ((∃ g, ofRules roots rules = .ok g) ↔ Lawful roots rules) ∧
      (∀ e, ofRules roots rules = .error e ↔ FirstFault roots rules e) ∧
      ((∀ root ∈ roots, Produced rules root) → (∀ p ∈ rules, Production.Grounded rules p.rhs) →
        ∀ n, ∀ name ∈ reachedIn rules n roots, Produced rules name) ∧
      ∀ g, ofRules roots rules = .ok g →
        g.roots = roots ∧ g.productions.toList = rules ∧
          (∀ root ∈ g.roots, g.producing root ≠ []) ∧
          ∀ (item : Item) (name : ν), item.symbol? g = some (.nonterminal name) →
            g.producing name ≠ [] := by
  refine ⟨exists_ofRules_iff, ?_, ?_, ?_⟩
  · intro e
    rw [ofRules_eq_error_iff]
    exact ⟨firstFault_of_fault?, fault?_of_firstFault⟩
  · intro hroots hgrounded n name hname
    have hreached : Reached roots rules name :=
      reached_of_mem_reachedIn (fun _ hroot => .root hroot) hname
    exact hreached.produced hroots hgrounded
  · intro g hg
    obtain ⟨hroots, hrules⟩ := ofRules_eq_ok_iff.mp hg
    refine ⟨hroots, hrules, ?_, fun item name => producing_awaited_ne_nil⟩
    intro root hroot
    exact producing_ne_nil (grounded_root hroot) List.mem_cons_self

def islandRules : List (Production Nat Unit Nat) :=
  [⟨0, [.terminal (), .nonterminal 0], fun _ => .ok 0⟩, ⟨0, [], fun _ => .ok 0⟩,
    ⟨1, [.nonterminal 2], fun _ => .ok 1⟩,
    ⟨2, [.nonterminal 1, .nonterminal 0], fun _ => .ok 2⟩]

/-- The island is refused by its first production; with a root of its own on it, the same rules
are a grammar, in which what any item awaits has a production. -/
theorem islandRules_exact :
    FirstFault [0] islandRules (.unreachableRule 1) ∧ Lawful [0, 2] islandRules ∧
      ∃ g, ofRules [0, 2] islandRules = .ok g ∧ g.producing 2 = [3] ∧
        ∀ (item : Item) (name : Nat), item.symbol? g = some (.nonterminal name) →
          g.producing name ≠ [] := by
  obtain ⟨-, hfaults, -, -⟩ := ofRules_exact [0] islandRules
  obtain ⟨hlawful, -, -, hlookups⟩ := ofRules_exact [0, 2] islandRules
  refine ⟨(hfaults _).mp rfl, hlawful.mp ⟨_, rfl⟩, _, rfl, rfl, ?_⟩
  exact (hlookups _ rfl).2.2.2

end Grammar

end Fabula
