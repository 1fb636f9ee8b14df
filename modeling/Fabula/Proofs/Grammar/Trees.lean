import Fabula.Grammar.Derivation
import Mathlib.Logic.Relation
import Mathlib.Data.Set.Subsingleton

namespace Fabula

variable {ν τ ρ : Type} [DecidableEq ν]

/-- The trees derive the tokens between two borders from the symbols, each tree from its own
symbol. -/
inductive Derives (g : Grammar ν τ ρ) (tokens : Array (Token τ)) :
    List (Symbol ν τ) → List Derivation → Nat → Nat → Prop where
  | nil {i : Nat} : Derives g tokens [] [] i i
  | token {tag : τ} {symbols : List (Symbol ν τ)} {trees : List Derivation} {i k : Nat}
      (matched : tokens[i]?.bind (·.tag) = some tag)
      (rest : Derives g tokens symbols trees (i + 1) k) :
      Derives g tokens (.terminal tag :: symbols) (.leaf i :: trees) i k
  | rule {p : Nat} {name : ν} {symbols : List (Symbol ν τ)} {children trees : List Derivation}
      {i j k : Nat} (produced : g.lhs? p = some name)
      (inner : Derives g tokens (g.rhs p) children i j)
        (rest : Derives g tokens symbols trees j k) :
      Derives g tokens (.nonterminal name :: symbols) (.node p children :: trees) i k

/-- The trees that derive a token list from a non-terminal. -/
def Grammar.derivations (g : Grammar ν τ ρ) (name : ν) (tokens : List (Token τ)) :
    Set Derivation :=
  {d | Derives g tokens.toArray [.nonterminal name] [d] 0 tokens.length}

namespace Derives

variable {g : Grammar ν τ ρ} {tokens : Array (Token τ)} {symbols more : List (Symbol ν τ)}
  {trees others : List Derivation} {i i' j k : Nat}

theorem le (h : Derives g tokens symbols trees i k) : i ≤ k := by
  induction h with
  | nil => exact Nat.le_refl _
  | token matched rest ih => exact Nat.le_of_succ_le ih
  | rule produced inner rest ihInner ihRest => exact Nat.le_trans ihInner ihRest

theorem length_eq (h : Derives g tokens symbols trees i k) : trees.length = symbols.length := by
  induction h with
  | nil => rfl
  | token matched rest ih => simp only [List.length_cons, ih]
  | rule produced inner rest ihInner ihRest => simp only [List.length_cons, ihRest]

theorem append (h : Derives g tokens symbols trees i j)
    (h' : Derives g tokens more others j k) :
    Derives g tokens (symbols ++ more) (trees ++ others) i k := by
  induction h with
  | nil => exact h'
  | token matched rest ih => exact .token matched (ih h')
  | rule produced inner rest ihInner ihRest => exact .rule produced inner (ihRest h')

/-- A derivation from two runs of symbols falls into one for each. -/
theorem split (h : Derives g tokens (symbols ++ more) trees i k) :
    ∃ front back j, trees = front ++ back ∧
      Derives g tokens symbols front i j ∧ Derives g tokens more back j k := by
  induction symbols generalizing trees i with
  | nil => exact ⟨[], trees, i, rfl, .nil, h⟩
  | cons s symbols ih =>
    cases h with
    | token matched rest =>
      obtain ⟨front, back, j, rfl, hf, hb⟩ := ih rest
      exact ⟨_ :: front, back, j, rfl, .token matched hf, hb⟩
    | rule produced inner rest =>
      obtain ⟨front, back, j, rfl, hf, hb⟩ := ih rest
      exact ⟨_ :: front, back, j, rfl, .rule produced inner hf, hb⟩

/-- Trees and the border where they end fix the border where they begin. -/
theorem start_unique (h : Derives g tokens symbols trees i k)
    (h' : Derives g tokens more trees i' k) : i = i' := by
  induction h generalizing more i' with
  | nil =>
    cases h'
    rfl
  | token matched rest ih =>
    cases h'
    rfl
  | rule produced inner rest ihInner ihRest =>
    cases h' with
    | rule produced' inner' rest' =>
      have he := ihRest rest'
      subst he
      exact ihInner inner'

theorem nil_iff : Derives g tokens [] trees i k ↔ trees = [] ∧ i = k := by
  constructor
  · intro h
    cases h
    exact ⟨rfl, rfl⟩
  · rintro ⟨rfl, rfl⟩
    exact .nil

theorem token_iff {tag : τ} {d : Derivation} :
    Derives g tokens [.terminal tag] [d] i k ↔
      tokens[i]?.bind (·.tag) = some tag ∧ d = .leaf i ∧ k = i + 1 := by
  constructor
  · intro h
    cases h with
    | token matched rest =>
      cases rest
      exact ⟨matched, rfl, rfl⟩
  · rintro ⟨matched, rfl, rfl⟩
    exact .token matched .nil

theorem rule_iff {name : ν} {d : Derivation} :
    Derives g tokens [.nonterminal name] [d] i k ↔
      ∃ p children, d = .node p children ∧ g.lhs? p = some name ∧
        Derives g tokens (g.rhs p) children i k := by
  constructor
  · intro h
    cases h with
    | rule produced inner rest =>
      cases rest
      exact ⟨_, _, rfl, produced, inner⟩
  · rintro ⟨p, children, rfl, produced, inner⟩
    exact .rule produced inner .nil

theorem snoc_iff {s : Symbol ν τ} :
    Derives g tokens (symbols ++ [s]) trees i k ↔
      ∃ front last j, trees = front ++ [last] ∧
        Derives g tokens symbols front i j ∧ Derives g tokens [s] [last] j k := by
  constructor
  · intro h
    obtain ⟨front, back, j, rfl, hf, hb⟩ := h.split
    obtain ⟨last, rfl⟩ := List.length_eq_one_iff.mp hb.length_eq
    exact ⟨front, last, j, rfl, hf, hb⟩
  · rintro ⟨front, last, j, rfl, hf, hl⟩
    exact hf.append hl

end Derives

inductive Rewrites (g : Grammar ν τ ρ) : List (Symbol ν τ) → List (Symbol ν τ) → Prop where
  | step {p : Nat} {name : ν} (before after : List (Symbol ν τ))
      (produced : g.lhs? p = some name) :
      Rewrites g (before ++ .nonterminal name :: after) (before ++ g.rhs p ++ after)

open Relation

def Grammar.Vanishes (g : Grammar ν τ ρ) (symbols : List (Symbol ν τ)) : Prop :=
  ReflTransGen (Rewrites g) symbols []

/-- No non-terminal derives itself in one or more steps. -/
def Grammar.Acyclic (g : Grammar ν τ ρ) : Prop :=
  ∀ name, ¬TransGen (Rewrites g) [.nonterminal name] [.nonterminal name]

/-- No non-terminal that can vanish derives itself in one or more steps. -/
def Grammar.VanishesAcyclically (g : Grammar ν τ ρ) : Prop :=
  ∀ name, g.Vanishes [.nonterminal name] →
    ¬TransGen (Rewrites g) [.nonterminal name] [.nonterminal name]

namespace Rewrites

variable {g : Grammar ν τ ρ} {tokens : Array (Token τ)} {symbols form form' : List (Symbol ν τ)}
  {trees : List Derivation} {i : Nat}

theorem of_singleton {name : ν} (h : Rewrites g [.nonterminal name] form) :
    ∃ p, g.lhs? p = some name ∧ form = g.rhs p := by
  obtain ⟨start, hstart⟩ : ∃ start, start = [Symbol.nonterminal (τ := τ) name] := ⟨_, rfl⟩
  rw [← hstart] at h
  cases h with
  | @step p name' before after produced =>
    obtain ⟨rfl, rfl, rfl⟩ : before = [] ∧ name' = name ∧ after = [] := by
      simpa [List.append_eq_singleton_iff] using hstart
    exact ⟨p, produced, by simp⟩

theorem frame (before after : List (Symbol ν τ)) (h : Rewrites g form form') :
    Rewrites g (before ++ form ++ after) (before ++ form' ++ after) := by
  cases h with
  | step inner outer produced =>
    simpa only [List.append_assoc, List.cons_append] using
      Rewrites.step (before ++ inner) (outer ++ after) produced

theorem frame_star (before after : List (Symbol ν τ))
    (h : ReflTransGen (Rewrites g) form form') :
    ReflTransGen (Rewrites g) (before ++ form ++ after) (before ++ form' ++ after) := by
  induction h with
  | refl => exact .refl
  | tail _ hs ih => exact .tail ih (hs.frame before after)

theorem vanishes {k : Nat} (h : Derives g tokens symbols trees i k) (he : k = i) :
    g.Vanishes symbols := by
  induction h with
  | nil => exact ReflTransGen.refl
  | token matched rest ih =>
    have hle := rest.le
    omega
  | @rule p name symbols children trees i j k produced inner rest ihInner ihRest =>
    have hj : j = i := Nat.le_antisymm (he ▸ rest.le) inner.le
    have hhead : Rewrites g (.nonterminal name :: symbols) (g.rhs p ++ symbols) :=
      .step [] symbols produced
    have hinner := frame_star [] symbols (ihInner hj)
    exact ReflTransGen.head hhead (hinner.trans (ihRest (he.trans hj.symm)))

theorem vanishes_append {more : List (Symbol ν τ)} (h : g.Vanishes symbols)
    (h' : g.Vanishes more) : g.Vanishes (symbols ++ more) := by
  have hfront := frame_star [] more h
  exact hfront.trans h'

theorem vanishes_cons {s : Symbol ν τ} (hs : g.Vanishes [s]) (h : g.Vanishes symbols) :
    g.Vanishes (s :: symbols) :=
  vanishes_append hs h

theorem vanishes_of_rhs {p : Nat} {name : ν} (produced : g.lhs? p = some name)
    (h : g.Vanishes (g.rhs p)) : g.Vanishes [.nonterminal name] := by
  have hstep : Rewrites g [.nonterminal name] (g.rhs p) := by
    simpa only [List.nil_append, List.append_nil] using Rewrites.step (g := g) [] [] produced
  exact ReflTransGen.head hstep h

end Rewrites

def Grammar.Exposes (g : Grammar ν τ ρ) (outer inner : ν) : Prop :=
  ∃ p before after, g.lhs? p = some outer ∧ g.rhs p = before ++ .nonterminal inner :: after ∧
    g.Vanishes before ∧ g.Vanishes after

theorem Grammar.Exposes.transGen {g : Grammar ν τ ρ} {outer inner : ν}
    (h : g.Exposes outer inner) :
    TransGen (Rewrites g) [.nonterminal outer] [.nonterminal inner] := by
  obtain ⟨p, before, after, produced, he, hb, ha⟩ := h
  have hstep : Rewrites g [.nonterminal outer] (before ++ .nonterminal inner :: after) := by
    simpa only [List.nil_append, List.append_nil, he] using
      Rewrites.step (g := g) [] [] produced
  have hfront := Rewrites.frame_star [] (.nonterminal inner :: after) hb
  have hback := Rewrites.frame_star [.nonterminal inner] [] ha
  simp only [List.nil_append, List.append_nil, List.singleton_append] at hfront hback
  exact .head' hstep (hfront.trans hback)

theorem Grammar.transGen_of_exposes {g : Grammar ν τ ρ} {outer inner : ν}
    (h : TransGen g.Exposes outer inner) :
    TransGen (Rewrites g) [.nonterminal outer] [.nonterminal inner] := by
  induction h with
  | single he => exact he.transGen
  | tail _ he ih => exact ih.trans he.transGen

theorem Grammar.exists_production {g : Grammar ν τ ρ} {p : Nat} {name : ν}
    (produced : g.lhs? p = some name) :
    ∃ q ∈ g.productions.toList, q.lhs = name ∧ g.rhs p = q.rhs := by
  obtain ⟨q, hq, rfl⟩ := Option.map_eq_some_iff.mp produced
  refine ⟨q, Array.mem_toList_iff.mpr (Array.mem_of_getElem? hq), rfl, ?_⟩
  rw [rhs, hq]

def Production.descends (rank : ν → Nat) (p : Production ν τ ρ) : Bool :=
  match p.rhs with
  | [] => false
  | [.nonterminal name] => rank name < rank p.lhs
  | _ => true

omit [DecidableEq ν] in
theorem Production.length_rhs_pos {rank : ν → Nat} {p : Production ν τ ρ}
    (h : p.descends rank = true) : 0 < p.rhs.length := by
  apply List.length_pos_iff.mpr
  intro hnil
  simp [descends, hnil] at h

def Grammar.Descends (g : Grammar ν τ ρ) (rank : ν → Nat) : Prop :=
  ∀ p ∈ g.productions.toList, p.descends rank = true

instance (g : Grammar ν τ ρ) (rank : ν → Nat) : Decidable (g.Descends rank) :=
  inferInstanceAs (Decidable (∀ p ∈ g.productions.toList, p.descends rank = true))

namespace Grammar.Descends

variable {g : Grammar ν τ ρ} {rank : ν → Nat} {tokens : Array (Token τ)}
  {symbols : List (Symbol ν τ)}
  {trees : List Derivation} {p i k : Nat} {name : ν}

theorem descends (h : g.Descends rank) (produced : g.lhs? p = some name) :
    ∃ q : Production ν τ ρ, q.lhs = name ∧ g.rhs p = q.rhs ∧ q.descends rank = true := by
  obtain ⟨q, hmem, hlhs, hrhs⟩ := g.exists_production produced
  exact ⟨q, hlhs, hrhs, h q hmem⟩

theorem length_le (h : g.Descends rank) (hd : Derives g tokens symbols trees i k) :
    i + symbols.length ≤ k := by
  induction hd with
  | nil => exact Nat.le_refl _
  | token matched rest ih =>
    simp only [List.length_cons]
    omega
  | rule produced inner rest ihInner ihRest =>
    obtain ⟨q, -, hq, hdesc⟩ := h.descends produced
    have hpos := Production.length_rhs_pos hdesc
    rw [hq] at ihInner
    simp only [List.length_cons]
    omega

/-- Forms that a non-terminal of the given rank can reach: longer ones, a token, or one of lower
rank. -/
def Lowered (rank : ν → Nat) (r : Nat) (form : List (Symbol ν τ)) : Prop :=
  2 ≤ form.length ∨ (∃ tag, form = [.terminal tag]) ∨ ∃ low, form = [.nonterminal low] ∧
    rank low < r

theorem lowered_rhs (h : g.Descends rank) (produced : g.lhs? p = some name) {r : Nat}
    (hr : rank name ≤ r) : Lowered rank r (g.rhs p) := by
  obtain ⟨q, rfl, hq, hdesc⟩ := h.descends produced
  rw [hq]
  unfold Production.descends at hdesc
  match hrhs : q.rhs with
  | [] => simp [hrhs] at hdesc
  | [.terminal tag] => exact .inr (.inl ⟨tag, rfl⟩)
  | [.nonterminal low] =>
    simp only [hrhs, decide_eq_true_eq] at hdesc
    exact .inr (.inr ⟨low, rfl, Nat.lt_of_lt_of_le hdesc hr⟩)
  | _ :: _ :: _ => exact .inl (by simp)

theorem lowered_step (h : g.Descends rank) {r : Nat} {form form' : List (Symbol ν τ)}
    (hform : Lowered rank r form) (hs : Rewrites g form form') : Lowered rank r form' := by
  rcases hform with hlen | ⟨tag, rfl⟩ | ⟨low, rfl, hlt⟩
  · obtain ⟨before, after, produced⟩ := hs
    obtain ⟨q, -, hq, hdesc⟩ := h.descends produced
    have hpos := Production.length_rhs_pos hdesc
    left
    simp only [List.length_append, List.length_cons, hq] at hlen ⊢
    omega
  · obtain ⟨form, hform⟩ : ∃ form, form = [Symbol.terminal tag] := ⟨_, rfl⟩
    rw [← hform] at hs
    obtain ⟨before, after, -⟩ := hs
    simp [List.append_eq_singleton_iff] at hform
  · obtain ⟨p, produced, rfl⟩ := hs.of_singleton
    exact h.lowered_rhs produced (Nat.le_of_lt hlt)

/-- Where every production descends, no non-terminal derives itself. -/
theorem acyclic (h : g.Descends rank) : g.Acyclic := by
  intro start hcycle
  -- Forms never get shorter, and while they are a single non-terminal its rank falls.
  have hform : ∀ form, TransGen (Rewrites g) [.nonterminal start] form →
      Lowered rank (rank start) form := by
    intro form hreach
    induction hreach with
    | single hs =>
      obtain ⟨p, produced, rfl⟩ := hs.of_singleton
      exact h.lowered_rhs produced (Nat.le_refl _)
    | tail _ hs ih => exact h.lowered_step ih hs
  rcases hform _ hcycle with hlen | ⟨tag, htag⟩ | ⟨low, hlow, hlt⟩
  · simp at hlen
  · simp at htag
  · simp only [List.cons.injEq, Symbol.nonterminal.injEq, and_true] at hlow
    rw [hlow] at hlt
    exact Nat.lt_irrefl _ hlt

end Grammar.Descends

end Fabula
