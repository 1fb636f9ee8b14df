import Fabula.Proofs.Grammar.Layers

namespace Fabula

variable {ν τ ρ : Type}

def Symbol.isTerminal : Symbol ν τ → Bool
  | .terminal _ => true
  | .nonterminal _ => false

namespace Layers

variable {L : Layers ν τ} {tokens : Array (Token τ)} {α β : List (Symbol ν τ)} {i j k : Nat}

section Apart

variable [DecidableEq τ]

/-- Going through both in step, the tokens differ at some place, or only one of them ends. -/
def clash (L : Layers ν τ) : List (Symbol ν τ) → List (Symbol ν τ) → Bool
  | [], [] => false
  | [], _ :: _ => true
  | _ :: _, [] => true
  | .terminal t :: α, .terminal u :: β => t ≠ u || L.clash α β
  | s :: _, s' :: _ => (L.outlineOf s).first.all fun t => !(L.outlineOf s').first.contains t

def endApart (L : Layers ν τ) (α β : List (Symbol ν τ)) : Bool :=
  α ≠ [] && β ≠ [] && (L.lasts α).all fun t => !(L.lasts β).contains t

/-- The first has plain tokens only and the second some foreign one. -/
def plainer (L : Layers ν τ) (α β : List (Symbol ν τ)) : Bool :=
  (α.all fun s => (L.outlineOf s).plain) && β.any fun s => (L.outlineOf s).foreign

def outranks (L : Layers ν τ) (α β : List (Symbol ν τ)) : Bool :=
  0 < L.sureOf α && L.balanced 0 β && L.low (L.sureOf α - 1) β

def differ (L : Layers ν τ) (α β : List (Symbol ν τ)) : Bool :=
  match L.operator? α, L.operator? β with
  | some t, some u => L.rank t = L.rank u && t ≠ u
  | _, _ => false

def apart (L : Layers ν τ) (α β : List (Symbol ν τ)) : Bool :=
  L.clash α β || L.endApart α β || L.plainer α β || L.plainer β α || L.outranks α β ||
    L.outranks β α || L.differ α β

theorem not_clash (h : L.Tiles tokens α i k) (h' : L.Tiles tokens β i k) :
    L.clash α β = false := by
  fun_induction clash L α β generalizing i with
  | case1 => rfl
  | case2 s β =>
    cases h
    obtain ⟨j, hs, hrest⟩ := h'.cons
    have := hs.lt
    have := hrest.le
    omega
  | case3 s α =>
    cases h'
    obtain ⟨j, hs, hrest⟩ := h.cons
    have := hs.lt
    have := hrest.le
    omega
  | case4 t α u β ih =>
    cases h with
    | token ht rest =>
      cases h' with
      | token hu rest' =>
        rw [ht] at hu
        cases hu
        simpa using ih rest rest'
  | case5 s α s' β =>
    obtain ⟨_, hs, _⟩ := h.cons
    obtain ⟨_, hs', _⟩ := h'.cons
    obtain ⟨t, hmem, ht⟩ := hs.first
    obtain ⟨u, hmem', hu⟩ := hs'.first
    rw [ht] at hu
    cases hu
    simp only [List.all_eq_false]
    exact ⟨t, hmem, by simpa using hmem'⟩

theorem not_endApart (h : L.Tiles tokens α i k) (h' : L.Tiles tokens β i k) :
    L.endApart α β = false := by
  rw [Bool.eq_false_iff]
  intro he
  simp only [endApart, Bool.and_eq_true, decide_eq_true_eq] at he
  obtain ⟨⟨hα, hβ⟩, hall⟩ := he
  obtain ⟨t, hmem, ht⟩ := h.last hα
  obtain ⟨u, hmem', hu⟩ := h'.last hβ
  rw [ht] at hu
  cases hu
  have := List.all_eq_true.mp hall t hmem
  simp [hmem'] at this

omit [DecidableEq τ] in
theorem not_plainer (h : L.Tiles tokens α i k) (h' : L.Tiles tokens β i k) :
    L.plainer α β = false := by
  rw [Bool.eq_false_iff]
  intro hp
  simp only [plainer, Bool.and_eq_true] at hp
  obtain ⟨m, t, him, hmk, ht, hno⟩ := h'.foreign (List.any_eq_true.mp hp.2)
  obtain ⟨u, hu, hyes⟩ := h.plain (List.all_eq_true.mp hp.1) him hmk
  rw [ht] at hu
  cases hu
  rw [hno] at hyes
  cases hyes

omit [DecidableEq τ] in
theorem not_outranks (h : L.Tiles tokens α i k) (h' : L.Tiles tokens β i k) :
    L.outranks α β = false := by
  rw [Bool.eq_false_iff]
  intro ho
  simp only [outranks, Bool.and_eq_true, decide_eq_true_eq] at ho
  obtain ⟨m, him, hmk, hm, hle⟩ := h.sure ho.1.1
  have hle' := h'.mark_le_of_low ho.1.2 ho.2 him hmk hm
  omega

theorem not_differ (h : L.Tiles tokens α i k) (h' : L.Tiles tokens β i k) :
    L.differ α β = false := by
  rw [Bool.eq_false_iff]
  intro hd
  unfold differ at hd
  split at hd
  · rename_i t u ht hu
    simp only [Bool.and_eq_true, decide_eq_true_eq] at hd
    obtain ⟨m, htag, hm⟩ := h.splitsAt ht
    obtain ⟨m', htag', hm'⟩ := h'.splitsAt hu
    rw [← hd.1] at hm'
    obtain rfl := hm.unique hm'
    rw [htag] at htag'
    exact hd.2 (Option.some.inj htag')
  · cases hd

theorem not_apart (h : L.Tiles tokens α i k) (h' : L.Tiles tokens β i k) :
    L.apart α β = false := by
  simp [apart, not_clash h h', not_endApart h h', not_plainer h h', not_plainer h' h,
    not_outranks h h', not_outranks h' h, not_differ h h']

end Apart

/-- The borders between the symbols are known: at most one of them is a non-terminal, or they
are two operands with an operator between them. -/
def settled (L : Layers ν τ) : List (Symbol ν τ) → Bool
  | [] => true
  | .terminal _ :: rest => L.settled rest
  | .nonterminal x :: rest =>
    rest.all Symbol.isTerminal || (L.operator? (.nonterminal x :: rest)).isSome

/-- Outlines that agree with all productions of a grammar and tell those of each non-terminal
apart. -/
structure Separates [DecidableEq ν] [DecidableEq τ] (L : Layers ν τ)
    (g : Grammar ν τ ρ) : Prop where
  accepts : ∀ p ∈ g.productions.toList, L.accepts p = true
  settled : ∀ p ∈ g.productions.toList, L.settled p.rhs = true
  apart : g.productions.toList.Pairwise fun p q => p.lhs = q.lhs → L.apart p.rhs q.rhs = true

instance [DecidableEq ν] [DecidableEq τ] (L : Layers ν τ) (g : Grammar ν τ ρ) :
    Decidable (L.Separates g) :=
  decidable_of_iff
    ((∀ p ∈ g.productions.toList, L.accepts p = true) ∧
      (∀ p ∈ g.productions.toList, L.settled p.rhs = true) ∧
      g.productions.toList.Pairwise fun p q => p.lhs = q.lhs → L.apart p.rhs q.rhs = true)
    ⟨fun h => ⟨h.1, h.2.1, h.2.2⟩, fun h => ⟨h.accepts, h.settled, h.apart⟩⟩

namespace Separates

variable [DecidableEq ν] [DecidableEq τ] {g : Grammar ν τ ρ} {symbols : List (Symbol ν τ)}
  {trees trees' : List Derivation} {p q : Nat} {name : ν}

theorem settled_rhs (h : L.Separates g) (produced : g.lhs? p = some name) :
    L.settled (g.rhs p) = true := by
  obtain ⟨q, hmem, -, hrhs⟩ := g.exists_production produced
  rw [hrhs]
  exact h.settled q hmem

theorem production_unique (h : L.Separates g) (hp : g.lhs? p = some name)
    (hq : g.lhs? q = some name) (hd : Derives g tokens (g.rhs p) trees i k)
    (hd' : Derives g tokens (g.rhs q) trees' i k) : p = q := by
  have ht := Tiles.of_derives h.accepts hd
  have ht' := Tiles.of_derives h.accepts hd'
  obtain ⟨a, ha, hlhs⟩ := Option.map_eq_some_iff.mp hp
  obtain ⟨b, hb, hlhs'⟩ := Option.map_eq_some_iff.mp hq
  rw [Grammar.rhs, ha] at ht
  rw [Grammar.rhs, hb] at ht'
  obtain ⟨hpl, rfl⟩ := Array.getElem?_eq_some_iff.mp ha
  obtain ⟨hql, rfl⟩ := Array.getElem?_eq_some_iff.mp hb
  have hapart := List.pairwise_iff_getElem.mp h.apart
  rcases Nat.lt_trichotomy p q with hlt | heq | hgt
  · have := hapart p q hpl hql hlt (hlhs.trans hlhs'.symm)
    simp [not_apart ht ht'] at this
  · exact heq
  · have := hapart q p hql hpl hgt (hlhs'.trans hlhs.symm)
    simp [not_apart ht' ht] at this

omit [DecidableEq τ] in
theorem end_of_terminals (h : Derives g tokens symbols trees j k)
    (hs : symbols.all Symbol.isTerminal = true) : k = j + symbols.length := by
  induction h with
  | nil => rfl
  | token matched rest ih =>
    simp only [List.all_cons, Bool.and_eq_true] at hs
    rw [ih hs.2, List.length_cons]
    omega
  | rule produced inner rest =>
    simp [Symbol.isTerminal] at hs

omit [DecidableEq ν] [DecidableEq τ] in
theorem settled_of_terminals (hs : symbols.all Symbol.isTerminal = true) :
    L.settled symbols = true := by
  induction symbols with
  | nil => rfl
  | cons s rest ih =>
    simp only [List.all_cons, Bool.and_eq_true] at hs
    cases s with
    | terminal t => exact ih hs.2
    | nonterminal x => simp [Symbol.isTerminal] at hs

theorem border_unique (h : L.Separates g) {d d' : Derivation} {j' : Nat}
    (hs : L.settled (.nonterminal name :: symbols) = true)
    (hp : Derives g tokens [.nonterminal name] [d] i j)
    (hrest : Derives g tokens symbols trees j k)
    (hp' : Derives g tokens [.nonterminal name] [d'] i j')
    (hrest' : Derives g tokens symbols trees' j' k) : j = j' ∧ L.settled symbols = true := by
  simp only [Layers.settled, Bool.or_eq_true] at hs
  rcases hs with hall | ho
  · -- Only terminals follow, so the border is found by counting back from the end.
    have hk := end_of_terminals hrest hall
    have hk' := end_of_terminals hrest' hall
    exact ⟨by omega, settled_of_terminals hall⟩
  · -- An operator follows, and only one operator can split the tokens.
    obtain ⟨t, ho⟩ := Option.isSome_iff_exists.mp ho
    have hreads {d : Derivation} {j : Nat} (hd : Derives g tokens [.nonterminal name] [d] i j) :
        L.Reads tokens (.nonterminal name) i j := by
      obtain ⟨j₀, hreads, hnil⟩ := (Tiles.of_derives h.accepts hd).cons
      cases hnil
      exact hreads
    have hm := (Tiles.of_derives h.accepts hrest).splitsAt_border (hreads hp) ho
    have hm' := (Tiles.of_derives h.accepts hrest').splitsAt_border (hreads hp') ho
    obtain ⟨x, y, he, -⟩ := operator?_eq_some ho
    cases he
    exact ⟨hm.2.unique hm'.2, rfl⟩

/-- In a grammar that is told apart by outlines, symbols with known borders have one
derivation. -/
theorem derives_unique (h : L.Separates g) (hs : L.settled symbols = true)
    (hd : Derives g tokens symbols trees i k) (hd' : Derives g tokens symbols trees' i k) :
    trees = trees' := by
  induction hd generalizing trees' with
  | nil => exact (Derives.nil_iff.mp hd').1.symm
  | token matched rest ih =>
    cases hd' with
    | token matched' rest' => rw [ih hs rest']
  | @rule p name symbols children trees i j k produced inner rest ihInner ihRest =>
    cases hd' with
    | @rule p' _ _ children' trees' _ j' _ produced' inner' rest' =>
      -- First the border, then the production: telling productions apart needs both ends.
      obtain ⟨rfl, hrest⟩ := h.border_unique hs (.rule produced inner .nil) rest
        (.rule produced' inner' .nil) rest'
      obtain rfl := h.production_unique produced produced' inner inner'
      rw [ihInner (h.settled_rhs produced) inner', ihRest hrest rest']

theorem derivations_subsingleton (h : L.Separates g) (name : ν) (tokens : List (Token τ)) :
    (g.derivations name tokens).Subsingleton := by
  intro d hd d' hd'
  have hs : L.settled [Symbol.nonterminal (τ := τ) name] = true := rfl
  simpa using h.derives_unique hs hd hd'

end Separates

end Layers

end Fabula
