import Fabula.Proofs.Grammar.Links
import Mathlib

namespace Fabula

variable {ν τ ρ : Type} [DecidableEq ν]

open Relation

def Grammar.Predicts (g : Grammar ν τ ρ) (root : ν) (tokens : Array (Token τ)) (name : ν)
    (o : Nat) : Prop :=
  ∃ before after trees,
    ReflTransGen (Rewrites g) [.nonterminal root] (before ++ .nonterminal name :: after) ∧
    Derives g tokens before trees 0 o

namespace Grammar.Predicts

variable {g : Grammar ν τ ρ} {root name inner : ν} {tokens : Array (Token τ)} {p o c : Nat}
  {front back : List (Symbol ν τ)} {trees : List Derivation}

theorem start (g : Grammar ν τ ρ) (root : ν) (tokens : Array (Token τ)) :
    g.Predicts root tokens root 0 :=
  ⟨[], [], [], .refl, .nil⟩

theorem within (h : g.Predicts root tokens name o) (produced : g.lhs? p = some name)
    (hrhs : g.rhs p = front ++ .nonterminal inner :: back)
    (hd : Derives g tokens front trees o c) : g.Predicts root tokens inner c := by
  obtain ⟨before, after, lead, hform, hlead⟩ := h
  have hstep := hform.tail (.step before after produced)
  rw [hrhs] at hstep
  exact ⟨before ++ front, back ++ after, lead ++ trees, by simpa using hstep, hlead.append hd⟩

end Grammar.Predicts

theorem Item.rhs_eq {g : Grammar ν τ ρ} {i : Item} {s : Symbol ν τ} (h : i.symbol? g = some s) :
    g.rhs i.production =
      (g.rhs i.production).take i.dot ++ s :: (g.rhs i.production).drop (i.dot + 1) := by
  have hdrop := List.take_append_drop (i.dot + 1) (g.rhs i.production)
  rw [take_advance h] at hdrop
  simpa using hdrop.symm

theorem append_eq_append_cons {α : Type} {front back before after : List α} {s : α}
    (h : front ++ back = before ++ s :: after) :
    (∃ rest, front = before ++ s :: rest ∧ after = rest ++ back) ∨
      ∃ lead, before = front ++ lead ∧ back = lead ++ s :: after := by
  rcases List.append_eq_append_iff.mp h with ⟨lead, hbefore, hback⟩ | ⟨rest, hfront, hafter⟩
  · exact .inr ⟨lead, hbefore, hback⟩
  · cases rest with
    | nil => exact .inr ⟨[], by simpa using hfront.symm, hafter.symm⟩
    | cons s' rest =>
      cases hafter
      exact .inl ⟨rest, hfront, rfl⟩

namespace Chart

variable {g : Grammar ν τ ρ} {root name : ν} {tokens : Array (Token τ)} {chart : Chart}
  {a : Address}
  {e : Entry} {item : Item} {p c o : Nat}

theorem mem_column_iff : (∃ e ∈ chart.column c, e.item = item) ↔ chart.Holds c item none := by
  constructor
  · rintro ⟨e, he, hi⟩
    obtain ⟨i, hget⟩ := Array.mem_iff_getElem?.mp he
    exact ⟨⟨c, i⟩, e, hget, rfl, hi, by simp⟩
  · rintro ⟨a, e, he, rfl, hi, -⟩
    exact ⟨e, Array.mem_of_getElem? he, hi⟩

theorem Built.predicts (h : Built g root tokens chart) (ha : chart.entryAt? a = some e)
    (hn : g.lhs? e.item.production = some name) :
    g.Predicts root tokens name e.item.origin := by
  induction h generalizing a e name with
  | empty => exact (not_entryAt?_empty ha).elim
  | @add chart sources x built just ih =>
    obtain ⟨e₀, he₀, hi⟩ | ⟨rfl, rfl, -⟩ := entryAt?_add_item ha
    · rw [hi] at hn ⊢
      exact ih he₀ hn
    · cases just with
      | root produced =>
        cases produced.symm.trans hn
        exact .start g root tokens
      | predict entry awaited produced =>
        cases produced.symm.trans hn
        have hs := built.spans entry
        obtain ⟨outer, houter⟩ := Option.isSome_iff_exists.mp hs.produced
        obtain ⟨trees, hd⟩ := hs.derives
        exact (ih entry houter).within houter (Item.rhs_eq awaited) hd
      | scan entry awaited matched =>
        have hp := ih entry hn
        exact hp
      | complete entry awaited done ended produced meets =>
        have hp := ih entry hn
        exact hp

namespace Exact

theorem begun_of_predicts (h : Exact g root tokens chart) (hp : g.Predicts root tokens name o)
    (produced : g.lhs? p = some name) : chart.Holds o (.begin p o) none := by
  obtain ⟨before, after, trees, hform, hd⟩ := hp
  generalize hwhole : before ++ Symbol.nonterminal name :: after = form at hform
  -- The non-terminal came into the form with the last step, or it stood there before.
  induction hform generalizing before after name o trees p with
  | refl =>
    obtain ⟨rfl, rfl, rfl⟩ : before = [] ∧ name = root ∧ after = [] := by
      simpa [List.append_eq_singleton_iff] using hwhole
    obtain ⟨-, rfl⟩ := Derives.nil_iff.mp hd
    exact h.closed _ _ (.root produced)
  | tail _ hstep ih =>
    cases hstep with
    | @step q outer front back houter =>
      rcases append_eq_append_cons hwhole.symm with ⟨rest, hleft, rfl⟩ | ⟨lead, rfl, rfl⟩
      · rcases append_eq_append_cons hleft with ⟨rest', rfl, rfl⟩ | ⟨lead, rfl, hrhs⟩
        · exact ih produced before (rest' ++ .nonterminal outer :: back) trees hd (by simp)
        · obtain ⟨first, second, k, rfl, hfirst, hsecond⟩ := hd.split
          have hbegun := ih houter front back first hfirst rfl
          have hdrop :
              (g.rhs q).drop (Item.begin q k).dot = lead ++ .nonterminal name :: rest := by
            simpa [Item.begin] using hrhs
          obtain ⟨b, f, hf, rfl, hi, -⟩ := h.holds_of_derives hsecond hbegun hdrop
          have hawaits : f.item.symbol? g = some (.nonterminal name) := by
            rw [hi]
            simp [Item.symbol?, Item.begin, hrhs]
          exact h.closed _ _ (.predict hf hawaits produced)
      · obtain ⟨left, third, k, rfl, hleft, hthird⟩ := hd.split
        obtain ⟨first, second, j, rfl, hfirst, hsecond⟩ := hleft.split
        exact ih produced _ after _ (hfirst.append (.rule houter hsecond hthird)) (by simp)

theorem holds_iff (h : Exact g root tokens chart) :
    chart.Holds c item none ↔ item.Spans g tokens c ∧
      ∃ name, g.lhs? item.production = some name ∧ g.Predicts root tokens name item.origin := by
  constructor
  · rintro ⟨a, e, he, rfl, rfl, -⟩
    have hs := h.built.spans he
    obtain ⟨name, hname⟩ := Option.isSome_iff_exists.mp hs.produced
    exact ⟨hs, name, hname, h.built.predicts he hname⟩
  · rintro ⟨hs, name, hname, hp⟩
    obtain ⟨trees, hd⟩ := hs.derives
    have hdrop : (g.rhs item.production).drop (Item.begin item.production item.origin).dot =
        (g.rhs item.production).take item.dot ++ (g.rhs item.production).drop item.dot := by
      simp [Item.begin]
    have hholds := h.holds_of_derives hd (h.begun_of_predicts hp hname) hdrop
    simpa [Item.begin, Nat.min_eq_left hs.dot_le] using hholds

end Exact

/-- The chart of a token list holds exactly the items that follow from the grammar, whether or
not it is cyclic, each with exactly the links that the chart gives it. -/
theorem column_exact [DecidableEq τ] (g : Grammar ν τ ρ) (root : ν) (tokens : Array (Token τ)) :
    (∀ c item, (∃ e ∈ (ofTokens g root tokens).column c, e.item = item) ↔
      ∃ name, g.lhs? item.production = some name ∧ item.dot ≤ (g.rhs item.production).length ∧
        (∃ trees, Derives g tokens ((g.rhs item.production).take item.dot) trees
          item.origin c) ∧
        g.Predicts root tokens name item.origin) ∧
    ∀ a e, (ofTokens g root tokens).entryAt? a = some e →
      ∀ l, l ∈ e.links ↔ LinkReads g tokens (ofTokens g root tokens) a e l := by
  have h := exact_ofTokens g root tokens
  constructor
  · intro c item
    rw [mem_column_iff, h.holds_iff]
    constructor
    · rintro ⟨hs, name, hname, hp⟩
      exact ⟨name, hname, hs.dot_le, hs.derives, hp⟩
    · rintro ⟨name, hname, hdot, hd, hp⟩
      exact ⟨⟨Option.isSome_iff_exists.mpr ⟨name, hname⟩, hdot, hd⟩, name, hname, hp⟩
  · intro a e ha l
    exact h.mem_links_iff ha

end Chart

end Fabula
