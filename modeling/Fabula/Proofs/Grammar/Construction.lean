import Fabula.Proofs.Grammar.Reduction
import Fabula.Proofs.Grammar.Visiting
import Mathlib

namespace Fabula

open Relation

theorem reaches_of_stuck {α : Type} {R : α → α → Prop} (hR : Relator.RightUnique R)
    {a b stop : α} (hb : ReflTransGen R a b) (hstop : ReflTransGen R a stop)
    (hend : ∀ c, ¬R stop c) : ReflTransGen R b stop := by
  rcases ReflTransGen.total_of_right_unique hR hb hstop with h | h
  · exact h
  · rcases ReflTransGen.cases_head h with rfl | ⟨c, hc, -⟩
    · exact .refl
    · exact absurd hc (hend c)

variable {ν τ ρ : Type} [DecidableEq ν]

def Link.Anchored (chart : Chart) (l : Link) : Prop :=
  ∀ b ∈ l.targets, ∃ e, chart.entryAt? b = some e

namespace Chart

variable {g : Grammar ν τ ρ} {root : ν} {tokens : Array (Token τ)} {chart chart' : Chart}
  {sources : List Address} {x : Addition} {l : Link} {c : Nat}

theorem exists_entryAt? {e : Entry} (he : e ∈ chart.column c) :
    ∃ i, chart.entryAt? ⟨c, i⟩ = some e := by
  obtain ⟨i, hi, rfl⟩ := Array.mem_iff_getElem.mp he
  exact ⟨i, entryAt?_eq_getElem hi⟩

theorem Extends.column_size_le (h : chart.Extends chart') (c : Nat) :
    (chart.column c).size ≤ (chart'.column c).size := by
  refine Nat.le_of_not_lt fun hlt => ?_
  obtain ⟨e, he, -⟩ := h _ _ (entryAt?_eq_getElem hlt)
  exact Nat.lt_irrefl _ (Array.getElem?_eq_some_iff.mp he).1

theorem Justifies.anchored (h : Justifies g root tokens chart sources x)
    (hl : x.link = some l) : l.Anchored chart := by
  intro b hb
  rw [Link.mem_targets] at hb
  cases h with
  | root => cases hl
  | predict => cases hl
  | scan entry =>
    cases hl
    rcases hb with rfl | hb
    · exact ⟨_, entry⟩
    · cases hb
  | complete entry awaited done =>
    cases hl
    rcases hb with rfl | hb
    · exact ⟨_, entry⟩
    · cases hb
      exact ⟨_, done⟩

/-- What a chart keeps at every moment: the items of a column differ, each has its dot in the
right-hand side of its production and began at the column or before, there are no more of them
than such items, and the links of an entry differ and name entries of the chart. -/
structure Tidy (g : Grammar ν τ ρ) (chart : Chart) : Prop where
  items : ∀ c, ((chart.column c).toList.map (·.item)).Nodup
  within : ∀ c, ∀ e ∈ chart.column c, ∃ p, g.productions[e.item.production]? = some p ∧
    e.item.dot ≤ p.rhs.length ∧ e.item.origin ≤ c
  size : ∀ c, (chart.column c).size ≤ (c + 1) * g.dottedCount
  links : ∀ c, ∀ e ∈ chart.column c, e.links.Nodup
  anchored : ∀ c, ∀ e ∈ chart.column c, ∀ l ∈ e.links, l.Anchored chart

theorem Built.tidy (h : Built g root tokens chart) : chart.Tidy g where
  items := h.items_nodup
  within c e he := by
    obtain ⟨i, hi⟩ := exists_entryAt? he
    have hs := h.spans hi
    obtain ⟨name, hname⟩ := Option.isSome_iff_exists.mp hs.produced
    obtain ⟨p, hp, -⟩ := Grammar.lhs?_eq_some_iff.mp hname
    exact ⟨p, hp, Grammar.rhs_eq hp ▸ hs.dot_le, hs.origin_le⟩
  size := h.column_size_le
  links c e he := by
    obtain ⟨i, hi⟩ := exists_entryAt? he
    exact h.links_nodup hi
  anchored c e he l hl := by
    obtain ⟨i, hi⟩ := exists_entryAt? he
    obtain ⟨sources, just⟩ := h.link_justified hi hl
    exact just.anchored rfl

end Chart

/-- A moment of the construction: the chart, the column that is being closed, the index of its
entry that is treated next, and what the entry treated last has still to add. -/
structure Construction where
  chart : Chart
  column : Nat
  next : Nat
  pending : List Addition

namespace Construction

def start (g : Grammar ν τ ρ) (root : ν) (tokens : Array (Token τ)) : Construction :=
  ⟨⟨Array.replicate (tokens.size + 1) #[]⟩, 0, 0,
    (g.producing root).map fun p => ⟨0, .begin p 0, none⟩⟩

variable [DecidableEq τ]

/-- Add what is pending; then treat the next entry of the column, as long as there is one; then
go on to the next column. Nothing follows the last column. -/
def step (g : Grammar ν τ ρ) (tokens : Array (Token τ)) (s : Construction) :
    Option Construction :=
  match s.pending with
  | x :: xs => some { s with chart := s.chart.add x.column x.item x.link, pending := xs }
  | [] =>
    if s.next < (s.chart.column s.column).size then
      some { s with
        next := s.next + 1
        pending := s.chart.additions g tokens ⟨s.column, s.next⟩ }
    else if s.column < tokens.size then some { s with column := s.column + 1, next := 0 }
    else none

def Step (g : Grammar ν τ ρ) (tokens : Array (Token τ)) (s s' : Construction) : Prop :=
  s.step g tokens = some s'

variable {g : Grammar ν τ ρ} {root : ν} {tokens : Array (Token τ)} {s s' : Construction}
  {chart : Chart} {c i n : Nat} {x : Addition} {xs : List Addition}

theorem step_add :
    Step g tokens ⟨chart, c, i, x :: xs⟩ ⟨chart.add x.column x.item x.link, c, i, xs⟩ :=
  rfl

theorem step_treat (hi : i < (chart.column c).size) :
    Step g tokens ⟨chart, c, i, []⟩ ⟨chart, c, i + 1, chart.additions g tokens ⟨c, i⟩⟩ := by
  simp only [Step, step, hi, if_true]

theorem step_next (hi : (chart.column c).size ≤ i) (hc : c < tokens.size) :
    Step g tokens ⟨chart, c, i, []⟩ ⟨chart, c + 1, 0, []⟩ := by
  simp only [Step, step, Nat.not_lt.mpr hi, hc, if_true, if_false]

theorem step_last (hi : (chart.column c).size ≤ i) (hc : tokens.size ≤ c) :
    step g tokens ⟨chart, c, i, []⟩ = none := by
  simp only [step, Nat.not_lt.mpr hi, Nat.not_lt.mpr hc, if_false]

theorem step_cases (h : Step g tokens s s') :
    (∃ x xs, s.pending = x :: xs ∧
        s' = { s with chart := s.chart.add x.column x.item x.link, pending := xs }) ∨
      (s.pending = [] ∧ s.next < (s.chart.column s.column).size ∧
        s' = { s with
          next := s.next + 1
          pending := s.chart.additions g tokens ⟨s.column, s.next⟩ }) ∨
      (s.pending = [] ∧ (s.chart.column s.column).size ≤ s.next ∧ s.column < tokens.size ∧
        s' = { s with column := s.column + 1, next := 0 }) := by
  obtain ⟨chart, c, i, pending⟩ := s
  cases pending with
  | cons x xs =>
    rw [Step, step] at h
    exact .inl ⟨x, xs, rfl, (Option.some.inj h).symm⟩
  | nil =>
    by_cases hi : i < (chart.column c).size
    · have hs : Step g tokens _ _ := step_treat hi
      rw [Step] at h hs
      exact .inr (.inl ⟨rfl, hi, Option.some.inj (h.symm.trans hs)⟩)
    · have hi := Nat.le_of_not_lt hi
      by_cases hc : c < tokens.size
      · have hs : Step g tokens _ _ := step_next hi hc
        rw [Step] at h hs
        exact .inr (.inr ⟨rfl, hi, hc, Option.some.inj (h.symm.trans hs)⟩)
      · rw [Step, step_last hi (Nat.le_of_not_lt hc)] at h
        cases h

/-- What holds at every moment: the chart was built by the rules, what is pending follows from
its entries, and the entry treated next lies in the column or right after its end. -/
structure Sound (g : Grammar ν τ ρ) (root : ν) (tokens : Array (Token τ))
    (s : Construction) : Prop where
  built : s.chart.Built g root tokens
  justified : ∀ x ∈ s.pending, ∃ sources, s.chart.Justifies g root tokens sources x
  column_le : s.column ≤ tokens.size
  next_le : s.next ≤ (s.chart.column s.column).size

namespace Sound

omit [DecidableEq τ] in
theorem start (g : Grammar ν τ ρ) (root : ν) (tokens : Array (Token τ)) :
    (start g root tokens).Sound g root tokens where
  built := .empty
  justified x hx := by
    obtain ⟨p, hp, rfl⟩ := List.mem_map.mp hx
    exact ⟨_, .root (Grammar.mem_producing.mp hp)⟩
  column_le := Nat.zero_le _
  next_le := Nat.zero_le _

theorem step (h : s.Sound g root tokens) (hs : Step g tokens s s') :
    s'.Sound g root tokens := by
  rcases step_cases hs with ⟨x, xs, hp, rfl⟩ | ⟨-, hi, rfl⟩ | ⟨hp, -, hc, rfl⟩
  · have hext := Chart.Extends.add s.chart x.column x.item x.link
    obtain ⟨sources, just⟩ := h.justified x (by simp [hp])
    refine ⟨h.built.add just, ?_, h.column_le, Nat.le_trans h.next_le (hext.column_size_le _)⟩
    intro y hy
    obtain ⟨sources', just'⟩ := h.justified y (by simp [hp, hy])
    exact ⟨sources', just'.extend hext⟩
  · exact ⟨h.built, fun x hx => Chart.additions_justified hx, h.column_le, hi⟩
  · exact ⟨h.built, h.justified, hc, Nat.zero_le _⟩

theorem of_reaches (h : s.Sound g root tokens) (hr : ReflTransGen (Step g tokens) s s') :
    s'.Sound g root tokens := by
  induction hr with
  | refl => exact h
  | tail _ hs ih => exact ih.step hs

end Sound

section Ending

theorem reaches_addAll (chart : Chart) (xs : List Addition) :
    ReflTransGen (Step g tokens) ⟨chart, c, i, xs⟩ ⟨chart.addAll xs, c, i, []⟩ := by
  induction xs generalizing chart with
  | nil => exact .refl
  | cons x xs ih => exact .head step_add (ih _)

theorem reaches_treat (hi : i < (chart.column c).size) :
    ReflTransGen (Step g tokens) ⟨chart, c, i, []⟩
      ⟨chart.treat g tokens ⟨c, i⟩, c, i + 1, []⟩ := by
  rw [Chart.treat_eq_addAll]
  exact .head (step_treat hi) (reaches_addAll _ _)

theorem reaches_closeFrom (h : Chart.Stage g root tokens ⟨c, i⟩ chart)
    (hn : (c + 1) * g.dottedCount ≤ n + i) :
    ∃ j, ((Chart.closeFrom g tokens c n i chart).column c).size ≤ j ∧
      ReflTransGen (Step g tokens) ⟨chart, c, i, []⟩
        ⟨Chart.closeFrom g tokens c n i chart, c, j, []⟩ := by
  -- The column has no room for more entries than the bound, so the index passes its end before.
  induction n generalizing i chart with
  | zero =>
    have hle := h.built.column_size_le c
    exact ⟨i, by simp only [Chart.closeFrom]; omega, .refl⟩
  | succ n ih =>
    unfold Chart.closeFrom
    split
    · rename_i hi
      obtain ⟨j, hj, hr⟩ := ih (h.treat hi) (by omega)
      exact ⟨j, hj, (reaches_treat hi).trans hr⟩
    · rename_i hi
      exact ⟨i, Nat.le_of_not_lt hi, .refl⟩

theorem reaches_seed (g : Grammar ν τ ρ) (root : ν) (tokens : Array (Token τ)) :
    ReflTransGen (Step g tokens) (start g root tokens)
      ⟨Chart.seed g root tokens.size, 0, 0, []⟩ := by
  have hseed : Chart.seed g root tokens.size =
      Chart.addAll ⟨Array.replicate (tokens.size + 1) #[]⟩
        ((g.producing root).map fun p => ⟨0, .begin p 0, none⟩) := by
    simp only [Chart.seed, Chart.addAll, List.foldl_map]
  rw [hseed]
  exact reaches_addAll _ _

theorem reaches_column (g : Grammar ν τ ρ) (root : ν) (tokens : Array (Token τ))
    (hc : c ≤ tokens.size) :
    ReflTransGen (Step g tokens) (start g root tokens)
      ⟨(List.range c).foldl (Chart.close g tokens) (Chart.seed g root tokens.size), c,
        0, []⟩ := by
  induction c with
  | zero => exact reaches_seed g root tokens
  | succ c ih =>
    obtain ⟨j, hj, hr⟩ :=
      reaches_closeFrom (Chart.Stage.closeAll g root tokens c) (Nat.le_refl _)
    rw [List.range_succ, List.foldl_append]
    exact ((ih (Nat.le_of_succ_le hc)).trans hr).tail (step_next hj hc)

theorem reaches_ofTokens (g : Grammar ν τ ρ) (root : ν) (tokens : Array (Token τ)) :
    ∃ s, ReflTransGen (Step g tokens) (start g root tokens) s ∧ s.step g tokens = none ∧
      s.chart = Chart.ofTokens g root tokens := by
  obtain ⟨j, hj, hr⟩ :=
    reaches_closeFrom (Chart.Stage.closeAll g root tokens tokens.size) (Nat.le_refl _)
  refine ⟨_, (reaches_column g root tokens (Nat.le_refl _)).trans hr,
    step_last hj (Nat.le_refl _), ?_⟩
  rw [Chart.ofTokens, List.range_succ, List.foldl_append]
  rfl

end Ending

/-- The construction of a chart comes to its end, which is the chart of the token list, from
every moment. At every moment the chart is tidy, the index has not passed the end of the column,
and the links that are to be added name entries that stand in the chart before. -/
theorem ends_tidy (g : Grammar ν τ ρ) (root : ν) (tokens : Array (Token τ)) :
    ∃ stop : Construction, stop.step g tokens = none ∧
      stop.chart = Chart.ofTokens g root tokens ∧
      ∀ s, ReflTransGen (Step g tokens) (start g root tokens) s →
        ReflTransGen (Step g tokens) s stop ∧ s.chart.Tidy g ∧
          s.next ≤ (s.chart.column s.column).size ∧
          ∀ x ∈ s.pending, ∀ l, x.link = some l → l.Anchored s.chart := by
  obtain ⟨stop, hstop, hend, hchart⟩ := reaches_ofTokens g root tokens
  have hunique : Relator.RightUnique (Step g tokens) := by
    intro s s₁ s₂ h₁ h₂
    exact Option.some.inj (h₁.symm.trans h₂)
  have hstuck : ∀ s, ¬Step g tokens stop s := by
    intro s hs
    rw [Step, hend] at hs
    cases hs
  refine ⟨stop, hend, hchart, fun s hs => ?_⟩
  have h := (Sound.start g root tokens).of_reaches hs
  refine ⟨reaches_of_stuck hunique hs hstop hstuck, h.built.tidy, h.next_le, ?_⟩
  intro x hx l hl
  obtain ⟨sources, just⟩ := h.justified x hx
  exact just.anchored hl

def echo : Grammar Unit Unit Unit where
  roots := [()]
  productions :=
    #[⟨(), [.nonterminal (), .nonterminal ()], fun _ => .ok ()⟩,
      ⟨(), [.nonterminal ()], fun _ => .ok ()⟩,
      ⟨(), [], fun _ => .ok ()⟩]
  faultless := by decide

/-- The chart of no tokens, in which each item can be reached through others and through itself,
is tidy, and its column has no room for a further item. -/
theorem echo_ends_tidy :
    (Chart.ofTokens echo () #[]).Tidy echo ∧
      ((Chart.ofTokens echo () #[]).column 0).size = (0 + 1) * echo.dottedCount := by
  obtain ⟨stop, -, hchart, h⟩ := ends_tidy echo () #[]
  have hstop := (h _ .refl).1
  exact ⟨hchart ▸ (h stop hstop).2.1, by decide +kernel⟩

end Construction

end Fabula
