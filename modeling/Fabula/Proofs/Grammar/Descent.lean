import Fabula.Proofs.Grammar.Links
import Mathlib.Data.Fintype.EquivFin

namespace Fabula

open Relation

variable {ν τ ρ : Type} [DecidableEq ν]

theorem Grammar.wellFounded_exposes {g : Grammar ν τ ρ} {P : ν → Prop}
    (h : ∀ name, P name → ¬TransGen (Rewrites g) [.nonterminal name] [.nonterminal name]) :
    WellFounded fun q p : Fin g.productions.size =>
      P g.productions[p].lhs ∧ TransGen g.Exposes g.productions[p].lhs g.productions[q].lhs :=
  haveI : IsTrans (Fin g.productions.size) fun q p =>
      P g.productions[p].lhs ∧ TransGen g.Exposes g.productions[p].lhs g.productions[q].lhs :=
    ⟨fun _ _ _ hab hbc => ⟨hbc.1, hbc.2.trans hab.2⟩⟩
  haveI : Std.Irrefl fun q p : Fin g.productions.size =>
      P g.productions[p].lhs ∧ TransGen g.Exposes g.productions[p].lhs g.productions[q].lhs :=
    ⟨fun p hp => h g.productions[p].lhs hp.1 (transGen_of_exposes hp.2)⟩
  Finite.wellFounded_of_trans_of_irrefl _

namespace Chart

variable {g : Grammar ν τ ρ} {root : ν} {tokens : Array (Token τ)} {chart : Chart}
  {a b : Address} {e f : Entry}

/-- A link of the first entry names the second. -/
def LeadsTo (chart : Chart) (a b : Address) : Prop :=
  ∃ e l, chart.entryAt? a = some e ∧ l ∈ e.links ∧ (b = l.previous ∨ l.piece = .item b)

theorem Built.leadsTo_cases (h : Built g root tokens chart) (ha : chart.entryAt? a = some e)
    (hl : chart.LeadsTo a b) :
    ∃ f, chart.entryAt? b = some f ∧
      ((∃ s, f.item.symbol? g = some s ∧ e.item = f.item.advance ∧
          (b.column < a.column ∨ b.column = a.column ∧ g.Vanishes [s])) ∨
        (f.item.symbol? g = none ∧ b.column = a.column ∧
          (e.item.origin < f.item.origin ∨ e.item.origin = f.item.origin ∧
            ∃ d name, e.item.dot = d + 1 ∧
              (g.rhs e.item.production)[d]? = some (.nonterminal name) ∧
              g.lhs? f.item.production = some name ∧
              g.Vanishes ((g.rhs e.item.production).take d)))) := by
  obtain ⟨e', l, he', hl, hb⟩ := hl
  rw [ha] at he'
  cases he'
  cases h.link_reads ha hl with
  | @scan b f tag entry awaited matched column item =>
    obtain rfl | hb := hb
    · exact ⟨f, entry, .inl ⟨_, awaited, item, .inl (by omega)⟩⟩
    · cases hb
  | @complete b d f e₁ name entry awaited done ended produced meets column item =>
    have hspans := h.spans entry
    have hdone := h.spans done
    have hle := hdone.origin_le
    obtain rfl | hb := hb
    · refine ⟨f, entry, .inl ⟨_, awaited, item, ?_⟩⟩
      rcases Nat.lt_or_eq_of_le (meets ▸ hle) with hlt | heq
      · exact .inl (by omega)
      · obtain ⟨t, ht⟩ := hdone.ended ended produced
        exact .inr ⟨heq.trans column.symm, Rewrites.vanishes ht (heq.symm.trans meets.symm)⟩
    · cases hb
      refine ⟨e₁, done, .inr ⟨ended, column.symm, ?_⟩⟩
      have horigin : e.item.origin = f.item.origin := by rw [item, Item.advance]
      rcases Nat.lt_or_eq_of_le hspans.origin_le with hlt | heq
      · exact .inl (by omega)
      · refine .inr ⟨by omega, f.item.dot, name, by rw [item, Item.advance], ?_, produced, ?_⟩
        · rw [item]
          exact awaited
        · obtain ⟨trees, ht⟩ := hspans.derives
          rw [item]
          exact Rewrites.vanishes ht heq.symm

section Width

-- Of the entries of one width, those that matter are productions of the non-terminals in `P`.
variable {P : ν → Prop} {w : Nat}
  (hP : ∀ name, P name → ¬TransGen (Rewrites g) [.nonterminal name] [.nonterminal name])
  (hw : ∀ name, (w = 0 → g.Vanishes [.nonterminal name]) → P name)
  (h : Built g root tokens chart)
  (hnarrow : ∀ a e, chart.entryAt? a = some e → a.column - e.item.origin < w →
    Acc (fun b a => chart.LeadsTo a b) a)

include hP hw h hnarrow

/-- Entries of the width `w` whose remaining symbols vanish, once narrower entries are done
with. The outer induction is on the production along the non-terminals it exposes, the inner one
on the dot. -/
theorem acc_of_vanishing (p : Fin g.productions.size) :
    ∀ a e, chart.entryAt? a = some e → e.item.production = p → a.column - e.item.origin = w →
      g.Vanishes ((g.rhs e.item.production).drop e.item.dot) →
      Acc (fun b a => chart.LeadsTo a b) a := by
  induction p using (Grammar.wellFounded_exposes hP).induction with
  | _ p ihp =>
  intro a e ha hp hwidth hvanish
  induction hd : e.item.dot using Nat.strong_induction_on generalizing a e with
  | _ d ihd =>
  refine Acc.intro a fun b hb => ?_
  obtain ⟨f, hf, ⟨s, hs, hi, hcol⟩ | ⟨hended, hcol, horigin⟩⟩ := h.leadsTo_cases ha hb
  · have horigin : e.item.origin = f.item.origin := by rw [hi, Item.advance]
    have hle := (h.spans hf).origin_le
    rcases hcol with hlt | ⟨hcol, hsv⟩
    · exact hnarrow b f hf (by omega)
    · -- The same width with the dot one symbol back: that symbol vanishes as well.
      have hdrop : (g.rhs f.item.production).drop f.item.dot =
          s :: (g.rhs e.item.production).drop e.item.dot := by
        rw [hi, Item.advance, List.drop_eq_getElem_cons (List.getElem?_eq_some_iff.mp hs).1,
          (List.getElem?_eq_some_iff.mp hs).2]
      have hdot : e.item.dot = f.item.dot + 1 := by rw [hi, Item.advance]
      refine ihd f.item.dot (by omega) b f hf ?_ (by omega) ?_ rfl
      · rw [← hp, hi, Item.advance]
      · rw [hdrop]
        exact Rewrites.vanishes_cons hsv hvanish
  · rcases horigin with hlt | ⟨heq, d', name, hdot, hsym, hname, hfront⟩
    · have hle := (h.spans hf).origin_le
      exact hnarrow b f hf (by omega)
    · -- The same width by a completed entry: its non-terminal is exposed in this production.
      obtain ⟨q, hq, hqn⟩ := Option.map_eq_some_iff.mp hname
      obtain ⟨hlt, hqe⟩ := Array.getElem?_eq_some_iff.mp hq
      have hparts : g.rhs e.item.production = (g.rhs e.item.production).take d' ++
          .nonterminal name :: (g.rhs e.item.production).drop e.item.dot := by
        have hlt' := (List.getElem?_eq_some_iff.mp hsym).1
        rw [hdot, ← (List.getElem?_eq_some_iff.mp hsym).2, ← List.drop_eq_getElem_cons hlt',
          List.take_append_drop]
      have hproduced : g.lhs? p = some g.productions[p].lhs := by simp [Grammar.lhs?]
      have hexposes : g.Exposes g.productions[p].lhs name :=
        ⟨p, _, _, hproduced, hp ▸ hparts, hfront, hvanish⟩
      -- What spans nothing has derived nothing before its dot either.
      have hlhs : P g.productions[p].lhs := by
        refine hw _ fun hzero => Rewrites.vanishes_of_rhs hproduced ?_
        obtain ⟨trees, ht⟩ := (h.spans ha).derives
        have hle := (h.spans ha).origin_le
        rw [← hp, ← List.take_append_drop e.item.dot (g.rhs e.item.production)]
        exact Rewrites.vanishes_append (Rewrites.vanishes ht (by omega)) hvanish
      refine ihp ⟨f.item.production, hlt⟩ ?_ b f hf rfl (by omega) ?_
      · simp only [Fin.getElem_fin, hqe, hqn]
        exact ⟨hlhs, .single hexposes⟩
      · rw [(h.spans hf).dot_of_ended hended, List.drop_length]
        exact .refl

theorem acc_of_width (a : Address) (e : Entry) (ha : chart.entryAt? a = some e)
    (hwidth : a.column - e.item.origin = w) : Acc (fun b a => chart.LeadsTo a b) a := by
  induction hd : e.item.dot using Nat.strong_induction_on generalizing a e with
  | _ d ihd =>
  refine Acc.intro a fun b hb => ?_
  obtain ⟨f, hf, ⟨s, hs, hi, hcol⟩ | ⟨hended, hcol, horigin⟩⟩ := h.leadsTo_cases ha hb
  · have horigin : e.item.origin = f.item.origin := by rw [hi, Item.advance]
    have hdot : e.item.dot = f.item.dot + 1 := by rw [hi, Item.advance]
    have hle := (h.spans hf).origin_le
    rcases hcol with hlt | ⟨hcol, -⟩
    · exact hnarrow b f hf (by omega)
    · exact ihd f.item.dot (by omega) b f hf (by omega) rfl
  · have hle := (h.spans hf).origin_le
    rcases horigin with hlt | ⟨heq, -⟩
    · exact hnarrow b f hf (by omega)
    · obtain ⟨name, hname⟩ := Option.isSome_iff_exists.mp (h.spans hf).produced
      obtain ⟨q, hq, -⟩ := Option.map_eq_some_iff.mp hname
      have hlt := (Array.getElem?_eq_some_iff.mp hq).1
      refine acc_of_vanishing hP hw h hnarrow ⟨f.item.production, hlt⟩ b f hf rfl (by omega) ?_
      rw [(h.spans hf).dot_of_ended hended, List.drop_length]
      exact .refl

end Width

theorem acc_leadsTo (hg : g.Acyclic) (h : Built g root tokens chart) (a : Address) (e : Entry)
    (ha : chart.entryAt? a = some e) : Acc (fun b a => chart.LeadsTo a b) a := by
  induction hw : a.column - e.item.origin using Nat.strong_induction_on generalizing a e with
  | _ w ihw =>
  refine acc_of_width (P := fun _ => True) (fun name _ => hg name) (fun _ _ => trivial) h
    ?_ a e ha hw
  intro b f hf hlt
  exact ihw _ hlt b f hf rfl

def Void (chart : Chart) (a : Address) : Prop :=
  ∃ e, chart.entryAt? a = some e ∧ e.item.origin = a.column

theorem Void.acc_leadsTo (hg : g.VanishesAcyclically) (h : Built g root tokens chart)
    (ha : chart.Void a) : Acc (fun b a => chart.LeadsTo a b) a := by
  obtain ⟨e, he, hspan⟩ := ha
  exact acc_of_width hg (fun name hname => hname rfl) h
    (fun _ _ _ hlt => absurd hlt (Nat.not_lt_zero _))
    a e he (by omega)

end Chart

end Fabula
