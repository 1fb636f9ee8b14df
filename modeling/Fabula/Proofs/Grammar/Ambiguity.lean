import Fabula.Proofs.Grammar.Constituents
import Fabula.Proofs.Grammar.Decision
import Fabula.Proofs.Grammar.Visiting

namespace Fabula

open Relation Fabula.Derivation

variable {ν τ ρ : Type} [DecidableEq ν]

theorem eq_of_encard_le_two {α : Type} {S T : Set α} (hS : S.encard ≤ 2) (hTS : T ⊆ S)
    (hT : T.Nontrivial) : T = S := by
  have htwo : 2 ≤ T.encard := Order.add_one_le_of_lt (Set.one_lt_encard_iff_nontrivial.mpr hT)
  have hfinite : T.Finite := Set.finite_of_encard_le_coe ((Set.encard_le_encard hTS).trans hS)
  exact hfinite.eq_of_subset_of_encard_le hTS (hS.trans htwo)

def Item.constituent (item : Item) (stop : Nat) : Constituent :=
  ⟨item.production, item.origin, stop⟩

namespace Chart

variable {g : Grammar ν τ ρ} {root : ν} {tokens : Array (Token τ)} {chart : Chart}
  {a b : Address}
  {e : Entry} {l : Link} {part : Constituent → Prop}

theorem mem_readings (ha : chart.entryAt? a = some e) (hended : e.item.symbol? g = none)
    {s : Sequence} :
    s ∈ chart.sequencesAt g tokens a ↔ s ∈ g.readings tokens (e.item.constituent a.column) := by
  rw [mem_sequencesAt ha, Item.take_of_ended hended]
  exact Iff.rfl

theorem Built.exists_sequence (h : Built g root tokens chart) (ha : chart.entryAt? a = some e) :
    ∃ s, s ∈ chart.sequencesAt g tokens a := by
  obtain ⟨s, hs⟩ := (h.spans ha).derives
  exact ⟨s, (mem_sequencesAt ha).mpr hs⟩

structure Feeds (g : Grammar ν τ ρ) (tokens : Array (Token τ)) (chart : Chart)
    (part : Constituent → Prop) (a : Address) (e : Entry) : Prop where
  inner : ∀ s ∈ chart.sequencesAt g tokens a, ∀ c ∈ constituentsAll s e.item.origin, part c
  whole : e.item.symbol? g = none → part (e.item.constituent a.column)

/-- The constituents of a completed entry's tree: the entry itself and those inside. -/
theorem constituents_node (ha : chart.entryAt? a = some e) (hended : e.item.symbol? g = none)
    {s : Sequence} (hs : s ∈ chart.sequencesAt g tokens a) :
    (node e.item.production s).constituents e.item.origin =
      e.item.constituent a.column :: constituentsAll s e.item.origin := by
  have hreading : Derives g tokens (g.rhs e.item.production) s e.item.origin a.column :=
    (mem_readings ha hended).mp hs
  exact hreading.constituents_node

theorem Built.feeds_of_trees (h : Built g root tokens chart) (ha : chart.entryAt? a = some e)
    (hended : e.item.symbol? g = none) (htrees : ∀ s ∈ chart.sequencesAt g tokens a,
      ∀ c ∈ (node e.item.production s).constituents e.item.origin, part c) :
    Feeds g tokens chart part a e := by
  have hparts : ∀ s ∈ chart.sequencesAt g tokens a,
      ∀ c ∈ e.item.constituent a.column :: constituentsAll s e.item.origin, part c := by
    intro s hs
    rw [← constituents_node ha hended hs]
    exact htrees s hs
  obtain ⟨children, hchildren⟩ := h.exists_sequence ha
  exact ⟨fun s hs c hc => hparts s hs c (List.mem_cons_of_mem _ hc),
    fun _ => hparts children hchildren _ List.mem_cons_self⟩

namespace LinkReads

theorem origin_eq {f : Entry} (h : LinkReads g tokens chart a e l)
    (hf : chart.entryAt? l.previous = some f) : e.item.origin = f.item.origin := by
  obtain ⟨f', s, hf', -, hi, -⟩ := h.derives
  cases hf.symm.trans hf'
  rw [hi, Item.advance]

theorem constituents_snoc (h : LinkReads g tokens chart a e l) {front : Sequence}
    (hfront : front ∈ chart.sequencesAt g tokens l.previous) (last : Derivation) :
    constituentsAll (front ++ [last]) e.item.origin =
      constituentsAll front e.item.origin ++ last.constituents l.previous.column := by
  obtain ⟨f, s, hf, -⟩ := h.derives
  have hstop := ((mem_sequencesAt hf).mp hfront).stop_eq
  rw [constituentsAll_append, constituentsAll_singleton, hstop, h.origin_eq hf]

theorem exists_tree (h : LinkReads g tokens chart a e l) (hb : Built g root tokens chart) :
    ∃ t, t ∈ chart.treesOf g tokens l.piece := by
  cases h with
  | scan => exact ⟨_, rfl⟩
  | complete _ _ done =>
    obtain ⟨s, hs⟩ := hb.exists_sequence done
    exact ⟨_, _, s, done, hs, rfl⟩

end LinkReads

theorem Built.feeds_leadsTo (h : Built g root tokens chart) (ha : chart.entryAt? a = some e)
    (hfeeds : Feeds g tokens chart part a e) (hl : chart.LeadsTo a b) :
    ∃ f, chart.entryAt? b = some f ∧ Feeds g tokens chart part b f := by
  obtain ⟨e', l, he', hl, hb⟩ := hl
  cases ha.symm.trans he'
  have hreads := h.link_reads ha hl
  have hvia {front : Sequence} {last : Derivation}
      (hfront : front ∈ chart.sequencesAt g tokens l.previous)
      (hlast : last ∈ chart.treesOf g tokens l.piece) :
      ∀ c ∈ constituentsAll front e.item.origin ++ last.constituents l.previous.column,
        part c := by
    rw [← hreads.constituents_snoc hfront last]
    exact hfeeds.inner _ (h.sequencesVia_subset ha hl ⟨front, last, hfront, hlast, rfl⟩)
  obtain ⟨f, symbol, hf, hsymbol, -⟩ := hreads.derives
  rcases hb with rfl | hb
  · -- Some tree of the piece completes any sequence of the previous entry.
    obtain ⟨last, hlast⟩ := hreads.exists_tree h
    refine ⟨f, hf, fun s hs c hc => ?_, fun hended => ?_⟩
    · rw [← hreads.origin_eq hf] at hc
      exact hvia hs hlast c (List.mem_append_left _ hc)
    · rw [hended] at hsymbol
      cases hsymbol
  · obtain ⟨front, hfront⟩ := h.exists_sequence hf
    cases hreads with
    | scan => cases hb
    | @complete _ _ _ e₁ _ _ _ done ended _ meets =>
      cases hb
      refine ⟨e₁, done, h.feeds_of_trees done ended ?_⟩
      rw [meets]
      intro s hs c hc
      exact hvia hfront ⟨e₁, s, done, hs, rfl⟩ c (List.mem_append_right _ hc)

theorem Exact.feeds_finals {list : List (Token τ)} (h : Exact g root list.toArray chart)
    (ha : a ∈ chart.finals g root list.toArray.size) :
    ∃ e, chart.entryAt? a = some e ∧ e.item.symbol? g = none ∧ e.item.origin = 0 ∧
      Feeds g list.toArray chart (g.TakesPart root list) a e := by
  obtain ⟨-, e, he, horigin, hended, -⟩ := mem_finals.mp ha
  refine ⟨e, he, hended, horigin, h.built.feeds_of_trees he hended ?_⟩
  rw [horigin]
  intro s hs c hc
  exact ⟨_, h.mem_derivations.mpr ⟨a, ha, e, s, he, hs, rfl⟩, hc⟩

end Chart

namespace Forest

variable {g : Grammar ν τ ρ} {root : ν} {tokens : Array (Token τ)} {chart : Chart}
  {f f' : Forest} {a : Address} {e : Entry} {l : Link} {part : Constituent → Prop}

/-- What the column noted by the walk means. As long as there is none, nothing forks in what has
been found; and it is where a part begins that has two readings in which nothing forks. -/
structure Locates (g : Grammar ν τ ρ) (tokens : Array (Token τ)) (chart : Chart)
    (part : Constituent → Prop) (f : Forest) : Prop where
  plain : f.ambiguousAt = none → ∀ a e, chart.entryAt? a = some e → ∀ s ∈ f.sequences a,
    g.Plain tokens (constituentsAll s e.item.origin)
  noted : ∀ column, f.ambiguousAt = some column →
    ∃ c, part c ∧ c.start = column ∧ (g.plainReadings tokens c).Nontrivial

theorem ambiguousAt_trees (h : (f.trees chart a).2.ambiguousAt = none) :
    f.ambiguousAt = none := by
  cases ha : chart.entryAt? a with
  | none => simpa only [trees, ha] using h
  | some e =>
    simp only [trees, ha] at h
    split at h
    · cases h
    · exact h

theorem ambiguousAt_pieces {p : Piece} (h : (f.pieces chart p).2.ambiguousAt = none) :
    f.ambiguousAt = none := by
  cases p with
  | token k => exact h
  | item b => exact ambiguousAt_trees h

theorem ambiguousAt_combine {links : List Link} {found : List Sequence}
    (h : (combine chart links found f).2.ambiguousAt = none) : f.ambiguousAt = none := by
  induction links generalizing found f with
  | nil => exact h
  | cons l links ih =>
    rw [combine_cons] at h
    split at h
    · exact h
    · exact ambiguousAt_pieces (ih h)

theorem Chain.ambiguousAt {R : Address → Forest → Forest → Prop} {as : List Address}
    (h : Chain R as f f')
    (hR : ∀ a f f', R a f f' → f'.ambiguousAt = none → f.ambiguousAt = none)
    (hnone : f'.ambiguousAt = none) : f.ambiguousAt = none := by
  induction h with
  | nil => exact hnone
  | cons first later ih => exact hR _ _ _ first (ih hnone)

theorem Resolves.ambiguousAt (hf : f.Fits chart) (hr : Resolves chart [.visit a] f f') :
    f'.ambiguousAt = none → f.ambiguousAt = none := by
  apply Resolves.visit_induction
    (motive := fun _ f f' => f'.ambiguousAt = none → f.ambiguousAt = none) ?idle ?begun
      ?enter hf hr
  case idle =>
    intro a f _ h
    exact h
  case begun =>
    intro a e f _ _ _ _ h
    exact h
  case enter =>
    intro a e f f₁ _ _ _ _ _ hchain h
    have hnone : f₁.ambiguousAt = none := ambiguousAt_combine h
    exact hchain.ambiguousAt (fun _ _ _ hR => hR.2.2) hnone

namespace Locates

theorem trees (h : f.Locates g tokens chart part) (hsound : f.Sound g tokens chart)
    (ha : chart.entryAt? a = some e) (hended : e.item.symbol? g = none) (hsettled : f.Settled a)
    (hpart : part (e.item.constituent a.column)) :
    (f.trees chart a).2.Locates g tokens chart part ∧
      ((f.trees chart a).2.ambiguousAt = none →
        ∀ t ∈ (f.trees chart a).1, g.Plain tokens (t.constituents e.item.origin)) := by
  have hsamples := hsound.sequences hsettled
  by_cases hnote : (f.sequences a).length ≥ derivationLimit ∧ f.ambiguousAt = none
  · obtain ⟨hlength, hnone⟩ := hnote
    have htrees : (f.trees chart a).2 = { f with ambiguousAt := some e.item.origin } := by
      simp [Forest.trees, ha, hlength, hnone]
    rw [htrees]
    refine ⟨⟨fun hnone => absurd hnone (by simp), ?_⟩, fun hnone => absurd hnone (by simp)⟩
    rintro column ⟨⟩
    refine ⟨_, hpart, rfl, ?_⟩
    have hplain {s : Sequence} (hs : s ∈ f.sequences a) :
        s ∈ g.plainReadings tokens (e.item.constituent a.column) :=
      ⟨(Chart.mem_readings ha hended).mp (hsamples.mem s hs), h.plain hnone a e ha s hs⟩
    exact hsamples.nontrivial hlength fun s hs => hplain hs
  · have htrees : (f.trees chart a).2 = f := by
      simp only [Forest.trees, ha, List.length_map]
      split
      · rename_i hfull
        simp only [Bool.and_eq_true, decide_eq_true_eq, Option.isNone_iff_eq_none] at hfull
        exact absurd hfull hnote
      · rfl
    rw [htrees]
    refine ⟨h, fun hnone t ht => ?_⟩
    have hlength : (f.sequences a).length < derivationLimit := by
      by_contra hge
      exact hnote ⟨Nat.le_of_not_lt hge, hnone⟩
    rw [trees_fst f ha] at ht
    obtain ⟨s, hs, rfl⟩ := List.mem_map.mp ht
    rw [Chart.constituents_node ha hended (hsamples.mem s hs)]
    refine List.forall_mem_cons.mpr ⟨?_, h.plain hnone a e ha s hs⟩
    intro hforks
    apply hforks.not_subsingleton
    intro x hx y hy
    exact hsamples.subsingleton hlength hlength ((Chart.mem_readings ha hended).mpr hx)
      ((Chart.mem_readings ha hended).mpr hy)

theorem pieces (h : f.Locates g tokens chart part) (hsound : f.Sound g tokens chart)
    (hb : chart.Built g root tokens) (ha : chart.entryAt? a = some e)
    (hfeeds : Chart.Feeds g tokens chart part a e) (hl : l ∈ e.links)
    (hready : Ready chart f l) :
    (f.pieces chart l.piece).2.Locates g tokens chart part ∧
      ((f.pieces chart l.piece).2.ambiguousAt = none →
        ∀ t ∈ (f.pieces chart l.piece).1,
        g.Plain tokens (t.constituents l.previous.column)) := by
  have hreads := hb.link_reads ha hl
  cases hreads with
  | scan =>
    refine ⟨h, fun _ t ht c hc => ?_⟩
    obtain rfl := List.mem_singleton.mp ht
    exact absurd hc List.not_mem_nil
  | @complete _ d _ e₁ _ _ _ done ended _ meets =>
    obtain ⟨e₂, he₂, hfed⟩ := hb.feeds_leadsTo ha hfeeds ⟨e, _, ha, hl, .inr rfl⟩
    cases done.symm.trans he₂
    rw [← meets]
    exact h.trees hsound done ended (hready.2 d rfl).1 (hfed.whole ended)

theorem combine (h : f.Locates g tokens chart part) (hsound : f.Sound g tokens chart)
    (hb : chart.Built g root tokens) (ha : chart.entryAt? a = some e)
    (hfeeds : Chart.Feeds g tokens chart part a e) {links : List Link} {found : List Sequence}
    (hlinks : ∀ l ∈ links, l ∈ e.links) (hready : ∀ l ∈ links, Ready chart f l)
    (hfound : f.ambiguousAt = none →
      ∀ s ∈ found, g.Plain tokens (constituentsAll s e.item.origin)) :
    (Forest.combine chart links found f).2.Locates g tokens chart part ∧
      ((Forest.combine chart links found f).2.ambiguousAt = none →
        ∀ s ∈ (Forest.combine chart links found f).1,
          g.Plain tokens (constituentsAll s e.item.origin)) := by
  induction links generalizing found f with
  | nil => exact ⟨h, hfound⟩
  | cons l links ih =>
    rw [combine_cons]
    split
    · exact ⟨h, hfound⟩
    · have hl := hlinks l List.mem_cons_self
      have hreadyl := hready l List.mem_cons_self
      have hreads := hb.link_reads ha hl
      have hstates := pieces_states f chart l.piece
      obtain ⟨hpieces, hplain⟩ := h.pieces hsound hb ha hfeeds hl hreadyl
      apply ih hpieces (hsound.of_states hstates.symm)
        (fun l' hl' => hlinks l' (List.mem_cons_of_mem _ hl'))
        (fun l' hl' => (hready l' (List.mem_cons_of_mem _ hl')).of_states hstates.symm)
      intro hnone s hs
      have hbefore := ambiguousAt_pieces hnone
      rcases List.mem_append.mp (List.mem_of_mem_take hs) with hs | hs
      · exact hfound hbefore s hs
      · obtain ⟨front, hfront, hs⟩ := List.mem_flatMap.mp hs
        obtain ⟨last, hlast, rfl⟩ := List.mem_map.mp hs
        obtain ⟨p, symbol, hp, -⟩ := hreads.derives
        rw [hreads.constituents_snoc ((hsound.sequences hreadyl.1).mem front hfront)]
        apply Grammar.Plain.append
        · rw [hreads.origin_eq hp]
          exact h.plain hbefore l.previous p hp front hfront
        · exact hplain hnone last hlast

theorem setStatus {s : Status} (h : f.Locates g tokens chart part) (hf : f.Fits chart)
    (ha : chart.entryAt? a = some e)
    (hs : f.ambiguousAt = none → ∀ found, s = .resolved found → ∀ x ∈ found,
      g.Plain tokens (constituentsAll x e.item.origin)) :
    (f.setStatus a s).Locates g tokens chart part := by
  refine ⟨fun hnone b e' hb x hx => ?_, h.noted⟩
  by_cases hab : b = a
  · subst hab
    cases ha.symm.trans hb
    unfold Forest.sequences at hx
    rw [status_setStatus_self hf ha] at hx
    cases s with
    | resolved found => exact hs hnone found rfl x hx
    | _ => exact absurd hx List.not_mem_nil
  · simp only [Forest.sequences, status_setStatus_of_ne hab] at hx
    exact h.plain hnone b e' hb x hx

theorem finish (h : f.Locates g tokens chart part) (hsound : f.Sound g tokens chart)
    (hb : chart.Built g root tokens) (ha : chart.entryAt? a = some e)
    (hfeeds : Chart.Feeds g tokens chart part a e) (hready : ∀ l ∈ e.links, Ready chart f l) :
    (f.finish chart a e).Locates g tokens chart part := by
  obtain ⟨hcombine, hplain⟩ := h.combine hsound hb ha hfeeds (fun l hl => hl) hready
    (fun _ s hs => absurd hs List.not_mem_nil)
  apply hcombine.setStatus (hsound.fits.of_states (combine_states chart e.links [] f).symm) ha
  rintro hnone found ⟨⟩
  exact hplain hnone

end Locates

/-- What a visit of an entry whose constituents are parts does to what is noted. As ever, only
entries above the visited one are active. -/
def Preserves (g : Grammar ν τ ρ) (tokens : Array (Token τ)) (chart : Chart)
    (part : Constituent → Prop) (a : Address) (f f' : Forest) : Prop :=
  ∀ e, chart.entryAt? a = some e → Chart.Feeds g tokens chart part a e →
    f.Sound g tokens chart →
    (∀ t, f.status t = .active → Below chart a t) → f.Locates g tokens chart part →
    f'.Locates g tokens chart part

theorem Chain.locates (hg : g.Acyclic) (hx : chart.Exact g root tokens)
    (ha : chart.entryAt? a = some e) (hfeeds : Chart.Feeds g tokens chart part a e)
    {as : List Address} (has : ∀ b ∈ as, chart.LeadsTo a b)
    (hchain : Chain (fun b f f' => f.Fits chart ∧ Resolves chart [.visit b] f f' ∧
      Preserves g tokens chart part b f f') as f f')
    (hsound : f.Sound g tokens chart)
    (hactive : ∀ t, f.status t = .active → t = a ∨ Below chart a t)
    (h : f.Locates g tokens chart part) :
    f'.Locates g tokens chart part ∧ f'.Sound g tokens chart ∧ Keeps f f' ∧
      ∀ b ∈ as, f'.Settled b := by
  induction hchain with
  | nil => exact ⟨h, hsound, .refl _, fun b hb => absurd hb List.not_mem_nil⟩
  | @cons b rest f f₁ f' first later ih =>
    obtain ⟨-, hr, hvisit⟩ := first
    have hb := has b List.mem_cons_self
    obtain ⟨e', he', hfed⟩ := hx.built.feeds_leadsTo ha hfeeds hb
    have habove := below_of_leadsTo hactive hb
    obtain ⟨hsound₁, hkeeps₁, hsettled⟩ := visited hg hx he' f f₁ hsound habove hr
    obtain ⟨hlocates, hsound', hkeeps, hall⟩ :=
      ih (fun c hc => has c (List.mem_cons_of_mem _ hc))
        hsound₁ (fun t ht => hactive t ((hkeeps₁.active t).mp ht))
          (hvisit e' he' hfed hsound habove h)
    refine ⟨hlocates, hsound', hkeeps₁.trans hkeeps, ?_⟩
    exact List.forall_mem_cons.mpr ⟨hkeeps.settled hsettled, hall⟩

theorem Resolves.preserves (hg : g.Acyclic) (hx : chart.Exact g root tokens) (hf : f.Fits chart)
    (hr : Resolves chart [.visit a] f f') : Preserves g tokens chart part a f f' := by
  apply Resolves.visit_induction (motive := Preserves g tokens chart part) ?idle ?begun
    ?enter hf hr
  case idle =>
    intro a f _ e _ _ _ _ h
    exact h
  case begun =>
    intro a e f hf ha _ _ _ _ _ _ _ h
    apply h.setStatus hf ha
    rintro _ found ⟨⟩ s hs c hc
    rw [List.mem_singleton.mp hs] at hc
    exact absurd hc List.not_mem_nil
  case enter =>
    intro a e f f₁ _ _ ha _ _ hchain e' ha' hfeeds hsound hactive h
    cases ha.symm.trans ha'
    have htargets : ∀ b ∈ e.links.flatMap Link.targets, chart.LeadsTo a b := by
      intro b hb
      obtain ⟨l, hl, hb⟩ := List.mem_flatMap.mp hb
      exact ⟨e, l, ha, hl, Link.mem_targets.mp hb⟩
    obtain ⟨hlocates, hsound₁, -, hsettled⟩ := hchain.locates hg hx ha hfeeds htargets
      (hsound.setStatus ha (by simp)) (active_setStatus hactive)
        (h.setStatus hsound.fits ha (by simp))
    apply hlocates.finish hsound₁ hx.built ha hfeeds
    intro l hl
    have htarget {b : Address} (hb : b ∈ l.targets) : f₁.Settled b :=
      hsettled b (List.mem_flatMap.mpr ⟨l, hl, hb⟩)
    refine ⟨htarget l.previous_mem_targets,
      fun b hb => ⟨htarget (Link.mem_targets.mpr (.inr hb)), ?_⟩⟩
    obtain ⟨e', he', -⟩ := hx.built.leadsTo_cases ha ⟨e, l, ha, hl, .inr hb⟩
    exact ⟨e', he'⟩

theorem Locates.derivations (hg : g.Acyclic) (hx : chart.Exact g root tokens)
    {entries : List Address} {found : List Derivation} (h : f.Locates g tokens chart part)
    (hsound : f.Sound g tokens chart) (hidle : ∀ t, f.status t ≠ .active)
    (hentries : ∀ a ∈ entries, ∃ e, chart.entryAt? a = some e ∧ e.item.symbol? g = none ∧
      e.item.origin = 0 ∧ Chart.Feeds g tokens chart part a e)
    (hfound : f.ambiguousAt = none → ∀ t ∈ found, g.Plain tokens (t.constituents 0)) :
    (Forest.derivations chart entries found f).2.Locates g tokens chart part ∧
      ((Forest.derivations chart entries found f).2.ambiguousAt = none →
        ∀ t ∈ (Forest.derivations chart entries found f).1,
        g.Plain tokens (t.constituents 0)) := by
  induction entries generalizing found f with
  | nil => exact ⟨h, hfound⟩
  | cons a entries ih =>
    obtain ⟨e, ha, hended, horigin, hfeeds⟩ := hentries a List.mem_cons_self
    have habove : ∀ t, f.status t = .active → Below chart a t := fun t ht => absurd ht (hidle t)
    have hr := resolves_resolve hsound.fits a
    obtain ⟨hsound₁, hkeeps, hsettled⟩ :=
      visited hg hx ha f (f.resolve chart a) hsound habove hr
    have hlocates := hr.preserves hg hx hsound.fits e ha hfeeds hsound habove h
    obtain ⟨htrees, hplain⟩ := hlocates.trees hsound₁ ha hended hsettled (hfeeds.whole hended)
    have hstates := trees_states (f.resolve chart a) chart a
    have hsum : ((f.resolve chart a).trees chart a).2.ambiguousAt = none →
        ∀ t ∈ found ++ ((f.resolve chart a).trees chart a).1,
          g.Plain tokens (t.constituents 0) := by
      intro hnone t ht
      rcases List.mem_append.mp ht with ht | ht
      · exact hfound (hr.ambiguousAt hsound.fits (ambiguousAt_trees hnone)) t ht
      · rw [← horigin]
        exact hplain hnone t ht
    simp only [Forest.derivations]
    split
    · exact ⟨htrees, hsum⟩
    · apply ih htrees (hsound₁.of_states hstates.symm) ?_
        (fun b hb => hentries b (List.mem_cons_of_mem _ hb)) hsum
      intro t ht
      rw [status_of_states hstates, hkeeps.active] at ht
      exact hidle t ht

theorem locates_ofChart (g : Grammar ν τ ρ) (tokens : Array (Token τ)) (chart : Chart)
    (part : Constituent → Prop) : (ofChart chart).Locates g tokens chart part := by
  refine ⟨fun _ a e _ s hs => ?_, fun column h => ?_⟩
  · simp [Forest.sequences, status_ofChart] at hs
  · cases h

end Forest

namespace Grammar

variable [DecidableEq τ] {g : Grammar ν τ ρ} {root name : ν} {tokens : List (Token τ)}
  {offset : Nat}

theorem parse_eq_ambiguous (h : g.parse root tokens = .error (.ambiguous name offset)) :
    ∃ forest, Forest.derivations (Chart.ofTokens g root tokens.toArray)
        ((Chart.ofTokens g root tokens.toArray).finals g root tokens.toArray.size) []
        (.ofChart (Chart.ofTokens g root tokens.toArray)) = (g.sampled root tokens, forest) ∧
      2 ≤ (g.sampled root tokens).length ∧
      offset = Token.offsetAt tokens.toArray (forest.ambiguousAt.getD 0) := by
  by_cases hr : root ∈ g.roots
  · simp only [parse, hr, if_true] at h
    simp only [sampled]
    split at h
    · cases h
    · obtain ⟨rule, message, he⟩ := reduce_error h
      cases he
    · rename_i trees forest hnil hone hforest
      cases h
      refine ⟨forest, by rw [hforest], ?_, rfl⟩
      rw [hforest]
      cases trees with
      | nil => exact (hnil rfl).elim
      | cons d trees =>
        cases trees with
        | nil => exact (hone d rfl).elim
        | cons => simp
  · simp only [parse, hr, if_false] at h
    cases h

/-- An ambiguity is reported where a constituent begins that has two readings in which nothing
forks; or at the first token, if the tokens have two derivations in which nothing forks. -/
theorem ambiguous_offset (hg : g.Acyclic)
    (h : g.parse root tokens = .error (.ambiguous name offset)) :
    (∃ c, g.TakesPart root tokens c ∧ (g.plainReadings tokens.toArray c).Nontrivial ∧
        offset = Token.offsetAt tokens.toArray c.start) ∨
      {d ∈ g.derivations root tokens | g.Plain tokens.toArray (d.constituents 0)}.Nontrivial ∧
        offset = Token.offsetAt tokens.toArray 0 := by
  obtain ⟨forest, hforest, hlength, rfl⟩ := parse_eq_ambiguous h
  have hx := Chart.exact_ofTokens g root tokens.toArray
  have hlocates :=
    (Forest.locates_ofChart g tokens.toArray _ (g.TakesPart root tokens)).derivations hg hx
      (Forest.sound_ofChart g tokens.toArray _) (by simp [Forest.status_ofChart])
      (fun a ha => hx.feeds_finals ha) (fun _ t ht => absurd ht List.not_mem_nil)
  rw [hforest] at hlocates
  obtain ⟨⟨-, hnoted⟩, hplain⟩ := hlocates
  cases hat : forest.ambiguousAt with
  | some column =>
    obtain ⟨c, hpart, hstart, hreadings⟩ := hnoted column hat
    exact .inl ⟨c, hpart, hreadings, by simp [hstart]⟩
  | none =>
    refine .inr ⟨?_, rfl⟩
    have hsamples := hg.samples root tokens
    exact hsamples.nontrivial hlength fun d hd => ⟨hsamples.mem d hd, hplain hat d hd⟩

def ForksInnermost (g : Grammar ν τ ρ) (tokens : Array (Token τ)) (c : Constituent) : Prop :=
  g.Forks tokens c ∧ ∀ s ∈ g.readings tokens c, g.Plain tokens (constituentsAll s c.start)

/-- The offset is where an innermost fork begins, or that of the first token if nothing
forks. -/
def Pinpoints (g : Grammar ν τ ρ) (root : ν) (tokens : List (Token τ)) (offset : Nat) : Prop :=
  (∃ c, g.TakesPart root tokens c ∧ g.ForksInnermost tokens.toArray c ∧
      offset = Token.offsetAt tokens.toArray c.start) ∨
    (∀ c, g.TakesPart root tokens c → ¬g.Forks tokens.toArray c) ∧
      offset = Token.offsetAt tokens.toArray 0

theorem pinpoints_of_two_derivations (hg : g.Acyclic)
    (h : g.parse root tokens = .error (.ambiguous name offset))
    (htwo : (g.derivations root tokens).encard ≤ 2) : g.Pinpoints root tokens offset := by
  rcases ambiguous_offset hg h with ⟨c, hpart, hplain, hoffset⟩ | ⟨hplain, hoffset⟩
  · have hall : g.plainReadings tokens.toArray c = g.readings tokens.toArray c :=
      eq_of_encard_le_two (hpart.encard_readings_le.trans htwo) (Set.sep_subset _ _) hplain
    refine .inl ⟨c, hpart, ⟨hplain.mono (Set.sep_subset _ _), fun s hs => ?_⟩, hoffset⟩
    rw [← hall] at hs
    exact hs.2
  · have hall := eq_of_encard_le_two htwo (Set.sep_subset _ _) hplain
    refine .inr ⟨fun c hc => ?_, hoffset⟩
    obtain ⟨d, hd, hc⟩ := hc
    rw [← hall] at hd
    exact hd.2 c hc

/-- Where an ambiguity is reported: where a constituent begins that has two readings without a
fork inside, or at the first token, if the whole has two derivations without a fork. It is at
the first token if nothing forks. It is at an innermost fork if there are two derivations, as
then no reading is passed over. -/
theorem ambiguity_located (g : Grammar ν τ ρ) (hg : g.Acyclic) (root name : ν)
    (tokens : List (Token τ)) (offset : Nat)
    (h : g.parse root tokens = .error (.ambiguous name offset)) :
    ((∃ c, g.TakesPart root tokens c ∧ (g.plainReadings tokens.toArray c).Nontrivial ∧
          offset = Token.offsetAt tokens.toArray c.start) ∨
        {d ∈ g.derivations root tokens | g.Plain tokens.toArray (d.constituents 0)}.Nontrivial ∧
          offset = Token.offsetAt tokens.toArray 0) ∧
      ((∀ c, g.TakesPart root tokens c → ¬g.Forks tokens.toArray c) →
        offset = Token.offsetAt tokens.toArray 0) ∧
      ((g.derivations root tokens).encard ≤ 2 → g.Pinpoints root tokens offset) := by
  refine ⟨ambiguous_offset hg h, fun hnone => ?_, pinpoints_of_two_derivations hg h⟩
  rcases ambiguous_offset hg h with ⟨c, hpart, hplain, -⟩ | ⟨-, hoffset⟩
  · exact absurd (hplain.mono (Set.sep_subset _ _)) (hnone c hpart)
  · exact hoffset

/-- A word and a phrase make a sentence (3). A phrase (2) is a word, a noun or a name; a name
(1) is a word or a noun; and a noun (0) is a word. -/
def nested : Grammar (Fin 4) Unit Unit where
  roots := [3, 1]
  productions :=
    #[⟨3, [.terminal (), .nonterminal 2], fun _ => .ok ()⟩,
      ⟨2, [.terminal ()], fun _ => .ok ()⟩, ⟨2, [.nonterminal 0], fun _ => .ok ()⟩,
      ⟨2, [.nonterminal 1], fun _ => .ok ()⟩, ⟨1, [.terminal ()], fun _ => .ok ()⟩,
      ⟨1, [.nonterminal 0], fun _ => .ok ()⟩, ⟨0, [.terminal ()], fun _ => .ok ()⟩]
  faultless := by decide

theorem nested_acyclic : nested.Acyclic := by
  have hdescends : nested.Descends fun n => n.val := by decide
  exact hdescends.acyclic

theorem nested_production {p : Nat} {n : Fin 4} (h : nested.lhs? p = some n) :
    (n, p) ∈ [((3 : Fin 4), 0), (2, 1), (2, 2), (2, 3), (1, 4), (1, 5), (0, 6)] := by
  have hp : p < 7 := by
    obtain ⟨q, hq, -⟩ := Option.map_eq_some_iff.mp h
    exact (Array.getElem?_eq_some_iff.mp hq).1
  interval_cases p <;> cases h <;> decide

section Nested

variable {tokens : Array (Token Unit)} {trees : List Derivation} {i k : Nat}

theorem nested_word (h : Derives nested tokens [.terminal ()] trees i k) :
    trees = [leaf i] := by
  cases h with
  | token matched rest =>
    cases rest
    rfl

theorem nested_noun (h : Derives nested tokens [.nonterminal 0] trees i k) :
    trees = [node 6 [leaf i]] := by
  cases h with
  | @rule p name symbols children trees i j k produced inner rest =>
    obtain rfl : p = 6 := by simpa using nested_production produced
    cases rest
    rw [nested_word inner]

theorem nested_name (h : Derives nested tokens [.nonterminal 1] trees i k) :
    trees = [node 4 [leaf i]] ∨ trees = [node 5 [node 6 [leaf i]]] := by
  cases h with
  | @rule p name symbols children trees i j k produced inner rest =>
    cases rest
    obtain rfl | rfl : p = 4 ∨ p = 5 := by simpa using nested_production produced
    · exact .inl (by rw [nested_word inner])
    · exact .inr (by rw [nested_noun inner])

theorem nested_phrase_forks (matched : tokens[i]?.bind (·.tag) = some ()) :
    nested.Forks tokens ⟨3, i, i + 1⟩ := by
  refine ⟨[node 4 [leaf i]], ?_, [node 5 [node 6 [leaf i]]], ?_, by simp⟩
  · exact .rule rfl (.token matched .nil) .nil
  · exact .rule rfl (.rule rfl (.token matched .nil) .nil) .nil

end Nested

theorem nested_name_located :
    (nested.derivations 1 [⟨some (), 4, "a"⟩]).encard ≤ 2 ∧
      nested.parse 1 [⟨some (), 4, "a"⟩] = .error (.ambiguous 1 4) ∧
      nested.Pinpoints 1 [⟨some (), 4, "a"⟩] 4 ∧
      (∀ c, nested.TakesPart 1 [⟨some (), 4, "a"⟩] c → ¬nested.Forks #[⟨some (), 4, "a"⟩] c) ∧
      4 = Token.offsetAt #[⟨some (), 4, "a"⟩] 0 := by
  have hparse : nested.parse 1 [⟨some (), 4, "a"⟩] = .error (.ambiguous 1 4) := by
    decide +kernel
  have hcases : ∀ d ∈ nested.derivations 1 [⟨some (), 4, "a"⟩],
      d = node 4 [leaf 0] ∨ d = node 5 [node 6 [leaf 0]] := by
    intro d hd
    simpa using nested_name hd
  have htwo : (nested.derivations 1 [⟨some (), 4, "a"⟩]).encard ≤ 2 := by
    have hne : node 4 [leaf 0] ≠ node 5 [node 6 [leaf 0]] := by simp
    rw [← Set.encard_pair hne]
    exact Set.encard_le_encard hcases
  have hnone :
      ∀ c, nested.TakesPart 1 [⟨some (), 4, "a"⟩] c → ¬nested.Forks #[⟨some (), 4, "a"⟩] c := by
    rintro c ⟨d, hd, hc⟩ ⟨s, hs, s', hs', hne⟩
    apply hne
    have hc : c = ⟨4, 0, 1⟩ ∨ c = ⟨5, 0, 1⟩ ∨ c = ⟨6, 0, 1⟩ := by
      rcases hcases d hd with rfl | rfl
      · exact .inl (List.mem_singleton.mp hc)
      · have hc : c ∈ [Constituent.mk 5 0 1, Constituent.mk 6 0 1] := hc
        exact .inr (by simpa using hc)
    rcases hc with rfl | rfl | rfl
    · rw [nested_word hs, nested_word hs']
    · rw [nested_noun hs, nested_noun hs']
    · rw [nested_word hs, nested_word hs']
  obtain ⟨-, hfirst, hpinpoints⟩ :=
    ambiguity_located nested nested_acyclic 1 1 [⟨some (), 4, "a"⟩] 4 hparse
  exact ⟨htwo, hparse, hpinpoints htwo, hnone, hfirst hnone⟩

/-- The third reading of a phrase is passed over: the sentence is said to fork at its first
word, and the only constituent that forks with no other inside begins at its second. -/
theorem nested_sentence_not_pinpointed :
    nested.parse 3 [⟨some (), 0, "a"⟩, ⟨some (), 1, "b"⟩] = .error (.ambiguous 3 0) ∧
      ¬nested.Pinpoints 3 [⟨some (), 0, "a"⟩, ⟨some (), 1, "b"⟩] 0 := by
  refine ⟨by decide +kernel, ?_⟩
  have hforks : nested.Forks #[⟨some (), 0, "a"⟩, ⟨some (), 1, "b"⟩] ⟨3, 1, 2⟩ :=
    nested_phrase_forks rfl
  have hreading : [leaf 0, node 3 [node 4 [leaf 1]]] ∈
      nested.readings #[⟨some (), 0, "a"⟩, ⟨some (), 1, "b"⟩] ⟨0, 0, 2⟩ :=
    .token rfl (.rule rfl (.rule rfl (.token rfl .nil) .nil) .nil)
  rintro (⟨c, ⟨d, hd, hc⟩, ⟨-, hinner⟩, hoffset⟩ | ⟨hnone, -⟩)
  · obtain ⟨p, children, rfl, produced, hchildren⟩ := Derives.rule_iff.mp hd
    obtain rfl : p = 0 := by simpa using nested_production produced
    have hchildren : Derives nested #[⟨some (), 0, "a"⟩, ⟨some (), 1, "b"⟩]
      [.terminal (), .nonterminal 2] children 0 2 := hchildren
    rw [hchildren.constituents_node] at hc
    rcases List.mem_cons.mp hc with rfl | hc
    · exact hinner _ hreading ⟨3, 1, 2⟩ (by decide) hforks
    · -- Whatever stands inside the sentence stands inside its phrase.
      cases hchildren with
      | token matched rest =>
        have hstart := rest.start_le hc
        obtain ⟨n, hn⟩ : ∃ n, c.start = n + 1 := Nat.exists_eq_succ_of_ne_zero (by omega)
        rw [hn] at hoffset
        cases n with
        | zero => simp [Token.offsetAt] at hoffset
        | succ n =>
          simp [Token.offsetAt, Token.stop] at hoffset
          omega
  · refine hnone ⟨3, 1, 2⟩ ⟨node 0 [leaf 0, node 3 [node 4 [leaf 1]]], ?_, by decide⟩ hforks
    exact .rule rfl hreading .nil

end Grammar

end Fabula
