import Fabula.Proofs.Grammar.Decision
import Fabula.Proofs.Grammar.Visiting

namespace Fabula

variable {ν τ ρ : Type} [DecidableEq ν]

namespace Chart

variable {g : Grammar ν τ ρ} {root : ν} {tokens : Array (Token τ)} {chart : Chart}
  {a b t : Address} {e : Entry} {l : Link} {i j k : Nat}

def Covers (chart : Chart) (i j : Nat) (t : Address) : Prop :=
  ∃ e, chart.entryAt? t = some e ∧ e.item.origin = i ∧ t.column = j

def Inside (chart : Chart) (i j : Nat) (t : Address) : Prop :=
  ∃ e, chart.entryAt? t = some e ∧ i ≤ e.item.origin ∧ t.column ≤ j

theorem Covers.inside (h : chart.Covers i j t) : chart.Inside i j t := by
  obtain ⟨e, he, hi, hj⟩ := h
  exact ⟨e, he, Nat.le_of_eq hi.symm, Nat.le_of_eq hj⟩

theorem Covers.void (h : chart.Covers i i t) : chart.Void t := by
  obtain ⟨e, he, hi, hj⟩ := h
  exact ⟨e, he, hi.trans hj.symm⟩

theorem Covers.not_void (h : chart.Covers i j t) (hij : i < j) : ¬chart.Void t := by
  intro hvoid
  obtain ⟨e, he, hi, hj⟩ := h
  obtain ⟨e', he', hspan⟩ := hvoid
  rw [he] at he'
  cases he'
  omega

theorem Covers.le (h : chart.Covers i j t) (hb : Built g root tokens chart) : i ≤ j := by
  obtain ⟨e, he, rfl, rfl⟩ := h
  exact (hb.spans he).origin_le

theorem Inside.void (h : chart.Inside i j t) (hb : Built g root tokens chart) (hij : j ≤ i) :
    chart.Void t := by
  obtain ⟨e, he, hi, hj⟩ := h
  have hle := (hb.spans he).origin_le
  exact ⟨e, he, by omega⟩

theorem Inside.void_of_meets (h : chart.Inside i k t) (h' : chart.Inside k j t)
    (hb : Built g root tokens chart) : chart.Void t := by
  obtain ⟨e, he, -, hk⟩ := h
  obtain ⟨e', he', hk', -⟩ := h'
  rw [he] at he'
  cases he'
  have hinside : chart.Inside k k t := ⟨e, he, hk', hk⟩
  exact hinside.void hb (Nat.le_refl k)

theorem Inside.leadsTo (h : chart.Inside i j a) (hb : Built g root tokens chart)
    (hl : chart.LeadsTo a b) : chart.Inside i j b := by
  obtain ⟨e, he, hi, hj⟩ := h
  obtain ⟨f, hf, ⟨s, -, hitem, hcolumn⟩ | ⟨-, hcolumn, horigin⟩⟩ := hb.leadsTo_cases he hl
  · have horigin : e.item.origin = f.item.origin := by rw [hitem, Item.advance]
    exact ⟨f, hf, by omega, by omega⟩
  · exact ⟨f, hf, by omega, by omega⟩

theorem Void.leadsTo (h : chart.Void a) (hb : Built g root tokens chart)
    (hl : chart.LeadsTo a b) : chart.Void b := by
  obtain ⟨e, he, hspan⟩ := h
  have hinside : chart.Inside a.column a.column a :=
    ⟨e, he, Nat.le_of_eq hspan.symm, Nat.le_refl _⟩
  exact (hinside.leadsTo hb hl).void hb (Nat.le_refl _)

theorem Built.link_covers (hb : Built g root tokens chart) (ha : chart.entryAt? a = some e)
    (hl : l ∈ e.links) : ∃ k, chart.Covers e.item.origin k l.previous ∧
      (l.targets = [l.previous] ∧ k < a.column ∨
        ∃ b, l.targets = [l.previous, b] ∧ chart.Covers k a.column b) := by
  cases hb.link_reads ha hl with
  | @scan b f tag entry awaited matched column item =>
    refine ⟨b.column, ⟨f, entry, ?_, rfl⟩, .inl ⟨rfl, by omega⟩⟩
    rw [item, Item.advance]
  | @complete b d f h name entry awaited done ended produced meets column item =>
    refine ⟨b.column, ⟨f, entry, ?_, rfl⟩, .inr ⟨d, rfl, h, done, meets, column.symm⟩⟩
    rw [item, Item.advance]

theorem Exact.exists_mem_links (hx : chart.Exact g root tokens) (ha : chart.entryAt? a = some e)
    (hd : e.item.dot ≠ 0) : ∃ l, l ∈ e.links := by
  obtain ⟨s, hs⟩ := (hx.built.spans ha).derives
  obtain ⟨l, hl, -⟩ := hx.exists_link ha hd ((mem_sequencesAt ha).mpr hs)
  exact ⟨l, hl⟩

theorem Built.void_of_begun (hb : Built g root tokens chart) (ha : chart.entryAt? a = some e)
    (hd : e.item.dot = 0) : chart.Void a := by
  obtain ⟨trees, ht⟩ := (hb.spans ha).derives
  rw [hd, List.take_zero, Derives.nil_iff] at ht
  exact ⟨e, ha, ht.2⟩

end Chart

namespace Forest

variable {g : Grammar ν τ ρ} {root : ν} {tokens : Array (Token τ)} {chart : Chart}
  {f f' f₁ : Forest} {a b t : Address} {e : Entry} {l : Link} {i j : Nat}

theorem sequences_eq {found : List Sequence} (h : f.status t = .resolved found) :
    f.sequences t = found := by
  simp only [sequences, h]

theorem settled_of_sequences (h : f.sequences t ≠ []) : f.Settled t := by
  unfold sequences at h
  split at h
  · rename_i found hs
    exact ⟨found, hs⟩
  · exact absurd rfl h

theorem Keeps.sequences_ne_nil (hk : Keeps f f') (h : f.sequences t ≠ []) :
    f'.sequences t ≠ [] := by
  obtain ⟨found, hs⟩ := settled_of_sequences h
  rw [sequences_eq hs] at h
  rwa [sequences_eq (hk.resolved t found hs)]

theorem finish_sequences_ne_nil (hf : f.Fits chart) (hb : chart.Built g root tokens)
    (ha : chart.entryAt? a = some e) (hl : l ∈ e.links)
    (ht : ∀ t ∈ l.targets, f.sequences t ≠ []) : (f.finish chart a e).sequences a ≠ [] := by
  rw [sequences_eq (status_finish_self hf ha)]
  apply combine_ne_nil
  refine .inr ⟨l, hl, ht _ l.previous_mem_targets, ?_⟩
  cases hp : l.piece with
  | token column => exact List.cons_ne_nil _ _
  | item b =>
    obtain ⟨h, hh, -⟩ := hb.leadsTo_cases ha ⟨e, l, ha, hl, .inr hp⟩
    rw [pieces, trees_fst f hh]
    intro hnil
    exact ht b (Link.mem_targets.mpr (.inr hp)) (List.map_eq_nil_iff.mp hnil)

section Voids

def Fruitful (chart : Chart) (f : Forest) : Prop :=
  ∀ t, chart.Void t → f.Settled t → f.sequences t ≠ []

def Clear (chart : Chart) (f : Forest) (a : Address) : Prop :=
  ∀ t, chart.Void t → f.status t = .active → Below chart a t

theorem Clear.keeps (h : Clear chart f a) (hk : Keeps f f') : Clear chart f' a := by
  intro t ht hactive
  exact h t ht ((hk.active t).mp hactive)

theorem Clear.enter (h : Clear chart f a) (hb : chart.LeadsTo a b) :
    Clear chart (f.setStatus a .active) b := by
  intro t ht hactive
  by_cases hta : t = a
  · rw [hta]
    exact .single hb
  · rw [status_setStatus_of_ne hta] at hactive
    exact .head hb (h t ht hactive)

theorem Fruitful.enter (h : Fruitful chart f) (hf : f.Fits chart)
    (ha : chart.entryAt? a = some e) : Fruitful chart (f.setStatus a .active) := by
  intro t ht hs
  have hta : t ≠ a := by
    intro hta
    obtain ⟨found, hs⟩ := hs
    rw [hta, status_setStatus_self hf ha] at hs
    cases hs
  simp only [Settled, sequences, status_setStatus_of_ne hta] at hs ⊢
  exact h t ht hs

theorem Chain.fruitful {as : List Address}
    (h : Chain (fun b f f' => f.Fits chart ∧ Resolves chart [.visit b] f f' ∧
      (Clear chart f b → Fruitful chart f → Fruitful chart f')) as f f')
    (hclear : ∀ b ∈ as, Clear chart f b) (hf : Fruitful chart f) : Fruitful chart f' := by
  induction h with
  | nil => exact hf
  | cons first later ih =>
    obtain ⟨hfits, hr, hfirst⟩ := first
    apply ih
    · intro b hb
      exact (hclear b (List.mem_cons_of_mem _ hb)).keeps (hr.keeps hfits)
    · exact hfirst (hclear _ List.mem_cons_self) hf

theorem Chain.not_fresh {R : Address → Forest → Forest → Prop} {as : List Address}
    (h : Chain R as f f')
    (hR : ∀ b f f', R b f f' → f.Fits chart ∧ Resolves chart [.visit b] f f') (hb : b ∈ as)
    (he : chart.entryAt? b = some e) : f'.status b ≠ .fresh := by
  induction h with
  | nil => exact absurd hb List.not_mem_nil
  | cons first later ih =>
    rcases List.mem_cons.mp hb with rfl | hb
    · obtain ⟨hfits, hr⟩ := hR _ _ _ first
      have hkeeps := later.keeps fun b f f' h => (hR b f f' h).2.keeps (hR b f f' h).1
      exact hkeeps.not_fresh (hr.not_fresh hfits he)
    · exact ih hb

variable (hacc : ∀ t, chart.Void t → Acc (fun b a => chart.LeadsTo a b) t)
  (hx : chart.Exact g root tokens)
include hacc hx

theorem Clear.not_active (h : Clear chart f a) (hvoid : chart.Void a) (hl : chart.LeadsTo a b) :
    (f.setStatus a .active).status b ≠ .active := by
  intro hactive
  have hbvoid := hvoid.leadsTo hx.built hl
  by_cases hba : b = a
  · rw [hba] at hl
    exact not_below_self (hacc a hvoid) (.single hl)
  · rw [status_setStatus_of_ne hba] at hactive
    exact not_below_self (hacc b hbvoid) (.head hl (h b hbvoid hactive))

theorem Resolves.fruitful (hf : f.Fits chart) (hr : Resolves chart [.visit a] f f')
    (hclear : Clear chart f a) (h : Fruitful chart f) : Fruitful chart f' := by
  revert hclear h
  apply visit_induction
    (motive := fun a f f' => Clear chart f a → Fruitful chart f → Fruitful chart f')
    ?idle ?begun ?enter hf hr
  case idle =>
    intro a f _ _ h
    exact h
  case begun =>
    intro a e f hf ha _ _ _ h t ht hs
    by_cases hta : t = a
    · rw [hta, sequences_eq (status_setStatus_self hf ha)]
      exact List.cons_ne_nil _ _
    · simp only [Settled, sequences, status_setStatus_of_ne hta] at hs ⊢
      exact h t ht hs
  case enter =>
    intro a e f f₁ hf hf₁ ha _ hd hchain hclear h
    have hleads : ∀ b ∈ e.links.flatMap Link.targets, chart.LeadsTo a b := by
      intro b hb
      obtain ⟨l, hl, hb⟩ := List.mem_flatMap.mp hb
      exact ⟨e, l, ha, hl, Link.mem_targets.mp hb⟩
    have h₁ : Fruitful chart f₁ :=
      hchain.fruitful (fun b hb => hclear.enter (hleads b hb)) (h.enter hf ha)
    intro t ht hs
    by_cases hta : t = a
    · subst hta
      -- All that a link leads to has been settled by now, and has a sequence.
      obtain ⟨l, hl⟩ := hx.exists_mem_links ha hd
      apply finish_sequences_ne_nil hf₁ hx.built ha hl
      intro b hb
      have hmem : b ∈ e.links.flatMap Link.targets := List.mem_flatMap.mpr ⟨l, hl, hb⟩
      obtain ⟨h', hh', -⟩ := hx.built.leadsTo_cases ha (hleads b hmem)
      have hfresh := hchain.not_fresh (fun _ _ _ hR => ⟨hR.1, hR.2.1⟩) hmem hh'
      have hkeeps := hchain.keeps fun _ _ _ hR => hR.2.1.keeps hR.1
      have hactive := hclear.not_active hacc hx ht (hleads b hmem)
      apply h₁ b (ht.leadsTo hx.built (hleads b hmem))
      apply settled_of_status hfresh
      intro hs
      exact hactive ((hkeeps.active b).mp hs)
    · simp only [Settled, sequences, status_finish_of_ne hta] at hs ⊢
      exact h₁ t ht hs

end Voids

/-- Between visits: no entry that spans no token is active, and the settled ones have a
sequence. -/
structure Calm (chart : Chart) (f : Forest) : Prop where
  fits : f.Fits chart
  quiet : ∀ t, chart.Void t → f.status t ≠ .active
  fruitful : Fruitful chart f

theorem calm_ofChart (chart : Chart) : Calm chart (ofChart chart) := by
  refine ⟨fits_ofChart chart, ?_, ?_⟩
  · intro t _
    simp [status_ofChart]
  · intro t _ hs
    obtain ⟨found, hs⟩ := hs
    rw [status_ofChart] at hs
    cases hs

/-- The entries strictly between two borders are untouched, and every settled entry from the one
to the other has only links by another such entry, which has been entered. -/
structure Barren (chart : Chart) (i j : Nat) (f : Forest) : Prop where
  untouched : ∀ t, chart.Inside i j t → ¬chart.Covers i j t → ¬chart.Void t →
    f.status t = .fresh
  circular : ∀ t e, chart.entryAt? t = some e → chart.Covers i j t → f.Settled t →
    ∀ l ∈ e.links, ∃ b ∈ l.targets, chart.Covers i j b ∧ f.status b ≠ .fresh

namespace Barren

theorem of_status (h : Barren chart i j f) (hij : i < j)
    (hs : ∀ t, ¬chart.Void t → f'.status t = f.status t) : Barren chart i j f' := by
  refine ⟨?_, ?_⟩
  · intro t ht hcovers hvoid
    rw [hs t hvoid]
    exact h.untouched t ht hcovers hvoid
  · intro t e he ht hsettled l hl
    rw [Settled, hs t (ht.not_void hij)] at hsettled
    obtain ⟨b, hb, hcovers, hfresh⟩ := h.circular t e he ht hsettled l hl
    refine ⟨b, hb, hcovers, ?_⟩
    rwa [hs b (hcovers.not_void hij)]

theorem fresh_inside (h : Barren chart i j f) {i' j' : Nat} (hi : i ≤ i') (hj : j' ≤ j)
    (hne : i < i' ∨ j' < j) (ht : chart.Inside i' j' t) (hvoid : ¬chart.Void t) :
    f.status t = .fresh := by
  obtain ⟨e, he, hi', hj'⟩ := ht
  apply h.untouched t ⟨e, he, Nat.le_trans hi hi', Nat.le_trans hj' hj⟩ ?_ hvoid
  intro hcovers
  obtain ⟨e', he', horigin, hcolumn⟩ := hcovers
  rw [he] at he'
  cases he'
  omega

theorem enter (h : Barren chart i j f) (hf : f.Fits chart) (ha : chart.entryAt? a = some e)
    (hcovers : chart.Covers i j a) : Barren chart i j (f.setStatus a .active) := by
  refine ⟨?_, ?_⟩
  · intro t ht hnot hvoid
    rw [status_setStatus_of_ne]
    · exact h.untouched t ht hnot hvoid
    · rintro rfl
      exact hnot hcovers
  · intro t e' he' ht hsettled l hl
    have hta : t ≠ a := by
      rintro rfl
      obtain ⟨found, hs⟩ := hsettled
      rw [status_setStatus_self hf ha] at hs
      cases hs
    rw [Settled, status_setStatus_of_ne hta] at hsettled
    obtain ⟨b, hb, hbcovers, hfresh⟩ := h.circular t e' he' ht hsettled l hl
    refine ⟨b, hb, hbcovers, ?_⟩
    by_cases hba : b = a
    · simp [hba, status_setStatus_self hf ha]
    · rwa [status_setStatus_of_ne hba]

theorem finish (h : Barren chart i j f) (hf : f.Fits chart) (ha : chart.entryAt? a = some e)
    (hcovers : chart.Covers i j a)
    (hlinks : ∀ l ∈ e.links, ∃ b ∈ l.targets, chart.Covers i j b ∧ f.status b ≠ .fresh) :
    Barren chart i j (f.finish chart a e) := by
  have hnotfresh : ∀ b, f.status b ≠ .fresh → (f.finish chart a e).status b ≠ .fresh := by
    intro b hb
    by_cases hba : b = a
    · simp [hba, status_finish_self hf ha]
    · rwa [status_finish_of_ne hba]
  refine ⟨?_, ?_⟩
  · intro t ht hnot hvoid
    rw [status_finish_of_ne]
    · exact h.untouched t ht hnot hvoid
    · rintro rfl
      exact hnot hcovers
  · intro t e' he' ht hsettled l hl
    by_cases hta : t = a
    · subst hta
      rw [ha] at he'
      cases he'
      obtain ⟨b, hb, hbcovers, hfresh⟩ := hlinks l hl
      exact ⟨b, hb, hbcovers, hnotfresh b hfresh⟩
    · rw [Settled, status_finish_of_ne hta] at hsettled
      obtain ⟨b, hb, hbcovers, hfresh⟩ := h.circular t e' he' ht hsettled l hl
      exact ⟨b, hb, hbcovers, hnotfresh b hfresh⟩

end Barren

theorem sizeOf_lt_append (front : Sequence) (last : Derivation) :
    sizeOf front < sizeOf (front ++ [last]) := by
  induction front with
  | nil => simp
  | cons d front ih =>
    simp only [List.cons_append, List.cons.sizeOf_spec]
    omega

/-- A settled entry cannot have only links by entries over the same tokens: following the links
along one of its sequences would go on for ever. -/
theorem Barren.not_settled (h : Barren chart i j f) (hx : chart.Exact g root tokens)
    (hij : i < j) (hactive : ∀ t, chart.Covers i j t → f.status t ≠ .active) {s : Sequence}
    (hs : s ∈ chart.sequencesAt g tokens a) (ha : chart.Covers i j a) : ¬f.Settled a := by
  induction hn : sizeOf s using Nat.strong_induction_on generalizing s a with
  | _ n ih =>
  intro hsettled
  have hvoid := ha.not_void hij
  obtain ⟨e, he, hspan⟩ := id ha
  have hd : e.item.dot ≠ 0 := fun hd => hvoid (hx.built.void_of_begun he hd)
  obtain ⟨l, hl, front, last, hfront, hlast, rfl⟩ := hx.exists_link he hd hs
  obtain ⟨b, hb, hcovers, hfresh⟩ := h.circular a e he ha hsettled l hl
  have hbsettled := settled_of_status hfresh (hactive b hcovers)
  rcases Link.mem_targets.mp hb with rfl | hpiece
  · exact ih _ (hn ▸ sizeOf_lt_append front last) hfront hcovers rfl hbsettled
  · rw [hpiece] at hlast
    obtain ⟨e', s', -, hs', rfl⟩ := hlast
    refine ih (sizeOf s') ?_ hs' hcovers rfl hbsettled
    have hmem : sizeOf (Derivation.node e'.item.production s') <
        sizeOf (front ++ [.node e'.item.production s']) :=
      List.sizeOf_lt_of_mem (List.mem_append_right _ (List.mem_singleton_self _))
    simp only [Derivation.node.sizeOf_spec] at hmem
    omega

section Width

variable (hacc : ∀ t, chart.Void t → Acc (fun b a => chart.LeadsTo a b) t)
  (hx : chart.Exact g root tokens)
include hacc hx

theorem Calm.resolves (h : Calm chart f) (hr : Resolves chart [.visit a] f f') :
    Calm chart f' := by
  refine ⟨hr.fits h.fits, ?_, ?_⟩
  · intro t ht hactive
    exact h.quiet t ht (((hr.keeps h.fits).active t).mp hactive)
  · apply hr.fruitful hacc hx h.fits ?_ h.fruitful
    intro t ht hactive
    exact absurd hactive (h.quiet t ht)

theorem Calm.void_sequences (h : Calm chart f) (hr : Resolves chart [.visit a] f f')
    (ha : chart.Void a) : f'.sequences a ≠ [] := by
  apply (h.resolves hacc hx hr).fruitful a ha
  obtain ⟨e, he, -⟩ := id ha
  exact hr.settled h.fits he (h.quiet a ha)

omit hacc in
theorem Barren.void_visit (h : Barren chart i j f) (hij : i < j) (hf : f.Fits chart)
    (hr : Resolves chart [.visit a] f f') (ha : chart.Void a) : Barren chart i j f' := by
  apply h.of_status hij
  intro t ht
  exact hr.status_eq (fun a b ha hl => ha.leadsTo hx.built hl) hf ha ht

end Width

/-- An entry visited before anything that spans a token between its borders comes out with a
sequence. -/
def Sprouts (chart : Chart) (a : Address) : Prop :=
  ∀ f f' i j, Calm chart f → chart.Covers i j a →
    (∀ t, chart.Inside i j t → ¬chart.Void t → f.status t = .fresh) →
    Resolves chart [.visit a] f f' → f'.sequences a ≠ []

/-- A visit from a barren forest that either finds a sequence or leaves it barren. -/
def Tries (chart : Chart) (i j : Nat) (b : Address) (f f' : Forest) : Prop :=
  f.Fits chart ∧ Resolves chart [.visit b] f f' ∧ (chart.Covers i j b → Calm chart f →
    Barren chart i j f → f'.sequences b ≠ [] ∨ Barren chart i j f')

section Links

variable (hacc : ∀ t, chart.Void t → Acc (fun b a => chart.LeadsTo a b) t)
  (hx : chart.Exact g root tokens) (hij : i < j)
  (hsprouts : ∀ i' j' t, chart.Covers i' j' t → j' - i' < j - i → Sprouts chart t)
include hacc hx hij hsprouts

/-- What a link of an entry leads to: everything there has a sequence afterwards, or the forest
is still barren and the link goes by an entry over the same tokens. -/
theorem Barren.link (ha : chart.entryAt? a = some e) (hcovers : chart.Covers i j a)
    (hl : l ∈ e.links) (hcalm : Calm chart f) (h : Barren chart i j f)
    (hchain : Chain (Tries chart i j) l.targets f f₁) :
    (∀ t ∈ l.targets, f₁.sequences t ≠ []) ∨
      Barren chart i j f₁ ∧ ∃ b ∈ l.targets, chart.Covers i j b ∧ f₁.status b ≠ .fresh := by
  obtain ⟨e', he', horigin, hcolumn⟩ := id hcovers
  rw [ha] at he'
  cases he'
  obtain ⟨k, hprevious, ⟨htargets, hk⟩ | ⟨b, htargets, hpiece⟩⟩ := hx.built.link_covers ha hl
  · rw [horigin] at hprevious
    rw [htargets] at hchain ⊢
    have hik := hprevious.le hx.built
    cases hchain with
    | cons first later =>
    cases later
    obtain ⟨-, hr, -⟩ := first
    apply Or.inl
    intro t ht
    rw [List.mem_singleton.mp ht]
    apply hsprouts i k l.previous hprevious (by omega) f f₁ i k hcalm hprevious ?_ hr
    intro t ht hvoid
    exact h.fresh_inside (Nat.le_refl i) (by omega) (by omega) ht hvoid
  · rw [horigin] at hprevious
    rw [hcolumn] at hpiece
    rw [htargets] at hchain ⊢
    have hik := hprevious.le hx.built
    have hkj := hpiece.le hx.built
    cases hchain with
    | @cons _ _ _ f₂ _ first later =>
    cases later with
    | cons second later =>
    cases later
    obtain ⟨-, hr, htries⟩ := first
    obtain ⟨hfits, hr', htries'⟩ := second
    have hcalm₂ := hcalm.resolves hacc hx hr
    have hkeeps := hr'.keeps hfits
    rcases Nat.lt_or_eq_of_le hkj with hkj | rfl
    · rcases Nat.lt_or_eq_of_le hik with hik | rfl
      · -- Both parts span fewer tokens, and visiting the first touches nothing of the second.
        apply Or.inl
        have hfirst : f₂.sequences l.previous ≠ [] := by
          apply hsprouts i k l.previous hprevious (by omega) f f₂ i k hcalm hprevious ?_ hr
          intro t ht hvoid
          exact h.fresh_inside (Nat.le_refl i) (by omega) (by omega) ht hvoid
        have hsecond : f₁.sequences b ≠ [] := by
          apply hsprouts k j b hpiece (by omega) f₂ f₁ k j hcalm₂ hpiece ?_ hr'
          intro t ht hvoid
          rw [hr.status_eq (fun a b ha hl => Chart.Inside.leadsTo ha hx.built hl) hcalm.fits
            hprevious.inside]
          · exact h.fresh_inside (by omega) (Nat.le_refl j) (by omega) ht hvoid
          · intro hinside
            exact hvoid (Chart.Inside.void_of_meets hinside ht hx.built)
        intro t ht
        rcases List.mem_pair.mp ht with rfl | rfl
        · exact hkeeps.sequences_ne_nil hfirst
        · exact hsecond
      · -- The previous item spans nothing, so all depends on the piece.
        have hvoid := hprevious.void
        have hfirst := hcalm.void_sequences hacc hx hr hvoid
        have h₂ := h.void_visit hx hij hcalm.fits hr hvoid
        rcases htries' hpiece hcalm₂ h₂ with hsecond | hbarren
        · apply Or.inl
          intro t ht
          rcases List.mem_pair.mp ht with rfl | rfl
          · exact hkeeps.sequences_ne_nil hfirst
          · exact hsecond
        · obtain ⟨e₁, he₁, -⟩ := id hpiece
          exact .inr ⟨hbarren, b, by simp, hpiece, hr'.not_fresh hfits he₁⟩
    · -- The piece spans nothing, so all depends on the previous item.
      have hvoid := hpiece.void
      have hsecond := hcalm₂.void_sequences hacc hx hr' hvoid
      rcases htries hprevious hcalm h with hfirst | hbarren
      · apply Or.inl
        intro t ht
        rcases List.mem_pair.mp ht with rfl | rfl
        · exact hkeeps.sequences_ne_nil hfirst
        · exact hsecond
      · obtain ⟨e₁, he₁, -⟩ := id hprevious
        refine .inr ⟨hbarren.void_visit hx hij hfits hr' hvoid, l.previous, by simp,
          hprevious, ?_⟩
        exact hkeeps.not_fresh (hr.not_fresh hcalm.fits he₁)

omit hij hsprouts in
theorem Chain.calm {as : List Address} (h : Chain (Tries chart i j) as f f')
    (hcalm : Calm chart f) : Calm chart f' := by
  induction h with
  | nil => exact hcalm
  | cons first later ih => exact ih (hcalm.resolves hacc hx first.2.1)

theorem Barren.links (ha : chart.entryAt? a = some e) (hcovers : chart.Covers i j a)
    {links : List Link} (hlinks : ∀ l ∈ links, l ∈ e.links) (hcalm : Calm chart f)
    (h : Barren chart i j f)
    (hchain : Chain (Tries chart i j) (links.flatMap Link.targets) f f₁) :
    (∃ l ∈ links, ∀ t ∈ l.targets, f₁.sequences t ≠ []) ∨
      Barren chart i j f₁ ∧
        ∀ l ∈ links, ∃ b ∈ l.targets, chart.Covers i j b ∧ f₁.status b ≠ .fresh := by
  induction links generalizing f with
  | nil =>
    cases hchain
    exact .inr ⟨h, fun l hl => absurd hl List.not_mem_nil⟩
  | cons l links ih =>
    rw [List.flatMap_cons] at hchain
    obtain ⟨f₂, hfirst, hlater⟩ := hchain.split
    have hkeeps := hlater.keeps fun _ _ _ hR => hR.2.1.keeps hR.1
    have hl := h.link hacc hx hij hsprouts ha hcovers (hlinks l List.mem_cons_self) hcalm hfirst
    rcases hl with hfound | ⟨hbarren, b, hb, hbcovers, hfresh⟩
    · refine .inl ⟨l, List.mem_cons_self, ?_⟩
      intro t ht
      exact hkeeps.sequences_ne_nil (hfound t ht)
    · have hrest :=
        ih (fun l hl => hlinks l (List.mem_cons_of_mem _ hl)) (hfirst.calm hacc hx hcalm)
          hbarren hlater
      rcases hrest with ⟨l', hl', hfound⟩ | ⟨hbarren', hall⟩
      · exact .inl ⟨l', List.mem_cons_of_mem _ hl', hfound⟩
      · refine .inr ⟨hbarren', ?_⟩
        intro l' hl'
        rcases List.mem_cons.mp hl' with rfl | hl'
        · exact ⟨b, hb, hbcovers, hkeeps.not_fresh hfresh⟩
        · exact hall l' hl'

theorem Resolves.tries (hf : f.Fits chart) (hr : Resolves chart [.visit a] f f')
    (hcovers : chart.Covers i j a) (hcalm : Calm chart f) (h : Barren chart i j f) :
    f'.sequences a ≠ [] ∨ Barren chart i j f' := by
  revert hcovers hcalm h
  apply visit_induction (motive := fun a f f' => chart.Covers i j a → Calm chart f →
    Barren chart i j f → f'.sequences a ≠ [] ∨ Barren chart i j f') ?idle ?begun ?enter hf hr
  case idle =>
    intro a f _ _ _ h
    exact .inr h
  case begun =>
    intro a e f _ ha _ hd hcovers _ _
    exact absurd (hx.built.void_of_begun ha hd) (hcovers.not_void hij)
  case enter =>
    intro a e f f₁ hf hf₁ ha _ _ hchain hcovers hcalm h
    have hentered : Calm chart (f.setStatus a .active) := by
      refine ⟨hf.setStatus a _, ?_, hcalm.fruitful.enter hf ha⟩
      intro t ht
      rw [status_setStatus_of_ne]
      · exact hcalm.quiet t ht
      · rintro rfl
        exact hcovers.not_void hij ht
    have hlinks :=
      (h.enter hf ha hcovers).links hacc hx hij hsprouts ha hcovers (fun l hl => hl)
        hentered hchain
    rcases hlinks with ⟨l, hl, hfound⟩ | ⟨hbarren, hall⟩
    · exact .inl (finish_sequences_ne_nil hf₁ hx.built ha hl hfound)
    · exact .inr (hbarren.finish hf₁ ha hcovers hall)

end Links

/-- Where no walk among the entries that span no token goes on for ever, every entry sprouts.
The induction is on the number of tokens that the entry spans. -/
theorem sprouts (hacc : ∀ t, chart.Void t → Acc (fun b a => chart.LeadsTo a b) t)
    (hx : chart.Exact g root tokens) (a : Address) : Sprouts chart a := by
  have hwidth : ∀ w i j a, chart.Covers i j a → j - i = w → Sprouts chart a := by
    intro w
    induction w using Nat.strong_induction_on with
    | _ w ih =>
    intro i j a ha hw f f' i' j' hcalm ha' hfresh hr
    obtain ⟨e, he, rfl, rfl⟩ := id ha
    obtain ⟨e', he', rfl, rfl⟩ := ha'
    rw [he] at he'
    cases he'
    rcases Nat.lt_or_eq_of_le (ha.le hx.built) with hij | heq
    · have hstart : Barren chart e.item.origin a.column f := by
        refine ⟨fun t ht _ hvoid => hfresh t ht hvoid, ?_⟩
        intro t e' _ ht hs
        obtain ⟨found, hs⟩ := hs
        rw [hfresh t ht.inside (ht.not_void hij)] at hs
        cases hs
      have hnarrower : ∀ i' j' t, chart.Covers i' j' t → j' - i' < a.column - e.item.origin →
          Sprouts chart t := by
        intro i' j' t ht hlt
        exact ih _ (hw ▸ hlt) i' j' t ht rfl
      rcases hr.tries hacc hx hij hnarrower hcalm.fits ha hcalm hstart with hfound | hbarren
      · exact hfound
      · -- No such entry is active, before or after: the one visited would be settled in vain.
        have hidle : ∀ t, chart.Covers e.item.origin a.column t → f.status t ≠ .active := by
          intro t ht
          simp [hfresh t ht.inside (ht.not_void hij)]
        obtain ⟨s, hs⟩ := (hx.built.spans he).derives
        have hsettled := hr.settled hcalm.fits he (hidle a ha)
        apply absurd hsettled
        apply hbarren.not_settled hx hij ?_ ((Chart.mem_sequencesAt he).mpr hs) ha
        intro t ht hactive
        exact hidle t ht (((hr.keeps hcalm.fits).active t).mp hactive)
    · exact hcalm.void_sequences hacc hx hr ⟨e, he, heq⟩
  intro f f' i j hcalm ha
  exact hwidth (j - i) i j a ha rfl f f' i j hcalm ha

theorem derivations_ne_nil {entries : List Address} {found : List Derivation} (h : found ≠ []) :
    (derivations chart entries found f).1 ≠ [] := by
  induction entries generalizing found f with
  | nil => exact h
  | cons a entries ih =>
    unfold derivations
    simp only
    split
    · simp [h]
    · exact ih (by simp [h])

theorem derivations_ofChart_ne_nil (hg : g.VanishesAcyclically) (hx : chart.Exact g root tokens)
    {entries : List Address} (ha : chart.entryAt? a = some e) :
    (derivations chart (a :: entries) [] (ofChart chart)).1 ≠ [] := by
  have hcalm := calm_ofChart chart
  have hsequences : ((ofChart chart).resolve chart a).sequences a ≠ [] := by
    apply sprouts (fun t ht => ht.acc_leadsTo hg hx.built) hx a _ _ _ _ hcalm
      ⟨e, ha, rfl, rfl⟩ ?_
      (resolves_resolve hcalm.fits a)
    intro t _ _
    exact status_ofChart chart t
  have htrees : (((ofChart chart).resolve chart a).trees chart a).1 ≠ [] := by
    rw [trees_fst _ ha]
    simpa using hsequences
  unfold derivations
  simp only [List.nil_append]
  split
  · exact htrees
  · exact derivations_ne_nil htrees

end Forest

namespace Grammar

variable [DecidableEq τ] {g : Grammar ν τ ρ} {root : ν} {tokens : List (Token τ)}

theorem mem_derivations_of_sampled {d : Derivation} (h : d ∈ g.sampled root tokens) :
    d ∈ g.derivations root tokens := by
  have hx := Chart.exact_ofTokens g root tokens.toArray
  rcases (Forest.Truthful.ofChart g tokens.toArray _).derivations hx.built h with hnil | hd
  · exact absurd hnil List.not_mem_nil
  · exact hx.mem_derivations.mpr hd

theorem sampled_ne_nil (hg : g.VanishesAcyclically) (h : g.derivations root tokens ≠ ∅) :
    g.sampled root tokens ≠ [] := by
  have hx := Chart.exact_ofTokens g root tokens.toArray
  obtain ⟨d, hd⟩ := Set.nonempty_iff_ne_empty.mpr h
  obtain ⟨a, ha, -⟩ := hx.mem_derivations.mp hd
  unfold sampled
  simp only
  cases hfinals : (Chart.ofTokens g root tokens.toArray).finals g root tokens.toArray.size with
  | nil =>
    rw [hfinals] at ha
    exact absurd ha List.not_mem_nil
  | cons b rest =>
    obtain ⟨-, e, he, -⟩ := Chart.mem_finals.mp (hfinals ▸ List.mem_cons_self)
    exact Forest.derivations_ofChart_ne_nil hg hx he

theorem parse_noParse_iff (hr : root ∈ g.roots) :
    (∃ offset found, g.parse root tokens = .error (.noParse offset found)) ↔
      g.sampled root tokens = [] := by
  rcases parse_cases hr tokens with ⟨hnil, hp⟩ | ⟨d, hd, hp⟩ | ⟨d, d', rest, offset, hd, hp⟩
  · exact ⟨fun _ => hnil, fun _ => hp⟩
  · refine ⟨?_, fun hnil => by simp [hd] at hnil⟩
    intro hno
    obtain ⟨offset, found, hno⟩ := hno
    rw [hp] at hno
    obtain ⟨rule, message, he⟩ := reduce_error hno
    cases he
  · refine ⟨?_, fun hnil => by simp [hd] at hnil⟩
    intro hno
    obtain ⟨offset', found, hno⟩ := hno
    rw [hp] at hno
    cases hno

/-- What tokens without parse say about derivations. In every grammar, tokens that the root does
not derive have no parse; where no non-terminal that can vanish derives itself, only those have
none. -/
theorem noParse_of_no_derivation (g : Grammar ν τ ρ) (root : ν) (hr : root ∈ g.roots)
    (tokens : List (Token τ)) :
    (g.derivations root tokens = ∅ →
        ∃ offset found, g.parse root tokens = .error (.noParse offset found)) ∧
      (g.VanishesAcyclically →
        (∃ offset found, g.parse root tokens = .error (.noParse offset found)) →
        g.derivations root tokens = ∅) := by
  rw [parse_noParse_iff hr]
  constructor
  · intro hnone
    apply List.eq_nil_iff_forall_not_mem.mpr
    intro d hd
    have hmem := mem_derivations_of_sampled hd
    rw [hnone] at hmem
    exact hmem
  · intro hg hnil
    apply Classical.byContradiction
    intro hsome
    exact sampled_ne_nil hg hsome hnil

omit [DecidableEq τ] in
theorem not_vanishes_of_rhs_ne_nil (h : ∀ p ∈ g.productions.toList, p.rhs ≠ [])
    {form : List (Symbol ν τ)} (hform : form ≠ []) : ¬g.Vanishes form := by
  intro hvanishes
  have hkeeps : ∀ form', Relation.ReflTransGen (Rewrites g) form form' → form' ≠ [] := by
    intro form' hstar
    induction hstar with
    | refl => exact hform
    | tail _ hs _ =>
      obtain ⟨before, after, produced⟩ := hs
      obtain ⟨q, hq, -, hrhs⟩ := g.exists_production produced
      simp [hrhs, h q hq]
  exact hkeeps [] hvanishes rfl

def wrapped : Grammar Unit Unit Nat where
  roots := [()]
  productions :=
    #[⟨(), [.nonterminal ()], fun _ => .ok 0⟩,
      ⟨(), [.terminal ()], fun _ => .ok 1⟩]
  faultless := by decide

theorem wrapped_recognised :
    (∃ offset found, wrapped.parse () [] = .error (.noParse offset found)) ∧
      ¬∃ offset found,
        wrapped.parse () [⟨some (), 0, "a"⟩] = .error (.noParse offset found) := by
  have hlong : ∀ p ∈ wrapped.productions.toList, p.rhs ≠ [] := by decide
  constructor
  · apply (noParse_of_no_derivation wrapped () (by decide) []).1
    apply Set.eq_empty_of_forall_notMem
    intro d hd
    exact not_vanishes_of_rhs_ne_nil hlong (List.cons_ne_nil _ _) (Rewrites.vanishes hd rfl)
  · intro hno
    have hword : Derivation.node 1 [.leaf 0] ∈ wrapped.derivations () [⟨some (), 0, "a"⟩] :=
      .rule rfl (.token rfl .nil) .nil
    have hg : wrapped.VanishesAcyclically := by
      intro name hvanishes
      exact absurd hvanishes (not_vanishes_of_rhs_ne_nil hlong (List.cons_ne_nil _ _))
    rw [(noParse_of_no_derivation wrapped () (by decide) _).2 hg hno] at hword
    exact hword

/-- Two parts, of which the first may hold the second and the second is the first again. -/
def mirrored : Grammar String Unit Unit where
  roots := ["S"]
  productions :=
    #[⟨"S", [.nonterminal "P", .nonterminal "Z"], fun _ => .ok ()⟩,
      ⟨"P", [.nonterminal "Q"], fun _ => .ok ()⟩,
      ⟨"Q", [.nonterminal "Z"], fun _ => .ok ()⟩,
      ⟨"Q", [], fun _ => .ok ()⟩,
      ⟨"Z", [.nonterminal "P"], fun _ => .ok ()⟩]
  faultless := by decide +kernel

/-- The root derives the empty token list, and yet it has no parse. The production of `Z` is
first met while that of `P` is being resolved, has nothing then, and keeps nothing when the root
needs it. -/
theorem mirrored_unrecognised :
    (∃ d, d ∈ mirrored.derivations "S" []) ∧
      mirrored.parse "S" [] = .error (.noParse 0 none) := by
  constructor
  · have hp : Derives mirrored #[] [.nonterminal "P"] [.node 1 [.node 3 []]] 0 0 :=
      .rule rfl (.rule rfl .nil .nil) .nil
    have hz : Derives mirrored #[] [.nonterminal "Z"] [.node 4 [.node 1 [.node 3 []]]] 0 0 :=
      .rule rfl hp .nil
    exact ⟨.node 0 [.node 1 [.node 3 []], .node 4 [.node 1 [.node 3 []]]],
      .rule rfl (hp.append hz) .nil⟩
  · decide +kernel

end Grammar

end Fabula
