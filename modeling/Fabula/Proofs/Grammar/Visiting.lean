import Fabula.Proofs.Grammar.Enumeration

namespace Fabula

def Link.targets (l : Link) : List Address :=
  match l.piece with
  | .token _ => [l.previous]
  | .item b => [l.previous, b]

theorem Link.visits_eq (l : Link) : l.visits = l.targets.map .visit := by
  obtain ⟨previous, piece⟩ := l
  cases piece with
  | token t => rfl
  | item b => rfl

theorem Link.previous_mem_targets (l : Link) : l.previous ∈ l.targets := by
  unfold targets
  split
  · exact List.mem_singleton_self _
  · exact List.mem_cons_self

theorem Link.mem_targets {l : Link} {b : Address} :
    b ∈ l.targets ↔ b = l.previous ∨ l.piece = .item b := by
  unfold targets
  split
  · rename_i h
    simp [h]
  · rename_i c h
    simp [h, eq_comm]

theorem flatMap_visits (links : List Link) :
    links.flatMap Link.visits = (links.flatMap Link.targets).map .visit := by
  induction links with
  | nil => rfl
  | cons l links ih =>
    rw [List.flatMap_cons, List.flatMap_cons, List.map_append, ih, l.visits_eq]

namespace Forest

inductive Chain (R : Address → Forest → Forest → Prop) :
    List Address → Forest → Forest → Prop where
  | nil {f : Forest} : Chain R [] f f
  | cons {a : Address} {rest : List Address} {f f₁ f' : Forest} (first : R a f f₁)
      (later : Chain R rest f₁ f') : Chain R (a :: rest) f f'

namespace Chain

variable {R : Address → Forest → Forest → Prop} {as bs : List Address} {f f' : Forest}

theorem split (h : Chain R (as ++ bs) f f') : ∃ f₁, Chain R as f f₁ ∧ Chain R bs f₁ f' := by
  induction as generalizing f with
  | nil => exact ⟨f, .nil, h⟩
  | cons a as ih =>
    cases h with
    | cons first later =>
      obtain ⟨f₁, h₁, h₂⟩ := ih later
      exact ⟨f₁, .cons first h₁, h₂⟩

end Chain

variable {chart : Chart} {f f' : Forest} {a b t : Address} {e : Entry}

/-- The forest once an entry has been put together from its links. -/
def finish (f : Forest) (chart : Chart) (a : Address) (e : Entry) : Forest :=
  (combine chart e.links [] f).2.setStatus a (.resolved (combine chart e.links [] f).1)

theorem status_finish_self (hf : f.Fits chart) (ha : chart.entryAt? a = some e) :
    (f.finish chart a e).status a = .resolved (combine chart e.links [] f).1 :=
  status_setStatus_self (hf.of_states (combine_states chart e.links [] f).symm) ha

theorem status_finish_of_ne (h : t ≠ a) : (f.finish chart a e).status t = f.status t := by
  rw [finish, status_setStatus_of_ne h, status_of_states (combine_states chart e.links [] f)]

namespace Resolves

theorem fits {tasks : List Task} (h : Resolves chart tasks f f') (hf : f.Fits chart) :
    f'.Fits chart := by
  induction h with
  | nil => exact hf
  | cons rest ih => exact ih (hf.step _)

theorem due_le {tasks : List Task} (h : Resolves chart tasks f f') (hf : f.Fits chart) :
    due chart f' ≤ due chart f := by
  induction h with
  | nil => exact Nat.le_refl _
  | @cons t tasks f f' rest ih =>
    have hstep := length_step_add_due hf t
    have hrest := ih (hf.step t)
    omega

/-- Tasks that visit entries are carried out entry by entry. -/
theorem chain {as : List Address} (h : Resolves chart (as.map .visit) f f') (hf : f.Fits chart)
    {motive : Address → Forest → Forest → Prop} {n : Nat} (hn : due chart f ≤ n)
    (hmotive : ∀ b f f', f.Fits chart → due chart f ≤ n → Resolves chart [.visit b] f f' →
      motive b f f') :
    Chain (fun b f f' => f.Fits chart ∧ Resolves chart [.visit b] f f' ∧ motive b f f')
      as f f' := by
  induction as generalizing f with
  | nil =>
    cases h
    exact .nil
  | cons a as ih =>
    have h : Resolves chart ([.visit a] ++ as.map .visit) f f' := h
    obtain ⟨f₁, hfirst, hlater⟩ := h.split
    have hdue := hfirst.due_le hf
    exact .cons ⟨hf, hfirst, hmotive a f f₁ hf hn hfirst⟩
      (ih hlater (hfirst.fits hf) (Nat.le_trans hdue hn))

/-- How to prove something of every visit of an entry. -/
theorem visit_induction {motive : Address → Forest → Forest → Prop}
    (idle : ∀ a f, (f.status a = .fresh → chart.entryAt? a = none) → motive a f f)
    (begun : ∀ a e f, f.Fits chart → chart.entryAt? a = some e → f.status a = .fresh →
      e.item.dot = 0 → motive a f (f.setStatus a (.resolved [[]])))
    (enter : ∀ a e f f₁, f.Fits chart → f₁.Fits chart → chart.entryAt? a = some e →
      f.status a = .fresh → e.item.dot ≠ 0 →
      Chain (fun b f f' => f.Fits chart ∧ Resolves chart [.visit b] f f' ∧ motive b f f')
        (e.links.flatMap Link.targets) (f.setStatus a .active) f₁ →
      motive a f (f₁.finish chart a e))
    (hf : f.Fits chart) (hr : Resolves chart [.visit a] f f') : motive a f f' := by
  -- Entering an entry pays for it, so that less is due when the visits of its links begin.
  induction hn : due chart f using Nat.strong_induction_on generalizing a f f' with
  | _ n ih =>
  have hnext := hr.next
  rw [List.append_nil] at hnext
  by_cases hs : f.status a = .fresh
  · cases ha : chart.entryAt? a with
    | none =>
      rw [step_visit_missing ha] at hnext
      cases hnext
      exact idle a f fun _ => ha
    | some e =>
      by_cases hd : e.item.dot = 0
      · rw [step_visit_begun ha hs hd] at hnext
        cases hnext
        exact begun a e f hf ha hs hd
      · rw [step_visit_enter ha hs hd] at hnext
        obtain ⟨f₁, hvisits, hfinish⟩ := hnext.split
        have hfits := hf.setStatus a .active
        have hdue : due chart (f.setStatus a .active) < n := by
          have hpaid := due_setStatus (s := .active) hf ha (by simp)
          have howed : owed chart f a = 1 + 2 * e.links.length := by
            simp only [owed, hs, Chart.cost_eq ha]
          omega
        have hfinished := hfinish.next
        rw [step_finish ha] at hfinished
        cases hfinished
        apply enter a e f f₁ hf (hvisits.fits hfits) ha hs hd
        rw [flatMap_visits] at hvisits
        apply hvisits.chain hfits (Nat.le_refl _)
        intro b g g' hg hgdue hgr
        exact ih _ (Nat.lt_of_le_of_lt hgdue hdue) hg hgr rfl
  · rw [step_visit_known hs] at hnext
    cases hnext
    exact idle a f fun hfresh => absurd hfresh hs

end Resolves

theorem Keeps.not_fresh (h : Keeps f f') (ht : f.status t ≠ .fresh) : f'.status t ≠ .fresh := by
  cases hs : f.status t with
  | fresh => exact absurd hs ht
  | active => simp [(h.active t).mpr hs]
  | resolved found => simp [h.resolved t found hs]

theorem Chain.keeps {R : Address → Forest → Forest → Prop} {as : List Address}
    (h : Chain R as f f') (hR : ∀ a f f', R a f f' → Keeps f f') : Keeps f f' := by
  induction h with
  | nil => exact .refl _
  | cons first later ih => exact (hR _ _ _ first).trans ih

theorem Chain.status_eq {R : Address → Forest → Forest → Prop} {as : List Address}
    {region : Address → Prop} (h : Chain R as f f') (has : ∀ a ∈ as, region a)
    (hR : ∀ a f f', R a f f' → region a → f'.status t = f.status t) :
    f'.status t = f.status t := by
  induction h with
  | nil => rfl
  | cons first later ih =>
    rw [ih fun b hb => has b (List.mem_cons_of_mem _ hb)]
    exact hR _ _ _ first (has _ List.mem_cons_self)

theorem keeps_settle {found : List Sequence} (hf : f.Fits chart)
    (ha : chart.entryAt? a = some e) (hs : f.status a = .fresh) :
    Keeps f (f.setStatus a (.resolved found)) := by
  apply Keeps.of_settled hs ⟨found, status_setStatus_self hf ha⟩
  · intro t ht
    rw [status_setStatus_of_ne ht]
  · intro t ht found hfound
    rwa [status_setStatus_of_ne ht]

theorem keeps_finish {f₁ : Forest} (hf₁ : f₁.Fits chart) (ha : chart.entryAt? a = some e)
    (hs : f.status a = .fresh) (hkeeps : Keeps (f.setStatus a .active) f₁) :
    Keeps f (f₁.finish chart a e) := by
  apply Keeps.of_settled hs ⟨_, status_finish_self hf₁ ha⟩
  · intro t ht
    rw [status_finish_of_ne ht, hkeeps.active, status_setStatus_of_ne ht]
  · intro t ht found hfound
    rw [status_finish_of_ne ht]
    apply hkeeps.resolved
    rwa [status_setStatus_of_ne ht]

theorem settled_of_status (hfresh : f.status t ≠ .fresh) (hactive : f.status t ≠ .active) :
    f.Settled t := by
  cases hs : f.status t with
  | fresh => exact absurd hs hfresh
  | active => exact absurd hs hactive
  | resolved found => exact ⟨found, hs⟩

namespace Resolves

theorem keeps (hf : f.Fits chart) (hr : Resolves chart [.visit a] f f') : Keeps f f' := by
  apply visit_induction (motive := fun _ f f' => Keeps f f') ?idle ?begun ?enter hf hr
  case idle =>
    intro a f _
    exact .refl f
  case begun =>
    intro a e f hf ha hs _
    exact keeps_settle hf ha hs
  case enter =>
    intro a e f f₁ _ hf₁ ha hs _ hchain
    apply keeps_finish hf₁ ha hs
    exact hchain.keeps fun _ _ _ hR => hR.2.2

theorem not_fresh (hf : f.Fits chart) (hr : Resolves chart [.visit a] f f')
    (ha : chart.entryAt? a = some e) : f'.status a ≠ .fresh := by
  revert ha
  apply visit_induction
    (motive := fun a _ f' => chart.entryAt? a = some e → f'.status a ≠ .fresh) ?idle ?begun
      ?enter hf hr
  case idle =>
    intro a f hidle ha hs
    rw [hidle hs] at ha
    cases ha
  case begun =>
    intro a e f hf ha _ _ _
    simp [status_setStatus_self hf ha]
  case enter =>
    intro a e f f₁ _ hf₁ ha _ _ _ _
    simp [status_finish_self hf₁ ha]

/-- An entry that is not active is settled by its visit. -/
theorem settled (hf : f.Fits chart) (hr : Resolves chart [.visit a] f f')
    (ha : chart.entryAt? a = some e) (hactive : f.status a ≠ .active) : f'.Settled a := by
  apply settled_of_status (hr.not_fresh hf ha)
  intro hs
  exact hactive (((hr.keeps hf).active a).mp hs)

theorem status_eq {region : Address → Prop}
    (hregion : ∀ a b, region a → chart.LeadsTo a b → region b) (hf : f.Fits chart)
    (hr : Resolves chart [.visit a] f f') (ha : region a) (ht : ¬region t) :
    f'.status t = f.status t := by
  have hne : ∀ b, region b → t ≠ b := by
    intro b hb htb
    exact ht (htb ▸ hb)
  revert ha
  apply visit_induction (motive := fun a f f' => region a → f'.status t = f.status t)
    ?idle ?begun ?enter hf hr
  case idle =>
    intro a f _ _
    rfl
  case begun =>
    intro a e f _ _ _ _ ha
    exact status_setStatus_of_ne (hne a ha)
  case enter =>
    intro a e f f₁ _ _ he _ _ hchain ha
    have htargets : ∀ b ∈ e.links.flatMap Link.targets, region b := by
      intro b hb
      obtain ⟨l, hl, hb⟩ := List.mem_flatMap.mp hb
      exact hregion a b ha ⟨e, l, he, hl, Link.mem_targets.mp hb⟩
    rw [status_finish_of_ne (hne a ha), hchain.status_eq htargets fun _ _ _ hR => hR.2.2,
      status_setStatus_of_ne (hne a ha)]

end Resolves

section Combine

variable {f₁ : Forest} {links : List Link} {found : List Sequence} {s : Sequence}

theorem sequences_of_states (h : f.states = f₁.states) (a : Address) :
    f.sequences a = f₁.sequences a := by
  simp only [sequences, status_of_states h]

theorem pieces_fst_of_states (h : f.states = f₁.states) (p : Piece) :
    (f.pieces chart p).1 = (f₁.pieces chart p).1 := by
  cases p with
  | token column => rfl
  | item a =>
    cases ha : chart.entryAt? a with
    | none => simp only [pieces, trees, ha]
    | some e => rw [pieces, pieces, trees_fst f ha, trees_fst f₁ ha, sequences_of_states h]

theorem combine_cons (l : Link) :
    combine chart (l :: links) found f =
      if found.length ≥ derivationLimit then (found, f)
      else combine chart links ((found ++ (f.sequences l.previous).flatMap fun front =>
        (f.pieces chart l.piece).1.map fun last => front ++ [last]).take derivationLimit)
          (f.pieces chart l.piece).2 := by
  rw [← sequences_of_states (pieces_states f chart l.piece)]
  rfl

/-- What links give: a sequence of the previous item with a tree of the piece after it. -/
theorem mem_combine (h : s ∈ (combine chart links found f).1) :
    s ∈ found ∨ ∃ l ∈ links, ∃ front ∈ f.sequences l.previous,
      ∃ last ∈ (f.pieces chart l.piece).1, s = front ++ [last] := by
  induction links generalizing found f with
  | nil => exact .inl h
  | cons l links ih =>
    rw [combine_cons] at h
    split at h
    · exact .inl h
    · have hstates := pieces_states f chart l.piece
      rcases ih h with hmem | ⟨l', hl', front, hfront, last, hlast, hs⟩
      · rcases List.mem_append.mp (List.mem_of_mem_take hmem) with hmem | hmem
        · exact .inl hmem
        · obtain ⟨front, hfront, hmem⟩ := List.mem_flatMap.mp hmem
          obtain ⟨last, hlast, rfl⟩ := List.mem_map.mp hmem
          exact .inr ⟨l, List.mem_cons_self, front, hfront, last, hlast, rfl⟩
      · rw [sequences_of_states hstates] at hfront
        rw [pieces_fst_of_states hstates] at hlast
        exact .inr ⟨l', List.mem_cons_of_mem _ hl', front, hfront, last, hlast, hs⟩

theorem combine_ne_nil (h : found ≠ [] ∨ ∃ l ∈ links, f.sequences l.previous ≠ [] ∧
    (f.pieces chart l.piece).1 ≠ []) : (combine chart links found f).1 ≠ [] := by
  induction links generalizing found f with
  | nil =>
    rcases h with hfound | ⟨l, hl, -⟩
    · exact hfound
    · exact absurd hl List.not_mem_nil
  | cons l links ih =>
    rw [combine_cons]
    split
    · rename_i hfull
      intro hnil
      have hnil : found = [] := hnil
      simp [hnil, derivationLimit] at hfull
    · have hstates := pieces_states f chart l.piece
      apply ih
      rcases h with hfound | ⟨l', hl', hprevious, hpiece⟩
      · apply Or.inl
        simp [hfound, derivationLimit]
      · rcases List.mem_cons.mp hl' with rfl | hl'
        · apply Or.inl
          obtain ⟨front, hfront⟩ := List.exists_mem_of_ne_nil _ hprevious
          obtain ⟨last, hlast⟩ := List.exists_mem_of_ne_nil _ hpiece
          have hmem : front ++ [last] ∈ found ++ (f.sequences l'.previous).flatMap fun front =>
              (f.pieces chart l'.piece).1.map fun last => front ++ [last] :=
            List.mem_append_right _ (List.mem_flatMap.mpr
              ⟨front, hfront, List.mem_map.mpr ⟨last, hlast, rfl⟩⟩)
          intro hnil
          rcases List.take_eq_nil_iff.mp hnil with hnil | hnil
          · cases hnil
          · rw [hnil] at hmem
            exact List.not_mem_nil hmem
        · refine .inr ⟨l', hl', ?_, ?_⟩
          · rwa [sequences_of_states hstates]
          · rwa [pieces_fst_of_states hstates]

end Combine

section Truthful

variable {ν τ ρ : Type} [DecidableEq ν] {g : Grammar ν τ ρ} {root : ν}
  {tokens : Array (Token τ)}

/-- Resolved entries have only sequences that they can have. -/
structure Truthful (g : Grammar ν τ ρ) (tokens : Array (Token τ)) (chart : Chart)
    (f : Forest) : Prop where
  fits : f.Fits chart
  mem : ∀ a found, f.status a = .resolved found → ∀ s ∈ found, s ∈ chart.sequencesAt g tokens a

namespace Truthful

theorem of_states (h : f.Truthful g tokens chart) (he : f.states = f'.states) :
    f'.Truthful g tokens chart :=
  ⟨h.fits.of_states he, fun a found hs => h.mem a found ((status_of_states he a).trans hs)⟩

theorem setStatus {s : Status} (h : f.Truthful g tokens chart) (ha : chart.entryAt? a = some e)
    (hs : ∀ found, s = .resolved found → ∀ x ∈ found, x ∈ chart.sequencesAt g tokens a) :
    (f.setStatus a s).Truthful g tokens chart := by
  refine ⟨h.fits.setStatus a s, ?_⟩
  intro b found hb
  by_cases hab : b = a
  · subst hab
    rw [status_setStatus_self h.fits ha] at hb
    exact hs found hb
  · rw [status_setStatus_of_ne hab] at hb
    exact h.mem b found hb

theorem mem_sequences (h : f.Truthful g tokens chart) {s : Sequence} (hs : s ∈ f.sequences a) :
    s ∈ chart.sequencesAt g tokens a := by
  unfold Forest.sequences at hs
  split at hs
  · rename_i found hstatus
    exact h.mem a found hstatus s hs
  · exact absurd hs List.not_mem_nil

theorem mem_trees (h : f.Truthful g tokens chart) {d : Derivation}
    (hd : d ∈ (f.trees chart a).1) : d ∈ chart.treesOf g tokens (.item a) := by
  cases ha : chart.entryAt? a with
  | none => simp [Forest.trees, ha] at hd
  | some e =>
    rw [trees_fst f ha] at hd
    obtain ⟨s, hs, rfl⟩ := List.mem_map.mp hd
    exact ⟨e, s, ha, h.mem_sequences hs, rfl⟩

theorem mem_pieces (h : f.Truthful g tokens chart) {p : Piece} {d : Derivation}
    (hd : d ∈ (f.pieces chart p).1) : d ∈ chart.treesOf g tokens p := by
  cases p with
  | token column => exact List.mem_singleton.mp hd
  | item a => exact h.mem_trees hd

theorem step (h : f.Truthful g tokens chart) (hb : chart.Built g root tokens) (t : Task) :
    (Forest.step chart f t).2.Truthful g tokens chart := by
  cases t with
  | visit a =>
    cases ha : chart.entryAt? a with
    | none =>
      rw [step_visit_missing ha]
      exact h
    | some e =>
      by_cases hs : f.status a = .fresh
      · by_cases hd : e.item.dot = 0
        · rw [step_visit_begun ha hs hd]
          apply h.setStatus ha
          intro found hfound x hx
          cases hfound
          rw [Chart.sequencesAt_begin hb ha hd]
          exact List.mem_singleton.mp hx
        · rw [step_visit_enter ha hs hd]
          exact h.setStatus ha (by simp)
      · rw [step_visit_known hs]
        exact h
  | finish a =>
    cases ha : chart.entryAt? a with
    | none =>
      rw [step_finish_missing ha]
      exact h
    | some e =>
      rw [step_finish ha]
      apply (h.of_states (combine_states chart e.links [] f).symm).setStatus ha
      intro found hfound x hx
      cases hfound
      rcases mem_combine hx with hnil | ⟨l, hl, front, hfront, last, hlast, hx⟩
      · exact absurd hnil List.not_mem_nil
      · exact hb.sequencesVia_subset ha hl
          ⟨front, last, h.mem_sequences hfront, h.mem_pieces hlast, hx⟩

theorem resolves {tasks : List Task} (h : f.Truthful g tokens chart)
    (hb : chart.Built g root tokens) (hr : Resolves chart tasks f f') :
    f'.Truthful g tokens chart := by
  induction hr with
  | nil => exact h
  | cons rest ih => exact ih (h.step hb _)

theorem derivations (h : f.Truthful g tokens chart) (hb : chart.Built g root tokens)
    {entries : List Address} {found : List Derivation} {d : Derivation}
    (hd : d ∈ (Forest.derivations chart entries found f).1) :
    d ∈ found ∨ ∃ a ∈ entries, d ∈ chart.treesOf g tokens (.item a) := by
  induction entries generalizing found f with
  | nil => exact .inl hd
  | cons a entries ih =>
    have h₁ := h.resolves hb (resolves_resolve h.fits a)
    have hfirst : d ∈ found ++ ((f.resolve chart a).trees chart a).1 →
        d ∈ found ∨ ∃ b ∈ a :: entries, d ∈ chart.treesOf g tokens (.item b) := by
      intro hmem
      rcases List.mem_append.mp hmem with hmem | hmem
      · exact .inl hmem
      · exact .inr ⟨a, List.mem_cons_self, h₁.mem_trees hmem⟩
    unfold Forest.derivations at hd
    simp only at hd
    split at hd
    · exact hfirst hd
    · rcases ih (h₁.of_states (trees_states _ chart a).symm) hd with hmem | ⟨b, hb, hmem⟩
      · exact hfirst hmem
      · exact .inr ⟨b, List.mem_cons_of_mem _ hb, hmem⟩

theorem ofChart (g : Grammar ν τ ρ) (tokens : Array (Token τ)) (chart : Chart) :
    (Forest.ofChart chart).Truthful g tokens chart := by
  refine ⟨fits_ofChart chart, ?_⟩
  intro a found ha
  rw [status_ofChart] at ha
  cases ha

end Truthful

end Truthful

end Forest

end Fabula
