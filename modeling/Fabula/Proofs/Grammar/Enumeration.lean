import Fabula.Proofs.Grammar.Descent
import Fabula.Proofs.Grammar.Walk

namespace Fabula

open Relation

/-- Distinct members of a set, and all its members if they are fewer than `n`. -/
structure Samples {α : Type} (n : Nat) (xs : List α) (S : Set α) : Prop where
  nodup : xs.Nodup
  mem : ∀ x ∈ xs, x ∈ S
  all : xs.length < n → ∀ x ∈ S, x ∈ xs

namespace Samples

variable {α β : Type} {n : Nat} {xs ys : List α} {S T : Set α}

theorem of_length_le (h : Samples n xs S) (hn : n ≤ xs.length) (hST : S ⊆ T) : Samples n xs T :=
  ⟨h.nodup, fun x hx => hST (h.mem x hx), fun hlt => absurd hlt (Nat.not_lt_of_le hn)⟩

theorem singleton (n : Nat) (x : α) : Samples n [x] {x} :=
  ⟨List.nodup_singleton x, fun _ hy => List.mem_singleton.mp hy,
    fun _ _ hy => List.mem_singleton.mpr hy⟩

theorem empty (n : Nat) : Samples n [] (∅ : Set α) :=
  ⟨List.nodup_nil, fun _ hx => absurd hx List.not_mem_nil, fun _ _ hx => hx.elim⟩

theorem take (h : Samples n xs S) : Samples n (xs.take n) S := by
  refine ⟨h.nodup.sublist (List.take_sublist n xs),
    fun x hx => h.mem x (List.mem_of_mem_take hx), ?_⟩
  intro hlt x hx
  rw [List.length_take] at hlt
  rw [List.take_of_length_le (by omega)]
  exact h.all (by omega) x hx

theorem append (h : Samples n xs S) (h' : Samples n ys T) (hd : Disjoint S T) :
    Samples n (xs ++ ys) (S ∪ T) := by
  refine ⟨List.nodup_append'.mpr ⟨h.nodup, h'.nodup, ?_⟩, ?_, ?_⟩
  · intro x hx hy
    exact Set.disjoint_left.mp hd (h.mem x hx) (h'.mem x hy)
  · intro x hx
    exact (List.mem_append.mp hx).imp (h.mem x) (h'.mem x)
  · intro hlt x hx
    rw [List.length_append] at hlt
    exact List.mem_append.mpr (hx.imp (h.all (by omega) x) (h'.all (by omega) x))

theorem map {f : α → β} (h : Samples n xs S) (hf : Function.Injective f) :
    Samples n (xs.map f) {y | ∃ x ∈ S, y = f x} := by
  refine ⟨h.nodup.map hf, ?_, ?_⟩
  · intro y hy
    obtain ⟨x, hx, rfl⟩ := List.mem_map.mp hy
    exact ⟨x, h.mem x hx, rfl⟩
  · rintro hlt y ⟨x, hx, rfl⟩
    rw [List.length_map] at hlt
    exact List.mem_map_of_mem (h.all hlt x hx)

theorem snoc {fronts : List (List α)} {lasts : List α} {F : Set (List α)} {L : Set α}
    (hF : Samples n fronts F) (hL : Samples n lasts L) :
    Samples n (fronts.flatMap fun front => lasts.map fun last => front ++ [last])
      {s | ∃ front last, front ∈ F ∧ last ∈ L ∧ s = front ++ [last]} := by
  refine ⟨?_, ?_, ?_⟩
  · refine List.nodup_flatMap.mpr
      ⟨fun front _ => hL.nodup.map ?_, hF.nodup.imp fun {f f'} hne => ?_⟩
    · intro x y hxy
      simpa using hxy
    · intro s hs hs'
      obtain ⟨x, -, rfl⟩ := List.mem_map.mp hs
      obtain ⟨y, -, he⟩ := List.mem_map.mp hs'
      exact hne (List.append_inj' he rfl).1.symm
  · intro s hs
    obtain ⟨front, hfront, hs⟩ := List.mem_flatMap.mp hs
    obtain ⟨last, hlast, rfl⟩ := List.mem_map.mp hs
    exact ⟨front, last, hF.mem front hfront, hL.mem last hlast, rfl⟩
  · rintro hlt s ⟨front, last, hfront, hlast, rfl⟩
    have hlen : (fronts.flatMap fun front => lasts.map fun last => front ++ [last]).length =
        fronts.length * lasts.length := by
      simp [List.length_flatMap]
    rw [hlen] at hlt
    -- If either list is empty, so is what it samples; otherwise neither is longer than the
    -- product.
    have hfronts : fronts.length < n := by
      rcases Nat.eq_zero_or_pos lasts.length with h0 | hpos
      · have hnil := List.length_eq_zero_iff.mp h0
        have := hL.all (by rw [h0]; exact Nat.lt_of_le_of_lt (Nat.zero_le _) hlt) last hlast
        simp [hnil] at this
      · exact Nat.lt_of_le_of_lt (Nat.le_mul_of_pos_right _ hpos) hlt
    have hmem := hF.all hfronts front hfront
    have hpos : 0 < fronts.length := List.length_pos_of_mem hmem
    have hlasts : lasts.length < n :=
      Nat.lt_of_le_of_lt (Nat.le_mul_of_pos_left _ hpos) hlt
    exact List.mem_flatMap.mpr
      ⟨front, hmem, List.mem_map.mpr ⟨last, hL.all hlasts last hlast, rfl⟩⟩

theorem nontrivial (h : Samples n xs S) (hn : 2 ≤ xs.length) (hT : ∀ x ∈ xs, x ∈ T) :
    T.Nontrivial := by
  cases xs with
  | nil => simp at hn
  | cons x xs =>
    cases xs with
    | nil => simp at hn
    | cons y xs =>
      refine ⟨x, hT x (by simp), y, hT y (by simp), ?_⟩
      rintro rfl
      have hnodup := h.nodup
      simp at hnodup

theorem subsingleton (h : Samples n xs S) (hn : xs.length < n) (hone : xs.length < 2) :
    S.Subsingleton := by
  intro x hx y hy
  have hx := h.all hn x hx
  have hy := h.all hn y hy
  cases xs with
  | nil => exact absurd hx List.not_mem_nil
  | cons z xs =>
    obtain rfl : xs = [] := List.length_eq_zero_iff.mp (by simpa using hone)
    rw [List.mem_singleton.mp hx, List.mem_singleton.mp hy]

end Samples

namespace Forest

variable {ν τ ρ : Type} [DecidableEq ν]

variable {g : Grammar ν τ ρ} {root : ν} {tokens : Array (Token τ)} {chart : Chart}
  {f f' f'' : Forest} {a : Address} {e : Entry} {s : Status}

def Settled (f : Forest) (a : Address) : Prop :=
  ∃ found, f.status a = .resolved found

theorem trees_fst (f : Forest) (ha : chart.entryAt? a = some e) :
    (f.trees chart a).1 = (f.sequences a).map (.node e.item.production) := by
  simp only [Forest.trees, ha]
  split <;> rfl

/-- What holds of a forest all along the walk: resolved entries sample what they can have. -/
structure Sound (g : Grammar ν τ ρ) (tokens : Array (Token τ)) (chart : Chart)
    (f : Forest) : Prop where
  fits : f.Fits chart
  samples : ∀ a found, f.status a = .resolved found →
    Samples derivationLimit found (chart.sequencesAt g tokens a)

namespace Sound

theorem of_states (h : f.Sound g tokens chart) (he : f.states = f'.states) :
    f'.Sound g tokens chart :=
  ⟨h.fits.of_states he, fun a found hs => h.samples a found ((status_of_states he a).trans hs)⟩

theorem setStatus (h : f.Sound g tokens chart) (ha : chart.entryAt? a = some e)
    (hs : ∀ found, s = .resolved found →
      Samples derivationLimit found (chart.sequencesAt g tokens a)) :
    (f.setStatus a s).Sound g tokens chart := by
  refine ⟨h.fits.setStatus a s, fun b found hb => ?_⟩
  by_cases hab : b = a
  · subst hab
    rw [status_setStatus_self h.fits ha] at hb
    exact hs found hb
  · rw [status_setStatus_of_ne hab] at hb
    exact h.samples b found hb

theorem sequences (h : f.Sound g tokens chart) (ha : f.Settled a) :
    Samples derivationLimit (f.sequences a) (chart.sequencesAt g tokens a) := by
  obtain ⟨found, hs⟩ := ha
  simp only [Forest.sequences, hs]
  exact h.samples a found hs

theorem trees (h : f.Sound g tokens chart) (ha : chart.entryAt? a = some e) (hs : f.Settled a) :
    Samples derivationLimit (f.trees chart a).1 (chart.treesOf g tokens (.item a)) := by
  have hset : chart.treesOf g tokens (.item a) =
      {t | ∃ s ∈ chart.sequencesAt g tokens a, t = .node e.item.production s} := by
    ext t
    simp [Chart.treesOf, ha]
  rw [trees_fst f ha, hset]
  exact (h.sequences hs).map fun s s' he => (Derivation.node.inj he).2

end Sound

def Ready (chart : Chart) (f : Forest) (l : Link) : Prop :=
  f.Settled l.previous ∧ ∀ b, l.piece = .item b → f.Settled b ∧ ∃ e, chart.entryAt? b = some e

theorem Sound.pieces (h : f.Sound g tokens chart) {l : Link} (hl : Ready chart f l) :
    Samples derivationLimit (f.pieces chart l.piece).1 (chart.treesOf g tokens l.piece) := by
  obtain ⟨previous, piece⟩ := l
  cases piece with
  | token k => exact Samples.singleton _ _
  | item b =>
    obtain ⟨hs, e, hb⟩ := hl.2 b rfl
    exact h.trees hb hs

theorem Ready.of_states {l : Link} (hl : Ready chart f l) (he : f.states = f'.states) :
    Ready chart f' l := by
  have hsettled {b : Address} (hb : f.Settled b) : f'.Settled b := by
    rwa [Settled, ← status_of_states he b]
  exact ⟨hsettled hl.1, fun b hb => ⟨hsettled (hl.2 b hb).1, (hl.2 b hb).2⟩⟩

/-- Links are combined one after the other, each adding what comes by it. -/
theorem Sound.combine {links : List Link} {found : List Sequence} {S : Set Sequence}
    (h : f.Sound g tokens chart) (hready : ∀ l ∈ links, Ready chart f l)
    (hfound : Samples derivationLimit found S)
    (hnew : ∀ l ∈ links, Disjoint S (chart.sequencesVia g tokens l))
    (hapart : links.Pairwise fun l l' =>
      Disjoint (chart.sequencesVia g tokens l) (chart.sequencesVia g tokens l')) :
    Samples derivationLimit (Forest.combine chart links found f).1
      (S ∪ {s | ∃ l ∈ links, s ∈ chart.sequencesVia g tokens l}) := by
  induction links generalizing found S f with
  | nil => simpa [Forest.combine] using hfound
  | cons l links ih =>
    unfold Forest.combine
    split
    · rename_i hfull
      exact hfound.of_length_le hfull Set.subset_union_left
    · have hl := hready l List.mem_cons_self
      have hstates := pieces_states f chart l.piece
      have hprevious :
          (f.pieces chart l.piece).2.sequences l.previous = f.sequences l.previous := by
        simp only [Forest.sequences, status_of_states hstates]
      have hmore := (h.sequences hl.1).snoc (h.pieces hl)
      have hsum := (hfound.append hmore (hnew l List.mem_cons_self)).take
      obtain ⟨hhead, htail⟩ := List.pairwise_cons.mp hapart
      have hrest := ih (h.of_states hstates.symm)
        (fun l' hl' => (hready l' (List.mem_cons_of_mem _ hl')).of_states hstates.symm) hsum
        (fun l' hl' => Set.disjoint_union_left.mpr
          ⟨hnew l' (List.mem_cons_of_mem _ hl'), hhead l' hl'⟩) htail
      simp only [hprevious]
      refine cast ?_ hrest
      congr 1
      ext s
      simp [Chart.sequencesVia, or_assoc]

theorem Sound.combine_links (h : f.Sound g tokens chart) (hx : chart.Exact g root tokens)
    (ha : chart.entryAt? a = some e) (hd : e.item.dot ≠ 0)
    (hready : ∀ l ∈ e.links, Ready chart f l) :
    Samples derivationLimit (Forest.combine chart e.links [] f).1
      (chart.sequencesAt g tokens a) := by
  have hset : chart.sequencesAt g tokens a =
      ∅ ∪ {s | ∃ l ∈ e.links, s ∈ chart.sequencesVia g tokens l} := by
    rw [Set.empty_union]
    apply Set.Subset.antisymm
    · intro s hs
      exact hx.exists_link ha hd hs
    · rintro s ⟨l, hl, hs⟩
      exact hx.built.sequencesVia_subset ha hl hs
  rw [hset]
  refine h.combine hready (Samples.empty _) (fun l _ => Set.empty_disjoint _) ?_
  refine (hx.built.links_nodup ha).imp_of_mem fun {l l'} hl hl' hne => ?_
  exact Set.disjoint_left.mpr fun s hs hs' => hne (hx.built.link_unique ha hl hl' hs hs')

/-- What a walk from an entry leaves as it was: which entries are active, and all that is
resolved. -/
structure Keeps (f f' : Forest) : Prop where
  active : ∀ t, f'.status t = .active ↔ f.status t = .active
  resolved : ∀ t found, f.status t = .resolved found → f'.status t = .resolved found

namespace Keeps

theorem refl (f : Forest) : Keeps f f :=
  ⟨fun _ => Iff.rfl, fun _ _ h => h⟩

theorem trans (h : Keeps f f') (h' : Keeps f' f'') : Keeps f f'' :=
  ⟨fun t => (h'.active t).trans (h.active t),
    fun t found hs => h'.resolved t found (h.resolved t found hs)⟩

theorem of_settled (hs : f.status a = .fresh) (hs' : f'.Settled a)
    (hactive : ∀ t, t ≠ a → (f'.status t = .active ↔ f.status t = .active))
    (hresolved :
      ∀ t, t ≠ a → ∀ found, f.status t = .resolved found → f'.status t = .resolved found) :
    Keeps f f' := by
  obtain ⟨found', hs'⟩ := hs'
  refine ⟨fun t => ?_, fun t found ht => ?_⟩
  · by_cases hta : t = a
    · rw [hta, hs, hs']
      simp
    · exact hactive t hta
  · refine hresolved t ?_ found ht
    rintro rfl
    rw [hs] at ht
    cases ht

theorem settled (h : Keeps f f') (ha : f.Settled a) : f'.Settled a := by
  obtain ⟨found, hs⟩ := ha
  exact ⟨found, h.resolved a found hs⟩

end Keeps

def Below (chart : Chart) : Address → Address → Prop :=
  TransGen fun b a => chart.LeadsTo a b

/-- What the visit of an entry does: it comes out sound, with the entry settled and all else
kept. While an entry is visited, only entries above it are active. -/
def Visited (g : Grammar ν τ ρ) (tokens : Array (Token τ)) (chart : Chart)
    (a : Address) : Prop :=
  ∀ f f', f.Sound g tokens chart → (∀ t, f.status t = .active → Below chart a t) →
    Resolves chart [.visit a] f f' → f'.Sound g tokens chart ∧ Keeps f f' ∧ f'.Settled a

/-- Seen from what an entry leads to, the entry itself is above. -/
theorem below_of_leadsTo {b : Address}
    (hactive : ∀ t, f.status t = .active → t = a ∨ Below chart a t) (hb : chart.LeadsTo a b) :
    ∀ t, f.status t = .active → Below chart b t := by
  intro t ht
  rcases hactive t ht with rfl | hbelow
  · exact .single hb
  · exact .head hb hbelow

theorem active_setStatus (hactive : ∀ t, f.status t = .active → Below chart a t) :
    ∀ t, (f.setStatus a .active).status t = .active → t = a ∨ Below chart a t := by
  intro t ht
  by_cases hta : t = a
  · exact .inl hta
  · rw [status_setStatus_of_ne hta] at ht
    exact .inr (hactive t ht)

theorem visits_all {tasks : List Task}
    (htasks : ∀ t ∈ tasks, ∃ b, t = .visit b ∧ chart.LeadsTo a b ∧ Visited g tokens chart b)
    (h : f.Sound g tokens chart) (hactive : ∀ t, f.status t = .active → t = a ∨ Below chart a t)
    (hr : Resolves chart tasks f f') :
    f'.Sound g tokens chart ∧ Keeps f f' ∧ ∀ b, .visit b ∈ tasks → f'.Settled b := by
  induction tasks generalizing f with
  | nil =>
    cases hr
    exact ⟨h, .refl _, fun b hb => absurd hb List.not_mem_nil⟩
  | cons t tasks ih =>
    obtain ⟨b, rfl, hb, hvisited⟩ := htasks t List.mem_cons_self
    have hr : Resolves chart ([.visit b] ++ tasks) f f' := hr
    obtain ⟨f₁, hr₁, hr₂⟩ := hr.split
    have habove := below_of_leadsTo hactive hb
    obtain ⟨hsound₁, hkeeps₁, hsettled⟩ := hvisited f f₁ h habove hr₁
    obtain ⟨hsound, hkeeps, hall⟩ :=
      ih (fun t ht => htasks t (List.mem_cons_of_mem _ ht)) hsound₁
        (fun t ht => hactive t ((hkeeps₁.active t).mp ht)) hr₂
    refine ⟨hsound, hkeeps₁.trans hkeeps, fun b' hb' => ?_⟩
    rcases List.mem_cons.mp hb' with he | hmem
    · cases he
      exact hkeeps.settled hsettled
    · exact hall b' hmem

theorem mem_visits {links : List Link} {t : Task} (ht : t ∈ links.flatMap Link.visits) :
    ∃ l ∈ links, ∃ b, t = .visit b ∧ (b = l.previous ∨ l.piece = .item b) := by
  obtain ⟨l, hl, ht⟩ := List.mem_flatMap.mp ht
  refine ⟨l, hl, ?_⟩
  cases hp : l.piece with
  | token k =>
    simp only [Link.visits, hp, List.mem_singleton] at ht
    exact ⟨l.previous, ht, .inl rfl⟩
  | item b =>
    simp only [Link.visits, hp, List.mem_cons, List.not_mem_nil, or_false] at ht
    rcases ht with rfl | rfl
    · exact ⟨l.previous, rfl, .inl rfl⟩
    · exact ⟨b, rfl, .inr rfl⟩

theorem visit_mem_visits {links : List Link} {l : Link} (hl : l ∈ links) :
    .visit l.previous ∈ links.flatMap Link.visits ∧
      ∀ b, l.piece = .item b → .visit b ∈ links.flatMap Link.visits := by
  refine ⟨List.mem_flatMap.mpr ⟨l, hl, ?_⟩, fun b hb => List.mem_flatMap.mpr ⟨l, hl, ?_⟩⟩
  · unfold Link.visits
    split <;> simp
  · simp [Link.visits, hb]

theorem not_below_self (h : Acc (fun b a => chart.LeadsTo a b) a) : ¬Below chart a a := by
  replace h := h.transGen
  induction h with
  | intro a _ ih =>
  intro ha
  exact ih a ha ha

theorem Sound.settle {found : List Sequence} (h : f'.Sound g tokens chart)
    (ha : chart.entryAt? a = some e)
    (hfound : Samples derivationLimit found (chart.sequencesAt g tokens a))
    (hs : f.status a = .fresh)
    (hactive : ∀ t, t ≠ a → (f'.status t = .active ↔ f.status t = .active))
    (hresolved :
      ∀ t, t ≠ a → ∀ found, f.status t = .resolved found → f'.status t = .resolved found) :
    (f'.setStatus a (.resolved found)).Sound g tokens chart ∧
      Keeps f (f'.setStatus a (.resolved found)) ∧
      (f'.setStatus a (.resolved found)).Settled a := by
  have hsettled : (f'.setStatus a (.resolved found)).Settled a :=
    ⟨found, status_setStatus_self h.fits ha⟩
  refine ⟨h.setStatus ha ?_, .of_settled hs hsettled ?_ ?_, hsettled⟩
  · rintro found ⟨⟩
    exact hfound
  · intro t ht
    rw [status_setStatus_of_ne ht]
    exact hactive t ht
  · intro t ht found hs
    rw [status_setStatus_of_ne ht]
    exact hresolved t ht found hs

/-- Entering an entry settles it, once visiting what its links name settles that. -/
theorem Sound.enter (h : f.Sound g tokens chart) (hx : chart.Exact g root tokens)
    (ha : chart.entryAt? a = some e) (hd : e.item.dot ≠ 0) (hs : f.status a = .fresh)
    (hactive : ∀ t, f.status t = .active → Below chart a t)
    (hbelow : ∀ b, chart.LeadsTo a b → Visited g tokens chart b)
    (hr : Resolves chart (e.links.flatMap Link.visits ++ [.finish a])
      (f.setStatus a .active) f') :
    f'.Sound g tokens chart ∧ Keeps f f' ∧ f'.Settled a := by
  obtain ⟨f₁, hvisits, hfinish⟩ := hr.split
  have htasks : ∀ t ∈ e.links.flatMap Link.visits,
      ∃ b, t = .visit b ∧ chart.LeadsTo a b ∧ Visited g tokens chart b := by
    intro t ht
    obtain ⟨l, hl, b, rfl, hb⟩ := mem_visits ht
    exact ⟨b, rfl, ⟨e, l, ha, hl, hb⟩, hbelow b ⟨e, l, ha, hl, hb⟩⟩
  obtain ⟨h₁, hkeeps, hsettled⟩ :=
    visits_all htasks (h.setStatus ha (by simp)) (active_setStatus hactive) hvisits
  have hready : ∀ l ∈ e.links, Ready chart f₁ l := by
    intro l hl
    obtain ⟨hprevious, hpiece⟩ := visit_mem_visits hl
    refine ⟨hsettled _ hprevious, fun b hb => ⟨hsettled b (hpiece b hb), ?_⟩⟩
    obtain ⟨f, hf, -⟩ := hx.built.leadsTo_cases ha ⟨e, l, ha, hl, .inr hb⟩
    exact ⟨f, hf⟩
  have hfinished := hfinish.next
  rw [step_finish ha] at hfinished
  cases hfinished
  have hstates := combine_states chart e.links [] f₁
  refine (h₁.of_states hstates.symm).settle ha (h₁.combine_links hx ha hd hready) hs ?_ ?_
  · intro t ht
    rw [status_of_states hstates, hkeeps.active, status_setStatus_of_ne ht]
  · intro t ht found hfound
    rw [status_of_states hstates]
    exact hkeeps.resolved t found (by rwa [status_setStatus_of_ne ht])

theorem visited (hg : g.Acyclic) (hx : chart.Exact g root tokens)
    (ha : chart.entryAt? a = some e) : Visited g tokens chart a := by
  have hacc := Chart.acc_leadsTo hg hx.built a e ha
  have hself := not_below_self hacc
  induction hacc generalizing e with
  | intro a hacc ih =>
  intro f f' h hactive hr
  have hnext := hr.next
  cases hs : f.status a with
  | active =>
    -- It would lie below itself.
    exact absurd (hactive a hs) hself
  | resolved found =>
    rw [step_visit_known (by simp [hs])] at hnext
    cases hnext
    exact ⟨h, .refl f, found, hs⟩
  | fresh =>
    by_cases hd : e.item.dot = 0
    · rw [step_visit_begun ha hs hd] at hnext
      cases hnext
      refine h.settle ha ?_ hs (fun _ _ => Iff.rfl) (fun _ _ _ hfound => hfound)
      rw [Chart.sequencesAt_begin hx.built ha hd]
      exact Samples.singleton _ _
    · rw [step_visit_enter ha hs hd, List.append_nil] at hnext
      refine h.enter hx ha hd hs hactive (fun b hb => ?_) hnext
      obtain ⟨f, hf, -⟩ := hx.built.leadsTo_cases ha hb
      exact ih b hb hf (not_below_self (hacc b hb))

/-- The trees of several entries, resolved one after the other with no entry active in
between. -/
theorem Sound.derivations (hg : g.Acyclic) (hx : chart.Exact g root tokens)
    {entries : List Address} {found : List Derivation} {S : Set Derivation}
    (h : f.Sound g tokens chart) (hidle : ∀ t, f.status t ≠ .active)
    (hentries : ∀ a ∈ entries, ∃ e, chart.entryAt? a = some e)
    (hfound : Samples derivationLimit found S)
    (hnew : ∀ a ∈ entries, Disjoint S (chart.treesOf g tokens (.item a)))
    (hapart : entries.Pairwise fun a b =>
      Disjoint (chart.treesOf g tokens (.item a)) (chart.treesOf g tokens (.item b))) :
    Samples derivationLimit (Forest.derivations chart entries found f).1
      (S ∪ {t | ∃ a ∈ entries, t ∈ chart.treesOf g tokens (.item a)}) := by
  induction entries generalizing found S f with
  | nil => simpa [Forest.derivations] using hfound
  | cons a entries ih =>
    obtain ⟨e, ha⟩ := hentries a List.mem_cons_self
    obtain ⟨h₁, hkeeps, hsettled⟩ := visited hg hx ha f (f.resolve chart a) h
      (fun t ht => absurd ht (hidle t)) (resolves_resolve h.fits a)
    have hstates := trees_states (f.resolve chart a) chart a
    have hsum := hfound.append (h₁.trees ha hsettled) (hnew a List.mem_cons_self)
    have hunion : S ∪ {t | ∃ b ∈ a :: entries, t ∈ chart.treesOf g tokens (.item b)} =
        S ∪ chart.treesOf g tokens (.item a) ∪
          {t | ∃ b ∈ entries, t ∈ chart.treesOf g tokens (.item b)} := by
      ext t
      simp [or_assoc]
    rw [hunion]
    unfold Forest.derivations
    by_cases hfull : (found ++ ((f.resolve chart a).trees chart a).1).length ≥ derivationLimit
    · simp only [hfull, if_true]
      exact hsum.of_length_le hfull Set.subset_union_left
    · simp only [hfull, if_false]
      obtain ⟨hhead, htail⟩ := List.pairwise_cons.mp hapart
      refine ih (h₁.of_states hstates.symm) ?_
        (fun b hb => hentries b (List.mem_cons_of_mem _ hb))
        hsum ?_ htail
      · intro t ht
        rw [status_of_states hstates, hkeeps.active] at ht
        exact hidle t ht
      · intro b hb
        exact Set.disjoint_union_left.mpr ⟨hnew b (List.mem_cons_of_mem _ hb), hhead b hb⟩

theorem sound_ofChart (g : Grammar ν τ ρ) (tokens : Array (Token τ)) (chart : Chart) :
    (ofChart chart).Sound g tokens chart := by
  refine ⟨fits_ofChart chart, fun a found ha => ?_⟩
  rw [status_ofChart] at ha
  cases ha

end Forest

end Fabula
