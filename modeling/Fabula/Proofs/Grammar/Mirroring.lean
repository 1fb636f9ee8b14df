import Fabula.Proofs.Grammar.Arena
import Fabula.Proofs.Grammar.Decision
import Fabula.Proofs.Grammar.Visiting
import Mathlib

namespace Fabula

def Task.finishes? : Task → Option Address
  | visit _ => none
  | finish a => some a

namespace Forest

/-- The entries that are still to be put together are active, and each is put together once. -/
structure Poised (f : Forest) (tasks : List Task) : Prop where
  nodup : (tasks.filterMap Task.finishes?).Nodup
  active : ∀ a ∈ tasks.filterMap Task.finishes?, f.status a = .active

variable {chart : Chart} {f : Forest} {a : Address} {e : Entry} {s : Status} {t : Task}
  {tasks : List Task}

theorem filterMap_finishes?_visits (links : List Link) :
    (links.flatMap Link.visits).filterMap Task.finishes? = [] := by
  rw [flatMap_visits, List.filterMap_map]
  exact List.filterMap_eq_nil_iff.mpr fun _ _ => rfl

namespace Poised

theorem visit (f : Forest) (a : Address) : f.Poised [.visit a] :=
  ⟨List.nodup_nil, by simp [Task.finishes?]⟩

theorem tail (h : f.Poised (t :: tasks)) : f.Poised tasks := by
  have hsub : (tasks.filterMap Task.finishes?).Sublist
      ((t :: tasks).filterMap Task.finishes?) :=
    (List.sublist_cons_self t tasks).filterMap _
  exact ⟨h.nodup.sublist hsub, fun a ha => h.active a (hsub.subset ha)⟩

theorem setStatus (h : f.Poised tasks) (ha : a ∉ tasks.filterMap Task.finishes?) :
    (f.setStatus a s).Poised tasks := by
  refine ⟨h.nodup, fun b hb => ?_⟩
  rw [status_setStatus_of_ne (ne_of_mem_of_not_mem hb ha)]
  exact h.active b hb

theorem of_states {f' : Forest} (h : f.Poised tasks) (he : f.states = f'.states) :
    f'.Poised tasks :=
  ⟨h.nodup, fun a ha => (status_of_states he a).symm.trans (h.active a ha)⟩

theorem step (h : f.Poised (t :: tasks)) (hf : f.Fits chart) :
    (Forest.step chart f t).2.Poised ((Forest.step chart f t).1 ++ tasks) := by
  cases t with
  | visit a =>
    have hfree : f.status a = .fresh → a ∉ tasks.filterMap Task.finishes? := by
      intro hs ha
      rw [h.tail.active a ha] at hs
      cases hs
    cases ha : chart.entryAt? a with
    | none =>
      rw [step_visit_missing ha]
      exact h.tail
    | some e =>
      by_cases hs : f.status a = .fresh
      · by_cases hd : e.item.dot = 0
        · rw [step_visit_begun ha hs hd]
          exact h.tail.setStatus (hfree hs)
        · rw [step_visit_enter ha hs hd]
          have hlist :
              (e.links.flatMap Link.visits ++ [Task.finish a] ++ tasks).filterMap
                  Task.finishes? =
                a :: tasks.filterMap Task.finishes? := by
            rw [List.append_assoc, List.filterMap_append, filterMap_finishes?_visits]
            rfl
          refine ⟨?_, ?_⟩
          · rw [hlist]
            exact List.nodup_cons.mpr ⟨hfree hs, h.tail.nodup⟩
          · rw [hlist]
            refine List.forall_mem_cons.mpr ⟨status_setStatus_self hf ha, ?_⟩
            exact (h.tail.setStatus (hfree hs)).active
      · rw [step_visit_known hs]
        exact h.tail
  | finish a =>
    cases ha : chart.entryAt? a with
    | none =>
      rw [step_finish_missing ha]
      exact h.tail
    | some e =>
      rw [step_finish ha]
      have hnodup : (a :: tasks.filterMap Task.finishes?).Nodup := h.nodup
      have htail := h.tail.of_states (combine_states chart e.links [] f).symm
      exact htail.setStatus (List.nodup_cons.mp hnodup).1

end Poised

end Forest

theorem map_flatMap_snoc {α β : Type} (φ : α → β) (fronts : List (List α)) (lasts : List α) :
    (fronts.flatMap fun front => lasts.map fun last => front ++ [last]).map (List.map φ) =
      (fronts.map (List.map φ)).flatMap fun front => (lasts.map φ).map fun last =>
        front ++ [last] := by
  simp [List.map_flatMap, List.flatMap_map, Function.comp_def]

def Chart.Completed {ν τ ρ : Type} [DecidableEq ν] (g : Grammar ν τ ρ) (chart : Chart)
    (a : Address) : Prop :=
  ∃ e name, chart.entryAt? a = some e ∧ e.item.symbol? g = none ∧
    g.lhs? e.item.production = some name

namespace Arena

variable {ν τ ρ : Type} [DecidableEq ν] {g : Grammar ν τ ρ} {root : ν}
  {tokens : Array (Token τ)}
  {chart : Chart} {A A' : Arena} {f f' : Forest} {a : Address} {e : Entry} {t : Task}

theorem known_record_self {production : Nat} {found : List (List Branch)} :
    (A.record a production found).known a = some (List.range' A.nodes.length found.length) :=
  Function.update_self _ _ _

theorem known_record_of_ne {b : Address} {production : Nat} {found : List (List Branch)}
    (h : b ≠ a) : (A.record a production found).known b = A.known b :=
  Function.update_of_ne h _ _

theorem phase_setPhase_self {p : Phase} : (A.setPhase a p).phase a = p :=
  Function.update_self _ _ _

theorem phase_setPhase_of_ne {b : Address} {p : Phase} (h : b ≠ a) :
    (A.setPhase a p).phase b = A.phase b :=
  Function.update_of_ne h _ _

theorem sequences_of_unresolved (hp : ∀ found, A.phase a ≠ .resolved found) :
    A.sequences a = [] := by
  unfold sequences Phase.sequences
  split
  · rename_i found h
    exact absurd h (hp found)
  · rfl

theorem trees_of_known {indices : List Nat} (hk : A.known a = some indices) :
    A.trees chart a = (indices, A) := by
  simp only [trees, hk]

theorem trees_of_unresolved (hk : A.known a = none)
    (hp : ∀ found, A.phase a ≠ .resolved found) : A.trees chart a = ([], A) := by
  simp only [trees, hk]
  split
  · rename_i found e h ha
    exact absurd h (hp found)
  · rfl

theorem trees_of_resolved {found : List (List Branch)} (hk : A.known a = none)
    (hp : A.phase a = .resolved found) (ha : chart.entryAt? a = some e) :
    A.trees chart a =
      (List.range' A.nodes.length found.length, A.record a e.item.production found) := by
  simp only [trees, hk, hp, ha]

theorem step_visit_missing (ha : chart.entryAt? a = none) :
    step chart A (.visit a) = ([], A) := by
  simp only [step, ha]
  cases A.phase a <;> rfl

theorem step_visit_known (h : A.phase a ≠ .fresh) : step chart A (.visit a) = ([], A) := by
  simp only [step]
  split
  · contradiction
  · rfl

theorem step_visit_begun (ha : chart.entryAt? a = some e) (h : A.phase a = .fresh)
    (hd : e.item.dot = 0) : step chart A (.visit a) = ([], A.setPhase a (.resolved [[]])) := by
  simp only [step, h, ha, hd, if_true]

theorem step_visit_enter (ha : chart.entryAt? a = some e) (h : A.phase a = .fresh)
    (hd : e.item.dot ≠ 0) :
    step chart A (.visit a) =
      (e.links.flatMap Link.visits ++ [.finish a], A.setPhase a .active) := by
  simp only [step, h, ha, hd, if_false]

theorem step_finish_missing (ha : chart.entryAt? a = none) :
    step chart A (.finish a) = ([], A) := by
  simp only [step, ha]

theorem step_finish (ha : chart.entryAt? a = some e) :
    step chart A (.finish a) =
      ([], (combine chart e.links [] A).2.setPhase a
        (.resolved (combine chart e.links [] A).1)) := by
  simp only [step, ha]

/-- The arena stands for the forest: its phases are the statuses, with trees for the indices.
Its nodes are ordered and derive tokens; no branch leads out of the arena; and the indices that
an entry is known by are those of nodes with its sequences. -/
structure Mirrors (g : Grammar ν τ ρ) (tokens : Array (Token τ)) (chart : Chart) (A : Arena)
    (f : Forest) : Prop where
  truthful : f.Truthful g tokens chart
  status : ∀ a, f.status a = (A.phase a).status (Stem.grow A.nodes)
  ordered : Stem.Ordered A.nodes
  derives : ∀ n ∈ A.nodes, ∃ name i k,
    Derives g tokens [.nonterminal name] [n.tree (Stem.grow A.nodes)] i k
  below : ∀ a, ∀ s ∈ A.sequences a, ∀ b ∈ s, b.Below A.nodes.length
  known : ∀ a indices, A.known a = some indices → ∃ e found, chart.entryAt? a = some e ∧
    A.phase a = .resolved found ∧
    indices.map (A.nodes[·]?) = (found.map (Stem.mk e.item.production)).map some

theorem map_tree_extend (h : A.nodes <+: A'.nodes) {indices : List Nat}
    (hi : ∀ j ∈ indices, j < A.nodes.length) : indices.map A'.tree = indices.map A.tree := by
  have hs : ∀ b ∈ indices.map Branch.node, b.Below A.nodes.length := by
    intro b hb
    obtain ⟨j, hj, rfl⟩ := List.mem_map.mp hb
    exact hi j hj
  have htrees := Stem.map_tree_extend h hs
  rw [List.map_map, List.map_map] at htrees
  exact htrees

structure Grows (A A' : Arena) : Prop where
  phase : A'.phase = A.phase
  nodes : A.nodes <+: A'.nodes

namespace Grows

theorem refl (A : Arena) : A.Grows A := ⟨rfl, List.prefix_rfl⟩

theorem trans {A'' : Arena} (h : A.Grows A') (h' : A'.Grows A'') : A.Grows A'' :=
  ⟨h'.phase.trans h.phase, h.nodes.trans h'.nodes⟩

theorem length_le (h : A.Grows A') : A.nodes.length ≤ A'.nodes.length := h.nodes.length_le

end Grows

namespace Mirrors

theorem of_states (h : A.Mirrors g tokens chart f) (he : f.states = f'.states) :
    A.Mirrors g tokens chart f' where
  truthful := h.truthful.of_states he
  status a := (Forest.status_of_states he a).symm.trans (h.status a)
  ordered := h.ordered
  derives := h.derives
  below := h.below
  known := h.known

theorem sequences (h : A.Mirrors g tokens chart f) (a : Address) :
    f.sequences a = (A.sequences a).map (·.map (Branch.tree (Stem.grow A.nodes))) := by
  have hs := h.status a
  unfold Forest.sequences Arena.sequences
  cases hp : A.phase a with
  | fresh =>
    rw [hp] at hs
    rw [hs]
    rfl
  | active =>
    rw [hp] at hs
    rw [hs]
    rfl
  | resolved found =>
    rw [hp] at hs
    rw [hs]
    rfl

theorem empty (g : Grammar ν τ ρ) (tokens : Array (Token τ)) (chart : Chart) :
    Arena.empty.Mirrors g tokens chart (.ofChart chart) where
  truthful := .ofChart g tokens chart
  status := Forest.status_ofChart chart
  ordered j n hn := by cases hn
  derives n hn := by cases hn
  below a s hs := by cases hs
  known a indices hi := by cases hi

/-- The trees of the indices by which an entry is known are its derivations. -/
theorem known_trees (h : A.Mirrors g tokens chart f) {indices : List Nat}
    (hk : A.known a = some indices) :
    (∀ j ∈ indices, j < A.nodes.length) ∧ indices.map A.tree = (f.trees chart a).1 := by
  obtain ⟨e, found, ha, hp, hi⟩ := h.known a indices hk
  obtain ⟨hbelow, htrees⟩ := h.ordered.map_tree_lookup hi
  refine ⟨hbelow, ?_⟩
  have hfound : A.sequences a = found := by rw [Arena.sequences, hp, Phase.sequences]
  rw [Forest.trees_fst f ha, h.sequences, hfound, List.map_map]
  rw [List.map_map] at htrees
  exact htrees

theorem record (h : A.Mirrors g tokens chart f) (ha : chart.entryAt? a = some e)
    (hended : e.item.symbol? g = none) {name : ν} (hname : g.lhs? e.item.production = some name)
    {found : List (List Branch)} (hp : A.phase a = .resolved found) :
    (A.record a e.item.production found).Mirrors g tokens chart f := by
  have hfound : A.sequences a = found := by rw [Arena.sequences, hp, Phase.sequences]
  have hextends : A.nodes <+: (A.record a e.item.production found).nodes :=
    List.prefix_append _ _
  have hbelow : ∀ s ∈ found, ∀ b ∈ s, b.Below A.nodes.length := hfound ▸ h.below a
  refine ⟨h.truthful, ?_, ?_, ?_, ?_, ?_⟩
  · intro b
    rw [h.status]
    exact (Phase.status_extend hextends (h.below b)).symm
  · apply h.ordered.append
    intro n hn
    obtain ⟨s, hs, rfl⟩ := List.mem_map.mp hn
    exact hbelow s hs
  · intro n hn
    rcases List.mem_append.mp hn with hn | hn
    · obtain ⟨j, hj⟩ := List.mem_iff_getElem?.mp hn
      rw [Stem.tree, Stem.map_tree_extend hextends (h.ordered.below hj)]
      exact h.derives n hn
    · obtain ⟨s, hs, rfl⟩ := List.mem_map.mp hn
      rw [Stem.tree, Stem.map_tree_extend hextends (hbelow s hs)]
      have hmem : s.map (Branch.tree (Stem.grow A.nodes)) ∈ f.sequences a := by
        rw [h.sequences, hfound]
        exact List.mem_map_of_mem hs
      have hd := (Chart.mem_sequencesAt ha).mp (h.truthful.mem_sequences hmem)
      rw [Item.take_of_ended hended] at hd
      exact ⟨name, _, _, .rule hname hd .nil⟩
  · intro b s hs c hc
    exact (h.below b s hs c hc).mono hextends.length_le
  · intro b indices hi
    by_cases hba : b = a
    · subst hba
      rw [known_record_self] at hi
      cases hi
      refine ⟨e, found, ha, hp, ?_⟩
      rw [← List.length_map (Stem.mk e.item.production)]
      exact Stem.lookup_range' _ _
    · rw [known_record_of_ne hba] at hi
      obtain ⟨e', found', hb, hp', hlookup⟩ := h.known b indices hi
      exact ⟨e', found', hb, hp', Stem.lookup_extend hextends hlookup⟩

/-- Asking a completed entry for its derivations gives indices of the same trees, and makes
nodes at most. -/
theorem trees (h : A.Mirrors g tokens chart f) (ha : chart.Completed g a) :
    (A.trees chart a).2.Mirrors g tokens chart f ∧ A.Grows (A.trees chart a).2 ∧
      (∀ j ∈ (A.trees chart a).1, j < (A.trees chart a).2.nodes.length) ∧
      (A.trees chart a).1.map (A.trees chart a).2.tree = (f.trees chart a).1 := by
  obtain ⟨e, name, ha, hended, hname⟩ := ha
  cases hk : A.known a with
  | some indices =>
    rw [trees_of_known hk]
    exact ⟨h, .refl A, h.known_trees hk⟩
  | none =>
    by_cases hp : ∃ found, A.phase a = .resolved found
    · obtain ⟨found, hp⟩ := hp
      have hr := h.record ha hended hname hp
      rw [trees_of_resolved hk hp ha]
      exact ⟨hr, ⟨rfl, List.prefix_append _ _⟩, hr.known_trees known_record_self⟩
    · have hp := not_exists.mp hp
      rw [trees_of_unresolved hk hp, Forest.trees_fst f ha, h.sequences,
        sequences_of_unresolved hp]
      exact ⟨h, .refl A, by simp, rfl⟩

theorem pieces (h : A.Mirrors g tokens chart f) {p : Piece}
    (hp : ∀ b, p = .item b → chart.Completed g b) :
    (A.pieces chart p).2.Mirrors g tokens chart f ∧ A.Grows (A.pieces chart p).2 ∧
      (∀ b ∈ (A.pieces chart p).1, b.Below (A.pieces chart p).2.nodes.length) ∧
      (A.pieces chart p).1.map (Branch.tree (Stem.grow (A.pieces chart p).2.nodes)) =
        (f.pieces chart p).1 := by
  cases p with
  | token k => exact ⟨h, .refl A, by simp [Arena.pieces, Branch.Below], rfl⟩
  | item b =>
    obtain ⟨hmirrors, hgrows, hbelow, htrees⟩ := h.trees (hp b rfl)
    refine ⟨hmirrors, hgrows, ?_, ?_⟩
    · intro c hc
      obtain ⟨j, hj, rfl⟩ := List.mem_map.mp hc
      exact hbelow j hj
    · rw [Forest.pieces, ← htrees, Arena.pieces, List.map_map]
      rfl

theorem combine {links : List Link} {found : List (List Branch)}
    (h : A.Mirrors g tokens chart f)
    (hlinks : ∀ l ∈ links, ∀ b, l.piece = .item b → chart.Completed g b)
    (hfound : ∀ s ∈ found, ∀ b ∈ s, b.Below A.nodes.length) :
    (Arena.combine chart links found A).2.Mirrors g tokens chart f ∧
      A.Grows (Arena.combine chart links found A).2 ∧
      (∀ s ∈ (Arena.combine chart links found A).1, ∀ b ∈ s,
        b.Below (Arena.combine chart links found A).2.nodes.length) ∧
      (Arena.combine chart links found A).1.map
          (·.map (Branch.tree (Stem.grow (Arena.combine chart links found A).2.nodes))) =
        (Forest.combine chart links
          (found.map (·.map (Branch.tree (Stem.grow A.nodes)))) f).1 := by
  induction links generalizing A f found with
  | nil => exact ⟨h, .refl A, hfound, rfl⟩
  | cons l links ih =>
    rw [Arena.combine, Forest.combine_cons, List.length_map]
    by_cases hfull : found.length ≥ derivationLimit
    · simp only [hfull, if_true]
      exact ⟨h, .refl A, hfound, trivial⟩
    · simp only [hfull, if_false]
      obtain ⟨hmirrors, hgrows, hbelow, hpieces⟩ := h.pieces (hlinks l List.mem_cons_self)
      have hstates := Forest.pieces_states f chart l.piece
      have hnew : ∀ s ∈ (found ++ (A.sequences l.previous).flatMap fun front =>
          (A.pieces chart l.piece).1.map fun last => front ++ [last]).take derivationLimit,
          ∀ b ∈ s, b.Below (A.pieces chart l.piece).2.nodes.length := by
        intro s hs b hb
        rcases List.mem_append.mp (List.mem_of_mem_take hs) with hs | hs
        · exact (hfound s hs b hb).mono hgrows.length_le
        · obtain ⟨front, hfront, hs⟩ := List.mem_flatMap.mp hs
          obtain ⟨last, hlast, rfl⟩ := List.mem_map.mp hs
          rcases List.mem_append.mp hb with hb | hb
          · exact (h.below _ front hfront b hb).mono hgrows.length_le
          · exact List.mem_singleton.mp hb ▸ hbelow last hlast
      obtain ⟨hm, hg, hb, he⟩ := ih (hmirrors.of_states hstates.symm)
        (fun l' hl' => hlinks l' (List.mem_cons_of_mem l hl')) hnew
      refine ⟨hm.of_states hstates, hgrows.trans hg, hb, he.trans ?_⟩
      rw [List.map_take, List.map_append, Stem.map_trees_extend hgrows.nodes hfound,
        map_flatMap_snoc, Stem.map_trees_extend hgrows.nodes (h.below _),
        ← h.sequences, hpieces]

/-- An entry that is not resolved yet can be given a phase and the status that it stands for. -/
theorem setPhase (h : A.Mirrors g tokens chart f) (ha : chart.entryAt? a = some e)
    (hp : ∀ found, A.phase a ≠ .resolved found) {p : Phase}
    (htruthful : (f.setStatus a (p.status (Stem.grow A.nodes))).Truthful g tokens chart)
    (hbelow : ∀ s ∈ p.sequences, ∀ b ∈ s, b.Below A.nodes.length) :
    (A.setPhase a p).Mirrors g tokens chart (f.setStatus a (p.status (Stem.grow A.nodes))) := by
  refine ⟨htruthful, ?_, h.ordered, h.derives, ?_, ?_⟩
  · intro b
    by_cases hba : b = a
    · subst hba
      rw [Forest.status_setStatus_self h.truthful.fits ha, phase_setPhase_self]
      rfl
    · rw [Forest.status_setStatus_of_ne hba, phase_setPhase_of_ne hba]
      exact h.status b
  · intro b
    by_cases hba : b = a
    · subst hba
      rw [Arena.sequences, phase_setPhase_self]
      exact hbelow
    · rw [Arena.sequences, phase_setPhase_of_ne hba]
      exact h.below b
  · intro b indices hi
    obtain ⟨e', found, hb, hfound, hlookup⟩ := h.known b indices hi
    have hba : b ≠ a := by
      rintro rfl
      exact hp found hfound
    exact ⟨e', found, hb, (phase_setPhase_of_ne hba).trans hfound, hlookup⟩

theorem visit (hb : chart.Built g root tokens) (h : A.Mirrors g tokens chart f) (a : Address) :
    (A.step chart (.visit a)).1 = (Forest.step chart f (.visit a)).1 ∧
      A.nodes <+: (A.step chart (.visit a)).2.nodes ∧
      (A.step chart (.visit a)).2.Mirrors g tokens chart
        (Forest.step chart f (.visit a)).2 := by
  have htruthful := h.truthful.step hb (.visit a)
  cases ha : chart.entryAt? a with
  | none =>
    rw [Forest.step_visit_missing ha, step_visit_missing ha]
    exact ⟨rfl, List.prefix_rfl, h⟩
  | some e =>
    by_cases hp : A.phase a = .fresh
    · have hs : f.status a = .fresh := by rw [h.status, hp, Phase.status]
      have hunresolved : ∀ found, A.phase a ≠ .resolved found := by simp [hp]
      by_cases hd : e.item.dot = 0
      · rw [Forest.step_visit_begun ha hs hd] at htruthful ⊢
        rw [step_visit_begun ha hp hd]
        exact ⟨rfl, List.prefix_rfl,
          h.setPhase ha hunresolved htruthful (by simp [Phase.sequences])⟩
      · rw [Forest.step_visit_enter ha hs hd] at htruthful ⊢
        rw [step_visit_enter ha hp hd]
        exact ⟨rfl, List.prefix_rfl,
          h.setPhase ha hunresolved htruthful (by simp [Phase.sequences])⟩
    · have hs : f.status a ≠ .fresh := by
        rw [h.status]
        cases hphase : A.phase a with
        | fresh => exact absurd hphase hp
        | active => simp [Phase.status]
        | resolved found => simp [Phase.status]
      rw [Forest.step_visit_known hs, step_visit_known hp]
      exact ⟨rfl, List.prefix_rfl, h⟩

theorem finish (hb : chart.Built g root tokens) (h : A.Mirrors g tokens chart f)
    (hs : f.status a = .active) :
    (A.step chart (.finish a)).1 = (Forest.step chart f (.finish a)).1 ∧
      A.nodes <+: (A.step chart (.finish a)).2.nodes ∧
      (A.step chart (.finish a)).2.Mirrors g tokens chart
        (Forest.step chart f (.finish a)).2 := by
  have htruthful := h.truthful.step hb (.finish a)
  cases ha : chart.entryAt? a with
  | none =>
    rw [Forest.step_finish_missing ha, step_finish_missing ha]
    exact ⟨rfl, List.prefix_rfl, h⟩
  | some e =>
    have hlinks : ∀ l ∈ e.links, ∀ b, l.piece = .item b → chart.Completed g b := by
      intro l hl b hpiece
      cases hb.link_reads ha hl with
      | scan => cases hpiece
      | complete entry awaited done ended produced =>
        cases hpiece
        exact ⟨_, _, done, ended, produced⟩
    obtain ⟨hmirrors, hgrows, hbelow, hfound⟩ := h.combine hlinks (List.forall_mem_nil _)
    have hmirrors := hmirrors.of_states (Forest.combine_states chart e.links [] f).symm
    have hunresolved :
        ∀ found, (Arena.combine chart e.links [] A).2.phase a ≠ .resolved found := by
      intro found hp
      rw [h.status, ← hgrows.phase, hp, Phase.status] at hs
      cases hs
    rw [List.map_nil] at hfound
    rw [Forest.step_finish ha, ← hfound] at htruthful ⊢
    rw [step_finish ha]
    exact ⟨rfl, hgrows.nodes, hmirrors.setPhase ha hunresolved htruthful hbelow⟩

theorem run (hb : chart.Built g root tokens) {tasks : List Task}
    (h : A.Mirrors g tokens chart f) (hp : f.Poised tasks) (n : Nat) :
    A.nodes <+: (A.run chart n tasks).nodes ∧
      (A.run chart n tasks).Mirrors g tokens chart (f.run chart n tasks) := by
  induction n generalizing tasks A f with
  | zero => exact ⟨List.prefix_rfl, h⟩
  | succ n ih =>
    cases tasks with
    | nil => exact ⟨List.prefix_rfl, h⟩
    | cons t tasks =>
      have hstep : (A.step chart t).1 = (Forest.step chart f t).1 ∧
          A.nodes <+: (A.step chart t).2.nodes ∧
          (A.step chart t).2.Mirrors g tokens chart (Forest.step chart f t).2 := by
        cases t with
        | visit a => exact h.visit hb a
        | finish a => exact h.finish hb (hp.active a List.mem_cons_self)
      obtain ⟨htasks, hnodes, hmirrors⟩ := hstep
      rw [Forest.run_succ, Arena.run, htasks]
      obtain ⟨hnodes', hrun⟩ := ih hmirrors (hp.step h.truthful.fits)
      exact ⟨hnodes.trans hnodes', hrun⟩

theorem resolve (hb : chart.Built g root tokens) (h : A.Mirrors g tokens chart f)
    (a : Address) :
    A.nodes <+: (A.resolve chart a).nodes ∧
      (A.resolve chart a).Mirrors g tokens chart (f.resolve chart a) :=
  h.run hb (.visit f a) (chart.extent + 1)

/-- The derivations of completed entries are found in the same order. -/
theorem derivations (hb : chart.Built g root tokens) {entries : List Address} {found : List Nat}
    (h : A.Mirrors g tokens chart f) (hentries : ∀ a ∈ entries, chart.Completed g a)
    (hfound : ∀ j ∈ found, j < A.nodes.length) :
    (∀ j ∈ (Arena.derivations chart entries found A).1,
        j < (Arena.derivations chart entries found A).2.nodes.length) ∧
      (Arena.derivations chart entries found A).1.map
          (Arena.derivations chart entries found A).2.tree =
        (Forest.derivations chart entries (found.map A.tree) f).1 ∧
      (Arena.derivations chart entries found A).2.Mirrors g tokens chart
        (Forest.derivations chart entries (found.map A.tree) f).2 := by
  induction entries generalizing found A f with
  | nil => exact ⟨hfound, rfl, h⟩
  | cons a entries ih =>
    obtain ⟨hnodes, hresolved⟩ := h.resolve hb a
    obtain ⟨hmirrors, hgrows, hbelow, htrees⟩ := hresolved.trees (hentries a List.mem_cons_self)
    have hmirrors := hmirrors.of_states (Forest.trees_states (f.resolve chart a) chart a).symm
    have hnodes := hnodes.trans hgrows.nodes
    have hall : (found ++ ((A.resolve chart a).trees chart a).1).map
          ((A.resolve chart a).trees chart a).2.tree =
        found.map A.tree ++ ((f.resolve chart a).trees chart a).1 := by
      rw [List.map_append, map_tree_extend hnodes hfound, htrees]
    have hfound : ∀ j ∈ found ++ ((A.resolve chart a).trees chart a).1,
        j < ((A.resolve chart a).trees chart a).2.nodes.length := by
      intro j hj
      rcases List.mem_append.mp hj with hj | hj
      · exact Nat.lt_of_lt_of_le (hfound j hj) hnodes.length_le
      · exact hbelow j hj
    have hlength := congrArg List.length hall
    rw [List.length_map] at hlength
    rw [Arena.derivations, Forest.derivations]
    simp only [← hlength]
    split
    · exact ⟨hfound, hall, hmirrors⟩
    · rw [← hall]
      exact ih hmirrors (fun b hb => hentries b (List.mem_cons_of_mem a hb)) hfound

end Mirrors

variable [DecidableEq τ]

/-- The arena of a token list holds the derivations that parsing finds. -/
theorem ofTokens_mirrors (g : Grammar ν τ ρ) (root : ν) (tokens : List (Token τ)) :
    (∀ j ∈ (ofTokens g root tokens).1, j < (ofTokens g root tokens).2.nodes.length) ∧
      (ofTokens g root tokens).1.map (ofTokens g root tokens).2.tree = g.sampled root tokens ∧
      ∃ f, (ofTokens g root tokens).2.Mirrors g tokens.toArray
        (Chart.ofTokens g root tokens.toArray) f := by
  have hb := (Chart.exact_ofTokens g root tokens.toArray).built
  have hcompleted :
      ∀ a ∈ (Chart.ofTokens g root tokens.toArray).finals g root tokens.toArray.size,
      (Chart.ofTokens g root tokens.toArray).Completed g a := by
    intro a ha
    obtain ⟨-, e, he, -, hended, hroot⟩ := Chart.mem_finals.mp ha
    exact ⟨e, root, he, hended, hroot⟩
  have h := Mirrors.derivations hb (.empty g tokens.toArray _) hcompleted
    (List.forall_mem_nil _)
  exact ⟨h.1, h.2.1, _, h.2.2⟩

end Arena

end Fabula
