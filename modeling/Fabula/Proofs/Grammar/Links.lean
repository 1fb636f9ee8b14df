import Fabula.Grammar.Forest
import Fabula.Proofs.Grammar.Closing

namespace Fabula

variable {ν τ ρ : Type} [DecidableEq ν]

namespace Chart

variable {g : Grammar ν τ ρ} {root : ν} {tokens : Array (Token τ)} {chart : Chart}
  {a b : Address} {e f : Entry} {l l' : Link} {s : Sequence}

/-- What a link says: the entry it advances, and that the dot moved over a matching token or
over an entry of the awaited non-terminal that is completed and began where the advanced entry
stands. -/
inductive LinkReads (g : Grammar ν τ ρ) (tokens : Array (Token τ)) (chart : Chart) (a : Address)
    (e : Entry) : Link → Prop where
  | scan {b : Address} {f : Entry} {tag : τ} (entry : chart.entryAt? b = some f)
      (awaited : f.item.symbol? g = some (.terminal tag))
      (matched : tokens[b.column]?.bind (·.tag) = some tag) (column : a.column = b.column + 1)
      (item : e.item = f.item.advance) : LinkReads g tokens chart a e ⟨b, .token b.column⟩
  | complete {b d : Address} {f h : Entry} {name : ν} (entry : chart.entryAt? b = some f)
      (awaited : f.item.symbol? g = some (.nonterminal name)) (done : chart.entryAt? d = some h)
      (ended : h.item.symbol? g = none) (produced : g.lhs? h.item.production = some name)
      (meets : h.item.origin = b.column) (column : a.column = d.column)
      (item : e.item = f.item.advance) : LinkReads g tokens chart a e ⟨b, .item d⟩

theorem Built.link_reads (h : Built g root tokens chart) (ha : chart.entryAt? a = some e)
    (hl : l ∈ e.links) : LinkReads g tokens chart a e l := by
  obtain ⟨sources, just⟩ := h.link_justified ha hl
  obtain ⟨c, item, link, hx⟩ : ∃ c item link, c = a.column ∧ item = e.item ∧ link = some l :=
    ⟨_, _, _, rfl, rfl, rfl⟩
  obtain ⟨hc, hi, hk⟩ := hx
  rw [← hc, ← hi, ← hk] at just
  cases just with
  | root => cases hk
  | predict => cases hk
  | scan entry awaited matched =>
    cases hk
    exact .scan entry awaited matched hc.symm hi.symm
  | complete entry awaited done ended produced meets =>
    cases hk
    exact .complete entry awaited done ended produced meets hc.symm hi.symm

theorem Built.begun (h : Built g root tokens chart) (ha : chart.entryAt? a = some e) :
    chart.Holds e.item.origin (.begin e.item.production e.item.origin) none := by
  induction h generalizing a e with
  | empty => exact (not_entryAt?_empty ha).elim
  | @add chart sources x built just ih =>
    have hext := Extends.add chart x.column x.item x.link
    obtain ⟨e₀, he₀, hi⟩ | ⟨rfl, rfl, -⟩ := entryAt?_add_item ha
    · rw [hi]
      exact (ih he₀).extend hext
    · have hholds : (chart.add x.column x.item x.link).Holds x.column x.item x.link :=
        holds_add (just.column_lt built.columns_size)
      cases just with
      | root produced => exact hholds
      | predict entry awaited produced => exact hholds
      | scan entry awaited matched => exact (ih entry).extend hext
      | complete entry awaited done ended produced meets => exact (ih entry).extend hext

theorem completed_item {item : Item} {p origin : Nat}
    (hi : item = ⟨p, (Item.begin p origin).dot + (g.rhs p).length, origin⟩) :
    item.symbol? g = none ∧ item.production = p ∧ item.origin = origin := by
  subst hi
  simp [Item.symbol?, Item.begin]

namespace Exact

theorem mem_links_iff (h : Exact g root tokens chart) (ha : chart.entryAt? a = some e) :
    l ∈ e.links ↔ LinkReads g tokens chart a e l := by
  constructor
  · exact h.built.link_reads ha
  · intro hl
    -- The rules demand the link for the item, and this entry is the only one with the item.
    have hmem {x : Addition} (hx : chart.Holds x.column x.item x.link)
        (hc : x.column = a.column)
        (hi : x.item = e.item) (hlink : x.link = some l) : l ∈ e.links := by
      obtain ⟨a', e', he', hc', hi', hl'⟩ := hx
      obtain rfl := h.built.item_unique he' ha (hc'.trans hc) (hi'.trans hi)
      cases ha.symm.trans he'
      exact hl' l hlink
    cases hl with
    | scan entry awaited matched column item =>
      exact hmem (h.closed _ _ (.scan entry awaited matched)) column.symm item.symm rfl
    | complete entry awaited done ended produced meets column item =>
      exact hmem (h.closed _ _ (.complete entry awaited done ended produced meets)) column.symm
        item.symm rfl

theorem holds_of_derives (h : Exact g root tokens chart) {symbols more : List (Symbol ν τ)}
    {trees : List Derivation} {i k : Nat} (hd : Derives g tokens symbols trees i k)
    {item : Item} (hi : chart.Holds i item none)
    (hs : (g.rhs item.production).drop item.dot = symbols ++ more) :
    chart.Holds k ⟨item.production, item.dot + symbols.length, item.origin⟩ none := by
  -- A phrase is entered where its non-terminal is awaited, so the inner derivation starts a new
  -- item.
  induction hd generalizing item more with
  | nil => exact hi
  | @token tag symbols trees i k matched rest ih =>
    obtain ⟨b, f, hf, rfl, rfl, -⟩ := hi
    have hsym : f.item.symbol? g = some (.terminal tag) := by
      rw [Item.symbol?, ← List.head?_drop, hs]
      rfl
    obtain ⟨b', f', hf', hc', hi', -⟩ := h.closed _ _ (.scan hf hsym matched)
    have hnext : (g.rhs f.item.production).drop (f.item.dot + 1) = symbols ++ more := by
      rw [← List.drop_drop, hs]
      rfl
    have hholds := ih ⟨b', f', hf', hc', hi', by simp⟩ hnext
    simpa only [Item.advance, List.length_cons, Nat.add_assoc, Nat.add_comm 1] using hholds
  | @rule p name symbols children trees i j k produced inner rest ihInner ihRest =>
    obtain ⟨b, f, hf, rfl, rfl, -⟩ := hi
    have hsym : f.item.symbol? g = some (.nonterminal name) := by
      rw [Item.symbol?, ← List.head?_drop, hs]
      rfl
    have hbegun := h.closed _ _ (.predict hf hsym produced)
    have hwhole : (g.rhs p).drop (Item.begin p b.column).dot = g.rhs p ++ [] := by
      simp [Item.begin]
    obtain ⟨d, e, he, rfl, hitem, -⟩ := ihInner hbegun hwhole
    obtain ⟨hended, hproduction, hmeets⟩ := completed_item (p := p) hitem
    rw [← hproduction] at produced
    obtain ⟨b', f', hf', hc', hi', -⟩ :=
      h.closed _ _ (.complete hf hsym he hended produced hmeets)
    have hnext : (g.rhs f.item.production).drop (f.item.dot + 1) = symbols ++ more := by
      rw [← List.drop_drop, hs]
      rfl
    have hholds := ihRest ⟨b', f', hf', hc', hi', by simp⟩ hnext
    simpa only [Item.advance, List.length_cons, Nat.add_assoc, Nat.add_comm 1] using hholds

/-- A production that has begun is completed wherever its right-hand side has a derivation. -/
theorem completed (h : Exact g root tokens chart) {q i k : Nat} {children : List Derivation}
    (hbegun : chart.Holds i (.begin q i) none) (hd : Derives g tokens (g.rhs q) children i k) :
    ∃ c e, chart.entryAt? c = some e ∧ c.column = k ∧ e.item.symbol? g = none ∧
      e.item.production = q ∧ e.item.origin = i := by
  have hwhole : (g.rhs q).drop (Item.begin q i).dot = g.rhs q ++ [] := by
    simp [Item.begin]
  obtain ⟨c, e, he, hc, hitem, -⟩ := h.holds_of_derives hd hbegun hwhole
  exact ⟨c, e, he, hc, completed_item hitem⟩

theorem entry_of_front (h : Exact g root tokens chart) (ha : chart.entryAt? a = some e)
    {d k : Nat} (hd : d ≤ (g.rhs e.item.production).length)
    (hs : Derives g tokens ((g.rhs e.item.production).take d) s e.item.origin k) :
    ∃ b f, chart.entryAt? b = some f ∧ b.column = k ∧
      f.item = ⟨e.item.production, d, e.item.origin⟩ := by
  have hwhole :
      (g.rhs e.item.production).drop (Item.begin e.item.production e.item.origin).dot =
        (g.rhs e.item.production).take d ++ (g.rhs e.item.production).drop d := by
    simp [Item.begin]
  obtain ⟨b, f, hf, hc, hi, -⟩ := h.holds_of_derives hs (h.built.begun ha) hwhole
  exact ⟨b, f, hf, hc, by simpa [Item.begin, Nat.min_eq_left hd] using hi⟩

end Exact

def sequencesAt (g : Grammar ν τ ρ) (tokens : Array (Token τ)) (chart : Chart) (a : Address) :
    Set Sequence :=
  {s | ∃ e, chart.entryAt? a = some e ∧
    Derives g tokens ((g.rhs e.item.production).take e.item.dot) s e.item.origin a.column}

def treesOf (g : Grammar ν τ ρ) (tokens : Array (Token τ)) (chart : Chart) :
    Piece → Set Derivation
  | .token k => {.leaf k}
  | .item b => {t | ∃ e s, chart.entryAt? b = some e ∧ s ∈ chart.sequencesAt g tokens b ∧
      t = .node e.item.production s}

/-- The sequences of trees that an entry can have by one of its links. -/
def sequencesVia (g : Grammar ν τ ρ) (tokens : Array (Token τ)) (chart : Chart) (l : Link) :
    Set Sequence :=
  {s | ∃ front last, front ∈ chart.sequencesAt g tokens l.previous ∧
    last ∈ chart.treesOf g tokens l.piece ∧ s = front ++ [last]}

theorem mem_sequencesAt (ha : chart.entryAt? a = some e) :
    s ∈ chart.sequencesAt g tokens a ↔
      Derives g tokens ((g.rhs e.item.production).take e.item.dot) s e.item.origin
        a.column := by
  constructor
  · rintro ⟨e', he', hs⟩
    rw [ha] at he'
    cases he'
    exact hs
  · intro hs
    exact ⟨e, ha, hs⟩

theorem sequencesAt_begin (h : Built g root tokens chart) (ha : chart.entryAt? a = some e)
    (hd : e.item.dot = 0) : chart.sequencesAt g tokens a = {[]} := by
  ext s
  rw [mem_sequencesAt ha, hd, List.take_zero]
  obtain ⟨trees, ht⟩ := (h.spans ha).derives
  rw [hd, List.take_zero, Derives.nil_iff] at ht
  rw [Derives.nil_iff, Set.mem_singleton_iff]
  exact and_iff_left ht.2

theorem mem_treesOf_item (ha : chart.entryAt? b = some e) (he : e.item.symbol? g = none)
    {t : Derivation} :
    t ∈ chart.treesOf g tokens (.item b) ↔
      ∃ s, t = .node e.item.production s ∧
        Derives g tokens (g.rhs e.item.production) s e.item.origin b.column := by
  constructor
  · rintro ⟨e', s, he', hs, rfl⟩
    rw [ha] at he'
    cases he'
    rw [mem_sequencesAt ha, Item.take_of_ended he] at hs
    exact ⟨s, rfl, hs⟩
  · rintro ⟨s, rfl, hs⟩
    refine ⟨e, s, ha, ?_, rfl⟩
    rwa [mem_sequencesAt ha, Item.take_of_ended he]

/-- What a link moves the dot over derives the symbol after the dot of the entry it advances. -/
theorem LinkReads.derives (h : LinkReads g tokens chart a e l) :
    ∃ f s, chart.entryAt? l.previous = some f ∧ f.item.symbol? g = some s ∧
      e.item = f.item.advance ∧ ∀ t, t ∈ chart.treesOf g tokens l.piece →
        Derives g tokens [s] [t] l.previous.column a.column := by
  cases h with
  | scan entry awaited matched column item =>
    refine ⟨_, _, entry, awaited, item, ?_⟩
    rintro t rfl
    rw [column]
    exact .token matched .nil
  | complete entry awaited done ended produced meets column item =>
    refine ⟨_, _, entry, awaited, item, ?_⟩
    intro t ht
    obtain ⟨s, rfl, hs⟩ := (mem_treesOf_item done ended).mp ht
    rw [column, ← meets]
    exact .rule produced hs .nil

theorem Built.sequencesVia_subset (h : Built g root tokens chart)
    (ha : chart.entryAt? a = some e) (hl : l ∈ e.links) :
    chart.sequencesVia g tokens l ⊆ chart.sequencesAt g tokens a := by
  rintro _ ⟨front, last, hfront, hlast, rfl⟩
  obtain ⟨f, s, hf, hs, hi, hd⟩ := (h.link_reads ha hl).derives
  rw [mem_sequencesAt hf] at hfront
  rw [mem_sequencesAt ha, hi, Item.advance, Item.take_advance hs]
  exact hfront.append (hd last hlast)

theorem Exact.exists_link (h : Exact g root tokens chart) (ha : chart.entryAt? a = some e)
    (hd : e.item.dot ≠ 0) (hs : s ∈ chart.sequencesAt g tokens a) :
    ∃ l ∈ e.links, s ∈ chart.sequencesVia g tokens l := by
  obtain ⟨d, hd⟩ : ∃ d, e.item.dot = d + 1 := Nat.exists_eq_succ_of_ne_zero hd
  have hle : d + 1 ≤ (g.rhs e.item.production).length := hd ▸ (h.built.spans ha).dot_le
  obtain ⟨sym, hsym⟩ : ∃ sym, (g.rhs e.item.production)[d]? = some sym :=
    ⟨_, List.getElem?_eq_getElem hle⟩
  rw [mem_sequencesAt ha, hd, List.take_add_one, hsym] at hs
  obtain ⟨front, last, k, rfl, hfront, hlast⟩ := Derives.snoc_iff.mp hs
  obtain ⟨b, f, hf, rfl, hi⟩ := h.entry_of_front ha (Nat.le_of_succ_le hle) hfront
  have hsym : f.item.symbol? g = some sym := by
    rw [hi]
    exact hsym
  have hadv : f.item.advance = e.item := by
    rw [hi, Item.advance]
    simp only [← hd]
  have hfront : front ∈ chart.sequencesAt g tokens b := by
    rw [mem_sequencesAt hf, hi]
    exact hfront
  cases sym with
  | terminal tag =>
    obtain ⟨matched, rfl, hc⟩ := Derives.token_iff.mp hlast
    have hlink := (h.mem_links_iff ha).mpr (.scan hf hsym matched hc hadv.symm)
    exact ⟨_, hlink, front, .leaf b.column, hfront, rfl, rfl⟩
  | nonterminal name =>
    obtain ⟨q, children, rfl, produced, hchildren⟩ := Derives.rule_iff.mp hlast
    have hbegun := h.closed _ _ (.predict hf hsym produced)
    obtain ⟨c, e', he', hc, hended, rfl, hmeets⟩ := h.completed hbegun hchildren
    have hlink :=
      (h.mem_links_iff ha).mpr (.complete hf hsym he' hended produced hmeets hc.symm hadv.symm)
    refine ⟨_, hlink, front, _, hfront, ?_, rfl⟩
    refine (mem_treesOf_item he' hended).mpr ⟨children, rfl, ?_⟩
    rw [hc, hmeets]
    exact hchildren

theorem Built.tree_unique (h : Built g root tokens chart) (ha : chart.entryAt? a = some e)
    (hb : chart.entryAt? b = some f) (he : e.item.symbol? g = none)
    (hf : f.item.symbol? g = none) (hc : a.column = b.column)
    (ho : e.item.origin = f.item.origin) {t : Derivation}
    (ht : t ∈ chart.treesOf g tokens (.item a)) (ht' : t ∈ chart.treesOf g tokens (.item b)) :
    a = b := by
  obtain ⟨s, rfl, -⟩ := (mem_treesOf_item ha he).mp ht
  obtain ⟨s', hnode, -⟩ := (mem_treesOf_item hb hf).mp ht'
  have hproduction : e.item.production = f.item.production := (Derivation.node.inj hnode).1
  have hdot : e.item.dot = f.item.dot := by
    rw [(h.spans ha).dot_of_ended he, (h.spans hb).dot_of_ended hf, hproduction]
  have hitem : e.item = f.item := by
    cases h₁ : e.item
    cases h₂ : f.item
    simp only [h₁, h₂] at hproduction hdot ho
    rw [hproduction, hdot, ho]
  exact h.item_unique ha hb hc hitem

theorem Built.link_unique (h : Built g root tokens chart) (ha : chart.entryAt? a = some e)
    (hl : l ∈ e.links) (hl' : l' ∈ e.links) (hs : s ∈ chart.sequencesVia g tokens l)
    (hs' : s ∈ chart.sequencesVia g tokens l') : l = l' := by
  obtain ⟨front, last, hfront, hlast, rfl⟩ := hs
  obtain ⟨front', last', hfront', hlast', he⟩ := hs'
  obtain ⟨rfl, he⟩ := List.append_inj' he rfl
  obtain rfl : last = last' := by simpa using he
  have hr := h.link_reads ha hl
  have hr' := h.link_reads ha hl'
  -- Both pieces have the same tree and end in the same column, so they begin in the same one.
  have hcolumn : l.previous.column = l'.previous.column := by
    obtain ⟨-, s, -, -, -, hd⟩ := hr.derives
    obtain ⟨-, s', -, -, -, hd'⟩ := hr'.derives
    exact (hd last hlast).start_unique (hd' last hlast')
  have hprevious : l.previous = l'.previous := by
    obtain ⟨f, -, hf, -, hi, -⟩ := hr.derives
    obtain ⟨f', -, hf', -, hi', -⟩ := hr'.derives
    exact h.item_unique hf hf' hcolumn (Item.advance_inj.mp (hi.symm.trans hi'))
  cases hr with
  | scan entry awaited matched column item =>
    cases hr' with
    | scan =>
      simp only at hprevious
      rw [hprevious]
    | complete entry' awaited' done' ended' =>
      obtain ⟨s, hnode, -⟩ := (mem_treesOf_item done' ended').mp hlast'
      cases hlast
      cases hnode
  | complete entry awaited done ended produced meets column item =>
    cases hr' with
    | scan =>
      obtain ⟨s, hnode, -⟩ := (mem_treesOf_item done ended).mp hlast
      cases hlast'
      cases hnode
    | complete entry' awaited' done' ended' produced' meets' column' item' =>
      obtain rfl := h.tree_unique done done' ended ended' (column.symm.trans column')
        (meets.trans (hcolumn.trans meets'.symm)) hlast hlast'
      simp only at hprevious
      rw [hprevious]

end Chart

end Fabula
