import Fabula.Proofs.Grammar.Additions
import Fabula.Proofs.Grammar.Trees
import Mathlib.Data.List.Nodup
import Mathlib.Data.List.Perm.Subperm

namespace Fabula

structure Addition where
  column : Nat
  item : Item
  link : Option Link

variable {ν τ ρ : Type}

/-- The items of some productions, numbered from `p` on, that begin at a column up to `c`. -/
def dottedItems (c : Nat) : Nat → List (Production ν τ ρ) → List Item
  | _, [] => []
  | p, q :: qs =>
    ((List.range (q.rhs.length + 1)).flatMap fun d => (List.range (c + 1)).map fun o =>
      ⟨p, d, o⟩) ++
      dottedItems c (p + 1) qs

theorem length_dottedItems (c p : Nat) (qs : List (Production ν τ ρ)) :
    (dottedItems c p qs).length = (c + 1) * qs.foldr (fun q n => q.rhs.length + 1 + n) 0 := by
  induction qs generalizing p with
  | nil => rfl
  | cons q qs ih =>
    simp only [dottedItems, List.length_append, ih, List.length_flatMap, List.length_map,
      List.length_range, List.map_const', List.sum_replicate_nat, List.foldr_cons]
    rw [Nat.mul_comm, ← Nat.mul_add]

theorem mem_dottedItems {c p d o k : Nat} {q : Production ν τ ρ} {qs : List (Production ν τ ρ)}
    (hq : qs[k]? = some q) (hd : d ≤ q.rhs.length) (ho : o ≤ c) :
    ⟨p + k, d, o⟩ ∈ dottedItems c p qs := by
  induction qs generalizing p k with
  | nil => simp at hq
  | cons q' qs ih =>
    cases k with
    | zero =>
      cases hq
      refine List.mem_append_left _
        (List.mem_flatMap.mpr ⟨d, ?_, List.mem_map.mpr ⟨o, ?_, rfl⟩⟩)
      · exact List.mem_range.mpr (Nat.lt_succ_of_le hd)
      · exact List.mem_range.mpr (Nat.lt_succ_of_le ho)
    | succ k =>
      rw [← Nat.add_assoc, Nat.add_right_comm]
      exact List.mem_append_right _ (ih hq)

variable [DecidableEq ν]

namespace Grammar

variable {g : Grammar ν τ ρ} {p : Nat} {name : ν}

theorem mem_producing : p ∈ g.producing name ↔ g.lhs? p = some name := by
  simp only [producing, List.mem_filter, List.mem_range, beq_iff_eq, and_iff_right_iff_imp]
  intro h
  refine Nat.lt_of_not_le fun hle => ?_
  simp [lhs?, Array.getElem?_eq_none hle] at h

end Grammar

namespace Item

variable {g : Grammar ν τ ρ} {i : Item} {name : ν}

theorem awaits_iff : i.awaits g name = true ↔ i.symbol? g = some (.nonterminal name) := by
  unfold awaits
  split
  · rename_i n h
    simp [h]
  · rename_i h
    constructor
    · simp
    · intro h'
      exact (h name h').elim

theorem completes_iff :
    i.completes g name = true ↔ i.symbol? g = none ∧ g.lhs? i.production = some name := by
  simp [completes]

theorem take_advance {s : Symbol ν τ} (h : i.symbol? g = some s) :
    (g.rhs i.production).take (i.dot + 1) = (g.rhs i.production).take i.dot ++ [s] := by
  rw [List.take_add_one, show (g.rhs i.production)[i.dot]? = some s from h]
  rfl

theorem take_of_ended (h : i.symbol? g = none) :
    (g.rhs i.production).take i.dot = g.rhs i.production :=
  List.take_of_length_le (List.getElem?_eq_none_iff.mp h)

omit [DecidableEq ν] in
theorem advance_inj {j : Item} : i.advance = j.advance ↔ i = j := by
  obtain ⟨p, d, o⟩ := i
  obtain ⟨p', d', o'⟩ := j
  simp [advance]

/-- The symbols before the dot derive the tokens from where the item began to the border. -/
structure Spans (g : Grammar ν τ ρ) (tokens : Array (Token τ)) (c : Nat) (i : Item) : Prop where
  produced : (g.lhs? i.production).isSome
  dot_le : i.dot ≤ (g.rhs i.production).length
  derives : ∃ trees, Derives g tokens ((g.rhs i.production).take i.dot) trees i.origin c

namespace Spans

variable {tokens : Array (Token τ)} {c k : Nat} {f : Item}

theorem origin_le (h : i.Spans g tokens c) : i.origin ≤ c := by
  obtain ⟨trees, hd⟩ := h.derives
  exact hd.le

theorem begin {p : Nat} (h : g.lhs? p = some name) (c : Nat) : (begin p c).Spans g tokens c :=
  ⟨by simp [Item.begin, h], Nat.zero_le _, [], .nil⟩

theorem advance {s : Symbol ν τ} {d : Derivation} (h : i.Spans g tokens k)
    (hs : i.symbol? g = some s) (hd : Derives g tokens [s] [d] k c) :
    i.advance.Spans g tokens c := by
  obtain ⟨trees, ht⟩ := h.derives
  refine ⟨h.produced, (List.getElem?_eq_some_iff.mp hs).1, trees ++ [d], ?_⟩
  rw [Item.advance, take_advance hs]
  exact ht.append hd

theorem dot_of_ended (h : f.Spans g tokens c) (he : f.symbol? g = none) :
    f.dot = (g.rhs f.production).length :=
  Nat.le_antisymm h.dot_le (List.getElem?_eq_none_iff.mp he)

theorem ended (h : f.Spans g tokens c) (he : f.symbol? g = none)
    (hn : g.lhs? f.production = some name) :
    ∃ d, Derives g tokens [.nonterminal name] [d] f.origin c := by
  obtain ⟨trees, ht⟩ := h.derives
  rw [take_of_ended he] at ht
  exact ⟨_, .rule hn ht .nil⟩

end Spans

end Item

namespace Chart

inductive Justifies (g : Grammar ν τ ρ) (root : ν) (tokens : Array (Token τ)) (chart : Chart) :
    List Address → Addition → Prop where
  | root {p : Nat} (produced : g.lhs? p = some root) :
      Justifies g root tokens chart [] ⟨0, .begin p 0, none⟩
  | predict {a : Address} {e : Entry} {name : ν} {p : Nat} (entry : chart.entryAt? a = some e)
      (awaited : e.item.symbol? g = some (.nonterminal name))
        (produced : g.lhs? p = some name) :
      Justifies g root tokens chart [a] ⟨a.column, .begin p a.column, none⟩
  | scan {a : Address} {e : Entry} {tag : τ} (entry : chart.entryAt? a = some e)
      (awaited : e.item.symbol? g = some (.terminal tag))
      (matched : tokens[a.column]?.bind (·.tag) = some tag) :
      Justifies g root tokens chart [a]
        ⟨a.column + 1, e.item.advance, some ⟨a, .token a.column⟩⟩
  | complete {a b : Address} {e f : Entry} {name : ν} (entry : chart.entryAt? a = some e)
      (awaited : e.item.symbol? g = some (.nonterminal name)) (done : chart.entryAt? b = some f)
      (ended : f.item.symbol? g = none) (produced : g.lhs? f.item.production = some name)
      (meets : f.item.origin = a.column) :
      Justifies g root tokens chart [a, b] ⟨b.column, e.item.advance, some ⟨a, .item b⟩⟩

variable {g : Grammar ν τ ρ} {root : ν} {tokens : Array (Token τ)} {chart chart' : Chart}
  {sources : List Address} {x : Addition}

namespace Justifies

theorem transfer (h : Justifies g root tokens chart sources x)
    (hs : ∀ a ∈ sources, ∀ e, chart.entryAt? a = some e →
      ∃ e', chart'.entryAt? a = some e' ∧ e'.item = e.item) :
    Justifies g root tokens chart' sources x := by
  cases h with
  | root produced => exact .root produced
  | predict entry awaited produced =>
    obtain ⟨e', he', hi⟩ := hs _ (by simp) _ entry
    exact .predict he' (hi ▸ awaited) produced
  | scan entry awaited matched =>
    obtain ⟨e', he', hi⟩ := hs _ (by simp) _ entry
    rw [← hi]
    exact .scan he' (hi ▸ awaited) matched
  | complete entry awaited done ended produced meets =>
    obtain ⟨e', he', hi⟩ := hs _ (by simp) _ entry
    obtain ⟨f', hf', hj⟩ := hs _ (by simp) _ done
    rw [← hi]
    exact .complete he' (hi ▸ awaited) hf' (hj ▸ ended) (hj ▸ produced) (hj ▸ meets)

theorem extend (h : Justifies g root tokens chart sources x) (hx : chart.Extends chart') :
    Justifies g root tokens chart' sources x := by
  apply h.transfer
  intro a _ e he
  obtain ⟨e', he', hi, -⟩ := hx a e he
  exact ⟨e', he', hi⟩

theorem column_lt (h : Justifies g root tokens chart sources x)
    (hs : chart.columns.size = tokens.size + 1) : x.column < chart.columns.size := by
  cases h with
  | root =>
    simp only
    omega
  | predict entry => exact lt_size_of_entryAt? entry
  | @scan a e tag entry awaited matched =>
    have ha : a.column < tokens.size := by
      refine Nat.lt_of_not_le fun hle => ?_
      simp [Array.getElem?_eq_none hle] at matched
    simp only
    omega
  | complete entry awaited done => exact lt_size_of_entryAt? done

end Justifies

inductive Built (g : Grammar ν τ ρ) (root : ν) (tokens : Array (Token τ)) : Chart → Prop where
  | empty : Built g root tokens ⟨Array.replicate (tokens.size + 1) #[]⟩
  | add {chart : Chart} {sources : List Address} {x : Addition}
      (built : Built g root tokens chart) (just : Justifies g root tokens chart sources x) :
      Built g root tokens (chart.add x.column x.item x.link)

theorem not_entryAt?_empty {n : Nat} {a : Address} {e : Entry} :
    ¬(Chart.mk (Array.replicate n #[])).entryAt? a = some e := by
  intro h
  simp only [entryAt?, column, Array.getD_eq_getD_getElem?, Array.getElem?_replicate] at h
  split at h <;> simp at h

namespace Built

theorem columns_size (h : Built g root tokens chart) :
    chart.columns.size = tokens.size + 1 := by
  induction h with
  | empty => simp
  | add built just ih => simpa using ih

/-- What the rules carry from the entries they use to the item they add holds of every entry. -/
theorem entry_induction {P : Nat → Item → Prop} (h : Built g root tokens chart)
    (hP : ∀ {chart sources x}, Justifies g root tokens chart sources x →
      (∀ a e, chart.entryAt? a = some e → P a.column e.item) → P x.column x.item) :
    ∀ a e, chart.entryAt? a = some e → P a.column e.item := by
  induction h with
  | empty =>
    intro a e he
    exact (not_entryAt?_empty he).elim
  | add built just ih =>
    intro a e he
    obtain ⟨e₀, he₀, hi⟩ | ⟨rfl, rfl, -⟩ := entryAt?_add_item he
    · rw [hi]
      exact ih a e₀ he₀
    · exact hP just ih

/-- An item stands in a column only if the symbols before its dot derive what lies between. -/
theorem spans (h : Built g root tokens chart) {a : Address} {e : Entry}
    (ha : chart.entryAt? a = some e) : e.item.Spans g tokens a.column := by
  refine h.entry_induction (P := fun c i => i.Spans g tokens c) ?_ a e ha
  intro chart sources x just ih
  cases just with
  | root produced => exact .begin produced _
  | predict entry awaited produced => exact .begin produced _
  | scan entry awaited matched => exact (ih _ _ entry).advance awaited (.token matched .nil)
  | complete entry awaited done ended produced meets =>
    obtain ⟨d, hd⟩ := (ih _ _ done).ended ended produced
    exact (ih _ _ entry).advance awaited (meets ▸ hd)

theorem item_unique (h : Built g root tokens chart) {a b : Address} {e f : Entry}
    (ha : chart.entryAt? a = some e) (hb : chart.entryAt? b = some f) (hc : a.column = b.column)
    (hi : e.item = f.item) : a = b := by
  induction h generalizing a b e f with
  | empty => exact (not_entryAt?_empty ha).elim
  | add built just ih =>
    obtain ⟨e₀, he₀, hi₀⟩ | ⟨rfl, rfl, hnew⟩ := entryAt?_add_item ha
    · obtain ⟨f₀, hf₀, hj₀⟩ | ⟨rfl, rfl, hnew⟩ := entryAt?_add_item hb
      · exact ih he₀ hf₀ hc (hi₀.symm.trans (hi.trans hj₀))
      · exact (hnew a e₀ hc he₀ (hi₀.symm.trans hi)).elim
    · obtain ⟨f₀, hf₀, hj₀⟩ | ⟨rfl, -, -⟩ := entryAt?_add_item hb
      · exact (hnew b f₀ hc.symm hf₀ (hj₀.symm.trans hi.symm)).elim
      · rfl

theorem links_nodup (h : Built g root tokens chart) {a : Address} {e : Entry}
    (ha : chart.entryAt? a = some e) : e.links.Nodup := by
  induction h generalizing a e with
  | empty => exact (not_entryAt?_empty ha).elim
  | @add chart sources x built just ih =>
    obtain ⟨e₀, he₀, rfl | ⟨l, -, -, -, rfl⟩⟩ | ⟨-, rfl, -⟩ := entryAt?_add_cases ha
    · exact ih he₀
    · exact Entry.nodup_links_addLink (ih he₀)
    · cases x.link <;> simp

theorem link_justified (h : Built g root tokens chart) {a : Address} {e : Entry} {l : Link}
    (ha : chart.entryAt? a = some e) (hl : l ∈ e.links) :
    ∃ sources, Justifies g root tokens chart sources ⟨a.column, e.item, some l⟩ := by
  induction h generalizing a e l with
  | empty => exact (not_entryAt?_empty ha).elim
  | @add chart sources x built just ih =>
    have hx := Extends.add chart x.column x.item x.link
    have hold {e₀} (he₀ : chart.entryAt? a = some e₀) (hl₀ : l ∈ e₀.links) :=
      (ih he₀ hl₀).imp fun _ hj => hj.extend hx
    obtain ⟨e₀, he₀, rfl | ⟨l', hl', hc, hi, rfl⟩⟩ | ⟨rfl, rfl, -⟩ := entryAt?_add_cases ha
    · exact hold he₀ hl
    · rcases Entry.mem_links_addLink.mp hl with hl | rfl
      · simpa using hold he₀ hl
      · refine ⟨sources, ?_⟩
        rw [Entry.item_addLink, hc, hi, ← hl']
        exact just.extend hx
    · refine ⟨sources, ?_⟩
      have hl' : x.link = some l := by simpa using hl
      rw [← hl']
      exact just.extend hx

end Built

end Chart

theorem Chart.entryAt?_eq_getElem {chart : Chart} {c i : Nat} (hi : i < (chart.column c).size) :
    chart.entryAt? ⟨c, i⟩ = some (chart.column c)[i] :=
  Array.getElem?_eq_getElem hi

theorem Chart.Built.items_nodup {g : Grammar ν τ ρ} {root : ν} {tokens : Array (Token τ)}
    {chart : Chart} (h : Built g root tokens chart) (c : Nat) :
    ((chart.column c).toList.map (·.item)).Nodup := by
  rw [List.nodup_iff_injective_getElem]
  rintro ⟨i, hi⟩ ⟨j, hj⟩ he
  simp only [List.length_map, Array.length_toList] at hi hj
  have hij := h.item_unique (entryAt?_eq_getElem hi) (entryAt?_eq_getElem hj) rfl
    (by simpa using he)
  cases hij
  rfl

/-- The items of a column differ and begin at it or before it, so their number is bounded. -/
theorem Chart.Built.column_size_le {g : Grammar ν τ ρ} {root : ν} {tokens : Array (Token τ)}
    {chart : Chart} (h : Built g root tokens chart) (c : Nat) :
    (chart.column c).size ≤ (c + 1) * g.dottedCount := by
  have hsub : (chart.column c).toList.map (·.item) ⊆ dottedItems c 0 g.productions.toList := by
    intro item hitem
    obtain ⟨e, he, rfl⟩ := List.mem_map.mp hitem
    obtain ⟨i, hi, rfl⟩ := Array.mem_iff_getElem.mp (Array.mem_toList_iff.mp he)
    have hs := h.spans (entryAt?_eq_getElem hi)
    obtain ⟨name, hname⟩ := Option.isSome_iff_exists.mp hs.produced
    obtain ⟨q, hq, -⟩ := Option.map_eq_some_iff.mp hname
    have hd := hs.dot_le
    rw [Grammar.rhs, hq] at hd
    rw [← Array.getElem?_toList] at hq
    simpa using mem_dottedItems (p := 0) hq hd hs.origin_le
  have hle := ((h.items_nodup c).subperm hsub).length_le
  rwa [List.length_map, Array.length_toList, length_dottedItems] at hle

end Fabula
