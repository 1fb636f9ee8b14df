import Fabula.Proofs.Grammar.Building

namespace Fabula

variable {ν τ ρ : Type} [DecidableEq ν]

def Address.Before (a b : Address) : Prop :=
  a.column < b.column ∨ a.column = b.column ∧ a.index < b.index

theorem Address.before_succ_iff {a : Address} {c i : Nat} :
    a.Before ⟨c, i + 1⟩ ↔ a.Before ⟨c, i⟩ ∨ a = ⟨c, i⟩ := by
  obtain ⟨k, j⟩ := a
  simp only [Before, Address.mk.injEq]
  omega

namespace Chart

def addAll (chart : Chart) (xs : List Addition) : Chart :=
  xs.foldl (fun chart x => chart.add x.column x.item x.link) chart

def additions [DecidableEq τ] (g : Grammar ν τ ρ) (tokens : Array (Token τ)) (chart : Chart)
    (here : Address) : List Addition :=
  match chart.entryAt? here with
  | none => []
  | some e =>
    match e.item.symbol? g with
    | none =>
      match g.lhs? e.item.production with
      | none => []
      | some name =>
        (chart.treated here.column here.index e.item.origin (·.awaits g name)).map
          fun (index, parent) =>
            ⟨here.column, parent.advance, some ⟨⟨e.item.origin, index⟩, .item here⟩⟩
    | some (.nonterminal name) =>
      (chart.treated here.column here.index here.column
          fun i => i.origin == here.column && i.completes g name).map
        (fun (index, _) =>
          ⟨here.column, e.item.advance, some ⟨here, .item ⟨here.column, index⟩⟩⟩) ++
        (g.producing name).map fun p => ⟨here.column, .begin p here.column, none⟩
    | some (.terminal tag) =>
      if tokens[here.column]?.bind (·.tag) = some tag then
        [⟨here.column + 1, e.item.advance, some ⟨here, .token here.column⟩⟩]
      else []

variable {g : Grammar ν τ ρ} {root : ν} {tokens : Array (Token τ)} {chart chart' : Chart}
  {sources : List Address} {x : Addition} {xs : List Addition} {here : Address} {c i : Nat}

theorem treat_eq_addAll [DecidableEq τ] (g : Grammar ν τ ρ) (tokens : Array (Token τ))
    (chart : Chart) (here : Address) :
    chart.treat g tokens here = chart.addAll (chart.additions g tokens here) := by
  unfold treat additions
  cases chart.entryAt? here with
  | none => rfl
  | some e =>
    simp only
    cases e.item.symbol? g with
    | none =>
      simp only [complete]
      cases g.lhs? e.item.production with
      | none => rfl
      | some name => simp only [addAll, List.foldl_map]
    | some s =>
      cases s with
      | nonterminal name => simp only [predict, addAll, List.foldl_append, List.foldl_map]
      | terminal tag =>
        simp only [advanceOver]
        split <;> rfl

section AddAll

theorem extends_addAll (chart : Chart) (xs : List Addition) :
    chart.Extends (chart.addAll xs) := by
  induction xs generalizing chart with
  | nil => exact .refl chart
  | cons x xs ih => exact (Extends.add chart x.column x.item x.link).trans (ih _)

theorem column_addAll_of_lt (h : ∀ x ∈ xs, c ≤ x.column) {k : Nat} (hk : k < c) :
    (chart.addAll xs).column k = chart.column k := by
  induction xs generalizing chart with
  | nil => rfl
  | cons x xs ih =>
    have hx : k ≠ x.column := by
      have hle := h x (by simp)
      omega
    exact (ih fun y hy => h y (by simp [hy])).trans (column_add_of_ne hx)

theorem Built.addAll (h : Built g root tokens chart)
    (hx : ∀ x ∈ xs, ∃ sources, Justifies g root tokens chart sources x) :
    Built g root tokens (chart.addAll xs) := by
  induction xs generalizing chart with
  | nil => exact h
  | cons x xs ih =>
    obtain ⟨sources, just⟩ := hx x (by simp)
    apply ih (h.add just)
    intro y hy
    obtain ⟨sources', just'⟩ := hx y (by simp [hy])
    exact ⟨sources', just'.extend (Extends.add chart x.column x.item x.link)⟩

theorem Built.holds_addAll (h : Built g root tokens chart)
    (hx : ∀ x ∈ xs, ∃ sources, Justifies g root tokens chart sources x) (hm : x ∈ xs) :
    (chart.addAll xs).Holds x.column x.item x.link := by
  induction xs generalizing chart with
  | nil => simp at hm
  | cons y ys ih =>
    have hext := Extends.add chart y.column y.item y.link
    obtain ⟨sources, just⟩ := hx y (by simp)
    rcases List.mem_cons.mp hm with rfl | hm
    · exact (holds_add (just.column_lt h.columns_size)).extend (extends_addAll _ ys)
    · apply ih (h.add just) ?_ hm
      intro z hz
      obtain ⟨sources', just'⟩ := hx z (by simp [hz])
      exact ⟨sources', just'.extend hext⟩

end AddAll

variable [DecidableEq τ]

theorem additions_justified (hx : x ∈ chart.additions g tokens here) :
    ∃ sources, Justifies g root tokens chart sources x := by
  unfold additions at hx
  cases he : chart.entryAt? here with
  | none => simp [he] at hx
  | some e =>
    simp only [he] at hx
    cases hs : e.item.symbol? g with
    | none =>
      simp only [hs] at hx
      cases hn : g.lhs? e.item.production with
      | none => simp [hn] at hx
      | some name =>
        simp only [hn, List.mem_map, Prod.exists, mem_treated, Item.awaits_iff] at hx
        obtain ⟨index, parent, ⟨hawait, -, e', he', rfl⟩, rfl⟩ := hx
        exact ⟨_, .complete he' hawait he hs hn rfl⟩
    | some s =>
      cases s with
      | nonterminal name =>
        simp only [hs, List.mem_append, List.mem_map, Prod.exists, mem_treated,
          Bool.and_eq_true, beq_iff_eq, Item.completes_iff, Grammar.mem_producing] at hx
        obtain ⟨index, done, ⟨⟨ho, hend, hn⟩, -, e', he', rfl⟩, rfl⟩ | ⟨p, hp, rfl⟩ := hx
        · exact ⟨_, .complete he hs he' hend hn ho⟩
        · exact ⟨_, .predict he hs hp⟩
      | terminal tag =>
        simp only [hs] at hx
        split at hx
        · rename_i matched
          obtain rfl := List.mem_singleton.mp hx
          exact ⟨_, .scan he hs matched⟩
        · simp at hx

theorem additions_column_le (hx : x ∈ chart.additions g tokens here) :
    here.column ≤ x.column := by
  unfold additions at hx
  split at hx
  · simp at hx
  · split at hx
    · split at hx
      · simp at hx
      · obtain ⟨_, -, rfl⟩ := List.mem_map.mp hx
        exact Nat.le_refl _
    · rcases List.mem_append.mp hx with hx | hx
      · obtain ⟨_, -, rfl⟩ := List.mem_map.mp hx
        exact Nat.le_refl _
      · obtain ⟨_, -, rfl⟩ := List.mem_map.mp hx
        exact Nat.le_refl _
    · split at hx
      · obtain rfl := List.mem_singleton.mp hx
        exact Nat.le_succ _
      · simp at hx

/-- Treating an entry adds all that follows from it and entries before it. A dot that awaits
what ends in the same column moves when the later of the two is treated. -/
theorem Built.mem_additions (hb : Built g root tokens chart)
    (just : Justifies g root tokens chart sources x) (hm : here ∈ sources)
    (hs : ∀ a ∈ sources, a.Before here ∨ a = here) : x ∈ chart.additions g tokens here := by
  cases just with
  | root => simp at hm
  | predict entry awaited produced =>
    obtain rfl := List.mem_singleton.mp hm
    simp only [additions, entry, awaited, List.mem_append, List.mem_map]
    exact .inr ⟨_, Grammar.mem_producing.mpr produced, rfl⟩
  | scan entry awaited matched =>
    obtain rfl := List.mem_singleton.mp hm
    simp only [additions, entry, awaited, matched, if_true, List.mem_singleton]
  | @complete a b e f name entry awaited done ended produced meets =>
    have hab : a ≠ b := by
      rintro rfl
      rw [entry] at done
      cases done
      simp [awaited] at ended
    rcases List.mem_pair.mp hm with rfl | rfl
    · -- The awaiting entry is the later one: the completed one began and ended in its column.
      have hbefore : b.Before here := (hs b (by simp)).resolve_right hab.symm
      have hle : here.column ≤ b.column := meets ▸ (hb.spans done).origin_le
      have hcol : b.column = here.column := by
        unfold Address.Before at hbefore
        omega
      obtain ⟨k, j⟩ := b
      simp only at hcol
      subst hcol
      have hlt : j < here.index := by
        unfold Address.Before at hbefore
        simpa using hbefore
      simp only [additions, entry, awaited, List.mem_append, List.mem_map, Prod.exists]
      refine .inl ⟨j, f.item, mem_treated.mpr ⟨?_, fun _ => hlt, f, done, rfl⟩, rfl⟩
      simp [meets, Item.completes_iff.mpr ⟨ended, produced⟩]
    · have hbefore : a.Before here := (hs a (by simp)).resolve_right hab
      obtain ⟨k, j⟩ := a
      simp only at meets
      simp only [additions, done, ended, produced, List.mem_map, Prod.exists]
      refine ⟨j, e.item, mem_treated.mpr ⟨Item.awaits_iff.mpr awaited, ?_, e, ?_, rfl⟩, ?_⟩
      · intro ho
        unfold Address.Before at hbefore
        simp only at hbefore
        omega
      · rw [meets]
        exact entry
      · rw [meets]

/-- A chart in which all entries before an address have been treated. -/
structure Stage (g : Grammar ν τ ρ) (root : ν) (tokens : Array (Token τ)) (stop : Address)
    (chart : Chart) : Prop where
  built : Built g root tokens chart
  closed : ∀ sources x, Justifies g root tokens chart sources x →
    (∀ a ∈ sources, a.Before stop) →
    chart.Holds x.column x.item x.link

namespace Stage

theorem treat (h : Stage g root tokens ⟨c, i⟩ chart) (hi : i < (chart.column c).size) :
    Stage g root tokens ⟨c, i + 1⟩ (chart.treat g tokens ⟨c, i⟩) := by
  have hjust : ∀ x ∈ chart.additions g tokens ⟨c, i⟩,
      ∃ sources, Justifies g root tokens chart sources x := fun x hx => additions_justified hx
  rw [treat_eq_addAll]
  refine ⟨h.built.addAll hjust, ?_⟩
  intro sources x just hbefore
  have hext := extends_addAll chart (chart.additions g tokens ⟨c, i⟩)
  -- The sources stood in the chart before this entry was treated.
  have hold : ∀ a ∈ sources, ∀ e,
      (chart.addAll (chart.additions g tokens ⟨c, i⟩)).entryAt? a = some e →
        ∃ e', chart.entryAt? a = some e' ∧ e'.item = e.item := by
    rintro ⟨k, j⟩ ha e he
    have hb := hbefore _ ha
    simp only [Address.Before] at hb
    rcases hb with hk | ⟨hk, hj⟩
    · refine ⟨e, ?_, rfl⟩
      have hsame : (chart.addAll (chart.additions g tokens ⟨c, i⟩)).column k = chart.column k :=
        column_addAll_of_lt (fun x hx => additions_column_le hx) hk
      rw [← he, entryAt?, entryAt?, hsame]
    · subst hk
      have hj' : j < (chart.column k).size := Nat.lt_of_le_of_lt (Nat.le_of_lt_succ hj) hi
      have hentry : chart.entryAt? ⟨k, j⟩ = some (chart.column k)[j] := by simp [entryAt?, hj']
      obtain ⟨e', he', hitem, -⟩ := hext _ _ hentry
      rw [he] at he'
      cases he'
      exact ⟨_, hentry, hitem.symm⟩
  have just' := just.transfer hold
  by_cases hm : (⟨c, i⟩ : Address) ∈ sources
  · have hx :=
      h.built.mem_additions just' hm fun a ha => Address.before_succ_iff.mp (hbefore a ha)
    exact h.built.holds_addAll hjust hx
  · have hb : ∀ a ∈ sources, a.Before ⟨c, i⟩ := by
      intro a ha
      refine (Address.before_succ_iff.mp (hbefore a ha)).resolve_right ?_
      rintro rfl
      exact hm ha
    exact (h.closed sources x just' hb).extend hext

omit [DecidableEq τ] in
/-- When all entries of a column have been treated, the next column is due. -/
theorem next (h : Stage g root tokens ⟨c, i⟩ chart) (hi : (chart.column c).size ≤ i) :
    Stage g root tokens ⟨c + 1, 0⟩ chart := by
  refine ⟨h.built, fun sources x just hbefore => h.closed sources x just ?_⟩
  rintro ⟨k, j⟩ ha
  have hentry : ∃ e, chart.entryAt? ⟨k, j⟩ = some e := by
    cases just with
    | root => simp at ha
    | predict entry => exact ⟨_, List.mem_singleton.mp ha ▸ entry⟩
    | scan entry => exact ⟨_, List.mem_singleton.mp ha ▸ entry⟩
    | complete entry awaited done =>
      rcases List.mem_pair.mp ha with rfl | rfl
      · exact ⟨_, entry⟩
      · exact ⟨_, done⟩
  obtain ⟨e, he⟩ := hentry
  have hj : j < (chart.column k).size := (Array.getElem?_eq_some_iff.mp he).1
  have hk : k < c + 1 := by
    have hb := hbefore _ ha
    unfold Address.Before at hb
    simp only at hb
    omega
  unfold Address.Before
  simp only
  by_cases hkc : k = c
  · subst hkc
    omega
  · omega

theorem closeFrom {n : Nat} (h : Stage g root tokens ⟨c, i⟩ chart)
    (hn : (c + 1) * g.dottedCount ≤ n + i) :
    Stage g root tokens ⟨c + 1, 0⟩ (closeFrom g tokens c n i chart) := by
  induction n generalizing i chart with
  | zero =>
    have hle := h.built.column_size_le c
    exact h.next (by omega)
  | succ n ih =>
    unfold Chart.closeFrom
    split
    · rename_i hi
      exact ih (h.treat hi) (by omega)
    · rename_i hi
      exact h.next (by omega)

omit [DecidableEq τ] in
theorem seed (g : Grammar ν τ ρ) (root : ν) (tokens : Array (Token τ)) :
    Stage g root tokens ⟨0, 0⟩ (seed g root tokens.size) := by
  have he : Chart.seed g root tokens.size =
      addAll ⟨Array.replicate (tokens.size + 1) #[]⟩
        ((g.producing root).map fun p => ⟨0, .begin p 0, none⟩) := by
    simp only [Chart.seed, addAll, List.foldl_map]
  have hjust : ∀ x ∈ (g.producing root).map fun p => (⟨0, .begin p 0, none⟩ : Addition),
      ∃ sources, Justifies g root tokens ⟨Array.replicate (tokens.size + 1) #[]⟩ sources x := by
    intro x hx
    obtain ⟨p, hp, rfl⟩ := List.mem_map.mp hx
    exact ⟨_, .root (Grammar.mem_producing.mp hp)⟩
  rw [he]
  refine ⟨Built.empty.addAll hjust, ?_⟩
  intro sources x just hbefore
  have hnone : ∀ a ∈ sources, False := by
    intro a ha
    have hb := hbefore a ha
    unfold Address.Before at hb
    simp only at hb
    omega
  cases just with
  | root produced =>
    exact Built.empty.holds_addAll hjust
      (List.mem_map.mpr ⟨_, Grammar.mem_producing.mpr produced, rfl⟩)
  | predict => exact (hnone _ List.mem_cons_self).elim
  | scan => exact (hnone _ List.mem_cons_self).elim
  | complete => exact (hnone _ List.mem_cons_self).elim

theorem closeAll (g : Grammar ν τ ρ) (root : ν) (tokens : Array (Token τ)) (n : Nat) :
    Stage g root tokens ⟨n, 0⟩
      ((List.range n).foldl (close g tokens) (Chart.seed g root tokens.size)) := by
  induction n with
  | zero => exact seed g root tokens
  | succ n ih =>
    rw [List.range_succ, List.foldl_append]
    exact ih.closeFrom (Nat.le_refl _)

end Stage

/-- A chart that holds exactly what follows by the rules. -/
structure Exact (g : Grammar ν τ ρ) (root : ν) (tokens : Array (Token τ))
    (chart : Chart) : Prop where
  built : Built g root tokens chart
  closed : ∀ sources x, Justifies g root tokens chart sources x →
    chart.Holds x.column x.item x.link

theorem exact_ofTokens (g : Grammar ν τ ρ) (root : ν) (tokens : Array (Token τ)) :
    Exact g root tokens (ofTokens g root tokens) := by
  have hs := Stage.closeAll g root tokens (tokens.size + 1)
  refine ⟨hs.built, fun sources x just => hs.closed sources x just ?_⟩
  have hcol {a : Address} {e : Entry} (he : (ofTokens g root tokens).entryAt? a = some e) :
      a.Before ⟨tokens.size + 1, 0⟩ := by
    have hlt := lt_size_of_entryAt? he
    exact .inl (hs.built.columns_size ▸ hlt)
  cases just with
  | root => simp
  | predict entry => simpa using hcol entry
  | scan entry => simpa using hcol entry
  | complete entry awaited done => simpa using ⟨hcol entry, hcol done⟩

end Chart

end Fabula
