import Fabula.Grammar.Chart

namespace Fabula

namespace Entry

variable {e : Entry} {l : Link}

@[simp]
theorem item_addLink : (e.addLink l).item = e.item := by
  unfold addLink
  split <;> rfl

theorem mem_links_addLink {l' : Link} : l' ∈ (e.addLink l).links ↔ l' ∈ e.links ∨ l' = l := by
  unfold addLink
  split
  · rename_i h
    have hl : l ∈ e.links := List.contains_iff_mem.mp h
    constructor
    · exact .inl
    · rintro (hm | rfl)
      · exact hm
      · exact hl
  · simp

theorem nodup_links_addLink (h : e.links.Nodup) : (e.addLink l).links.Nodup := by
  unfold addLink
  split
  · exact h
  · rename_i hl
    have hn : l ∉ e.links := fun hm => hl (List.contains_iff_mem.mpr hm)
    exact List.nodup_append.mpr ⟨h, by simp, by rintro a ha b hb rfl; simp_all⟩

end Entry

namespace Column

variable {column : Column} {item : Item} {link : Option Link} {i : Nat} {e : Entry}

/-- What can stand in a column after an addition: what stood there before, possibly with the
link; or, at the end, the item itself, if it stood nowhere in the column. -/
theorem getElem?_add_cases (h : (column.add item link)[i]? = some e) :
    (∃ e₀, column[i]? = some e₀ ∧
      (e = e₀ ∨ ∃ l, link = some l ∧ e₀.item = item ∧ e = e₀.addLink l)) ∨
    (e = ⟨item, link.toList⟩ ∧ i = column.size ∧
      ∀ (j : Nat) (e₀ : Entry), column[j]? = some e₀ → e₀.item ≠ item) := by
  unfold add at h
  split at h
  · rename_i hn
    rw [Array.getElem?_push] at h
    split at h
    · rename_i hi
      cases h
      refine .inr ⟨rfl, hi, ?_⟩
      intro j e₀ hj he
      have hmem := Array.mem_of_getElem? hj
      simpa [he] using Array.findIdx?_eq_none_iff.mp hn e₀ hmem
    · exact .inl ⟨e, h, .inl rfl⟩
  · rename_i k hk
    obtain ⟨hlt, hitem, -⟩ := Array.findIdx?_eq_some_iff_getElem.mp hk
    cases link with
    | none => exact .inl ⟨e, h, .inl rfl⟩
    | some l =>
      simp only [Array.getElem?_modify] at h
      split at h
      · rename_i hki
        subst hki
        obtain ⟨e₀, he₀, rfl⟩ := Option.map_eq_some_iff.mp h
        have hi : column[k] = e₀ := by simpa [hlt] using he₀
        refine .inl ⟨e₀, he₀, .inr ⟨l, rfl, ?_, rfl⟩⟩
        simpa [hi] using hitem
      · exact .inl ⟨e, h, .inl rfl⟩

theorem getElem?_add_of_some (h : column[i]? = some e) :
    ∃ e', (column.add item link)[i]? = some e' ∧ e'.item = e.item ∧ e.links ⊆ e'.links := by
  have hi := (Array.getElem?_eq_some_iff.mp h).1
  unfold add
  split
  · exact ⟨e, by rw [Array.getElem?_push_lt hi, ← h, Array.getElem?_eq_getElem hi], rfl,
      fun _ => id⟩
  · cases link with
    | none => exact ⟨e, h, rfl, fun _ => id⟩
    | some l =>
      simp only [Array.getElem?_modify]
      split
      · refine ⟨e.addLink l, by simp [h], Entry.item_addLink, ?_⟩
        intro l' hl'
        exact Entry.mem_links_addLink.mpr (.inl hl')
      · exact ⟨e, h, rfl, fun _ => id⟩

theorem exists_getElem?_add (column : Column) (item : Item) (link : Option Link) :
    ∃ (i : Nat) (e : Entry), (column.add item link)[i]? = some e ∧ e.item = item ∧
      ∀ l, link = some l → l ∈ e.links := by
  unfold add
  split
  · refine ⟨column.size, ⟨item, link.toList⟩, by simp, rfl, ?_⟩
    rintro l rfl
    simp
  · rename_i k hk
    obtain ⟨hlt, hitem, -⟩ := Array.findIdx?_eq_some_iff_getElem.mp hk
    have hitem : column[k].item = item := by simpa using hitem
    cases link with
    | none => exact ⟨k, column[k], by simp, hitem, by simp⟩
    | some l =>
      refine ⟨k, column[k].addLink l, ?_, by simp [hitem], ?_⟩
      · simp only [Array.getElem?_modify, if_true, Array.getElem?_eq_getElem hlt,
          Option.map_some]
      · rintro l' ⟨⟩
        exact Entry.mem_links_addLink.mpr (.inr rfl)

/-- Selection finds the entries before a bound that satisfy the test. -/
theorem mem_select {test : Item → Bool} {n : Nat} {later : List (Nat × Item)} :
    (i, item) ∈ column.select test n later ↔
      (i < n ∧ test item = true ∧ ∃ e, column[i]? = some e ∧ e.item = item) ∨
        (i, item) ∈ later := by
  induction n generalizing later with
  | zero => simp [select]
  | succ n ih =>
    unfold select
    cases hn : column[n]? with
    | none =>
      rw [ih]
      constructor
      · rintro (⟨hi, ht, he⟩ | hl)
        · exact .inl ⟨Nat.lt_succ_of_lt hi, ht, he⟩
        · exact .inr hl
      · rintro (⟨hi, ht, e, he, rfl⟩ | hl)
        · have hne : i ≠ n := by
            rintro rfl
            simp [hn] at he
          exact .inl ⟨by omega, ht, e, he, rfl⟩
        · exact .inr hl
    | some e₀ =>
      have hlast : (∃ e, column[n]? = some e ∧ e.item = item) ↔ e₀.item = item := by simp [hn]
      have hsplit : i < n + 1 ↔ i < n ∨ i = n := by omega
      by_cases ht : test e₀.item = true
      · simp only [ht, if_true, ih, List.mem_cons, Prod.mk.injEq, hsplit]
        constructor
        · rintro (⟨hi, h⟩ | ⟨rfl, rfl⟩ | hl)
          · exact .inl ⟨.inl hi, h⟩
          · exact .inl ⟨.inr rfl, ht, e₀, hn, rfl⟩
          · exact .inr hl
        · rintro (⟨hi | rfl, h, he⟩ | hl)
          · exact .inl ⟨hi, h, he⟩
          · exact .inr (.inl ⟨rfl, (hlast.mp he).symm⟩)
          · exact .inr (.inr hl)
      · simp only [ht, Bool.false_eq_true, if_false, ih, hsplit]
        constructor
        · rintro (⟨hi, h⟩ | hl)
          · exact .inl ⟨.inl hi, h⟩
          · exact .inr hl
        · rintro (⟨hi | rfl, h, he⟩ | hl)
          · exact .inl ⟨hi, h, he⟩
          · rw [← hlast.mp he] at h
            exact (ht h).elim
          · exact .inr hl

end Column

namespace Chart

variable {chart chart' chart'' : Chart} {c k : Nat} {item : Item} {link : Option Link}
  {a : Address} {e : Entry}

@[simp]
theorem columns_size_add : (chart.add c item link).columns.size = chart.columns.size := by
  simp [add]

theorem column_add_of_ne (h : k ≠ c) : (chart.add c item link).column k = chart.column k := by
  simp [add, column, Array.getElem?_modify, h.symm]

theorem column_add_self (h : c < chart.columns.size) :
    (chart.add c item link).column c = (chart.column c).add item link := by
  simp [add, column, Array.getElem_modify_self, h]

theorem lt_size_of_entryAt? (h : chart.entryAt? a = some e) :
    a.column < chart.columns.size := by
  refine Nat.lt_of_not_le fun hle => ?_
  simp [entryAt?, column, Array.getElem?_eq_none hle] at h

theorem entryAt?_add_cases (h : (chart.add c item link).entryAt? a = some e) :
    (∃ e₀, chart.entryAt? a = some e₀ ∧
      (e = e₀ ∨ ∃ l, link = some l ∧ a.column = c ∧ e₀.item = item ∧ e = e₀.addLink l)) ∨
    (a = ⟨c, (chart.column c).size⟩ ∧ e = ⟨item, link.toList⟩ ∧
      ∀ b e₀, b.column = c → chart.entryAt? b = some e₀ → e₀.item ≠ item) := by
  obtain ⟨k, i⟩ := a
  have hk : k < chart.columns.size := by simpa using lt_size_of_entryAt? h
  by_cases hc : k = c
  · subst hc
    simp only [entryAt?, column_add_self hk] at h ⊢
    obtain ⟨e₀, h₀, he⟩ | ⟨he, rfl, hall⟩ := Column.getElem?_add_cases h
    · refine .inl ⟨e₀, h₀, ?_⟩
      obtain rfl | ⟨l, hl, hitem, rfl⟩ := he
      · exact .inl rfl
      · exact .inr ⟨l, hl, trivial, hitem, rfl⟩
    · refine .inr ⟨rfl, he, ?_⟩
      rintro ⟨k', j⟩ e₀ rfl hj
      exact hall j e₀ hj
  · simp only [entryAt?, column_add_of_ne hc] at h ⊢
    exact .inl ⟨e, h, .inl rfl⟩

theorem entryAt?_add_item (h : (chart.add c item link).entryAt? a = some e) :
    (∃ e₀, chart.entryAt? a = some e₀ ∧ e.item = e₀.item) ∨
    (a = ⟨c, (chart.column c).size⟩ ∧ e = ⟨item, link.toList⟩ ∧
      ∀ b e₀, b.column = c → chart.entryAt? b = some e₀ → e₀.item ≠ item) := by
  obtain ⟨e₀, he₀, rfl | ⟨l, -, -, -, rfl⟩⟩ | hnew := entryAt?_add_cases h
  · exact .inl ⟨e, he₀, rfl⟩
  · exact .inl ⟨e₀, he₀, Entry.item_addLink⟩
  · exact .inr hnew

/-- Every entry of the first chart stands in the second at the same place, with its links at
least. -/
def Extends (chart chart' : Chart) : Prop :=
  ∀ a e, chart.entryAt? a = some e →
    ∃ e', chart'.entryAt? a = some e' ∧ e'.item = e.item ∧ e.links ⊆ e'.links

namespace Extends

theorem refl (chart : Chart) : chart.Extends chart :=
  fun _ e h => ⟨e, h, rfl, fun _ => id⟩

theorem trans (h : chart.Extends chart') (h' : chart'.Extends chart'') :
    chart.Extends chart'' := by
  intro a e he
  obtain ⟨e₁, he₁, hi₁, hl₁⟩ := h a e he
  obtain ⟨e₂, he₂, hi₂, hl₂⟩ := h' a e₁ he₁
  exact ⟨e₂, he₂, hi₂.trans hi₁, List.Subset.trans hl₁ hl₂⟩

theorem add (chart : Chart) (c : Nat) (item : Item) (link : Option Link) :
    chart.Extends (chart.add c item link) := by
  rintro ⟨k, i⟩ e h
  have hk := lt_size_of_entryAt? h
  by_cases hc : k = c
  · subst hc
    simp only [entryAt?, column_add_self hk] at h ⊢
    exact Column.getElem?_add_of_some h
  · simp only [entryAt?, column_add_of_ne hc] at h ⊢
    exact ⟨e, h, rfl, fun _ => id⟩

end Extends

def Holds (chart : Chart) (c : Nat) (item : Item) (link : Option Link) : Prop :=
  ∃ a e, chart.entryAt? a = some e ∧ a.column = c ∧ e.item = item ∧ ∀ l, link = some l →
    l ∈ e.links

theorem Holds.extend (h : chart.Holds c item link) (hx : chart.Extends chart') :
    chart'.Holds c item link := by
  obtain ⟨a, e, he, hc, hi, hl⟩ := h
  obtain ⟨e', he', hi', hl'⟩ := hx a e he
  exact ⟨a, e', he', hc, hi'.trans hi, fun l h => hl' (hl l h)⟩

theorem holds_add (h : c < chart.columns.size) : (chart.add c item link).Holds c item link := by
  obtain ⟨i, e, he, hi, hl⟩ := Column.exists_getElem?_add (chart.column c) item link
  refine ⟨⟨c, i⟩, e, ?_, rfl, hi, hl⟩
  simpa only [entryAt?, column_add_self h] using he

theorem mem_treated {i o index : Nat} {test : Item → Bool} :
    (index, item) ∈ chart.treated c i o test ↔
      test item = true ∧ (o = c → index < i) ∧
        ∃ e, chart.entryAt? ⟨o, index⟩ = some e ∧ e.item = item := by
  simp only [treated, Column.mem_select, List.not_mem_nil, or_false, entryAt?]
  constructor
  · rintro ⟨hlt, ht, e, he, hi⟩
    refine ⟨ht, ?_, e, he, hi⟩
    intro hoc
    simpa [hoc] using hlt
  · rintro ⟨ht, hlt, e, he, hi⟩
    refine ⟨?_, ht, e, he, hi⟩
    split
    · rename_i hoc
      exact hlt hoc
    · exact (Array.getElem?_eq_some_iff.mp he).1

end Chart

end Fabula
