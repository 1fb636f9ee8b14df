import Mathlib
import Fabula.Proofs.Scan.Progress

namespace Fabula

theorem Place.exists_passes {p : Place} {s t : List Char} (h : p.after = s ++ t) :
    ∃ q, p.Passes s q ∧ q.after = t := by
  have hlast := Passes.last p
  rw [h] at hlast
  obtain ⟨q, hs, ht⟩ := hlast.split
  exact ⟨q, hs, ht.after.trans (List.append_nil t)⟩

theorem Place.left_ne_zero {p : Place} {c : Char} {rest : List Char} (h : p.after = c :: rest) :
    p.left ≠ 0 := by
  rw [p.left_eq, h]
  exact Nat.succ_ne_zero _

namespace Pattern

variable {α : Type} {p q : Place} {c : Char} {text : List Char} {pattern : Pattern}

def avoids (c : Char) : Pattern → Bool
  | empty => true
  | one accepts => !accepts c
  | check _ => true
  | seq first second => first.avoids c && second.avoids c
  | alt first second => first.avoids c && second.avoids c
  | star _ body => body.avoids c

theorem not_mem_of_avoids (h : pattern.avoids c = true) (ht : pattern.Takes text) :
    c ∉ text := by
  induction pattern generalizing text with
  | empty =>
    cases ht
    exact List.not_mem_nil
  | one accepts =>
    obtain ⟨d, hd, rfl⟩ := ht
    intro hc
    rw [← List.mem_singleton.mp hc] at hd
    simp [avoids, hd] at h
  | check holds =>
    cases ht
    exact List.not_mem_nil
  | seq first second ihf ihs =>
    obtain ⟨s, t, hs, ht, rfl⟩ := ht
    obtain ⟨hfirst, hsecond⟩ := Bool.and_eq_true_iff.mp h
    intro hc
    rcases List.mem_append.mp hc with hc | hc
    · exact ihf hfirst hs hc
    · exact ihs hsecond ht hc
  | alt first second ihf ihs =>
    obtain ⟨hfirst, hsecond⟩ := Bool.and_eq_true_iff.mp h
    rcases ht with ht | ht
    · exact ihf hfirst ht
    · exact ihs hsecond ht
  | star greedy body ih =>
    obtain ⟨parts, hparts, rfl⟩ := ht
    intro hc
    obtain ⟨part, hpart, hc⟩ := List.mem_flatten.mp hc
    exact ih h (hparts part hpart) hc

theorem not_mem_upTo (h : pattern.avoids c = true) (hm : pattern.match? p = some q) :
    c ∉ p.upTo q := by
  obtain ⟨text, q', htext, hpasses, hq⟩ := advances_run pattern _ _ _ hm
  cases hq
  rw [hpasses.upTo_eq]
  exact not_mem_of_avoids h htext

theorem run_of_passes {cs : List Char} {k : Place → Option α} (h : p.Passes cs q) :
    (Pattern.text cs).run p k = k q := by
  have hchar {p q : Place} {c : Char} {k : Place → Option α} (h : p.Passes [c] q) :
      (char c).run p k = k q := by
    rw [char, run_one h.next?_eq, if_pos (beq_self_eq_true c)]
  fun_induction Pattern.text cs generalizing p with
  | case1 => rw [h.unique (.refl p)]; rfl
  | case2 c => exact hchar h
  | case3 c cs hne ih =>
    obtain ⟨between, hc, hcs⟩ := Place.Passes.split (s := [c]) h
    exact (hchar hc).trans (ih hcs)

end Pattern

namespace Table

variable {τ : Type} {rules : List (Rule τ)} {rule : Rule τ} {p q m stop : Place}
  {s t text rest : List Char}
  {stretches : List (Stretch τ)}

theorem not_silent_of_lit {word : String} (hrule : rule ∈ rules)
    (hword : rule.pattern = .lit word) (hp : p.after = word.toList ++ rest) :
    ¬ Silent rules p := by
  intro hsilent
  obtain ⟨q, hq, -⟩ := Place.exists_passes hp
  have hmatch : rule.pattern.match? p = some q := by
    rw [hword]
    exact Pattern.run_of_passes hq
  cases (hsilent rule hrule).symm.trans hmatch

/-- No match that wins before the end of the text that follows a place reaches over that end. -/
def Bounded (rules : List (Rule τ)) (p : Place) (text : List Char) : Prop :=
  ∀ s t m rule stop, text = s ++ t → t ≠ [] → p.Passes s m → Wins rules m rule stop →
    m.upTo stop <+: t

theorem Bounded.drop (h : Bounded rules p (s ++ t)) (hs : p.Passes s m) :
    Bounded rules m t := by
  intro s' t' m' rule stop ht' hne hm'
  apply h (s ++ s') t' m' rule stop _ hne (hs.trans hm')
  rw [ht', List.append_assoc]

theorem bounded_of_head {c : Char} (hp : p.Passes text q) (hq : q.after = c :: rest)
    (h : ∀ s t m rule stop more, text = s ++ t → t ≠ [] → Wins rules m rule stop →
      m.upTo stop ≠ t ++ c :: more) :
    Bounded rules p text := by
  intro s t m rule stop hst hne hm hwins
  have hafter : m.after = t ++ c :: rest := by
    rw [hst] at hp
    obtain ⟨m', hm', hq'⟩ := hp.split
    rw [hm.unique hm', hq'.after, hq]
  have htaken : m.upTo stop <+: m.after := ⟨stop.after, hwins.passes.after.symm⟩
  rw [hafter] at htaken
  rcases List.prefix_or_prefix_of_prefix htaken (List.prefix_append t _) with
      hshort | ⟨more, hlong⟩
  · exact hshort
  · cases more with
    | nil => rw [← hlong, List.append_nil]
    | cons d more =>
      rw [← hlong, List.prefix_append_right_inj] at htaken
      obtain ⟨rfl, -⟩ := List.cons_prefix_cons.mp htaken
      exact absurd hlong.symm (h s t m rule stop more hst hne hwins)

section Tiling

variable {whole : List Char} {f : Finder τ}

theorem claimed_of_match (h : Finder.Tiling (rules.map Rule.finder) whole p stretches)
    (hp : p.left ≠ 0) (hmatch : ¬ Silent rules p) :
    ∃ rule stop later, Wins rules p rule stop ∧
      stretches = .claimed rule.effect (p.upTo stop) :: later ∧
      Finder.Tiling (rules.map Rule.finder) whole stop later := by
  cases h with
  | done ended => exact absurd ended hp
  | claimed more leads rest =>
    obtain ⟨rule, heffect, -, hwins⟩ := wins_of_leads leads
    rw [← heffect]
    exact ⟨rule, _, _, hwins, rfl, rest⟩
  | skipped filled passes leads =>
    obtain ⟨-, -, hskips, -⟩ := wins_of_leads leads
    rw [passes.upTo_eq] at hskips
    exact absurd (hskips.silent [] _ p rfl filled (.refl p)) hmatch
  | trailing filled silent =>
    obtain ⟨hskips, -⟩ := silent_of_finders silent
    exact absurd (hskips.silent [] _ p rfl filled (.refl p)) hmatch

theorem split_claimed (hpasses : p.Passes text q) (hq : q.left ≠ 0)
    (hbounded : Bounded rules p text)
    (leads : Finder.Leads (rules.map Rule.finder) whole p f p stop)
    (rest : Finder.Tiling (rules.map Rule.finder) whole stop stretches)
    (hrest : ∀ {text}, stop.Passes text q → Bounded rules stop text →
      ∃ front back, stretches = front ++ back ∧ Stretch.textOf front = text ∧
        Finder.Tiling (rules.map Rule.finder) whole q back) :
    ∃ front back, .claimed f.effect (p.upTo stop) :: stretches = front ++ back ∧
      Stretch.textOf front = text ∧ Finder.Tiling (rules.map Rule.finder) whole q back := by
  cases text with
  | nil =>
    cases hpasses.unique (.refl p)
    exact ⟨[], _, rfl, rfl, .claimed hq leads rest⟩
  | cons c text =>
    obtain ⟨rule, -, -, hwins⟩ := wins_of_leads leads
    obtain ⟨text', htext⟩ :=
      hbounded [] _ p rule stop rfl (List.cons_ne_nil _ _) (.refl p) hwins
    rw [← htext] at hpasses hbounded ⊢
    obtain ⟨m, hm, hpasses⟩ := hpasses.split
    rw [hm.unique hwins.passes] at hpasses
    obtain ⟨front, back, rfl, hfront, hback⟩ := hrest hpasses (hbounded.drop hwins.passes)
    exact ⟨_ :: front, back, rfl, by rw [Stretch.textOf_cons, hfront]; rfl, hback⟩

/-- A tiling splits at a place where some rule matches and over which no match reaches. -/
theorem split_at (h : Finder.Tiling (rules.map Rule.finder) whole p stretches)
    (hpasses : p.Passes text q) (hq : q.left ≠ 0) (hmatch : ¬ Silent rules q)
    (hbounded : Bounded rules p text) :
    ∃ front back, stretches = front ++ back ∧ Stretch.textOf front = text ∧
      Finder.Tiling (rules.map Rule.finder) whole q back := by
  induction h generalizing text with
  | done ended =>
    have hleft := hpasses.left_eq
    omega
  | claimed more leads rest ih => exact split_claimed hpasses hq hbounded leads rest ih
  | @skipped p m stop gap f stretches filled passes leads rest ih =>
    obtain ⟨rule, heffect, hskips, hwins⟩ := wins_of_leads leads
    rw [passes.upTo_eq] at hskips
    -- What is skipped ends no later than the text, since some rule matches behind it.
    have hprefix : gap <+: text := by
      have hgap : gap <+: p.after := ⟨m.after, passes.after.symm⟩
      have htext : text <+: p.after := ⟨q.after, hpasses.after.symm⟩
      rcases List.prefix_or_prefix_of_prefix hgap htext with hprefix | ⟨more, hmore⟩
      · exact hprefix
      · cases more with
        | nil => rw [← hmore, List.append_nil]
        | cons c more =>
          have hsilent := hskips.silent text _ q hmore.symm (List.cons_ne_nil _ _) hpasses
          exact absurd hsilent hmatch
    obtain ⟨text', rfl⟩ := hprefix
    obtain ⟨m', hm', hpasses⟩ := hpasses.split
    cases hm'.unique passes
    have hleads := leads_of_wins (.refl rules m) hwins whole
    obtain ⟨front, back, heq, hfront, hback⟩ :=
      split_claimed hpasses hq (hbounded.drop passes) hleads rest ih
    refine ⟨.unclaimed gap :: front, back, ?_, ?_, hback⟩
    · rw [List.cons_append, ← heq, ← heffect]
      rfl
    · rw [Stretch.textOf_cons, hfront]
      rfl
  | trailing filled silent =>
    have hne : q.after ≠ [] := by
      intro hnil
      exact hq (q.left_eq.trans (by rw [hnil]; rfl))
    obtain ⟨hskips, -⟩ := silent_of_finders silent
    exact absurd (hskips.silent text q.after q hpasses.after hne hpasses) hmatch

end Tiling

end Table

end Fabula
