import Fabula.Proofs.Scan.Places
import Mathlib

namespace Fabula

theorem eq_of_first_best {α : Type} (speaks : α → Prop) (beats : α → α → Prop) {x x' : α}
    {front back front' back' : List α} (h : front ++ x :: back = front' ++ x' :: back')
    (hx : speaks x) (hx' : speaks x') (hfront : ∀ y ∈ front, speaks y → beats x y)
    (hback : ∀ y ∈ back, speaks y → ¬ beats y x) (hfront' : ∀ y ∈ front', speaks y → beats x' y)
    (hback' : ∀ y ∈ back', speaks y → ¬ beats y x') : x = x' := by
  -- If one stood before the other, it would be beaten by what stands behind it.
  rcases List.append_eq_append_iff.mp h with ⟨more, hfronts, hrest⟩ | ⟨more, hfronts, hrest⟩
  · cases more with
    | nil => exact (List.cons.inj hrest).1
    | cons first more =>
      obtain ⟨rfl, hmore⟩ := List.cons.inj hrest
      have hbeats := hfront' x (by simp [hfronts]) hx
      exact absurd hbeats (hback x' (by simp [hmore]) hx')
  · cases more with
    | nil => exact (List.cons.inj hrest).1.symm
    | cons first more =>
      obtain ⟨rfl, hmore⟩ := List.cons.inj hrest
      have hbeats := hfront x' (by simp [hfronts]) hx'
      exact absurd hbeats (hback' x (by simp [hmore]) hx)

namespace Finder

variable {τ : Type} {finders : List (Finder τ)} {f g : Finder τ} {text : List Char} {p : Place}
  {start stop : Place} {m n : Place × Place} {hit : Hit τ}

/-- Asked from a place of a text, the finder finds nothing or a piece of the text that begins at
or after the place. -/
def Lawful (f : Finder τ) : Prop :=
  ∀ text p start stop, p.In text → f.find? text p = some (start, stop) →
    (∃ gap, p.Passes gap start) ∧ ∃ found, start.Passes found stop

/-- Asked from a place, a rule finds the match that wins: it begins before those of the other
rules, or in the same place and is longer, and where another is as good the rule stands
first. -/
structure Leads (finders : List (Finder τ)) (text : List Char) (p : Place) (f : Finder τ)
    (start stop : Place) : Prop where
  found : f.find? text p = some (start, stop)
  first : ∃ front back, finders = front ++ f :: back ∧
    (∀ g ∈ front, ∀ m, g.find? text p = some m → Beats (start, stop) m) ∧
    ∀ g ∈ back, ∀ m, g.find? text p = some m → ¬ Beats m (start, stop)

theorem Beats.asymm (h : Beats m n) : ¬ Beats n m := by
  unfold Beats at *
  omega

theorem Beats.of_not_beats {o : Place × Place} (h : Beats m n) (hn : ¬ Beats o n) :
    Beats m o := by
  unfold Beats at *
  omega

namespace Leads

theorem mem (h : Leads finders text p f start stop) : f ∈ finders := by
  obtain ⟨front, back, rfl, -⟩ := h.first
  simp

theorem not_beats (h : Leads finders text p f start stop) (hg : g ∈ finders)
    (hm : g.find? text p = some m) : ¬ Beats m (start, stop) := by
  obtain ⟨front, back, rfl, hfront, hback⟩ := h.first
  rcases List.mem_append.mp hg with hg | hg
  · exact (hfront g hg m hm).asymm
  · rcases List.mem_cons.mp hg with rfl | hg
    · cases h.found.symm.trans hm
      unfold Beats
      omega
    · exact hback g hg m hm

theorem unique {start' stop' : Place} (h : Leads finders text p f start stop)
    (h' : Leads finders text p g start' stop') : f = g := by
  obtain ⟨front, back, hsplit, hfront, hback⟩ := h.first
  obtain ⟨front', back', hsplit', hfront', hback'⟩ := h'.first
  apply eq_of_first_best (fun f => ∃ m, f.find? text p = some m)
    (fun f g => ∀ m n, f.find? text p = some m → g.find? text p = some n → Beats m n)
    (hsplit.symm.trans hsplit') ⟨_, h.found⟩ ⟨_, h'.found⟩
  · intro y hy _ m n hm hn
    cases h.found.symm.trans hm
    exact hfront y hy n hn
  · rintro y hy ⟨m, hm⟩ hbeats
    exact hback y hy m hm (hbeats m _ hm h.found)
  · intro y hy _ m n hm hn
    cases h'.found.symm.trans hm
    exact hfront' y hy n hn
  · rintro y hy ⟨m, hm⟩ hbeats
    exact hback' y hy m hm (hbeats m _ hm h'.found)

end Leads

theorem best_snoc (finders : List (Finder τ)) (f : Finder τ) (text : List Char) (p : Place) :
    best (finders ++ [f]) text p = consider text p (best finders text p) f := by
  simp [best]

theorem consider_of_none (h : f.find? text p = none) (best : Option (Hit τ)) :
    consider text p best f = best := by
  simp only [consider, h]

/-- What a rule finds takes the place of the best so far, or does not beat it. -/
theorem consider_of_some (h : f.find? text p = some m) (best : Option (Hit τ)) :
    ((∀ hit, best = some hit → Beats m (hit.start, hit.stop)) ∧
        consider text p best f = some ⟨f.effect, m.1, m.2⟩) ∨
      ∃ hit, best = some hit ∧ ¬ Beats m (hit.start, hit.stop) ∧
        consider text p best f = some hit := by
  simp only [consider, h]
  cases best with
  | none => exact .inl ⟨by simp, rfl⟩
  | some hit =>
    by_cases hbeats : Beats m (hit.start, hit.stop)
    · exact .inl ⟨by simpa using hbeats, by simp [hbeats]⟩
    · exact .inr ⟨hit, rfl, hbeats, by simp [hbeats]⟩

theorem best_eq_none_iff :
    best finders text p = none ↔ ∀ f ∈ finders, f.find? text p = none := by
  induction finders using List.reverseRecOn with
  | nil => simp [best]
  | append_singleton finders f ih =>
    rw [best_snoc, List.forall_mem_append, List.forall_mem_singleton, ← ih]
    cases hf : f.find? text p with
    | none => rw [consider_of_none hf, and_iff_left rfl]
    | some m =>
      rcases consider_of_some hf (best finders text p) with ⟨-, hnew⟩ | ⟨hit, -, -, hkept⟩
      · simp [hnew]
      · simp [hkept]

theorem leads_of_best (h : best finders text p = some hit) :
    ∃ f, f.effect = hit.effect ∧ Leads finders text p f hit.start hit.stop := by
  induction finders using List.reverseRecOn generalizing hit with
  | nil => cases h
  | append_singleton finders f ih =>
    have hkeep {hit : Hit τ} (hbest : best finders text p = some hit)
        (hf : ∀ m, f.find? text p = some m → ¬ Beats m (hit.start, hit.stop)) :
        ∃ g, g.effect = hit.effect ∧ Leads (finders ++ [f]) text p g hit.start hit.stop := by
      obtain ⟨g, heffect, hfound, front, back, rfl, hfront, hback⟩ := ih hbest
      refine ⟨g, heffect, hfound, front, back ++ [f], by simp, hfront, ?_⟩
      exact List.forall_mem_append.mpr ⟨hback, List.forall_mem_singleton.mpr hf⟩
    rw [best_snoc] at h
    cases hf : f.find? text p with
    | none =>
      rw [consider_of_none hf] at h
      exact hkeep h (by simp [hf])
    | some m =>
      rcases consider_of_some hf (best finders text p) with
        ⟨hbeats, hnew⟩ | ⟨hit', hbest, hbeats, hkept⟩
      · cases hnew.symm.trans h
        refine ⟨f, rfl, hf, finders, [], rfl, ?_, by simp⟩
        intro g hg n hn
        cases hbest : best finders text p with
        | none => cases (best_eq_none_iff.mp hbest g hg).symm.trans hn
        | some hit' =>
          obtain ⟨g', -, hleads⟩ := ih hbest
          exact (hbeats hit' hbest).of_not_beats (hleads.not_beats hg hn)
      · cases hkept.symm.trans h
        apply hkeep hbest
        intro n hn
        cases hf.symm.trans hn
        exact hbeats

theorem best_of_leads (h : Leads finders text p f start stop) :
    best finders text p = some ⟨f.effect, start, stop⟩ := by
  cases hbest : best finders text p with
  | none => cases (best_eq_none_iff.mp hbest f h.mem).symm.trans h.found
  | some hit =>
    obtain ⟨g, heffect, hg⟩ := leads_of_best hbest
    cases h.unique hg
    cases h.found.symm.trans hg.found
    rw [heffect]

end Finder

namespace Table

variable {τ : Type} {table : Table τ} {rules : List (Rule τ)} {rule other : Rule τ}
  {p q r stop : Place} {hit : Hit τ} {text : List Char} {n : Nat}

def Silent (rules : List (Rule τ)) (p : Place) : Prop :=
  ∀ rule ∈ rules, rule.pattern.match? p = none

/-- The match of a rule at a place wins: less of the text is left after it than after the match
of any rule before it, and no more than after that of any rule behind it. -/
def Wins (rules : List (Rule τ)) (p : Place) (rule : Rule τ) (stop : Place) : Prop :=
  rule.pattern.match? p = some stop ∧
    ∃ front back, rules = front ++ rule :: back ∧
      (∀ earlier ∈ front, ∀ q, earlier.pattern.match? p = some q → stop.left < q.left) ∧
      ∀ later ∈ back, ∀ q, later.pattern.match? p = some q → stop.left ≤ q.left

structure Skips (rules : List (Rule τ)) (p : Place) (text : List Char) (q : Place) : Prop where
  passes : p.Passes text q
  silent : ∀ s t m, text = s ++ t → t ≠ [] → p.Passes s m → Silent rules m

namespace Wins

theorem mem (h : Wins rules p rule q) : rule ∈ rules := by
  obtain ⟨-, front, back, rfl, -⟩ := h
  simp

theorem left_le (h : Wins rules p rule q) (hother : other ∈ rules)
    (hr : other.pattern.match? p = some r) : q.left ≤ r.left := by
  obtain ⟨hmatch, front, back, rfl, hfront, hback⟩ := h
  rcases List.mem_append.mp hother with hother | hother
  · exact Nat.le_of_lt (hfront other hother r hr)
  · rcases List.mem_cons.mp hother with rfl | hother
    · cases hmatch.symm.trans hr
      exact Nat.le_refl _
    · exact hback other hother r hr

theorem passes (h : Wins rules p rule q) : p.Passes (p.upTo q) q := by
  obtain ⟨text, hq⟩ := Pattern.passes_of_match h.1
  rwa [hq.upTo_eq]

/-- A match wins over those of all rules of a block that stands first and does not hold its
own. -/
theorem left_lt {block rest : List (Rule τ)} (h : Wins (block ++ rest) p rule q)
    (hrule : rule ∉ block) (hother : other ∈ block) (hr : other.pattern.match? p = some r) :
    q.left < r.left := by
  obtain ⟨-, front, back, hsplit, hfront, -⟩ := h
  apply hfront other _ r hr
  rcases List.append_eq_append_iff.mp hsplit with ⟨more, rfl, -⟩ | ⟨more, rfl, hmore⟩
  · exact List.mem_append_left _ hother
  · cases more with
    | nil => simpa using hother
    | cons first more =>
      cases hmore
      simp at hrule

theorem not_silent (h : Wins rules p rule q) : ¬ Silent rules p := by
  intro hsilent
  cases (hsilent rule h.mem).symm.trans h.1

theorem rule_unique (h : Wins rules p rule q) (h' : Wins rules p other r) : rule = other := by
  obtain ⟨hmatch, front, back, hsplit, hfront, hback⟩ := h
  obtain ⟨hmatch', front', back', hsplit', hfront', hback'⟩ := h'
  apply eq_of_first_best (fun rule => ∃ q, rule.pattern.match? p = some q)
    (fun rule other => ∀ q r, rule.pattern.match? p = some q →
      other.pattern.match? p = some r → q.left < r.left)
    (hsplit.symm.trans hsplit') ⟨_, hmatch⟩ ⟨_, hmatch'⟩
  · intro y hy _ q' r' hq' hr'
    cases hmatch.symm.trans hq'
    exact hfront y hy r' hr'
  · rintro y hy ⟨s, hs⟩ hbeats
    exact Nat.not_lt.mpr (hback y hy s hs) (hbeats s q hs hmatch)
  · intro y hy _ q' r' hq' hr'
    cases hmatch'.symm.trans hq'
    exact hfront' y hy r' hr'
  · rintro y hy ⟨s, hs⟩ hbeats
    exact Nat.not_lt.mpr (hback' y hy s hs) (hbeats s r hs hmatch')

end Wins

theorem silent_of_bestOf (h : bestOf p rules = none) : Silent rules p := by
  induction rules with
  | nil => simp [Silent]
  | cons rule rules ih =>
    rw [bestOf] at h
    split at h
    · rename_i hmatch
      intro other hother
      rcases List.mem_cons.mp hother with rfl | hother
      · exact hmatch
      · exact ih h other hother
    · cases h
    · split at h <;> cases h

theorem wins_of_bestOf (h : bestOf p rules = some hit) :
    ∃ rule stop, hit = ⟨rule.effect, p, stop⟩ ∧ Wins rules p rule stop := by
  induction rules generalizing hit with
  | nil => cases h
  | cons first rules ih =>
    have hlater {hit : Hit τ} (h : bestOf p rules = some hit)
        (hfirst : ∀ q, first.pattern.match? p = some q → hit.stop.left < q.left) :
        ∃ rule stop, hit = ⟨rule.effect, p, stop⟩ ∧ Wins (first :: rules) p rule stop := by
      obtain ⟨rule, stop, rfl, hmatch, front, back, rfl, hfront, hback⟩ := ih h
      refine ⟨rule, stop, rfl, hmatch, first :: front, back, rfl, ?_, hback⟩
      exact List.forall_mem_cons.mpr ⟨hfirst, hfront⟩
    rw [bestOf] at h
    split at h
    · rename_i hmatch
      exact hlater h (by simp [hmatch])
    · rename_i stop hmatch hnone
      cases h
      refine ⟨first, stop, rfl, hmatch, [], rules, rfl, by simp, ?_⟩
      intro later hmem q hq
      cases (silent_of_bestOf hnone later hmem).symm.trans hq
    · rename_i stop later hmatch hbest
      split at h
      · rename_i hlt
        cases h
        apply hlater hbest
        intro q hq
        cases hmatch.symm.trans hq
        exact hlt
      · rename_i hle
        cases h
        refine ⟨first, stop, rfl, hmatch, [], rules, rfl, by simp, ?_⟩
        intro other hmem q hq
        obtain ⟨rule, _, rfl, hwins⟩ := ih hbest
        exact Nat.le_trans (Nat.le_of_not_lt hle) (hwins.left_le hmem hq)

theorem bestOf_of_silent (h : Silent rules p) : bestOf p rules = none := by
  cases hbest : bestOf p rules with
  | none => rfl
  | some hit =>
    obtain ⟨rule, stop, -, hwins⟩ := wins_of_bestOf hbest
    exact absurd h hwins.not_silent

theorem bestOf_of_wins (h : Wins rules p rule stop) :
    bestOf p rules = some ⟨rule.effect, p, stop⟩ := by
  cases hbest : bestOf p rules with
  | none => exact absurd (silent_of_bestOf hbest) h.not_silent
  | some hit =>
    obtain ⟨other, stop', rfl, hother⟩ := wins_of_bestOf hbest
    cases h.rule_unique hother
    cases h.1.symm.trans hother.1
    rfl

theorem exists_wins (h : ¬ Silent rules p) : ∃ rule stop, Wins rules p rule stop := by
  cases hbest : bestOf p rules with
  | none => exact absurd (silent_of_bestOf hbest) h
  | some hit =>
    obtain ⟨rule, stop, -, hwins⟩ := wins_of_bestOf hbest
    exact ⟨rule, stop, hwins⟩

namespace Skips

theorem refl (rules : List (Rule τ)) (p : Place) : Skips rules p [] p := by
  apply Skips.mk (.refl p)
  intro s t m hst hne
  exact absurd (List.append_eq_nil_iff.mp hst.symm).2 hne

theorem mono {fewer : List (Rule τ)} (h : Skips rules p text q) (hsub : fewer ⊆ rules) :
    Skips fewer p text q := by
  apply Skips.mk h.passes
  intro s t m hst hne hm rule hrule
  exact h.silent s t m hst hne hm rule (hsub hrule)

theorem next {c : Char} (hp : Silent rules p) (hnext : p.next? = some (c, q))
    (h : Skips rules q text r) : Skips rules p (c :: text) r := by
  have hc := Place.Passes.next hnext
  apply Skips.mk (hc.trans h.passes)
  intro s t m hst hne hm
  cases s with
  | nil =>
    rw [hm.unique (.refl p)]
    exact hp
  | cons d s =>
    obtain ⟨rfl, rfl⟩ := List.cons.inj hst
    obtain ⟨q', hq', hm⟩ := Place.Passes.split (s := [c]) hm
    rw [hq'.unique hc] at hm
    exact h.silent s t m rfl hne hm

theorem uncons {c : Char} (h : Skips rules p (c :: text) q) :
    Silent rules p ∧ ∃ m, p.next? = some (c, m) ∧ Skips rules m text q := by
  obtain ⟨m, hm, hrest⟩ := Place.Passes.split (s := [c]) h.passes
  constructor
  · exact h.silent [] (c :: text) p rfl (by simp) (.refl p)
  · apply Exists.intro m
    apply And.intro hm.next?_eq
    apply Skips.mk hrest
    intro s t m' hst hne hm'
    exact h.silent (c :: s) t m' (by rw [hst]; rfl) hne (hm.trans hm')

theorem silent_of_passes {m : Place} (h : Skips rules p p.after q) (hq : Silent rules q)
    (hm : p.Passes text m) : Silent rules m := by
  by_cases hafter : m.after = []
  · have hsame : p.Passes p.after m := by
      rw [hm.after, hafter, List.append_nil]
      exact hm
    rw [hsame.unique h.passes]
    exact hq
  · exact h.silent text m.after m hm.after hafter hm

theorem left_le_of_match {gap : List Char} {m : Place} (h : Skips rules p text q)
    (hm : p.Passes gap m) (hrule : rule ∈ rules) (hr : rule.pattern.match? m = some r) :
    m.left < q.left ∨ m = q := by
  rcases List.append_eq_append_iff.mp (hm.after.symm.trans h.passes.after) with
    ⟨more, rfl, -⟩ | ⟨more, rfl, -⟩
  · cases more with
    | nil =>
      rw [List.append_nil] at h
      exact .inr (hm.unique h.passes)
    | cons c more =>
      have hsilent := h.silent gap (c :: more) m rfl (by simp) hm
      cases (hsilent rule hrule).symm.trans hr
  · obtain ⟨q', hq', hmore⟩ := hm.split
    cases hq'.unique h.passes
    cases more with
    | nil => exact .inr (hmore.unique (.refl q))
    | cons c more => exact .inl (hmore.left_lt_iff.mpr (by simp))

end Skips

/-- A search finds the match that wins at the first place where some rule matches. -/
theorem wins_of_seek (h : seek rules n p = some hit) :
    ∃ gap q rule stop, hit = ⟨rule.effect, q, stop⟩ ∧ Skips rules p gap q ∧
      Wins rules q rule stop := by
  have hhere {p : Place} {hit : Hit τ} (hbest : bestOf p rules = some hit) :
      ∃ gap q rule stop, hit = ⟨rule.effect, q, stop⟩ ∧ Skips rules p gap q ∧
        Wins rules q rule stop := by
    obtain ⟨rule, stop, rfl, hwins⟩ := wins_of_bestOf hbest
    exact ⟨[], p, rule, stop, rfl, .refl rules p, hwins⟩
  induction n generalizing p with
  | zero => exact hhere h
  | succ n ih =>
    rw [seek] at h
    split at h
    · rename_i hbest
      cases h
      exact hhere hbest
    · rename_i hnone
      split at h
      · rename_i c m hnext
        obtain ⟨gap, q, rule, stop, rfl, hskips, hwins⟩ := ih h
        exact ⟨c :: gap, q, rule, stop, rfl, hskips.next (silent_of_bestOf hnone) hnext, hwins⟩
      · cases h

theorem seek_of_wins (hskips : Skips rules p text q) (hwins : Wins rules q rule stop)
    (hn : text.length ≤ n) : seek rules n p = some ⟨rule.effect, q, stop⟩ := by
  induction text generalizing p n with
  | nil =>
    cases hskips.passes.unique (.refl p)
    cases n with
    | zero => rw [seek, bestOf_of_wins hwins]
    | succ n => rw [seek, bestOf_of_wins hwins]
  | cons c text ih =>
    obtain ⟨hsilent, m, hnext, hrest⟩ := hskips.uncons
    cases n with
    | zero => cases hn
    | succ n =>
      rw [seek, bestOf_of_silent hsilent]
      simp only [hnext]
      exact ih hrest (Nat.le_of_succ_le_succ hn)

theorem silent_of_seek (hn : p.left ≤ n) (h : seek rules n p = none) :
    Skips rules p p.after p.last ∧ Silent rules p.last := by
  have hend (p : Place) (hafter : p.after = []) (hp : Silent rules p) :
      Skips rules p p.after p.last ∧ Silent rules p.last := by
    have hlast : p.last = p := (Place.Passes.last p).unique (by rw [hafter]; exact .refl p)
    rw [hlast, hafter]
    exact ⟨.refl rules p, hp⟩
  induction n generalizing p with
  | zero =>
    have hafter : p.after = [] := List.length_eq_zero_iff.mp (by rw [← p.left_eq]; omega)
    exact hend p hafter (silent_of_bestOf h)
  | succ n ih =>
    rw [seek] at h
    split at h
    · cases h
    · rename_i hnone
      have hp := silent_of_bestOf hnone
      split at h
      · rename_i c q hnext
        have hc := Place.Passes.next hnext
        have hleft := hc.left_eq
        obtain ⟨hskips, hsilent⟩ := ih (by simp at hleft; omega) h
        have hlast : p.last = q.last :=
          (Place.Passes.last p).unique (by rw [hc.after]; exact hc.trans (.last q))
        rw [hlast, hc.after]
        exact ⟨hskips.next hp hnext, hsilent⟩
      · rename_i hnext
        exact hend p (Place.after_eq_nil hnext) hp

end Table

def Rule.finder {τ : Type} (rule : Rule τ) : Finder τ :=
  ⟨fun _ p => (Table.seek [rule] p.left p).map fun hit => (hit.start, hit.stop), rule.effect⟩

namespace Rule

variable {τ : Type} {rule : Rule τ} {text gap : List Char} {p q stop : Place}

theorem skips_of_finder (h : rule.finder.find? text p = some (q, stop)) :
    rule.pattern.match? q = some stop ∧ ∃ gap, Table.Skips [rule] p gap q := by
  obtain ⟨hit, hseek, heq⟩ := Option.map_eq_some_iff.mp h
  obtain ⟨gap, q', other, stop', rfl, hskips, hwins⟩ := Table.wins_of_seek hseek
  cases List.mem_singleton.mp hwins.mem
  cases heq
  exact ⟨hwins.1, gap, hskips⟩

theorem finder_of_skips (hskips : Table.Skips [rule] p gap q)
    (h : rule.pattern.match? q = some stop) (text : List Char) :
    rule.finder.find? text p = some (q, stop) := by
  have hwins : Table.Wins [rule] q rule stop := ⟨h, [], [], rfl, by simp, by simp⟩
  have hlength : gap.length ≤ p.left := by
    rw [hskips.passes.left_eq]
    omega
  simp only [finder, Table.seek_of_wins hskips hwins hlength, Option.map_some]

theorem lawful_finder (rule : Rule τ) : rule.finder.Lawful := by
  intro text p start stop _ h
  obtain ⟨hmatch, gap, hskips⟩ := skips_of_finder h
  exact ⟨⟨gap, hskips.passes⟩, Pattern.passes_of_match hmatch⟩

end Rule

namespace Table

variable {τ : Type} {rules : List (Rule τ)} {rule : Rule τ} {p q stop : Place}
  {text gap : List Char}

/-- The rules of a table by what they find. -/
def finders (t : Table τ) : List (Finder τ) := t.rules.map Rule.finder

theorem lawful_finders (t : Table τ) : ∀ f ∈ t.finders, f.Lawful := by
  intro f hf
  obtain ⟨rule, -, rfl⟩ := List.mem_map.mp hf
  exact rule.lawful_finder

theorem leads_of_wins (hskips : Skips rules p gap q) (hwins : Wins rules q rule stop)
    (text : List Char) : Finder.Leads (rules.map Rule.finder) text p rule.finder q stop := by
  have hlater {other : Rule τ} {m : Place × Place} (hother : other ∈ rules)
      (hm : other.finder.find? text p = some m) :
      m.1.left < q.left ∨ m.1 = q ∧ other.pattern.match? q = some m.2 := by
    obtain ⟨hmatch, gap', hskips'⟩ := Rule.skips_of_finder hm
    rcases hskips.left_le_of_match hskips'.passes hother hmatch with hlt | heq
    · exact .inl hlt
    · exact .inr ⟨heq, heq ▸ hmatch⟩
  have hfound := Rule.finder_of_skips (hskips.mono (by simp [hwins.mem])) hwins.1 text
  obtain ⟨-, front, back, rfl, hfront, hback⟩ := hwins
  apply Finder.Leads.mk hfound
  refine ⟨front.map Rule.finder, back.map Rule.finder, by simp, ?_, ?_⟩
  · intro g hg m hm
    obtain ⟨earlier, hearlier, rfl⟩ := List.mem_map.mp hg
    rcases hlater (by simp [hearlier]) hm with hlt | ⟨rfl, hmatch⟩
    · exact .inl hlt
    · exact .inr ⟨rfl, hfront earlier hearlier _ hmatch⟩
  · intro g hg m hm
    obtain ⟨later, hlater', rfl⟩ := List.mem_map.mp hg
    simp only [Finder.Beats]
    rcases hlater (by simp [hlater']) hm with hlt | ⟨rfl, hmatch⟩
    · omega
    · have hle := hback later hlater' _ hmatch
      omega

/-- To try all rules at one place before the next is to take the best of what each rule
finds. -/
theorem seek_eq_best (rules : List (Rule τ)) (text : List Char) (p : Place) :
    seek rules p.left p = Finder.best (rules.map Rule.finder) text p := by
  cases hseek : seek rules p.left p with
  | none =>
    obtain ⟨hskips, hsilent⟩ := silent_of_seek (Nat.le_refl _) hseek
    symm
    apply Finder.best_eq_none_iff.mpr
    intro f hf
    obtain ⟨rule, hrule, rfl⟩ := List.mem_map.mp hf
    cases hfind : rule.finder.find? text p with
    | none => rfl
    | some found =>
      obtain ⟨hmatch, gap, hskips'⟩ := Rule.skips_of_finder hfind
      have hnone := hskips.silent_of_passes hsilent hskips'.passes rule hrule
      cases hnone.symm.trans hmatch
  | some hit =>
    obtain ⟨gap, q, rule, stop, rfl, hskips, hwins⟩ := wins_of_seek hseek
    exact (Finder.best_of_leads (leads_of_wins hskips hwins text)).symm

/-- A rule that leads among those of a table wins where its match begins. -/
theorem wins_of_leads {f : Finder τ}
    (h : Finder.Leads (rules.map Rule.finder) text p f q stop) :
    ∃ rule, rule.effect = f.effect ∧ Skips rules p (p.upTo q) q ∧ Wins rules q rule stop := by
  have hbest := Finder.best_of_leads h
  rw [← seek_eq_best] at hbest
  obtain ⟨gap, q', rule, stop', heq, hskips, hwins⟩ := wins_of_seek hbest
  obtain ⟨heffect, rfl, rfl⟩ := Hit.mk.inj heq
  apply Exists.intro rule
  rw [hskips.passes.upTo_eq]
  exact ⟨heffect.symm, hskips, hwins⟩

theorem silent_of_finders (h : ∀ f ∈ rules.map Rule.finder, f.find? text p = none) :
    Skips rules p p.after p.last ∧ Silent rules p.last := by
  apply silent_of_seek (Nat.le_refl _)
  rw [seek_eq_best rules text]
  exact Finder.best_eq_none_iff.mpr h

theorem scan_eq_finders (t : Table τ) (lenient : Bool) (source : String) :
    t.scan lenient source = Finder.scan t.finders t.maxSteps lenient source := by
  have hnext : (fun p => seek t.rules p.left p) = Finder.best t.finders source.toList := by
    funext p
    exact seek_eq_best t.rules source.toList p
  rw [scan, Finder.scan, scanner, hnext]

end Table

end Fabula
