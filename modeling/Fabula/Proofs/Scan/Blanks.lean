import Mathlib
import Fabula.Text.Blank
import Fabula.Proofs.Scan.Greedy

namespace Fabula

namespace Text

def blankCodes : List Nat :=
  [9, 10, 11, 12, 13, 0x20, 0x85, 0xA0, 0x1680, 0x2000, 0x2001, 0x2002, 0x2003, 0x2004, 0x2005,
    0x2006, 0x2007, 0x2008, 0x2009, 0x200A, 0x2028, 0x2029, 0x202F, 0x205F, 0x3000]

theorem mem_blankCodes {c : Char} (h : isBlank c = true) : c.toNat ∈ blankCodes := by
  simp only [isBlank, Bool.or_eq_true, Bool.and_eq_true, decide_eq_true_eq, beq_iff_eq] at h
  simp only [blankCodes, List.mem_cons, List.not_mem_nil, or_false]
  omega

theorem of_blankCodes {f : Char → Bool}
    (h : blankCodes.all (fun n => f (Char.ofNat n)) = true) {c : Char} (hc : isBlank c = true) :
    f c = true := by
  have hcode := List.all_eq_true.mp h c.toNat (mem_blankCodes hc)
  rwa [Char.ofNat_toNat] at hcode

structure Unbroken (cs : List Char) : Prop where
  filled : cs ≠ []
  inked : ∀ c ∈ cs, isBlank c = false

structure BlankRun (cs : List Char) : Prop where
  filled : cs ≠ []
  blank : ∀ c ∈ cs, isBlank c = true

end Text

namespace Place

variable {p q : Place} {s t : List Char}

/-- A blank comes next, or the end of the text. -/
def AtGap (p : Place) : Prop := ∀ c ∈ p.after.head?, Text.isBlank c = true

def AtInk (p : Place) : Prop := ∀ c ∈ p.after.head?, Text.isBlank c = false

theorem Passes.head_mem (h : p.Passes s q) (hs : s ≠ []) : ∃ c ∈ s, p.after.head? = some c := by
  obtain ⟨c, s, rfl⟩ := List.exists_cons_of_ne_nil hs
  exact ⟨c, List.mem_cons_self, by rw [h.after]; rfl⟩

theorem Passes.atInk (h : p.Passes s q) (hs : Text.Unbroken s) : p.AtInk := by
  obtain ⟨c, hc, hhead⟩ := h.head_mem hs.filled
  intro d hd
  rw [hhead] at hd
  cases hd
  exact hs.inked c hc

theorem Passes.not_atInk (h : p.Passes s q) (hs : Text.BlankRun s) : ¬ p.AtInk := by
  obtain ⟨c, hc, hhead⟩ := h.head_mem hs.filled
  intro hp
  cases (hp c hhead).symm.trans (hs.blank c hc)

theorem exists_run (h : ¬ p.AtInk) : ∃ run q, Text.BlankRun run ∧ p.Passes run q ∧ q.AtInk := by
  obtain ⟨q, hpasses, hafter⟩ := exists_passes (p := p) List.takeWhile_append_dropWhile.symm
  apply Exists.intro (p.after.takeWhile Text.isBlank)
  apply Exists.intro q
  refine ⟨⟨?_, fun c hc => List.mem_takeWhile_imp hc⟩, hpasses, ?_⟩
  · intro hnil
    apply h
    intro c hc
    obtain ⟨rest, hrest⟩ := List.head?_eq_some_iff.mp hc
    simpa [hrest] using hnil
  · intro c hc
    rw [hafter] at hc
    simpa [Option.mem_def.mp hc] using List.head?_dropWhile_not Text.isBlank p.after

/-- Of two texts ahead of a place the one is part of the other, if it has no blank and a gap
ends the other. -/
theorem Passes.left_le (hq : p.Passes s q) (hgap : q.AtGap) {r : Place} (hr : p.Passes t r)
    (ht : ∀ c ∈ t, Text.isBlank c = false) : q.left ≤ r.left := by
  rcases List.append_eq_append_iff.mp (hq.after.symm.trans hr.after) with
      ⟨more, hmore, hrest⟩ | ⟨more, -, hrest⟩
  · cases more with
    | nil => rw [q.left_eq, r.left_eq, hrest, List.nil_append]
    | cons c more =>
      have hblank : Text.isBlank c = true := hgap c (by rw [hrest]; rfl)
      cases (ht c (by simp [hmore])).symm.trans hblank
  · rw [q.left_eq, r.left_eq, hrest, List.length_append]
    omega

end Place

namespace Pattern

variable {p q : Place} {pattern : Pattern}

/-- Whether a pattern tests no place, and each round of its repetitions takes something. -/
def plain : Pattern → Bool
  | empty => true
  | one _ => true
  | check _ => false
  | seq first second => first.plain && second.plain
  | alt first second => first.plain && second.plain
  | star _ body => body.plain && body.consumes

/-- Whether a pattern takes something wherever it matches, and no blank. -/
def solid (pattern : Pattern) : Bool :=
  pattern.plain && pattern.consumes &&
    Text.blankCodes.all fun n => pattern.avoids (Char.ofNat n)

theorem avoids_of_solid {c : Char} (h : pattern.solid = true) (hc : Text.isBlank c = true) :
    pattern.avoids c = true :=
  Text.of_blankCodes (f := fun c => pattern.avoids c) (Bool.and_eq_true_iff.mp h).2 hc

theorem inked_of_avoids {text : List Char}
    (h : ∀ c, Text.isBlank c = true → pattern.avoids c = true) (ht : pattern.Takes text) :
    ∀ c ∈ text, Text.isBlank c = false := by
  intro c hc
  cases hblank : Text.isBlank c with
  | false => rfl
  | true => exact absurd hc (not_mem_of_avoids (h c hblank) ht)

theorem unbroken_of_solid (h : pattern.solid = true) (hm : pattern.match? p = some q) :
    Text.Unbroken (p.upTo q) := by
  have hconsumes : pattern.consumes = true :=
    (Bool.and_eq_true_iff.mp (Bool.and_eq_true_iff.mp h).1).2
  have htakes := takes_of_match hm
  exact ⟨ne_nil_of_consumes hconsumes htakes,
    inked_of_avoids (fun _ => avoids_of_solid h) htakes⟩

def blankRun : Pattern := some1 (one Text.isBlank)

theorem match_blankRun {run : List Char} (hrun : Text.BlankRun run) (hp : p.Passes run q)
    (hq : q.AtInk) : blankRun.match? p = some q :=
  run_some1_one hp hrun.filled hrun.blank hq rfl

theorem match_blankRun_atInk (h : p.AtInk) : blankRun.match? p = none := run_one_refused h

end Pattern

namespace Table

variable {τ : Type} {rules : List (Rule τ)} {rule : Rule τ} {p q : Place} {text : List Char}

/-- Blank runs are left out, and all other rules take something other than blanks. -/
structure Spaced (rules : List (Rule τ)) : Prop where
  blank : .discarded .blankRun ∈ rules
  solid : ∀ rule ∈ rules, rule = .discarded .blankRun ∨ rule.pattern.solid = true

namespace Spaced

/-- A rule takes an unbroken text, or it is that of the blanks and takes a whole run. -/
theorem match_cases (h : Spaced rules) (hrule : rule ∈ rules)
    (hm : rule.pattern.match? p = some q) :
    rule.pattern.solid = true ∧ Text.Unbroken (p.upTo q) ∨
      rule = .discarded .blankRun ∧ Text.BlankRun (p.upTo q) ∧ q.AtInk := by
  rcases h.solid rule hrule with rfl | hsolid
  · apply Or.inr
    have hp : ¬ p.AtInk := by
      intro hink
      cases (Pattern.match_blankRun_atInk hink).symm.trans hm
    obtain ⟨run, r, hrun, hr, hink⟩ := Place.exists_run hp
    cases (Pattern.match_blankRun hrun hr hink).symm.trans hm
    rw [hr.upTo_eq]
    exact ⟨rfl, hrun, hink⟩
  · exact .inl ⟨hsolid, Pattern.unbroken_of_solid hsolid hm⟩

theorem wins_run (h : Spaced rules) {run : List Char} (hrun : Text.BlankRun run)
    (hp : p.Passes run q) (hq : q.AtInk) : Wins rules p (.discarded .blankRun) q := by
  have hmatch : Pattern.blankRun.match? p = some q := Pattern.match_blankRun hrun hp hq
  have hspeaks : ¬ Silent rules p := by
    intro hsilent
    cases (hsilent _ h.blank).symm.trans hmatch
  obtain ⟨rule, stop, hwins⟩ := exists_wins hspeaks
  rcases h.match_cases hwins.mem hwins.1 with ⟨-, hunbroken⟩ | ⟨rfl, -, -⟩
  · exact absurd (hwins.passes.atInk hunbroken) (hp.not_atInk hrun)
  · cases hwins.1.symm.trans hmatch
    exact hwins

theorem exists_wins_word (h : Spaced rules) (htext : Text.Unbroken text) (hp : p.Passes text q)
    (hq : q.AtGap) (hrule : rule ∈ rules) (hm : rule.pattern.match? p = some q) :
    ∃ winner, Wins rules p winner q := by
  have hspeaks : ¬ Silent rules p := by
    intro hsilent
    cases (hsilent rule hrule).symm.trans hm
  obtain ⟨winner, stop, hwins⟩ := exists_wins hspeaks
  -- The winner takes no less than the match, and being unbroken no more.
  have hstop : stop = q := by
    have hpasses := hwins.passes
    have hle : q.left ≤ stop.left := by
      rcases h.match_cases hwins.mem hwins.1 with ⟨-, hunbroken⟩ | ⟨-, hrun, -⟩
      · exact hp.left_le hq hpasses hunbroken.inked
      · exact absurd (hp.atInk htext) (hpasses.not_atInk hrun)
    have hleft : stop.left = q.left := Nat.le_antisymm (hwins.left_le hrule hm) hle
    have hsame : p.upTo stop = text := by rw [Place.upTo, hleft, ← Place.upTo, hp.upTo_eq]
    rw [hsame] at hpasses
    exact hpasses.unique hp
  rw [hstop] at hwins
  exact ⟨winner, hwins⟩

end Spaced

end Table

end Fabula
