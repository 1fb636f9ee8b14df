import Mathlib
import Fabula.Proofs.Scan.Blanks
import Fabula.Proofs.Grammar.Displacement

namespace Fabula

namespace Text

variable {s cs : List Char}

theorem collapseFrom_append (h : ∀ c ∈ s, isBlank c = false) (rest : List Char) :
    collapseFrom false (s ++ rest) = s ++ collapseFrom false rest := by
  induction s with
  | nil => rfl
  | cons c s ih =>
    obtain ⟨hc, hs⟩ := List.forall_mem_cons.mp h
    simp [collapseFrom, hc, ih hs]

/-- Where no blank comes next, it does not matter whether a run has just been passed. -/
theorem collapseFrom_true (h : ∀ c ∈ cs.head?, isBlank c = false) :
    collapseFrom true cs = collapseFrom false cs := by
  cases cs with
  | nil => rfl
  | cons c cs => simp [collapseFrom, h c rfl]

theorem collapseFrom_blanks (h : ∀ c ∈ s, isBlank c = true) (rest : List Char) :
    collapseFrom true (s ++ rest) = collapseFrom true rest := by
  induction s with
  | nil => rfl
  | cons c s ih =>
    obtain ⟨hc, hs⟩ := List.forall_mem_cons.mp h
    simp [collapseFrom, hc, ih hs]

theorem BlankRun.collapseFrom_append (h : BlankRun s)
    (hrest : ∀ c ∈ cs.head?, isBlank c = false) :
    collapseFrom false (s ++ cs) = ' ' :: collapseFrom false cs := by
  obtain ⟨c, s, rfl⟩ := List.exists_cons_of_ne_nil h.filled
  obtain ⟨hc, hs⟩ := List.forall_mem_cons.mp h.blank
  simp [collapseFrom, hc, collapseFrom_blanks hs, collapseFrom_true hrest]

theorem head?_collapseFrom (h : ∀ c ∈ cs.head?, isBlank c = false) :
    (collapseFrom false cs).head? = cs.head? := by
  cases cs with
  | nil => rfl
  | cons c cs => simp [collapseFrom, h c rfl]

theorem collapseFrom_eq_nil : collapseFrom false cs = [] ↔ cs = [] := by
  cases cs with
  | nil => simp [collapseFrom]
  | cons c cs =>
    rw [collapseFrom]
    split
    · simp
    · simp

def collapseChar (c : Char) : Char := if isBlank c then ' ' else c

end Text

namespace Place

variable {p q r : Place} {s t : List Char} {c : Char}

/-- The same place in the text with its blank runs collapsed; inside a run, the place before its
space. -/
def collapse (p : Place) : Place :=
  ⟨p.before.map Text.collapseChar, Text.collapseFrom false p.after, _, rfl⟩

@[simp]
theorem after_collapse (p : Place) : p.collapse.after = Text.collapseFrom false p.after := rfl

theorem after_collapse_eq_nil : p.collapse.after = [] ↔ p.after = [] := Text.collapseFrom_eq_nil

theorem left_collapse_eq_zero : p.collapse.left = 0 ↔ p.left = 0 := by
  rw [p.collapse.left_eq, p.left_eq, List.length_eq_zero_iff, List.length_eq_zero_iff,
    after_collapse_eq_nil]

theorem AtInk.collapse (h : p.AtInk) : p.collapse.AtInk := by
  intro c hc
  rw [after_collapse, Text.head?_collapseFrom h] at hc
  exact h c hc

theorem Passes.collapse (h : p.Passes s q) (hs : ∀ c ∈ s, Text.isBlank c = false) :
    p.collapse.Passes s q.collapse := by
  constructor
  · rw [after_collapse, h.after, Text.collapseFrom_append hs, after_collapse]
  · have hlast : s.getLast?.map Text.collapseChar = s.getLast? := by
      cases hc : s.getLast? with
      | none => rfl
      | some c => simp [Text.collapseChar, hs c (List.mem_of_getLast? hc)]
    change q.before.map Text.collapseChar = s.getLast?.or (p.before.map Text.collapseChar)
    rw [h.before, Option.map_or, hlast]

theorem Passes.collapse_run (h : p.Passes s q) (hs : Text.BlankRun s) (hq : q.AtInk) :
    p.collapse.Passes [' '] q.collapse := by
  constructor
  · rw [after_collapse, h.after, hs.collapseFrom_append hq]
    rfl
  · have hlast : s.getLast? = some (s.getLast hs.filled) :=
      List.getLast?_eq_some_getLast hs.filled
    change q.before.map Text.collapseChar = some ' '
    rw [h.before, hlast]
    simp [Text.collapseChar, hs.blank _ (List.getLast_mem hs.filled)]

end Place

namespace Pattern

variable {p : Place} {accepts : Char → Bool} {pattern : Pattern}

/-- A pattern goes the same way through a text with its blank runs collapsed. -/
def Unspaced (pattern : Pattern) : Prop := pattern.Follows Place.collapse fun _ => True

theorem unspaced_one (h : ∀ c, Text.isBlank c = true → accepts c = false) :
    Unspaced (one accepts) := by
  intro α β f p k k' _ hk
  rcases p.end_or_next with hend | ⟨c, q, hnext⟩
  · rw [run_one_end hend, run_one_end (Place.after_collapse_eq_nil.mpr hend)]
    rfl
  · have hpasses := Place.Passes.next hnext
    cases hc : Text.isBlank c with
    | true =>
      -- The run that begins here is one space in the collapsed text, which is refused as well.
      have hspace : ∀ d ∈ p.collapse.after.head?, accepts d = false := by
        rw [Place.after_collapse, hpasses.after, List.singleton_append,
          Text.collapseFrom, if_pos hc]
        intro d hd
        cases hd
        exact h ' ' rfl
      rw [run_one hnext, h c hc, run_one_refused hspace]
      rfl
    | false =>
      have hsame : p.collapse.Passes [c] q.collapse := hpasses.collapse (by simpa using hc)
      rw [run_one hnext, run_one hsame.next?_eq]
      split
      · rename_i haccepts
        exact hk [c] q ⟨c, haccepts, rfl⟩ hpasses
      · rfl

theorem unspaced_of_plain (hplain : pattern.plain = true)
    (havoids : ∀ c, Text.isBlank c = true → pattern.avoids c = true) : Unspaced pattern := by
  induction pattern with
  | empty => exact follows_empty
  | one accepts =>
    apply unspaced_one
    intro c hc
    simpa [avoids] using havoids c hc
  | check holds => cases hplain
  | seq first second ihf ihs =>
    obtain ⟨hfirst, hsecond⟩ := Bool.and_eq_true_iff.mp hplain
    apply Follows.seq
    · exact fun _ _ _ _ _ => trivial
    · exact ihf hfirst fun c hc => (Bool.and_eq_true_iff.mp (havoids c hc)).1
    · exact ihs hsecond fun c hc => (Bool.and_eq_true_iff.mp (havoids c hc)).2
  | alt first second ihf ihs =>
    obtain ⟨hfirst, hsecond⟩ := Bool.and_eq_true_iff.mp hplain
    apply Follows.alt
    · exact ihf hfirst fun c hc => (Bool.and_eq_true_iff.mp (havoids c hc)).1
    · exact ihs hsecond fun c hc => (Bool.and_eq_true_iff.mp (havoids c hc)).2
  | star greedy body ih =>
    obtain ⟨hbody, hconsumes⟩ := Bool.and_eq_true_iff.mp hplain
    replace havoids : ∀ c, Text.isBlank c = true → body.avoids c = true := havoids
    apply Follows.star
    · exact fun _ _ _ _ _ => trivial
    · exact fun _ => Place.after_collapse_eq_nil
    · exact ih hbody havoids
    · exact fun _ => ne_nil_of_consumes hconsumes
    · -- A round takes no blank, so it takes as much of the collapsed text.
      intro p text q htext hq
      have hinked : ∀ c ∈ text, Text.isBlank c = false := inked_of_avoids havoids htext
      exact (hq.collapse hinked).left_lt_iff.mpr (ne_nil_of_consumes hconsumes htext)

theorem match_collapse_of_solid (h : pattern.solid = true) (p : Place) :
    pattern.match? p.collapse = (pattern.match? p).map Place.collapse := by
  have hplain : pattern.plain = true :=
    (Bool.and_eq_true_iff.mp (Bool.and_eq_true_iff.mp h).1).1
  exact (unspaced_of_plain hplain fun _ => avoids_of_solid h).match? trivial

theorem match_blankRun_collapse (p : Place) :
    blankRun.match? p.collapse = (blankRun.match? p).map Place.collapse := by
  by_cases hp : p.AtInk
  · rw [match_blankRun_atInk hp, match_blankRun_atInk hp.collapse]
    rfl
  · obtain ⟨run, q, hrun, hpasses, hq⟩ := Place.exists_run hp
    have hspace : Text.BlankRun [' '] := ⟨by simp, List.forall_mem_singleton.mpr rfl⟩
    rw [match_blankRun hrun hpasses hq,
      match_blankRun hspace (hpasses.collapse_run hrun hq) hq.collapse]
    rfl

end Pattern

namespace Table

variable {τ : Type} {table : Table τ} {rules : List (Rule τ)} {rule other : Rule τ}
  {p q r stop : Place}
  {text : List Char}

namespace Spaced

theorem match_collapse (h : Spaced rules) (hrule : rule ∈ rules) (p : Place) :
    rule.pattern.match? p.collapse = (rule.pattern.match? p).map Place.collapse := by
  rcases h.solid rule hrule with rfl | hsolid
  · exact Pattern.match_blankRun_collapse p
  · exact Pattern.match_collapse_of_solid hsolid p

theorem silent_collapse (h : Spaced rules) (hp : Silent rules p) : Silent rules p.collapse := by
  intro rule hrule
  rw [h.match_collapse hrule, hp rule hrule]
  rfl

/-- Of two matches at a place the longer one is the longer in the collapsed text. -/
theorem left_collapse_lt_iff (h : Spaced rules) (hrule : rule ∈ rules) (hother : other ∈ rules)
    (hq : rule.pattern.match? p = some q) (hr : other.pattern.match? p = some r) :
    q.collapse.left < r.collapse.left ↔ q.left < r.left := by
  obtain ⟨s, hs⟩ := Pattern.passes_of_match hq
  obtain ⟨t, ht⟩ := Pattern.passes_of_match hr
  have hcases := h.match_cases hrule hq
  have hcases' := h.match_cases hother hr
  rw [hs.upTo_eq] at hcases
  rw [ht.upTo_eq] at hcases'
  rcases hcases with ⟨-, hunbroken⟩ | ⟨rfl, hrun, -⟩
  · rcases hcases' with ⟨-, hunbroken'⟩ | ⟨-, hrun', -⟩
    · have hleft := hs.left_eq
      have hleft' := ht.left_eq
      have hcollapsed := (hs.collapse hunbroken.inked).left_eq
      have hcollapsed' := (ht.collapse hunbroken'.inked).left_eq
      omega
    · exact absurd (hs.atInk hunbroken) (ht.not_atInk hrun')
  · rcases hcases' with ⟨-, hunbroken'⟩ | ⟨rfl, -, -⟩
    · exact absurd (ht.atInk hunbroken') (hs.not_atInk hrun)
    · cases hq.symm.trans hr
      simp

theorem wins_collapse (h : Spaced rules) (hwins : Wins rules p rule stop) :
    Wins rules p.collapse rule stop.collapse := by
  have hrule := hwins.mem
  obtain ⟨hmatch, front, back, hsplit, hfront, hback⟩ := hwins
  refine ⟨by rw [h.match_collapse hrule, hmatch]; rfl, front, back, hsplit, ?_, ?_⟩
  · intro earlier hmem q hq
    have hearlier : earlier ∈ rules := by simp [hsplit, hmem]
    rw [h.match_collapse hearlier] at hq
    obtain ⟨r, hr, rfl⟩ := Option.map_eq_some_iff.mp hq
    exact (h.left_collapse_lt_iff hrule hearlier hmatch hr).mpr (hfront earlier hmem r hr)
  · intro later hmem q hq
    have hlater : later ∈ rules := by simp [hsplit, hmem]
    rw [h.match_collapse hlater] at hq
    obtain ⟨r, hr, rfl⟩ := Option.map_eq_some_iff.mp hq
    have hle := hback later hmem r hr
    have hlt := h.left_collapse_lt_iff hlater hrule hr hmatch
    omega

theorem inked_of_skips (h : Spaced rules) (hskips : Skips rules p text q) :
    ∀ c ∈ text, Text.isBlank c = false := by
  intro c hc
  obtain ⟨s, t, rfl⟩ := List.append_of_mem hc
  obtain ⟨m, hm, hrest⟩ := hskips.passes.split
  cases hblank : Text.isBlank c with
  | false => rfl
  | true =>
    have hink : ¬ m.AtInk := by
      intro hink
      cases (hink c (by rw [hrest.after]; rfl)).symm.trans hblank
    obtain ⟨run, stop, hrun, hpasses, hstop⟩ := Place.exists_run hink
    have hsilent : Silent rules m := hskips.silent s (c :: t) m rfl (by simp) hm
    exact absurd hsilent (h.wins_run hrun hpasses hstop).not_silent

theorem skips_collapse (h : Spaced rules) (hskips : Skips rules p text q) :
    Skips rules p.collapse text q.collapse := by
  have hinked := h.inked_of_skips hskips
  refine ⟨hskips.passes.collapse hinked, ?_⟩
  intro s t m hst hne hm
  have hpasses := hskips.passes
  rw [hst] at hpasses
  obtain ⟨m', hm', -⟩ := hpasses.split
  have hs : ∀ c ∈ s, Text.isBlank c = false := by
    intro c hc
    exact hinked c (by simp [hst, hc])
  rw [hm.unique (hm'.collapse hs)]
  exact h.silent_collapse (hskips.silent s t m' hst hne hm')

theorem token_collapse (h : Spaced rules) (hwins : Wins rules p rule stop)
    (offset offset' : Nat) :
    ((Stretch.claimed rule.effect (p.collapse.upTo stop.collapse)).token? offset').map
        Token.unplaced =
      ((Stretch.claimed rule.effect (p.upTo stop)).token? offset).map Token.unplaced := by
  rcases h.match_cases hwins.mem hwins.1 with ⟨-, hunbroken⟩ | ⟨rfl, -, -⟩
  · rw [(hwins.passes.collapse hunbroken.inked).upTo_eq]
    cases rule.effect with
    | tagged tag => rfl
    | discarded => rfl
    | untagged => rfl
  · rfl

end Spaced

theorem scanFrom_of_unclaimed {found : List (Stretch τ)} (hp : p.left ≠ 0)
    (h : table.scanner.step p = (.unclaimed text :: found, q)) (budget offset : Nat)
    (out : Array (Token τ)) :
    table.scanner.scanFrom false (budget + 1) offset p out =
      .error (.unrecognized offset (String.ofList text)) := by
  rw [Scanner.scanFrom, if_neg hp, h]
  rfl

theorem scanFrom_collapse (h : Spaced table.rules) (budget offset offset' : Nat) (p : Place)
    {out out' : Array (Token τ)}
    (hout : out'.toList.map Token.unplaced = out.toList.map Token.unplaced) :
    ((table.scanner.scanFrom false budget offset' p.collapse out').map
          (·.toList.map Token.unplaced)).mapError ScanError.unplaced =
      ((table.scanner.scanFrom false budget offset p out).map
          (·.toList.map Token.unplaced)).mapError ScanError.unplaced := by
  induction budget generalizing offset offset' p out out' with
  | zero =>
    simp only [Scanner.scanFrom, Place.left_collapse_eq_zero]
    split
    · exact congrArg Except.ok hout
    · rfl
  | succ budget ih =>
    by_cases hp : p.left = 0
    · rw [Scanner.scanFrom_end hp, Scanner.scanFrom_end (Place.left_collapse_eq_zero.mpr hp)]
      exact congrArg Except.ok hout
    · have hp' : p.collapse.left ≠ 0 := fun hzero => hp (Place.left_collapse_eq_zero.mp hzero)
      rcases step_cases table p with
        ⟨rule, stop, hwins, -⟩ | ⟨text, q, rule, stop, hfilled, hskips, hwins, hstep⟩ | ⟨hskips,
          hsilent, hstep⟩
      · rw [scanFrom_of_wins hp hwins, scanFrom_of_wins hp' (h.wins_collapse hwins)]
        apply ih
        rw [Array.toList_appendList, Array.toList_appendList, List.map_append,
          List.map_append, hout, ← Option.toList_map, ← Option.toList_map,
          h.token_collapse hwins offset offset']
      · have hstep' := step_of_skips hfilled (h.skips_collapse hskips) (h.wins_collapse hwins)
        rw [scanFrom_of_unclaimed hp hstep, scanFrom_of_unclaimed hp' hstep']
        rfl
      · -- What is left holds no blank, and is left in the collapsed text as it is.
        have hskips' := h.skips_collapse hskips
        have hafter : p.collapse.after = p.after := by
          rw [hskips'.passes.after]
          exact List.append_nil _
        rw [← hafter] at hskips'
        have hstep' := step_of_silent hskips' (h.silent_collapse hsilent)
        rw [scanFrom_of_unclaimed hp hstep, scanFrom_of_unclaimed hp' hstep', hafter]
        rfl

/-- Collapsing blank runs changes the offsets that a strict scan gives and nothing else. -/
theorem scan_collapse (h : Spaced table.rules) (source : String) :
    ((table.scan false (Text.collapse source)).map (List.map Token.unplaced)).mapError
        ScanError.unplaced =
      ((table.scan false source).map (List.map Token.unplaced)).mapError
        ScanError.unplaced := by
  have hstart :
      Place.start (Text.collapse source).toList = (Place.start source.toList).collapse :=
    Place.eq_of_sides rfl String.toList_ofList
  have hmap (x : Except ScanError (Array (Token τ))) :
      (x.map Array.toList).map (List.map Token.unplaced) =
        x.map (·.toList.map Token.unplaced) := by
    cases x with
    | error e => rfl
    | ok out => rfl
  rw [scan, scan, Scanner.scan, Scanner.scan, hmap, hmap, hstart]
  exact scanFrom_collapse h table.maxSteps 0 0 (.start source.toList) rfl

end Table

end Fabula
