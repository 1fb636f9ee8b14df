import Mathlib
import Fabula.Logic.Lexicon
import Fabula.Markup.Feature
import Fabula.Proofs.Limits
import Fabula.Proofs.Scan.LineEnds

namespace Fabula

theorem Stretch.length_le_bytes (text : List Char) : text.length ≤ bytes text := by
  induction text with
  | nil => exact Nat.zero_le _
  | cons c text ih =>
    have hpos : 0 < bytes [c] := by simpa [bytes] using c.utf8Size_pos
    have hsplit : bytes (c :: text) = bytes [c] + bytes text := bytes_append [c] text
    rw [List.length_cons, hsplit]
    omega

namespace Scanner

variable {τ : Type} {s : Scanner τ} {next? : Place → Option (Hit τ)} {p q : Place}
  {lenient : Bool}
  {m m' budget offset limit : Nat} {out : Array (Token τ)} {source : String}
  {stretches : List (Stretch τ)}

theorem emitAll_of_claimed (h : lenient = false → ∀ text, .unclaimed text ∉ stretches)
    (offset : Nat) (out : Array (Token τ)) :
    ∃ state, stretches.foldlM (fun state => emit lenient state.1 state.2) (offset, out) =
      .ok state := by
  induction stretches generalizing offset out with
  | nil => exact ⟨_, rfl⟩
  | cons stretch rest ih =>
    have hemit : emit lenient offset out stretch = emit true offset out stretch := by
      cases lenient with
      | true => rfl
      | false =>
        cases stretch with
        | unclaimed text => exact absurd List.mem_cons_self (h rfl text)
        | claimed effect text => rfl
    rw [List.foldlM_cons, hemit, emit_lenient]
    apply ih
    intro hstrict text hmem
    exact h hstrict text (List.mem_cons_of_mem _ hmem)

theorem scanFrom_succ (hleft : p.left ≠ 0) (hstep : s.step p = (stretches, q))
    (h : lenient = false → ∀ text, .unclaimed text ∉ stretches) (offset : Nat)
    (out : Array (Token τ)) :
    ∃ offset' out', ∀ budget,
      s.scanFrom lenient (budget + 1) offset p out =
        s.scanFrom lenient budget offset' q out' := by
  obtain ⟨⟨offset', out'⟩, hemit⟩ := emitAll_of_claimed h offset out
  apply Exists.intro offset'
  apply Exists.intro out'
  intro budget
  rw [scanFrom, if_neg hleft, hstep]
  simp only [hemit]

theorem scan_eq_error_iff {e : ScanError} : s.scan lenient source = .error e ↔
    s.scanFrom lenient s.maxSteps 0 (.start source.toList) #[] = .error e := by
  unfold scan
  cases s.scanFrom lenient s.maxSteps 0 (.start source.toList) #[] with
  | error e' => simp [Except.map]
  | ok out => simp [Except.map]

theorem emitAll_ne_runaway (state : Nat × Array (Token τ)) :
    stretches.foldlM (fun state => emit lenient state.1 state.2) state ≠
      .error (.runaway limit) := by
  induction stretches generalizing state with
  | nil => simp [pure, Except.pure]
  | cons stretch rest ih =>
    rw [List.foldlM_cons]
    cases hone : emit lenient state.1 state.2 stretch with
    | ok state' => exact ih state'
    | error e =>
      intro herror
      cases herror
      unfold emit at hone
      split at hone
      · dsimp only at hone
        split at hone <;> cases hone
      · dsimp only at hone
        split at hone <;> cases hone

theorem eq_maxSteps_of_runaway
    (h : s.scanFrom lenient budget offset p out = .error (.runaway limit)) :
    limit = s.maxSteps := by
  induction budget generalizing offset p out with
  | zero =>
    rw [scanFrom] at h
    split at h
    · cases h
    · cases h
      rfl
  | succ budget ih =>
    rw [scanFrom] at h
    split at h
    · cases h
    · dsimp only at h
      split at h
      · exact ih h
      · rename_i hfold
        cases h
        exact absurd hfold (emitAll_ne_runaway _)

theorem scan_of_le (hle : m ≤ m') (h : scan ⟨next?, m⟩ lenient source ≠ .error (.runaway m)) :
    scan ⟨next?, m'⟩ lenient source = scan ⟨next?, m⟩ lenient source := by
  apply persists_scan hle source
  intro e he
  cases e with
  | unrecognized offset text => rfl
  | runaway limit =>
    cases eq_maxSteps_of_runaway (scan_eq_error_iff.mp he)
    exact absurd he h

theorem runaway_of_le (hle : m' ≤ m)
    (h : scan ⟨next?, m⟩ lenient source = .error (.runaway m)) :
    scan ⟨next?, m'⟩ lenient source = .error (.runaway m') := by
  apply Classical.byContradiction
  intro hne
  have hsame := scan_of_le hle hne
  rw [h] at hsame
  cases eq_maxSteps_of_runaway (scan_eq_error_iff.mp hsame.symm)
  exact hne hsame.symm

theorem scanFrom_lenient (s : Scanner τ) (budget offset : Nat) (p : Place)
    (out : Array (Token τ)) :
    (∃ out', s.scanFrom true budget offset p out = .ok out') ∨
      s.scanFrom true budget offset p out = .error (.runaway s.maxSteps) := by
  induction budget generalizing offset p out with
  | zero =>
    unfold scanFrom
    split
    · exact .inl ⟨_, rfl⟩
    · exact .inr rfl
  | succ budget ih =>
    unfold scanFrom
    split
    · exact .inl ⟨_, rfl⟩
    · simp only [emitAll_lenient]
      exact ih _ _ _

theorem exists_scan_lenient (h : ∀ limit, s.scan true source ≠ .error (.runaway limit)) :
    ∃ tokens, s.scan true source = .ok tokens := by
  rcases scanFrom_lenient s s.maxSteps 0 (.start source.toList) #[] with ⟨out, hout⟩ | hrunaway
  · exact ⟨out.toList, by rw [scan, hout]; rfl⟩
  · exact absurd (scan_eq_error_iff.mpr hrunaway) (h s.maxSteps)

end Scanner

namespace Finder

variable {τ : Type} {finders : List (Finder τ)} {f : Finder τ} {text : List Char} {p q : Place}
  {lenient : Bool} {cap budget offset limit : Nat} {out : Array (Token τ)} {source : String}

/-- A scan goes on from a place to the end of the match that wins. A strict scan does so only if
that match begins at the place itself. -/
inductive Continues (finders : List (Finder τ)) (text : List Char) (lenient : Bool) :
    Place → Place → Prop where
  | claimed {p stop : Place} {f : Finder τ} (more : p.left ≠ 0)
      (leads : Leads finders text p f p stop) : Continues finders text lenient p stop
  | skipped {p start stop : Place} {gap : List Char} {f : Finder τ} (kept : lenient = true)
      (filled : gap ≠ []) (passes : p.Passes gap start)
        (leads : Leads finders text p f start stop) :
      Continues finders text lenient p stop

def Reaches (finders : List (Finder τ)) (text : List Char) (lenient : Bool) :
    Place → Place → Prop :=
  Relation.ReflTransGen (Continues finders text lenient)

/-- Text is left, and the match that wins takes none of it. -/
def Stuck (finders : List (Finder τ)) (text : List Char) (p : Place) : Prop :=
  p.left ≠ 0 ∧ ∃ f, Leads finders text p f p p

namespace Continues

theorem left_ne_zero (h : Continues finders text lenient p q) : p.left ≠ 0 := by
  cases h with
  | claimed more => exact more
  | skipped kept filled passes =>
    have hlength := List.length_pos_iff.mpr filled
    rw [passes.left_eq]
    omega

theorem step_eq (h : Continues finders text lenient p q) (cap : Nat) :
    ∃ stretches, Scanner.step ⟨best finders text, cap⟩ p = (stretches, q) ∧
      (lenient = false → ∀ text, .unclaimed text ∉ stretches) := by
  cases h with
  | claimed more leads =>
    have hstep := Scanner.step_of_here (s := ⟨best finders text, cap⟩) (best_of_leads leads) rfl
    exact ⟨_, hstep, by simp⟩
  | skipped kept filled passes leads =>
    have hstep :=
      Scanner.step_of_later (s := ⟨best finders text, cap⟩) (best_of_leads leads) passes filled
    exact ⟨_, hstep, by simp [kept]⟩

theorem scanFrom_succ (h : Continues finders text lenient p q) (cap offset : Nat)
    (out : Array (Token τ)) :
    ∃ offset' out', ∀ budget,
      Scanner.scanFrom ⟨best finders text, cap⟩ lenient (budget + 1) offset p out =
        Scanner.scanFrom ⟨best finders text, cap⟩ lenient budget offset' q out' := by
  obtain ⟨stretches, hstep, hclaimed⟩ := h.step_eq cap
  exact Scanner.scanFrom_succ h.left_ne_zero hstep hclaimed offset out

end Continues

theorem runaway_of_reaches (h : Reaches finders text lenient p q) (hq : Stuck finders text q)
    (budget offset : Nat) (out : Array (Token τ)) :
    Scanner.scanFrom ⟨best finders text, cap⟩ lenient budget offset p out =
      .error (.runaway cap) := by
  induction h using Relation.ReflTransGen.head_induction_on generalizing budget offset out with
  | refl =>
    obtain ⟨hleft, f, hleads⟩ := hq
    induction budget generalizing offset out with
    | zero => rw [Scanner.scanFrom, if_neg hleft]
    | succ budget ih =>
      have hstay : Continues finders text lenient q q := .claimed hleft hleads
      obtain ⟨offset', out', hsame⟩ := hstay.scanFrom_succ cap offset out
      rw [hsame]
      exact ih offset' out'
  | head hstep _ ih =>
    cases budget with
    | zero => rw [Scanner.scanFrom, if_neg hstep.left_ne_zero]
    | succ budget =>
      obtain ⟨offset', out', hsame⟩ := hstep.scanFrom_succ cap offset out
      rw [hsame]
      exact ih budget offset' out'

/-- A scan that runs away with as many steps as there are characters left has come to a place
where it is stuck. -/
theorem stuck_of_runaway (hlawful : ∀ f ∈ finders, f.Lawful) (hin : p.In text)
    (hp : p.left ≤ budget)
    (h : Scanner.scanFrom ⟨best finders text, cap⟩ lenient budget offset p out =
      .error (.runaway limit)) :
    ∃ q, Reaches finders text lenient p q ∧ Stuck finders text q := by
  induction budget generalizing offset p out with
  | zero =>
    rw [Scanner.scanFrom_end (Nat.le_zero.mp hp)] at h
    cases h
  | succ budget ih =>
    have hgo {q : Place} {s : List Char} (hc : Continues finders text lenient p q)
        (hpasses : p.Passes s q) (hne : s ≠ []) :
        ∃ q, Reaches finders text lenient p q ∧ Stuck finders text q := by
      have hlt := hpasses.left_lt_iff.mpr hne
      obtain ⟨offset', out', hsame⟩ := hc.scanFrom_succ cap offset out
      rw [hsame] at h
      obtain ⟨r, hr, hstuck⟩ := ih (hin.trans hpasses) (by omega) h
      exact ⟨r, .head hc hr, hstuck⟩
    by_cases hleft : p.left = 0
    · rw [Scanner.scanFrom_end hleft] at h
      cases h
    rcases step_cases hlawful hin cap with ⟨f, stop, hleads, hpasses, -⟩ |
      ⟨gap, f, start, stop, hfilled, hgap, hleads, hpasses, hstep⟩ | ⟨-, hstep⟩
    · by_cases htext : p.upTo stop = []
      · rw [htext] at hpasses
        cases hpasses.unique (.refl p)
        exact ⟨p, .refl, hleft, f, hleads⟩
      · exact hgo (.claimed hleft hleads) hpasses htext
    · cases lenient with
      | true =>
        have hne := List.append_ne_nil_of_left_ne_nil hfilled (start.upTo stop)
        exact hgo (.skipped rfl hfilled hgap hleads) (hgap.trans hpasses) hne
      | false =>
        rw [Scanner.scanFrom, if_neg hleft, hstep] at h
        cases h
    · cases lenient with
      | true =>
        rw [Scanner.scanFrom, if_neg hleft, hstep] at h
        simp only [Scanner.emitAll_lenient] at h
        rw [Scanner.scanFrom_end rfl] at h
        cases h
      | false =>
        rw [Scanner.scanFrom, if_neg hleft, hstep] at h
        cases h

theorem scan_runaway_iff (hlawful : ∀ f ∈ finders, f.Lawful)
    (hcap : source.utf8ByteSize ≤ cap) :
    scan finders cap lenient source = .error (.runaway cap) ↔
      ∃ p, Reaches finders source.toList lenient (.start source.toList) p ∧
        Stuck finders source.toList p := by
  rw [scan, Scanner.scan_eq_error_iff]
  constructor
  · apply stuck_of_runaway hlawful ⟨[], .refl _⟩
    have hlength := Stretch.length_le_bytes source.toList
    rw [Stretch.bytes, String.ofList_toList] at hlength
    exact Nat.le_trans hlength hcap
  · intro h
    obtain ⟨p, hp, hstuck⟩ := h
    exact runaway_of_reaches hp hstuck cap 0 #[]

/-- Where no rule finds an empty match where it is asked, a cap that is no less than the text is
long is enough. -/
theorem scan_ne_runaway (hlawful : ∀ f ∈ finders, f.Lawful)
    (h : ∀ f ∈ finders, ∀ p, f.find? source.toList p ≠ some (p, p))
    (hcap : source.utf8ByteSize ≤ cap) (limit : Nat) :
    scan finders cap lenient source ≠ .error (.runaway limit) := by
  intro hrunaway
  cases Scanner.eq_maxSteps_of_runaway (Scanner.scan_eq_error_iff.mp hrunaway)
  obtain ⟨p, -, -, f, hleads⟩ := (scan_runaway_iff hlawful hcap).mp hrunaway
  exact h f hleads.mem p hleads.found

end Finder

namespace Pattern

def consumes : Pattern → Bool
  | empty => false
  | one _ => true
  | check _ => false
  | seq first second => first.consumes || second.consumes
  | alt first second => first.consumes && second.consumes
  | star _ _ => false

theorem ne_nil_of_consumes {pattern : Pattern} {text : List Char} (h : pattern.consumes = true)
    (ht : pattern.Takes text) : text ≠ [] := by
  induction pattern generalizing text with
  | empty => cases h
  | one accepts =>
    obtain ⟨c, -, rfl⟩ := ht
    simp
  | check holds => cases h
  | seq first second ihf ihs =>
    obtain ⟨s, t, hs, ht, rfl⟩ := ht
    rcases Bool.or_eq_true_iff.mp h with h | h
    · exact List.append_ne_nil_of_left_ne_nil (ihf h hs) t
    · exact List.append_ne_nil_of_right_ne_nil s (ihs h ht)
  | alt first second ihf ihs =>
    obtain ⟨hf, hs⟩ := Bool.and_eq_true_iff.mp h
    rcases ht with ht | ht
    · exact ihf hf ht
    · exact ihs hs ht
  | star greedy body => cases h

theorem match_ne_of_consumes {pattern : Pattern} (h : pattern.consumes = true) (p : Place) :
    pattern.match? p ≠ some p := by
  intro hmatch
  obtain ⟨text, q, htext, hpasses, hq⟩ := advances_run pattern _ _ _ hmatch
  cases hq
  have hlt := hpasses.left_lt_iff.mpr (ne_nil_of_consumes h htext)
  exact Nat.lt_irrefl _ hlt

end Pattern

theorem Lexicon.match_ne : ∀ rule ∈ rules, ∀ p, rule.pattern.match? p ≠ some p := by
  have hall : ∀ rule ∈ rules, rule.pattern.consumes = true := by decide +kernel
  intro rule hrule
  exact Pattern.match_ne_of_consumes (hall rule hrule)

theorem Feature.match_ne (collect : Bool) (cap : Nat) :
    ∀ rule ∈ (table collect cap).rules, ∀ p, rule.pattern.match? p ≠ some p := by
  have hall : ∀ rule ∈ inlineRules ++ paragraphRules, rule.pattern.consumes = true := by
    decide +kernel
  intro rule hrule
  exact Pattern.match_ne_of_consumes (hall rule (mem_rules hrule))

namespace Table

variable {τ : Type} {rules : List (Rule τ)} {lenient : Bool} {cap : Nat} {source : String}

theorem scan_ne_runaway (h : ∀ rule ∈ rules, ∀ p, rule.pattern.match? p ≠ some p)
    (hcap : source.utf8ByteSize ≤ cap) (limit : Nat) :
    scan ⟨rules, cap⟩ lenient source ≠ .error (.runaway limit) := by
  rw [scan_eq_finders]
  apply Finder.scan_ne_runaway (lawful_finders _) _ hcap
  intro f hf p hfound
  obtain ⟨rule, hrule, rfl⟩ := List.mem_map.mp hf
  obtain ⟨hmatch, -⟩ := Rule.skips_of_finder hfound
  exact h rule hrule p hmatch

end Table

namespace Finder

variable {τ : Type}

/-- The cap on the steps detects want of progress and nothing else. If it is no less than the
text is long, a scan runs away just when it comes to a place where it is stuck, hence never by
rules that find no empty match where they are asked, such as those of logic and of markers. What
a scan gives under any cap without running away it gives under all higher ones, and if it runs
away it does so under all lower ones. -/
theorem cap_detects_no_progress (finders : List (Finder τ)) (hlawful : ∀ f ∈ finders, f.Lawful)
    (lenient : Bool) (source : String) :
    (∀ cap, source.utf8ByteSize ≤ cap →
      (scan finders cap lenient source = .error (.runaway cap) ↔
        ∃ p, Reaches finders source.toList lenient (.start source.toList) p ∧
          Stuck finders source.toList p)) ∧
      ((∀ f ∈ finders, ∀ p, f.find? source.toList p ≠ some (p, p)) → ∀ cap limit,
        source.utf8ByteSize ≤ cap → scan finders cap lenient source ≠ .error (.runaway limit)) ∧
      (∀ cap limit, source.utf8ByteSize ≤ cap →
        (Lexicon.table cap).scan lenient source ≠ .error (.runaway limit) ∧
          ∀ collect,
            (Feature.table collect cap).scan lenient source ≠ .error (.runaway limit)) ∧
      (∀ m m', m ≤ m' → scan finders m lenient source ≠ .error (.runaway m) →
        scan finders m' lenient source = scan finders m lenient source) ∧
      (∀ m m', m' ≤ m → scan finders m lenient source = .error (.runaway m) →
        scan finders m' lenient source = .error (.runaway m')) ∧
      ∀ table : Table τ, (∀ f ∈ table.finders, f.Lawful) ∧
        table.scan lenient source = scan table.finders table.maxSteps lenient source := by
  refine ⟨fun cap hcap => scan_runaway_iff hlawful hcap, ?_, ?_, fun m m' => Scanner.scan_of_le,
    fun m m' => Scanner.runaway_of_le, ?_⟩
  · intro hrules cap limit hcap
    exact scan_ne_runaway hlawful hrules hcap limit
  · intro cap limit hcap
    constructor
    · exact Table.scan_ne_runaway Lexicon.match_ne hcap limit
    · intro collect
      exact Table.scan_ne_runaway (Feature.match_ne collect cap) hcap limit
  · intro table
    exact ⟨table.lawful_finders, table.scan_eq_finders lenient source⟩

def letterRules : List (Finder Nat) :=
  [Rule.finder (.tagged 0 (.lit "a")), Rule.finder (.tagged 1 (.many (.char 'x')))]

theorem letterRules_progress :
    ("ab".utf8ByteSize ≤ 3 ∧ scan letterRules 3 false "ab" = .error (.runaway 3)) ∧
      (∃ p, Reaches letterRules "ab".toList false (.start "ab".toList) p ∧
        Stuck letterRules "ab".toList p) ∧
      scan letterRules 1 false "ab" = .error (.runaway 1) ∧
      scan letterRules 2 false "axx" = .ok [⟨some 0, 0, "a"⟩, ⟨some 1, 1, "xx"⟩] ∧
      scan letterRules 9 false "axx" = .ok [⟨some 0, 0, "a"⟩, ⟨some 1, 1, "xx"⟩] ∧
      (Lexicon.table 2).scan false "ab" ≠ .error (.runaway 2) := by
  have hbytes : "ab".utf8ByteSize ≤ 3 := by decide +kernel
  have hrunaway : scan letterRules 3 false "ab" = .error (.runaway 3) := by decide +kernel
  have hscan : scan letterRules 2 false "axx" = .ok [⟨some 0, 0, "a"⟩, ⟨some 1, 1, "xx"⟩] := by
    decide +kernel
  have hlawful : ∀ f ∈ letterRules, f.Lawful := by
    intro f hf
    simp only [letterRules, List.mem_cons, List.not_mem_nil, or_false] at hf
    rcases hf with rfl | rfl <;> exact Rule.lawful_finder _
  obtain ⟨hiff, -, htables, -, hlower, -⟩ :=
    cap_detects_no_progress letterRules hlawful false "ab"
  obtain ⟨-, -, -, hhigher, -⟩ := cap_detects_no_progress letterRules hlawful false "axx"
  have hsame := hhigher 2 9 (by decide) (by rw [hscan]; simp)
  exact ⟨⟨hbytes, hrunaway⟩, (hiff 3 hbytes).mp hrunaway,
    hlower 3 1 (by decide) hrunaway, hscan, hsame.trans hscan,
    (htables 2 2 (by decide +kernel)).1⟩

end Finder

end Fabula
