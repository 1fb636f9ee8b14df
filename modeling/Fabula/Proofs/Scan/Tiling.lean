import Fabula.Proofs.Scan.Finding
import Mathlib

namespace Fabula

namespace Stretch

variable {τ : Type} {t : Token τ} {offset : Nat} {stretches : List (Stretch τ)}

def text : Stretch τ → List Char
  | unclaimed text => text
  | claimed _ text => text

/-- The texts of some stretches, one after the other. -/
def textOf (stretches : List (Stretch τ)) : List Char := stretches.flatMap text

def token? (offset : Nat) : Stretch τ → Option (Token τ)
  | unclaimed text => some ⟨none, offset, String.ofList text⟩
  | claimed (.tagged tag) text => some ⟨some tag, offset, String.ofList text⟩
  | claimed .discarded _ => none
  | claimed .untagged text => some ⟨none, offset, String.ofList text⟩

def bytes (text : List Char) : Nat := (String.ofList text).utf8ByteSize

/-- The tokens of stretches that follow each other from an offset on. -/
def tokensFrom : Nat → List (Stretch τ) → List (Token τ)
  | _, [] => []
  | offset, s :: rest => (s.token? offset).toList ++ tokensFrom (offset + bytes s.text) rest

@[simp]
theorem textOf_cons (s : Stretch τ) (rest : List (Stretch τ)) :
    textOf (s :: rest) = s.text ++ textOf rest :=
  List.flatMap_cons

@[simp]
theorem bytes_append (s t : List Char) : bytes (s ++ t) = bytes s + bytes t := by
  simp [bytes, String.ofList_append]

theorem tokensFrom_append (offset : Nat) (front rest : List (Stretch τ)) :
    tokensFrom offset (front ++ rest) =
      tokensFrom offset front ++ tokensFrom (offset + bytes (textOf front)) rest := by
  induction front generalizing offset with
  | nil => rfl
  | cons s front ih =>
    rw [List.cons_append, tokensFrom, tokensFrom, ih, textOf_cons, bytes_append, Nat.add_assoc,
      List.append_assoc]

theorem token?_eq_some {s : Stretch τ} (h : s.token? offset = some t) :
    t.text = String.ofList s.text ∧ t.start = offset := by
  unfold token? at h
  split at h <;> cases h <;> exact ⟨rfl, rfl⟩

theorem claimed_of_mem {tag : τ} (h : t ∈ tokensFrom offset stretches)
    (htag : t.tag = some tag) : .claimed (.tagged tag) t.text.toList ∈ stretches := by
  induction stretches generalizing offset with
  | nil => cases h
  | cons s rest ih =>
    rcases List.mem_append.mp h with h | h
    · have htoken := Option.mem_toList.mp h
      unfold token? at htoken
      split at htoken <;> cases htoken <;> cases htag
      simp
    · exact List.mem_cons_of_mem _ (ih h)

theorem slice_of_mem (h : t ∈ tokensFrom offset stretches) :
    ∃ before after, textOf stretches = before ++ t.text.toList ++ after ∧
      t.start = offset + bytes before := by
  induction stretches generalizing offset with
  | nil => cases h
  | cons s rest ih =>
    rcases List.mem_append.mp h with h | h
    · obtain ⟨htext, hstart⟩ := token?_eq_some (Option.mem_toList.mp h)
      refine ⟨[], textOf rest, ?_, hstart⟩
      rw [htext, String.toList_ofList, textOf_cons, List.nil_append]
    · obtain ⟨before, after, htext, hstart⟩ := ih h
      refine ⟨s.text ++ before, after, ?_, ?_⟩
      · rw [textOf_cons, htext, List.append_assoc, List.append_assoc, List.append_assoc]
      · rw [hstart, bytes_append, Nat.add_assoc]

theorem join_tokensFrom (h : ∀ text, .claimed .discarded text ∉ stretches) :
    String.join ((tokensFrom offset stretches).map Token.text) =
      String.ofList (textOf stretches) := by
  induction stretches generalizing offset with
  | nil => rfl
  | cons s rest ih =>
    have hrest : String.join ((tokensFrom (offset + bytes s.text) rest).map Token.text) =
        String.ofList (textOf rest) := ih fun text ht => h text (List.mem_cons_of_mem _ ht)
    obtain ⟨token, htoken⟩ : ∃ token, s.token? offset = some token := by
      unfold token?
      split
      · exact ⟨_, rfl⟩
      · exact ⟨_, rfl⟩
      · exact absurd List.mem_cons_self (h _)
      · exact ⟨_, rfl⟩
    rw [tokensFrom, htoken, textOf_cons, String.ofList_append, ← hrest,
      ← (token?_eq_some htoken).1]
    simp

end Stretch

namespace Scanner

variable {τ : Type} {s : Scanner τ} {lenient : Bool} {offset next : Nat} {p : Place}
  {out out' : Array (Token τ)} {stretch : Stretch τ} {stretches : List (Stretch τ)}
  {hit : Hit τ}

theorem emit_eq_ok (h : emit lenient offset out stretch = .ok (next, out')) :
    next = offset + Stretch.bytes stretch.text ∧
      out'.toList = out.toList ++ (stretch.token? offset).toList ∧
      (lenient = false → ∀ text, stretch ≠ .unclaimed text) := by
  unfold emit at h
  split at h
  · dsimp only at h
    split at h
    · rename_i hlenient
      cases h
      exact ⟨rfl, by simp [Stretch.token?], by simp [hlenient]⟩
    · cases h
  · dsimp only at h
    split at h <;> cases h <;> exact ⟨rfl, by simp [Stretch.token?], by simp⟩

theorem emitAll_eq_ok
    (h : stretches.foldlM (fun state => emit lenient state.1 state.2) (offset, out) =
      .ok (next, out')) :
    next = offset + Stretch.bytes (Stretch.textOf stretches) ∧
      out'.toList = out.toList ++ Stretch.tokensFrom offset stretches ∧
      (lenient = false → ∀ text, .unclaimed text ∉ stretches) := by
  induction stretches generalizing offset out with
  | nil =>
    cases h
    exact ⟨rfl, by simp [Stretch.tokensFrom], by simp⟩
  | cons stretch stretches ih =>
    rw [List.foldlM_cons] at h
    obtain ⟨⟨between, out''⟩, hemit, h⟩ := bind_eq_ok_iff.mp h
    obtain ⟨rfl, hout, hstrict⟩ := emit_eq_ok hemit
    obtain ⟨rfl, hout', hstrict'⟩ := ih h
    refine ⟨by rw [Stretch.textOf_cons, Stretch.bytes_append, Nat.add_assoc], ?_, ?_⟩
    · rw [hout', hout, Stretch.tokensFrom, List.append_assoc]
    · intro hlenient text hmem
      rcases List.mem_cons.mp hmem with heq | hmem
      · exact hstrict hlenient text heq.symm
      · exact hstrict' hlenient text hmem

theorem emit_lenient (offset : Nat) (out : Array (Token τ)) (stretch : Stretch τ) :
    emit true offset out stretch =
      .ok (offset + Stretch.bytes stretch.text, out ++ (stretch.token? offset).toList) := by
  cases stretch with
  | unclaimed text => simp [emit, Stretch.token?, Stretch.text, Stretch.bytes]
  | claimed effect text =>
    cases effect <;> simp [emit, Stretch.token?, Stretch.text, Stretch.bytes]

theorem emitAll_lenient (stretches : List (Stretch τ)) (offset : Nat) (out : Array (Token τ)) :
    stretches.foldlM (fun state => emit true state.1 state.2) (offset, out) =
      .ok (offset + Stretch.bytes (Stretch.textOf stretches),
        out ++ Stretch.tokensFrom offset stretches) := by
  induction stretches generalizing offset out with
  | nil => simp [Stretch.tokensFrom, Stretch.textOf, Stretch.bytes, pure, Except.pure]
  | cons stretch rest ih =>
    have happend : out ++ (stretch.token? offset).toList ++
        Stretch.tokensFrom (offset + Stretch.bytes stretch.text) rest =
          out ++ Stretch.tokensFrom offset (stretch :: rest) := by
      rw [Stretch.tokensFrom, ← Array.toList_inj]
      simp
    rw [List.foldlM_cons, emit_lenient, Stretch.textOf_cons, Stretch.bytes_append,
      ← Nat.add_assoc, ← happend]
    exact ih _ _

theorem step_of_none (h : s.next? p = none) : s.step p = ([.unclaimed p.after], p.last) := by
  simp only [step, h]

theorem step_of_here (h : s.next? p = some hit) (hstart : hit.start = p) :
    s.step p = ([.claimed hit.effect (p.upTo hit.stop)], hit.stop) := by
  simp only [step, h, hstart, Nat.lt_irrefl, if_false]

theorem step_of_later {gap : List Char} (h : s.next? p = some hit)
    (hgap : p.Passes gap hit.start) (hne : gap ≠ []) :
    s.step p = ([.unclaimed gap, .claimed hit.effect (hit.start.upTo hit.stop)], hit.stop) := by
  simp only [step, h, hgap.left_lt_iff.mpr hne, if_true, hgap.upTo_eq]

theorem scanFrom_end (hp : p.left = 0) (budget offset : Nat) (out : Array (Token τ)) :
    s.scanFrom lenient budget offset p out = .ok out := by
  cases budget with
  | zero => rw [scanFrom, if_pos hp]
  | succ budget => rw [scanFrom, if_pos hp]

end Scanner

namespace Finder

variable {τ : Type} {finders : List (Finder τ)} {f : Finder τ} {text : List Char}
  {p q start stop : Place} {stretches : List (Stretch τ)} {lenient : Bool}
  {cap budget offset : Nat}
  {out out' : Array (Token τ)}

/-- Stretches that follow each other from a place up to the end of the text. Each step that does
not begin at the end takes the match that wins from there on, behind the text before it if there
is any; if no rule finds anything, the rest of the text is one stretch. -/
inductive Tiling (finders : List (Finder τ)) (text : List Char) :
    Place → List (Stretch τ) → Prop where
  | done {p : Place} (ended : p.left = 0) : Tiling finders text p []
  | claimed {p stop : Place} {f : Finder τ} {stretches : List (Stretch τ)} (more : p.left ≠ 0)
      (leads : Leads finders text p f p stop) (rest : Tiling finders text stop stretches) :
      Tiling finders text p (.claimed f.effect (p.upTo stop) :: stretches)
  | skipped {p start stop : Place} {gap : List Char} {f : Finder τ}
      {stretches : List (Stretch τ)}
      (filled : gap ≠ []) (passes : p.Passes gap start)
        (leads : Leads finders text p f start stop)
      (rest : Tiling finders text stop stretches) :
      Tiling finders text p (.unclaimed gap :: .claimed f.effect (start.upTo stop) :: stretches)
  | trailing {p : Place} (filled : p.after ≠ [])
      (silent : ∀ f ∈ finders, f.find? text p = none) :
      Tiling finders text p [.unclaimed p.after]

/-- What is found lies at or after the place from which it is looked for. -/
theorem Leads.passes (h : Leads finders text p f start stop) (hlawful : ∀ f ∈ finders, f.Lawful)
    (hp : p.In text) : p.Passes (p.upTo start) start ∧ start.Passes (start.upTo stop) stop := by
  obtain ⟨⟨gap, hgap⟩, found, hfound⟩ := hlawful f h.mem text p start stop hp h.found
  rw [hgap.upTo_eq, hfound.upTo_eq]
  exact ⟨hgap, hfound⟩

/-- What a step can find: the match that wins, if it begins at the place; or the text up to
where it begins, and the match; or the rest of the text. -/
theorem step_cases (hlawful : ∀ f ∈ finders, f.Lawful) (hp : p.In text) (cap : Nat) :
    (∃ f stop, Leads finders text p f p stop ∧ p.Passes (p.upTo stop) stop ∧
        Scanner.step ⟨best finders text, cap⟩ p = ([.claimed f.effect (p.upTo stop)], stop)) ∨
      (∃ gap f start stop, gap ≠ [] ∧ p.Passes gap start ∧ Leads finders text p f start stop ∧
        start.Passes (start.upTo stop) stop ∧ Scanner.step ⟨best finders text, cap⟩ p =
          ([.unclaimed gap, .claimed f.effect (start.upTo stop)], stop)) ∨
      (∀ f ∈ finders, f.find? text p = none) ∧
        Scanner.step ⟨best finders text, cap⟩ p = ([.unclaimed p.after], p.last) := by
  cases hbest : best finders text p with
  | none => exact .inr (.inr ⟨best_eq_none_iff.mp hbest, Scanner.step_of_none hbest⟩)
  | some hit =>
    obtain ⟨f, heffect, hleads⟩ := leads_of_best hbest
    obtain ⟨hgap, hfound⟩ := hleads.passes hlawful hp
    by_cases hnil : p.upTo hit.start = []
    · rw [hnil] at hgap
      have hstart := hgap.unique (.refl p)
      have hstep := Scanner.step_of_here (s := ⟨best finders text, cap⟩) hbest hstart
      rw [← heffect] at hstep
      rw [hstart] at hleads hfound
      exact .inl ⟨f, hit.stop, hleads, hfound, hstep⟩
    · have hstep := Scanner.step_of_later (s := ⟨best finders text, cap⟩) hbest hgap hnil
      rw [← heffect] at hstep
      exact .inr (.inl ⟨_, f, hit.start, hit.stop, hnil, hgap, hleads, hfound, hstep⟩)

theorem in_step (hlawful : ∀ f ∈ finders, f.Lawful) (hp : p.In text) (cap : Nat) :
    (Scanner.step ⟨best finders text, cap⟩ p).2.In text := by
  rcases step_cases hlawful hp cap with ⟨f, stop, -, hpasses, hstep⟩ |
    ⟨gap, f, start, stop, -, hgap, -, hpasses, hstep⟩ | ⟨-, hstep⟩
  · rw [hstep]
    exact hp.trans hpasses
  · rw [hstep]
    exact (hp.trans hgap).trans hpasses
  · rw [hstep]
    exact hp.trans (.last p)

namespace Tiling

theorem eq_nil (h : Tiling finders text p stretches) (hp : p.left = 0) : stretches = [] := by
  cases h with
  | done => rfl
  | claimed more => exact absurd hp more
  | skipped filled passes =>
    have hlength := List.length_pos_iff.mpr filled
    have hleft := passes.left_eq
    omega
  | trailing filled =>
    exact absurd (List.length_eq_zero_iff.mp (p.left_eq.symm.trans hp)) filled

theorem step (hlawful : ∀ f ∈ finders, f.Lawful) (hp : p.In text) (hleft : p.left ≠ 0)
    (rest : Tiling finders text (Scanner.step ⟨best finders text, cap⟩ p).2 stretches) :
    Tiling finders text p ((Scanner.step ⟨best finders text, cap⟩ p).1 ++ stretches) := by
  rcases step_cases hlawful hp cap with ⟨f, stop, hleads, -, hstep⟩ |
    ⟨gap, f, start, stop, hfilled, hgap, hleads, -, hstep⟩ | ⟨hsilent, hstep⟩
  · rw [hstep] at rest ⊢
    exact .claimed hleft hleads rest
  · rw [hstep] at rest ⊢
    exact .skipped hfilled hgap hleads rest
  · rw [hstep] at rest ⊢
    have hfilled : p.after ≠ [] := by
      intro hafter
      exact hleft (p.left_eq.trans (by rw [hafter]; rfl))
    rw [rest.eq_nil rfl]
    exact .trailing hfilled hsilent

theorem textOf_eq (h : Tiling finders text p stretches) (hlawful : ∀ f ∈ finders, f.Lawful)
    (hp : p.In text) : Stretch.textOf stretches = p.after := by
  induction h with
  | done ended => exact (List.length_eq_zero_iff.mp ((Place.left_eq _).symm.trans ended)).symm
  | claimed more leads rest ih =>
    obtain ⟨-, hfound⟩ := leads.passes hlawful hp
    rw [Stretch.textOf_cons, ih (hp.trans hfound), hfound.after, Stretch.text]
  | skipped filled passes leads rest ih =>
    obtain ⟨-, hfound⟩ := leads.passes hlawful hp
    rw [Stretch.textOf_cons, Stretch.textOf_cons, ih ((hp.trans passes).trans hfound),
      passes.after, hfound.after, Stretch.text, Stretch.text]
  | trailing => simp [Stretch.textOf, Stretch.text]

theorem leads_of_mem {effect : Effect τ} {taken : List Char}
    (h : Tiling finders text p stretches) (hmem : .claimed effect taken ∈ stretches) :
    ∃ q f start stop, f.effect = effect ∧ Leads finders text q f start stop ∧
      taken = start.upTo stop := by
  induction h with
  | done => cases hmem
  | claimed more leads rest ih =>
    rcases List.mem_cons.mp hmem with heq | hmem
    · cases heq
      exact ⟨_, _, _, _, rfl, leads, rfl⟩
    · exact ih hmem
  | skipped filled passes leads rest ih =>
    rcases List.mem_cons.mp ((List.mem_cons.mp hmem).resolve_left (by simp)) with heq | hmem
    · cases heq
      exact ⟨_, _, _, _, rfl, leads, rfl⟩
    · exact ih hmem
  | trailing => simp at hmem

end Tiling

theorem tiling_of_scanFrom (hlawful : ∀ f ∈ finders, f.Lawful) (hp : p.In text)
    (h : Scanner.scanFrom ⟨best finders text, cap⟩ lenient budget offset p out = .ok out') :
    ∃ stretches, Tiling finders text p stretches ∧
      out'.toList = out.toList ++ Stretch.tokensFrom offset stretches ∧
      (lenient = false → ∀ taken, .unclaimed taken ∉ stretches) := by
  have hdone {p : Place} (hleft : p.left = 0) (offset : Nat) (out : Array (Token τ)) :
      ∃ stretches, Tiling finders text p stretches ∧
        out.toList = out.toList ++ Stretch.tokensFrom offset stretches ∧
        (lenient = false → ∀ taken, .unclaimed taken ∉ stretches) :=
    ⟨[], .done hleft, by simp [Stretch.tokensFrom], by simp⟩
  induction budget generalizing offset p out with
  | zero =>
    rw [Scanner.scanFrom] at h
    split at h
    · rename_i hleft
      cases h
      exact hdone hleft _ _
    · cases h
  | succ budget ih =>
    rw [Scanner.scanFrom] at h
    split at h
    · rename_i hleft
      cases h
      exact hdone hleft _ _
    · rename_i hleft
      dsimp only at h
      split at h
      · rename_i hfold
        obtain ⟨rfl, hout, hstrict⟩ := Scanner.emitAll_eq_ok hfold
        obtain ⟨stretches, htiling, hout', hstrict'⟩ := ih (in_step hlawful hp cap) h
        refine ⟨_, htiling.step hlawful hp hleft, ?_, ?_⟩
        · rw [hout', hout, Stretch.tokensFrom_append, List.append_assoc]
        · intro hlenient taken hmem
          rcases List.mem_append.mp hmem with hmem | hmem
          · exact hstrict hlenient taken hmem
          · exact hstrict' hlenient taken hmem
      · cases h

theorem tiling_of_scan (hlawful : ∀ f ∈ finders, f.Lawful) {source : String}
    {tokens : List (Token τ)} (h : scan finders cap lenient source = .ok tokens) :
    ∃ stretches, Tiling finders source.toList (.start source.toList) stretches ∧
      Stretch.textOf stretches = source.toList ∧ tokens = Stretch.tokensFrom 0 stretches ∧
      (lenient = false → ∀ taken, .unclaimed taken ∉ stretches) := by
  have hstart : (Place.start source.toList).In source.toList := ⟨[], .refl _⟩
  obtain ⟨out, hout, rfl⟩ := map_eq_ok_iff.mp h
  obtain ⟨stretches, htiling, htokens, hstrict⟩ := tiling_of_scanFrom hlawful hstart hout
  exact ⟨stretches, htiling, htiling.textOf_eq hlawful hstart, htokens, hstrict⟩

end Finder

namespace Table

variable {τ : Type} {table : Table τ} {lenient : Bool} {source : String}
  {tokens : List (Token τ)}
  {t : Token τ} {rule : Rule τ} {p q stop : Place} {gap : List Char}

theorem step_of_wins (h : Wins table.rules p rule stop) :
    table.scanner.step p = ([.claimed rule.effect (p.upTo stop)], stop) := by
  have hnext : table.scanner.next? p = _ := seek_of_wins (.refl _ p) h (Nat.zero_le _)
  exact Scanner.step_of_here hnext rfl

theorem step_of_skips (hne : gap ≠ []) (hskips : Skips table.rules p gap q)
    (h : Wins table.rules q rule stop) :
    table.scanner.step p = ([.unclaimed gap, .claimed rule.effect (q.upTo stop)], stop) := by
  have hlength : gap.length ≤ p.left := by
    rw [hskips.passes.left_eq]
    omega
  have hnext : table.scanner.next? p = _ := seek_of_wins hskips h hlength
  exact Scanner.step_of_later hnext hskips.passes hne

theorem step_of_silent (hskips : Skips table.rules p p.after q)
    (hsilent : Silent table.rules q) :
    table.scanner.step p = ([.unclaimed p.after], p.last) := by
  apply Scanner.step_of_none
  cases hseek : table.scanner.next? p with
  | none => rfl
  | some hit =>
    obtain ⟨gap, m, rule, stop, -, hskips', hwins⟩ := wins_of_seek hseek
    exact absurd (hskips.silent_of_passes hsilent hskips'.passes) hwins.not_silent

/-- What a step by patterns can find: the match that wins at its place; or unclaimed text up to
the first place where some rule matches, and the match that wins there; or unclaimed text up to
the end. -/
theorem step_cases (table : Table τ) (p : Place) :
    (∃ rule stop, Wins table.rules p rule stop ∧
        table.scanner.step p = ([.claimed rule.effect (p.upTo stop)], stop)) ∨
      (∃ gap q rule stop, gap ≠ [] ∧ Skips table.rules p gap q ∧ Wins table.rules q rule stop ∧
        table.scanner.step p = ([.unclaimed gap, .claimed rule.effect (q.upTo stop)], stop)) ∨
      Skips table.rules p p.after p.last ∧ Silent table.rules p.last ∧
        table.scanner.step p = ([.unclaimed p.after], p.last) := by
  cases hseek : seek table.rules p.left p with
  | none =>
    obtain ⟨hskips, hsilent⟩ := silent_of_seek (Nat.le_refl _) hseek
    exact .inr (.inr ⟨hskips, hsilent, step_of_silent hskips hsilent⟩)
  | some hit =>
    obtain ⟨gap, q, rule, stop, -, hskips, hwins⟩ := wins_of_seek hseek
    by_cases hne : gap = []
    · subst hne
      cases hskips.passes.unique (.refl p)
      exact .inl ⟨rule, stop, hwins, step_of_wins hwins⟩
    · exact .inr (.inl ⟨gap, q, rule, stop, hne, hskips, hwins, step_of_skips hne hskips hwins⟩)

theorem passes_step (table : Table τ) (p : Place) :
    ∃ s, p.Passes s (table.scanner.step p).2 := by
  rcases step_cases table p with ⟨rule, stop, hwins, hstep⟩ |
    ⟨gap, q, rule, stop, -, hskips, hwins, hstep⟩ | ⟨hskips, -, hstep⟩
  · rw [hstep]
    exact ⟨_, hwins.passes⟩
  · rw [hstep]
    exact ⟨_, hskips.passes.trans hwins.passes⟩
  · rw [hstep]
    exact ⟨_, hskips.passes⟩

theorem tiling_of_scan (h : table.scan lenient source = .ok tokens) :
    ∃ stretches, Finder.Tiling table.finders source.toList (.start source.toList) stretches ∧
      Stretch.textOf stretches = source.toList ∧ tokens = Stretch.tokensFrom 0 stretches := by
  rw [scan_eq_finders] at h
  obtain ⟨stretches, htiling, htext, htokens, -⟩ := Finder.tiling_of_scan table.lawful_finders h
  exact ⟨stretches, htiling, htext, htokens⟩

theorem infix_of_scan (h : table.scan lenient source = .ok tokens) (ht : t ∈ tokens) :
    t.text.toList <:+: source.toList := by
  obtain ⟨stretches, -, htext, rfl⟩ := tiling_of_scan h
  obtain ⟨before, after, hslice, -⟩ := Stretch.slice_of_mem ht
  exact ⟨before, after, by rw [← htext, hslice]⟩

theorem wins_of_scan (h : table.scan lenient source = .ok tokens) {tag : τ} (ht : t ∈ tokens)
    (htag : t.tag = some tag) :
    ∃ p rule stop, rule.effect = .tagged tag ∧ Wins table.rules p rule stop ∧
      t.text.toList = p.upTo stop := by
  obtain ⟨stretches, htiling, -, rfl⟩ := tiling_of_scan h
  obtain ⟨q, f, start, stop, heffect, hleads, htext⟩ :=
    htiling.leads_of_mem (Stretch.claimed_of_mem ht htag)
  obtain ⟨rule, hrule, -, hwins⟩ := wins_of_leads hleads
  exact ⟨start, rule, stop, hrule.trans heffect, hwins, htext⟩

end Table

namespace Finder

/-- Whatever the rules find within the text, a scan that succeeds has tiled it with stretches
whose tokens it gives: each holds the slice of the text at its offset, and unless some rule
discards text they hold all of it. A strict scan leaves nothing unclaimed. Scans by tables of
patterns are such scans. -/
theorem scan_tiles {τ : Type} (finders : List (Finder τ)) (hlawful : ∀ f ∈ finders, f.Lawful)
    (cap : Nat) (lenient : Bool) (source : String) :
    (∀ tokens, scan finders cap lenient source = .ok tokens →
      (∃ stretches, Tiling finders source.toList (.start source.toList) stretches ∧
        Stretch.textOf stretches = source.toList ∧ tokens = Stretch.tokensFrom 0 stretches ∧
        (lenient = false → ∀ taken, .unclaimed taken ∉ stretches)) ∧
      (∀ t ∈ tokens, ∃ before after : String,
        source = before ++ t.text ++ after ∧ t.start = before.utf8ByteSize) ∧
      ((∀ f ∈ finders, f.effect ≠ .discarded) → String.join (tokens.map Token.text) = source)) ∧
    ∀ table : Table τ, (∀ f ∈ table.finders, f.Lawful) ∧
      table.scan lenient source = scan table.finders table.maxSteps lenient source := by
  constructor
  · intro tokens h
    obtain ⟨stretches, htiling, htext, htokens, hstrict⟩ := tiling_of_scan hlawful h
    refine ⟨⟨stretches, htiling, htext, htokens, hstrict⟩, ?_, ?_⟩
    · intro t ht
      rw [htokens] at ht
      obtain ⟨before, after, hslice, hstart⟩ := Stretch.slice_of_mem ht
      refine ⟨String.ofList before, String.ofList after, ?_, ?_⟩
      · rw [← String.toList_inj, String.toList_append, String.toList_append,
          String.toList_ofList, String.toList_ofList, ← hslice, htext]
      · rw [hstart, Nat.zero_add, Stretch.bytes]
    · intro hkept
      rw [htokens, Stretch.join_tokensFrom, htext]
      · exact String.ofList_toList
      · intro taken hmem
        obtain ⟨q, f, start, stop, heffect, hleads, -⟩ := htiling.leads_of_mem hmem
        exact hkept f hleads.mem heffect
  · intro table
    exact ⟨table.lawful_finders, table.scan_eq_finders lenient source⟩

/-- Words, blanks that are left out, a mark without a tag and a rule that matches only at the
end of the text, where it takes nothing. -/
def sampleTable : Table Nat :=
  ⟨[.tagged 0 (.lit "a"), .tagged 1 (.lit "ab"), .discarded (.some1 (.char ' ')),
    ⟨.char '?', .untagged⟩, .tagged 2 .textEnd], 9⟩

def secondOnly : Finder Nat where
  find? text p :=
    if p.left = text.length then
      p.next?.bind fun c => c.2.next?.map fun d => (c.2, d.2) else none
  effect := .tagged 0

theorem lawful_secondOnly : secondOnly.Lawful := by
  intro text p start stop _ h
  simp only [secondOnly] at h
  split at h
  · obtain ⟨c, hc, h⟩ := Option.bind_eq_some_iff.mp h
    obtain ⟨d, hd, heq⟩ := Option.map_eq_some_iff.mp h
    cases heq
    exact ⟨⟨_, .next hc⟩, _, .next hd⟩
  · cases h

theorem samples_tile :
    (∃ stretches, Tiling [secondOnly] "aéb".toList (.start "aéb".toList) stretches ∧
      Stretch.tokensFrom 0 stretches = [⟨none, 0, "a"⟩, ⟨some 0, 1, "é"⟩, ⟨none, 3, "b"⟩]) ∧
    sampleTable.scan true "ab a?é z" = .ok
      [⟨some 1, 0, "ab"⟩, ⟨some 0, 3, "a"⟩, ⟨none, 4, "?"⟩, ⟨none, 5, "é"⟩, ⟨none, 8, "z"⟩,
        ⟨some 2, 9, ""⟩] ∧
    ∃ stretches,
      Tiling sampleTable.finders "ab a?é z".toList (.start "ab a?é z".toList) stretches ∧
      Stretch.textOf stretches = "ab a?é z".toList ∧
        (Stretch.tokensFrom 0 stretches).length = 6 := by
  have hsecond : scan [secondOnly] 5 true "aéb" =
      .ok [⟨none, 0, "a"⟩, ⟨some 0, 1, "é"⟩, ⟨none, 3, "b"⟩] := by decide +kernel
  have hsample : sampleTable.scan true "ab a?é z" = .ok
      [⟨some 1, 0, "ab"⟩, ⟨some 0, 3, "a"⟩, ⟨none, 4, "?"⟩, ⟨none, 5, "é"⟩, ⟨none, 8, "z"⟩,
        ⟨some 2, 9, ""⟩] := by decide +kernel
  have hlawful := List.forall_mem_singleton.mpr lawful_secondOnly
  obtain ⟨⟨stretches, htiling, -, htokens, -⟩, -⟩ :=
    (scan_tiles [secondOnly] hlawful 5 true "aéb").1 _ hsecond
  obtain ⟨hfinders, hsame⟩ := (scan_tiles [secondOnly] hlawful 9 true "ab a?é z").2 sampleTable
  obtain ⟨⟨stretches', htiling', htext', htokens', -⟩, -⟩ :=
    (scan_tiles sampleTable.finders hfinders 9 true "ab a?é z").1 _ (hsame.symm.trans hsample)
  exact ⟨⟨stretches, htiling, htokens.symm⟩, hsample, stretches', htiling', htext',
    by rw [← htokens']; rfl⟩

end Finder

end Fabula
